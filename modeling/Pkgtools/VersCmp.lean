import Mathlib.Data.List.DropRight
import Pkgtools.CLib.Tokens

namespace Pkgtools
open CLib
set_option autoImplicit true

theorem length_dropWhile_le (p : α → Bool) (s : List α) : (s.dropWhile p).length ≤ s.length :=
  (List.dropWhile_sublist p).length_le

/-- The loop of `verscmp`, behind the leading white space. -/
def verscmpLoop : Str → Str → Int
  | [], [] => 0
  | [], _ :: _ => -1
  | _ :: _, [] => -1
  | c :: request, d :: actual =>
    if c ≠ d then -1
    else if request.head?.any isspace then
      if actual.head?.any fun c => !isspace c then -1
      else verscmpLoop (request.dropWhile isspace) (actual.dropWhile isspace)
    else verscmpLoop request actual
termination_by request => request.length
decreasing_by
  · exact Nat.lt_succ_of_le (length_dropWhile_le _ _)
  · exact Nat.lt_succ_self _

/-- `verscmp`. -/
def verscmp (request actual : Str) : Int :=
  verscmpLoop (request.dropWhile isspace) (actual.dropWhile isspace)

def collapse : Str → Str
  | [] => []
  | c :: s =>
    if isspace c then if s.head?.any isspace then collapse s else ' ' :: collapse s
    else c :: collapse s

def normalize (s : Str) : Str := collapse ((s.dropWhile isspace).rdropWhile isspace)

def EndsBlank (s : Str) : Prop := s.getLast?.any isspace = true

instance (s : Str) : Decidable (EndsBlank s) := inferInstanceAs (Decidable (_ = true))

section Normalize
variable {c d : Char} {s t : Str}

theorem rdropWhile_cons (p : α → Bool) (x : α) (s : List α) :
    (x :: s).rdropWhile p =
      if s.rdropWhile p = [] then if p x then [] else [x] else x :: s.rdropWhile p := by
  rw [List.rdropWhile, List.rdropWhile, List.reverse_cons, List.dropWhile_append]
  cases hs : s.reverse.dropWhile p with
  | nil =>
    by_cases hx : p x = true
    · simp [hx]
    · simp [hx]
  | cons y t => simp

theorem rdropWhile_cons_of_neg (hc : isspace c = false) (s : Str) :
    (c :: s).rdropWhile isspace = c :: s.rdropWhile isspace := by
  rw [rdropWhile_cons, hc]
  split
  · rename_i hs
    rw [hs]
    rfl
  · rfl

def trimmed (s : Str) : Str := collapse (s.rdropWhile isspace)

@[simp]
theorem trimmed_nil : trimmed [] = [] := rfl

theorem trimmed_cons (hc : isspace c = false) (s : Str) : trimmed (c :: s) = c :: trimmed s := by
  rw [trimmed, rdropWhile_cons_of_neg hc, collapse, hc]
  rfl

theorem head?_rdropWhile (h : (c :: s).rdropWhile isspace ≠ []) :
    ((c :: s).rdropWhile isspace).head? = some c := by
  obtain ⟨u, hu⟩ := List.rdropWhile_prefix isspace (l := c :: s)
  cases hs : (c :: s).rdropWhile isspace with
  | nil => exact absurd hs h
  | cons d t =>
    rw [hs] at hu
    obtain ⟨rfl, -⟩ := List.cons.inj hu
    rfl

/-- White space in front is one blank, unless there is nothing else. -/
theorem trimmed_space (hc : isspace c = true) (s : Str) :
    trimmed (c :: s) =
      if s.dropWhile isspace = [] then [] else ' ' :: trimmed (s.dropWhile isspace) := by
  induction s generalizing c with
  | nil => simp [trimmed, hc, List.rdropWhile, collapse]
  | cons d s ih =>
    by_cases hd : isspace d = true
    · have hstep : trimmed (c :: d :: s) = trimmed (d :: s) := by
        rw [trimmed, trimmed, rdropWhile_cons]
        split
        · rename_i hnil
          rw [hnil]
        · rename_i hne
          rw [collapse, hc, if_pos rfl, head?_rdropWhile hne]
          simp [hd]
      rw [hstep, ih hd, List.dropWhile_cons_of_pos hd]
    · have hd : isspace d = false := by simpa using hd
      rw [List.dropWhile_cons_of_neg (by simp [hd]), if_neg (List.cons_ne_nil _ _), trimmed,
        rdropWhile_cons, rdropWhile_cons_of_neg hd, if_neg (List.cons_ne_nil _ _), collapse, hc,
        if_pos rfl, trimmed, rdropWhile_cons_of_neg hd]
      simp [hd]

theorem endsBlank_cons (c : Char) (s : Str) :
    EndsBlank (c :: s) ↔ if s = [] then isspace c = true else EndsBlank s := by
  cases s with
  | nil => simp [EndsBlank]
  | cons d s => simp [EndsBlank, List.getLast?_cons_cons]

theorem endsBlank_dropWhile (s : Str) :
    EndsBlank s ↔ s.dropWhile isspace = [] ∧ s ≠ [] ∨ EndsBlank (s.dropWhile isspace) := by
  induction s with
  | nil => simp [EndsBlank]
  | cons c s ih =>
    by_cases hc : isspace c = true
    · rw [List.dropWhile_cons_of_pos hc, endsBlank_cons]
      by_cases hs : s = []
      · simp [hs, hc]
      · rw [if_neg hs, ih]
        simp [hs]
    · rw [List.dropWhile_cons_of_neg hc]
      simp

theorem trimmed_blank (h : s = [] ∨ s.head?.any isspace = true) : trimmed s =
    if s.dropWhile isspace = [] then [] else ' ' :: trimmed (s.dropWhile isspace) := by
  cases s with
  | nil => rfl
  | cons c s =>
    have hc : isspace c = true := by simpa using h
    rw [trimmed_space hc, List.dropWhile_cons_of_pos hc]

theorem trimmed_eq_nil_iff (h : s.head?.any isspace = false) : trimmed s = [] ↔ s = [] := by
  cases s with
  | nil => simp
  | cons c s =>
    have hc : isspace c = false := by simpa using h
    simp [trimmed_cons hc]

/-- Behind a character that is no white space, where both strings have white space or end. -/
theorem trimmed_eq_iff (hs : s = [] ∨ s.head?.any isspace = true)
    (ht : t = [] ∨ t.head?.any isspace = true) :
    trimmed s = trimmed t ↔ trimmed (s.dropWhile isspace) = trimmed (t.dropWhile isspace) := by
  have hs' := trimmed_eq_nil_iff (head?_dropWhile _ s)
  have ht' := trimmed_eq_nil_iff (head?_dropWhile _ t)
  rw [trimmed_blank hs, trimmed_blank ht]
  by_cases hsn : s.dropWhile isspace = []
  · by_cases htn : t.dropWhile isspace = []
    · simp [hsn, htn]
    · simp only [hsn, htn, if_true, if_false, trimmed_nil]
      constructor
      · intro h
        cases h
      · intro h
        exact absurd (ht'.mp h.symm) htn
  · by_cases htn : t.dropWhile isspace = []
    · simp only [hsn, htn, if_true, if_false, trimmed_nil]
      constructor
      · intro h
        cases h
      · intro h
        exact absurd (hs'.mp h) hsn
    · simp [hsn, htn]

end Normalize

/-- The loop gives 0 for equal texts, unless only the second one ends with white space. -/
theorem verscmpLoop_eq_zero_iff (request actual : Str)
    (hr : request.head?.any isspace = false) (ha : actual.head?.any isspace = false) :
    verscmpLoop request actual = 0 ↔
      trimmed request = trimmed actual ∧ (EndsBlank actual → EndsBlank request) := by
  fun_induction verscmpLoop request actual with
  | case1 => simp
  | case2 d actual =>
    have hd : isspace d = false := by simpa using ha
    simp [trimmed_cons hd]
  | case3 c request =>
    have hc : isspace c = false := by simpa using hr
    simp [trimmed_cons hc]
  | case4 c request d actual hne =>
    have hc : isspace c = false := by simpa using hr
    have hd : isspace d = false := by simpa using ha
    rw [trimmed_cons hc, trimmed_cons hd]
    simp [hne]
  | case5 c request d actual heq hspace hno =>
    have hc : isspace c = false := by simpa using hr
    obtain rfl : c = d := not_not.mp heq
    rw [trimmed_cons hc, trimmed_cons hc, List.cons.injEq, trimmed_blank (.inr hspace)]
    cases actual with
    | nil => cases hno
    | cons e actual =>
      have he : isspace e = false := by simpa using hno
      have hblank : ' ' ≠ e := by
        rintro rfl
        cases he
      rw [trimmed_cons he]
      constructor
      · intro h
        cases h
      · rintro ⟨⟨-, h⟩, -⟩
        split at h
        · cases h
        · exact absurd (List.cons.inj h).1 hblank
  | case6 c request d actual heq hspace hno ih =>
    have hc : isspace c = false := by simpa using hr
    obtain rfl : c = d := not_not.mp heq
    have hactual : actual = [] ∨ actual.head?.any isspace = true := by
      cases actual with
      | nil => exact .inl rfl
      | cons e actual => exact .inr (by simpa using hno)
    have hrequest : request ≠ [] := by
      rintro rfl
      cases hspace
    rw [ih (head?_dropWhile _ _) (head?_dropWhile _ _), trimmed_cons hc, trimmed_cons hc,
      List.cons.injEq, trimmed_eq_iff (.inr hspace) hactual, endsBlank_cons, endsBlank_cons,
      if_neg hrequest, endsBlank_dropWhile request, endsBlank_dropWhile actual]
    simp only [true_and]
    apply and_congr_right
    intro heq'
    have hr' := trimmed_eq_nil_iff (head?_dropWhile _ request)
    have ha' := trimmed_eq_nil_iff (head?_dropWhile _ actual)
    rw [heq'] at hr'
    have hnil : request.dropWhile isspace = [] ↔ actual.dropWhile isspace = [] := hr'.symm.trans ha'
    by_cases hra : actual.dropWhile isspace = []
    · simp [hra, hnil.mpr hra, hrequest, EndsBlank]
    · have hane : actual ≠ [] := by
        rintro rfl
        exact hra rfl
      simp [hra, hnil, hane]
  | case7 c request d actual heq hspace ih =>
    have hc : isspace c = false := by simpa using hr
    have hspace : request.head?.any isspace = false := by simpa using hspace
    obtain rfl : c = d := not_not.mp heq
    rw [trimmed_cons hc, trimmed_cons hc, List.cons.injEq]
    by_cases hactual : actual.head?.any isspace = true
    · have hne : actual ≠ [] := by
        rintro rfl
        cases hactual
      have hminus : verscmpLoop request actual = -1 := by
        cases actual with
        | nil => exact absurd rfl hne
        | cons e actual =>
          cases request with
          | nil => rw [verscmpLoop]
          | cons b request =>
            have hbe : b ≠ e := by
              rintro rfl
              exact Bool.false_ne_true (hspace.symm.trans hactual)
            rw [verscmpLoop, if_pos hbe]
      rw [hminus, trimmed_blank (.inr hactual), endsBlank_cons, endsBlank_cons, if_neg hne,
        endsBlank_dropWhile actual]
      constructor
      · intro h
        cases h
      · rintro ⟨⟨-, h⟩, himp⟩
        split at h
        · rename_i hnil
          rw [(trimmed_eq_nil_iff hspace).mp h, if_pos rfl, hc] at himp
          exact absurd (himp (.inl ⟨hnil, hne⟩)) Bool.false_ne_true
        · cases request with
          | nil => cases h
          | cons b request =>
            have hb : isspace b = false := by simpa using hspace
            rw [trimmed_cons hb] at h
            obtain rfl := (List.cons.inj h).1
            cases hb
    · have hactual : actual.head?.any isspace = false := by simpa using hactual
      rw [ih hspace hactual, endsBlank_cons, endsBlank_cons]
      simp only [true_and]
      apply and_congr_right
      intro heq'
      have hr' := trimmed_eq_nil_iff hspace
      have ha' := trimmed_eq_nil_iff hactual
      rw [heq'] at hr'
      have hnil : request = [] ↔ actual = [] := hr'.symm.trans ha'
      by_cases ha0 : actual = []
      · simp [ha0, hnil.mpr ha0, hc, EndsBlank]
      · simp [ha0, hnil]

theorem verscmp_eq_zero_iff (request actual : Str) : verscmp request actual = 0 ↔
    normalize request = normalize actual ∧
      (EndsBlank (actual.dropWhile isspace) → EndsBlank (request.dropWhile isspace)) :=
  verscmpLoop_eq_zero_iff _ _ (head?_dropWhile _ _) (head?_dropWhile _ _)

/-- `verscmp` compares the normal forms, the same way round and the other, unless the two strings
have the same one and just one of them ends with white space. -/
theorem verscmp_iff_normalize (request actual : Str) :
    ((verscmp request actual = 0 ↔ normalize request = normalize actual) ∧
        (verscmp request actual = 0 ↔ verscmp actual request = 0)) ↔
      (normalize request = normalize actual → normalize actual = [] ∨
        (EndsBlank request ↔ EndsBlank actual)) := by
  rw [verscmp_eq_zero_iff, verscmp_eq_zero_iff]
  by_cases hn : normalize request = normalize actual
  · have hr : normalize request = [] ↔ request.dropWhile isspace = [] :=
      trimmed_eq_nil_iff (head?_dropWhile _ request)
    have ha : normalize actual = [] ↔ actual.dropWhile isspace = [] :=
      trimmed_eq_nil_iff (head?_dropWhile _ actual)
    rw [hn] at hr
    rw [endsBlank_dropWhile request, endsBlank_dropWhile actual]
    by_cases hnil : normalize actual = []
    · simp [hn, hnil, hr.mp hnil, ha.mp hnil]
    · have hr' := mt hr.mpr hnil
      have ha' := mt ha.mpr hnil
      simp only [hn, hnil, hr', ha', true_and, false_and, false_or, iff_true, forall_const]
      constructor
      · rintro ⟨h₁, h₂⟩
        exact ⟨h₂.mp h₁, h₁⟩
      · intro h
        exact ⟨h.mpr, ⟨fun _ => h.mp, fun _ => h.mpr⟩⟩
  · have hn' : ¬ normalize actual = normalize request := fun h => hn h.symm
    simp [hn, hn']

/-- Only the installed version ends with a blank: the two are taken for different, and only this
way round. -/
theorem verscmp_trailing_blank :
    normalize "1.0".toList = normalize "1.0 ".toList ∧
      verscmp "1.0".toList "1.0 ".toList ≠ 0 ∧ verscmp "1.0 ".toList "1.0".toList = 0 := by
  refine ⟨by decide, ?_, ?_⟩
  · rw [Ne, verscmp_eq_zero_iff]
    decide
  · rw [verscmp_eq_zero_iff]
    decide

end Pkgtools
