import Pkgtools.CLib.Text

namespace CLib
set_option autoImplicit true

/-- Put a backslash before every character of `escs`. -/
def escape (escs : List Char) (s : Str) : Str :=
  s.flatMap fun c => if c ∈ escs then ['\\', c] else [c]

/-- Drop the backslash of every escaped character; a backslash at the end goes too. -/
def unescape : Str → Str
  | [] => []
  | c :: s =>
    if c = '\\' then
      match s with
      | [] => []
      | d :: s => d :: unescape s
    else c :: unescape s

/-- The text up to the first delimiter that is not escaped, and what lies behind it. -/
def splitField (delims : List Char) : Str → Option (Str × Str)
  | [] => none
  | c :: s =>
    if c = '\\' then
      match s with
      | [] => none
      | d :: s => (splitField delims s).map fun p => (c :: d :: p.1, p.2)
    else if c ∈ delims then some ([], s)
    else (splitField delims s).map fun p => (c :: p.1, p.2)

def NlEscaped (s : Str) : Prop := ∀ a c, s = a ++ '\n' :: c → a.getLast? = some '\\'

section Escape
variable {escs delims : List Char}

@[simp] theorem escape_nil : escape escs [] = [] := rfl

theorem escape_cons (c : Char) (s : Str) :
    escape escs (c :: s) = (if c ∈ escs then ['\\', c] else [c]) ++ escape escs s := rfl

theorem escape_append (s t : Str) : escape escs (s ++ t) = escape escs s ++ escape escs t :=
  List.flatMap_append

theorem unescape_cons (h : c ≠ '\\') (s : Str) : unescape (c :: s) = c :: unescape s := by
  cases s <;> simp [unescape, h]

theorem splitField_cons (h : c ≠ '\\') (s : Str) : splitField delims (c :: s) =
    if c ∈ delims then some ([], s)
    else (splitField delims s).map fun p => (c :: p.1, p.2) := by
  cases s <;> simp [splitField, h]

theorem unescape_escape_append (h : '\\' ∈ escs) (s t : Str) :
    unescape (escape escs s ++ t) = s ++ unescape t := by
  induction s with
  | nil => rfl
  | cons c s ih =>
    rw [escape_cons]
    by_cases hc : c ∈ escs
    · rw [if_pos hc]
      exact congrArg (c :: ·) ih
    · have hne : c ≠ '\\' := by
        rintro rfl
        exact hc h
      rw [if_neg hc, List.append_assoc, List.singleton_append, unescape_cons hne, ih]
      rfl

theorem unescape_escape (h : '\\' ∈ escs) (s : Str) : unescape (escape escs s) = s := by
  have he := unescape_escape_append h s []
  simpa [unescape] using he

theorem splitField_escape (h : '\\' ∈ escs) (hs : ∀ c ∈ s, c ∈ escs ∨ c ∉ delims)
    (hd : d ∈ delims) (hne : d ≠ '\\') (t : Str) :
    splitField delims (escape escs s ++ d :: t) = some (escape escs s, t) := by
  induction s with
  | nil => rw [escape_nil, List.nil_append, splitField_cons hne, if_pos hd]
  | cons c s ih =>
    have ih' := ih fun x hx => hs x (List.mem_cons_of_mem _ hx)
    rw [escape_cons]
    by_cases hc : c ∈ escs
    · rw [if_pos hc, List.append_assoc]
      change Option.map _ (splitField delims (escape escs s ++ d :: t)) = _
      rw [ih']
      rfl
    · have hb : c ≠ '\\' := by
        rintro rfl
        exact hc h
      have hcd := (hs c (List.mem_cons_self ..)).resolve_left hc
      rw [if_neg hc, List.append_assoc, List.singleton_append, splitField_cons hb, if_neg hcd, ih']
      rfl

theorem nulFree_escape (h : NulFree s) : NulFree (escape escs s) := by
  intro hm
  obtain ⟨c, hc, hm⟩ := List.mem_flatMap.mp hm
  have hne : nul ≠ c := fun he => h (he ▸ hc)
  by_cases hcs : c ∈ escs
  · simp [hcs, hne] at hm
    exact absurd hm (by decide)
  · simp [hcs, hne] at hm

theorem NlEscaped.append (hs : NlEscaped s) (ht : NlEscaped t) : NlEscaped (s ++ t) := by
  intro a c he
  rcases List.append_eq_append_iff.mp he with ⟨a', rfl, h⟩ | ⟨c', hs', h⟩
  · have hl := ht a' c h
    rw [List.getLast?_append, hl]
    rfl
  · cases c' with
    | nil =>
      have hl := ht [] c (by simpa using h.symm)
      cases hl
    | cons d c' =>
      rw [List.cons_append] at h
      cases h
      exact hs a c' hs'

theorem nlEscaped_of_not_mem (h : '\n' ∉ s) : NlEscaped s := by
  rintro a c rfl
  exact absurd (List.mem_append_right a List.mem_cons_self) h

theorem nlEscaped_escape (h : '\n' ∈ escs) (s : Str) : NlEscaped (escape escs s) := by
  induction s with
  | nil => exact nlEscaped_of_not_mem List.not_mem_nil
  | cons c s ih =>
    rw [escape_cons]
    apply NlEscaped.append _ ih
    by_cases hc : c ∈ escs
    · rw [if_pos hc]
      rintro a t he
      cases a with
      | nil => cases he
      | cons x a =>
        cases a with
        | nil =>
          cases he
          rfl
        | cons y a =>
          have hl := congrArg List.length he
          simp at hl
    · rw [if_neg hc]
      apply nlEscaped_of_not_mem
      intro hm
      rw [List.mem_singleton] at hm
      exact hc (hm ▸ h)

theorem getLast?_escape (s : Str) : (escape escs s).getLast? = s.getLast? := by
  induction s with
  | nil => rfl
  | cons c s ih =>
    rw [escape_cons, List.getLast?_append, ih, List.getLast?_cons]
    cases hs : s.getLast? with
    | some x => rfl
    | none =>
      split <;> rfl

/-- Dropping the escapes of a text that does not end in a backslash. -/
theorem unescape_append (h : s.getLast? ≠ some '\\') (t : Str) :
    unescape (s ++ t) = unescape s ++ unescape t ∧ (unescape s).getLast? = s.getLast? := by
  fun_induction unescape s with
  | case1 => exact ⟨rfl, rfl⟩
  | case2 => exact absurd rfl h
  | case3 d s ih =>
    by_cases hs : s = []
    · subst hs
      exact ⟨rfl, rfl⟩
    · have hl : ('\\' :: d :: s).getLast? = s.getLast? := by
        rw [List.getLast?_cons_of_ne_nil (List.cons_ne_nil _ _), List.getLast?_cons_of_ne_nil hs]
      rw [hl] at h ⊢
      obtain ⟨h₁, h₂⟩ := ih h
      refine ⟨?_, ?_⟩
      · change d :: unescape (s ++ t) = _
        rw [h₁]
        rfl
      · have hne : unescape s ≠ [] := by
          intro he
          rw [he] at h₂
          exact hs (List.getLast?_eq_none_iff.mp h₂.symm)
        rw [List.getLast?_cons_of_ne_nil hne, h₂]
  | case4 c s hc ih =>
    by_cases hs : s = []
    · subst hs
      refine ⟨?_, rfl⟩
      rw [List.singleton_append, unescape_cons hc]
      rfl
    · have hl : (c :: s).getLast? = s.getLast? := List.getLast?_cons_of_ne_nil hs
      rw [hl] at h ⊢
      obtain ⟨h₁, h₂⟩ := ih h
      refine ⟨?_, ?_⟩
      · rw [List.cons_append, unescape_cons hc, h₁]
        rfl
      · have hne : unescape s ≠ [] := by
          intro he
          rw [he] at h₂
          exact hs (List.getLast?_eq_none_iff.mp h₂.symm)
        rw [List.getLast?_cons_of_ne_nil hne, h₂]

theorem unescape_sublist (s : Str) : List.Sublist (unescape s) s := by
  fun_induction unescape s with
  | case1 => exact List.nil_sublist _
  | case2 => exact List.nil_sublist _
  | case3 d s ih => exact (ih.cons_cons d).cons _
  | case4 c s hc ih => exact ih.cons_cons c

theorem escape_ne_nil (h : s ≠ []) : escape escs s ≠ [] := by
  intro he
  have hl : (escape escs s).getLast? = s.getLast? := getLast?_escape s
  rw [he] at hl
  exact h (List.getLast?_eq_none_iff.mp hl.symm)

end Escape
end CLib
