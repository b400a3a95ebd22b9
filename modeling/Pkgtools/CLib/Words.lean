import Pkgtools.CLib.Text

namespace CLib
set_option autoImplicit true

/-- The non-empty pieces of a text between separators: the successive tokens of `strtok`. -/
def words (sep : Char → Bool) (s : Str) : List Str := (s.splitOnP sep).filter (· ≠ [])

def AtBreak (sep : Char → Bool) (s : Str) : Prop := ∀ c ∈ s.head?, sep c

instance (sep : Char → Bool) (s : Str) : Decidable (AtBreak sep s) :=
  inferInstanceAs (Decidable (∀ c ∈ s.head?, sep c))

theorem atBreak_nil (sep : Char → Bool) : AtBreak sep [] := nofun

theorem atBreak_cons : AtBreak sep (c :: s) ↔ sep c := by
  simp only [AtBreak, List.head?_cons, Option.mem_some_iff, forall_eq']

theorem eq_takeWhile_of_atBreak {w b : Str} (hw : ∀ c ∈ w, sep c = false) (hb : AtBreak sep b) :
    (w ++ b).takeWhile (! sep ·) = w := by
  induction w with
  | nil =>
    cases b with
    | nil => rfl
    | cons c b => rw [List.nil_append, List.takeWhile_cons, atBreak_cons.mp hb]; rfl
  | cons c w ih =>
    rw [List.cons_append, List.takeWhile_cons, hw c List.mem_cons_self]
    simp only [Bool.not_false, if_true, ih fun d hd => hw d (List.mem_cons_of_mem _ hd)]

theorem atBreak_dropWhile (sep : Char → Bool) (s : Str) : AtBreak sep (s.dropWhile (! sep ·)) := by
  induction s with
  | nil => exact atBreak_nil sep
  | cons c s ih =>
    rw [List.dropWhile_cons]
    split
    · exact ih
    · rename_i h
      exact atBreak_cons.mpr (by simpa using h)

theorem mem_takeWhile_not {sep : Char → Bool} {s : Str} (h : c ∈ s.takeWhile (! sep ·)) :
    sep c = false := by
  simpa using List.mem_takeWhile_imp h

/-- The first piece ends at the first separator; each other piece is between two separators, or
between one and the end. -/
theorem splitOnP_pieces (sep : Char → Bool) (s : Str) :
    ∃ rest, s.splitOnP sep = s.takeWhile (! sep ·) :: rest ∧
      ∀ w, w ∈ rest ↔ (∀ c ∈ w, sep c = false) ∧
        ∃ a d b, s = a ++ d :: (w ++ b) ∧ sep d ∧ AtBreak sep b := by
  induction s with
  | nil =>
    refine ⟨[], rfl, fun w => ⟨nofun, ?_⟩⟩
    rintro ⟨-, a, d, b, h, -⟩
    simp at h
  | cons x s ih =>
    obtain ⟨rest, hs, hrest⟩ := ih
    cases hx : sep x with
    | true =>
      refine ⟨s.splitOnP sep, by simp [List.splitOnP_cons_eq_if_modifyHead, hx], fun w => ?_⟩
      rw [hs, List.mem_cons, hrest]
      constructor
      · rintro (rfl | ⟨hw, a, d, b, rfl, hd, hb⟩)
        · exact ⟨fun c hc => mem_takeWhile_not hc, [], x, s.dropWhile (! sep ·),
            by rw [List.nil_append, List.takeWhile_append_dropWhile], hx, atBreak_dropWhile sep s⟩
        · exact ⟨hw, x :: a, d, b, rfl, hd, hb⟩
      · rintro ⟨hw, a, d, b, h, hd, hb⟩
        cases a with
        | nil =>
          obtain ⟨rfl, rfl⟩ := List.cons.inj h
          exact .inl (eq_takeWhile_of_atBreak hw hb).symm
        | cons y a =>
          obtain ⟨rfl, rfl⟩ := List.cons.inj h
          exact .inr ⟨hw, a, d, b, rfl, hd, hb⟩
    | false =>
      refine ⟨rest, by simp [List.splitOnP_cons_eq_if_modifyHead, hx, hs], fun w => ?_⟩
      rw [hrest]
      constructor
      · rintro ⟨hw, a, d, b, rfl, hd, hb⟩
        exact ⟨hw, x :: a, d, b, rfl, hd, hb⟩
      · rintro ⟨hw, a, d, b, h, hd, hb⟩
        cases a with
        | nil =>
          obtain ⟨rfl, -⟩ := List.cons.inj h
          rw [hx] at hd
          cases hd
        | cons y a =>
          obtain ⟨rfl, rfl⟩ := List.cons.inj h
          exact ⟨hw, a, d, b, rfl, hd, hb⟩

/-- A word stands between separators or the ends of the text. -/
theorem mem_words : w ∈ words sep s ↔ w ≠ [] ∧ (∀ c ∈ w, sep c = false) ∧
    ∃ a b, s = a ++ w ++ b ∧ AtBreak sep a.reverse ∧ AtBreak sep b := by
  obtain ⟨rest, hs, hrest⟩ := splitOnP_pieces sep s
  rw [words, List.mem_filter, hs, List.mem_cons, hrest, decide_eq_true_eq, and_comm,
    and_congr_right_iff]
  intro hne
  constructor
  · rintro (rfl | ⟨hw, a, d, b, rfl, hd, hb⟩)
    · exact ⟨fun c hc => mem_takeWhile_not hc, [], s.dropWhile (! sep ·),
        by rw [List.nil_append, List.takeWhile_append_dropWhile], atBreak_nil sep,
        atBreak_dropWhile sep s⟩
    · refine ⟨hw, a ++ [d], b, by simp, ?_, hb⟩
      rw [List.reverse_append]
      exact atBreak_cons.mpr hd
  · rintro ⟨hw, a, b, rfl, ha, hb⟩
    rcases List.eq_nil_or_concat a with rfl | ⟨a, d, rfl⟩
    · rw [List.nil_append]
      exact .inl (eq_takeWhile_of_atBreak hw hb).symm
    · rw [List.concat_eq_append, List.reverse_append] at ha
      exact .inr ⟨hw, a, d, b, by simp, atBreak_cons.mp ha, hb⟩

/-- `strstr`: the text from the first occurrence of `t` on. -/
def strstr : Str → Str → Option Str
  | [], t => if t = [] then some [] else none
  | c :: s, t => if t.isPrefixOf (c :: s) then some (c :: s) else strstr s t

theorem strstr_eq_none (h : strstr s t = none) : ¬ t <:+: s := by
  induction s with
  | nil =>
    rw [strstr] at h
    split at h
    · cases h
    · rename_i ht
      exact fun hi => ht (List.eq_nil_of_infix_nil hi)
  | cons c s ih =>
    rw [strstr] at h
    split at h
    · cases h
    · rename_i hp
      rw [List.infix_cons_iff]
      rintro (hi | hi)
      · exact hp (List.isPrefixOf_iff_prefix.mpr hi)
      · exact ih h hi

theorem strstr_eq_some (h : strstr s t = some u) :
    t <+: u ∧ ∃ a, s = a ++ u ∧ ∀ b v, s = b ++ v → t <+: v → v.length ≤ u.length := by
  induction s with
  | nil =>
    rw [strstr] at h
    split at h
    · obtain rfl := Option.some.inj h
      rename_i ht
      refine ⟨ht ▸ List.prefix_rfl, [], rfl, fun b v hs _ => ?_⟩
      rw [(List.append_eq_nil_iff.mp hs.symm).2]
    · cases h
  | cons c s ih =>
    rw [strstr] at h
    split at h
    · obtain rfl := Option.some.inj h
      rename_i hp
      refine ⟨List.isPrefixOf_iff_prefix.mp hp, [], rfl, fun b v hs _ => ?_⟩
      rw [hs, List.length_append]
      exact Nat.le_add_left _ _
    · rename_i hp
      obtain ⟨hu, a, rfl, hfirst⟩ := ih h
      refine ⟨hu, c :: a, rfl, fun b v hs hv => ?_⟩
      cases b with
      | nil =>
        rw [List.nil_append] at hs
        exact absurd (List.isPrefixOf_iff_prefix.mpr (hs ▸ hv)) hp
      | cons d b => exact hfirst b v (List.cons.inj hs).2 hv

/-- The extensions of a text are next to each other in the order. -/
theorem prefix_of_between {q p u v : Str} (h₁ : q ++ u ≤ p) (h₂ : p ≤ q ++ v) : q <+: p := by
  induction q generalizing p with
  | nil => exact List.nil_prefix
  | cons c q ih =>
    cases p with
    | nil => exact absurd (List.nil_lt_cons _ _) (not_lt.mpr h₁)
    | cons d p =>
      rw [List.cons_append, ← not_lt, List.cons_lt_cons_iff, not_or] at h₁ h₂
      have hcd : d = c := le_antisymm (not_lt.mp h₂.1) (not_lt.mp h₁.1)
      subst hcd
      refine List.cons_prefix_cons.mpr ⟨rfl, ih (not_lt.mp fun h => h₁.2 ⟨rfl, h⟩)
        (not_lt.mp fun h => h₂.2 ⟨rfl, h⟩)⟩

theorem strncmp_length_eq_zero_iff (hp : NulFree p) (s : Str) :
    strncmp p s p.length = 0 ↔ p <+: s := by
  induction p generalizing s with
  | nil => simp [strncmp]
  | cons c p ih =>
    have hc := toNat_pos_of_ne_nul hp.head
    cases s with
    | nil => simp [strncmp]; omega
    | cons d s =>
      rw [List.length_cons, strncmp, List.cons_prefix_cons]
      by_cases he : c = d
      · rw [if_pos he, if_neg hp.head, ih hp.tail, and_iff_right he]
      · rw [if_neg he]
        have hne : c.toNat ≠ d.toNat := fun h => he (Char.toNat_inj.mp h)
        exact iff_of_false (by omega) fun h => he h.1

theorem strncmp_append_right (hst : ¬ s <+: t) (hts : ¬ t <+: s) (u : Str) :
    strncmp s (t ++ u) s.length = strncmp s t s.length := by
  induction s generalizing t with
  | nil => exact absurd List.nil_prefix hst
  | cons c s ih =>
    cases t with
    | nil => exact absurd List.nil_prefix hts
    | cons d t =>
      rw [List.cons_append, List.length_cons, strncmp, strncmp]
      by_cases hcd : c = d
      · subst hcd
        rw [List.cons_prefix_cons, and_iff_right rfl] at hst hts
        rw [ih hst hts]
      · rw [if_neg hcd, if_neg hcd]

theorem strncmp_swap (s t : Str) (n : Nat) : strncmp t s n = - strncmp s t n := by
  induction n generalizing s t with
  | zero => simp [strncmp]
  | succ n ih =>
    cases s with
    | nil => cases t <;> simp [strncmp]
    | cons c s =>
      cases t with
      | nil => simp [strncmp]
      | cons d t =>
        rw [strncmp, strncmp]
        by_cases hcd : c = d
        · subst hcd
          rw [if_pos rfl, if_pos rfl, ih]
          split <;> simp
        · rw [if_neg hcd, if_neg fun h => hcd h.symm]
          omega

theorem map_takeWhile_append (f : α → α) {p : α → Bool} {l : List α}
    (h : l.Pairwise fun a b => p b → p a) :
    (l.takeWhile p).map f ++ l.dropWhile p = l.map fun x => if p x then f x else x := by
  induction l with
  | nil => rfl
  | cons a l ih =>
    obtain ⟨ha, hl⟩ := List.pairwise_cons.mp h
    by_cases hp : p a
    · rw [List.takeWhile_cons_of_pos hp, List.dropWhile_cons_of_pos hp, List.map_cons,
        List.cons_append, ih hl, List.map_cons, if_pos hp]
    · have hrest : (l.map fun x => if p x then f x else x) = l.map id :=
        List.map_congr_left fun b hb => if_neg fun hpb => hp (ha b hb hpb)
      rw [List.takeWhile_cons_of_neg hp, List.dropWhile_cons_of_neg hp, List.map_cons, if_neg hp,
        hrest, List.map_id]
      rfl

end CLib
