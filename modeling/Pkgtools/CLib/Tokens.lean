import Pkgtools.CLib.Words
import Mathlib.Algebra.GroupWithZero.Nat

namespace CLib
set_option autoImplicit true

theorem words_append (h : sep d) (a b : Str) :
    words sep (a ++ d :: b) = words sep a ++ words sep b := by
  rw [words, List.splitOnP_append_cons _ _ h, List.filter_append]
  rfl

def IsWord (sep : Char → Bool) (w : Str) : Prop := w ≠ [] ∧ ∀ c ∈ w, sep c = false

instance (sep : Char → Bool) (w : Str) : Decidable (IsWord sep w) :=
  inferInstanceAs (Decidable (_ ∧ _))

theorem IsWord.words_eq (h : IsWord sep w) : words sep w = [w] := by
  rw [words, List.splitOnP_eq_singleton h.2, List.filter_cons_of_pos (by simpa using h.1),
    List.filter_nil]

theorem isWord_of_mem_words (h : w ∈ words sep s) : IsWord sep w :=
  ⟨(mem_words.mp h).1, (mem_words.mp h).2.1⟩

theorem length_words_le (sep : Char → Bool) (s : Str) : (words sep s).length ≤ s.length := by
  induction s with
  | nil => exact Nat.zero_le _
  | cons c s ih =>
    obtain ⟨rest, hs, -⟩ := splitOnP_pieces sep s
    rw [words, hs] at ih
    rw [words, List.splitOnP_cons_eq_if_modifyHead, hs, List.length_cons]
    split
    · rw [List.filter_cons_of_neg (by decide)]
      omega
    · rw [List.modifyHead_cons, List.filter_cons_of_pos (by simp), List.length_cons]
      rw [List.filter_cons] at ih
      split at ih
      · rw [List.length_cons] at ih
        omega
      · omega

theorem words_cons (h : sep d) (s : Str) : words sep (d :: s) = words sep s := words_append h [] s

theorem words_word_append (hw : IsWord sep w) (hb : AtBreak sep b) :
    words sep (w ++ b) = w :: words sep b := by
  cases b with
  | nil => rw [List.append_nil, hw.words_eq]; rfl
  | cons d b =>
    have hd := atBreak_cons.mp hb
    rw [words_append hd, hw.words_eq, words_cons hd]
    rfl

theorem words_dropWhile (sep : Char → Bool) (s : Str) :
    words sep (s.dropWhile sep) = words sep s := by
  induction s with
  | nil => rfl
  | cons c s ih =>
    rw [List.dropWhile_cons]
    split
    · rename_i h
      rw [ih, words_cons h]
    · rfl

theorem exists_word (hne : s ≠ []) (h : s.head?.any sep = false) :
    ∃ w b, s = w ++ b ∧ IsWord sep w ∧ AtBreak sep b := by
  refine ⟨s.takeWhile (! sep ·), s.dropWhile (! sep ·), List.takeWhile_append_dropWhile.symm,
    ⟨?_, fun c hc => mem_takeWhile_not hc⟩, atBreak_dropWhile sep s⟩
  cases s with
  | nil => exact absurd rfl hne
  | cons c s =>
    rw [List.takeWhile_cons, show sep c = false from h]
    exact List.cons_ne_nil _ _

theorem head?_dropWhile (sep : Char → Bool) (s : Str) :
    (s.dropWhile sep).head?.any sep = false := by
  induction s with
  | nil => rfl
  | cons c s ih =>
    rw [List.dropWhile_cons]
    split
    · exact ih
    · rename_i h
      simpa using h

theorem words_intercalate (hd : sep d) (h : ∀ w ∈ ws, IsWord sep w) :
    words sep ([d].intercalate ws) = ws := by
  induction ws with
  | nil => rfl
  | cons w ws ih =>
    have hw := h w List.mem_cons_self
    cases ws with
    | nil => rw [List.intercalate_singleton, hw.words_eq]
    | cons v ws =>
      rw [List.intercalate_cons_cons, List.append_assoc, List.singleton_append, words_append hd,
        hw.words_eq, ih fun u hu => h u (List.mem_cons_of_mem _ hu)]
      rfl

theorem intercalate_concat (h : ws ≠ []) (d : Char) (w : Str) :
    [d].intercalate (ws ++ [w]) = [d].intercalate ws ++ d :: w := by
  induction ws with
  | nil => exact absurd rfl h
  | cons v ws ih =>
    cases ws with
    | nil =>
      rw [List.singleton_append, List.intercalate_cons_cons, List.intercalate_singleton,
        List.intercalate_singleton, List.append_assoc, List.singleton_append]
    | cons u ws =>
      rw [List.cons_append, List.cons_append, List.intercalate_cons_cons, ← List.cons_append,
        ih (List.cons_ne_nil _ _), List.intercalate_cons_cons, ← List.append_assoc]

theorem length_intercalate (h : ws ≠ []) (d : Char) :
    ([d].intercalate ws).length + 1 = (ws.map (·.length + 1)).sum := by
  induction ws with
  | nil => exact absurd rfl h
  | cons v ws ih =>
    cases ws with
    | nil => simp
    | cons u ws =>
      rw [List.intercalate_cons_cons, List.map_cons, List.sum_cons, ← ih (List.cons_ne_nil _ _)]
      simp only [List.length_append, List.length_cons, List.length_nil]
      omega

theorem find?_intercalate (hd : sep d) (hw : IsWord sep w) (v : Str) (ws : List Str) :
    ([d].intercalate (w :: v :: ws)).find? sep = some d := by
  have hnone : w.find? sep = none := List.find?_eq_none.mpr fun c hc => by simp [hw.2 c hc]
  rw [List.intercalate_cons_cons, List.append_assoc, List.find?_append, hnone, Option.none_or,
    List.singleton_append, List.find?_cons_of_pos hd]

section Occurrence
/-- The list without the occurrence of `x` that `i` others precede. -/
def eraseOccurrence [BEq α] (x : α) : Nat → List α → List α
  | _, [] => []
  | 0, y :: l => if y == x then l else y :: eraseOccurrence x 0 l
  | i + 1, y :: l => if y == x then y :: eraseOccurrence x i l else y :: eraseOccurrence x (i + 1) l

variable [BEq α] [LawfulBEq α] {x : α} {i : Nat} {l : List α}

theorem eraseOccurrence_of_le (h : l.count x ≤ i) : eraseOccurrence x i l = l := by
  induction l generalizing i with
  | nil => cases i <;> rfl
  | cons y l ih =>
    by_cases hy : y = x
    · subst hy
      rw [List.count_cons_self] at h
      cases i with
      | zero => omega
      | succ i => rw [eraseOccurrence, if_pos (beq_self_eq_true y), ih (by omega)]
    · have hne : ¬ (y == x) = true := by simpa using hy
      rw [List.count_cons_of_ne hy] at h
      cases i with
      | zero => rw [eraseOccurrence, if_neg hne, ih h]
      | succ i => rw [eraseOccurrence, if_neg hne, ih h]

omit [LawfulBEq α] in
theorem eraseOccurrence_sublist (x : α) (i : Nat) (l : List α) :
    (eraseOccurrence x i l).Sublist l := by
  induction l generalizing i with
  | nil => cases i <;> exact List.Sublist.refl _
  | cons y l ih =>
    cases i with
    | zero =>
      rw [eraseOccurrence]
      split
      · exact List.sublist_cons_self y l
      · exact (ih 0).cons_cons y
    | succ i =>
      rw [eraseOccurrence]
      split
      · exact (ih i).cons_cons y
      · exact (ih (i + 1)).cons_cons y

theorem sum_eraseOccurrence (f : α → Nat) (h : i < l.count x) :
    ((eraseOccurrence x i l).map f).sum + f x = (l.map f).sum := by
  induction l generalizing i with
  | nil => simp at h
  | cons y l ih =>
    by_cases hy : y = x
    · subst hy
      rw [List.count_cons_self] at h
      cases i with
      | zero => rw [eraseOccurrence, if_pos (beq_self_eq_true y), List.map_cons, List.sum_cons,
          Nat.add_comm]
      | succ i =>
        rw [eraseOccurrence, if_pos (beq_self_eq_true y), List.map_cons, List.sum_cons,
          Nat.add_assoc, ih (by omega), List.map_cons, List.sum_cons]
    · have hne : ¬ (y == x) = true := by simpa using hy
      rw [List.count_cons_of_ne hy] at h
      have hrest := ih h
      cases i with
      | zero =>
        rw [eraseOccurrence, if_neg hne, List.map_cons, List.sum_cons, Nat.add_assoc, hrest,
          List.map_cons, List.sum_cons]
      | succ i =>
        rw [eraseOccurrence, if_neg hne, List.map_cons, List.sum_cons, Nat.add_assoc, hrest,
          List.map_cons, List.sum_cons]

theorem length_eraseOccurrence (h : i < l.count x) :
    (eraseOccurrence x i l).length + 1 = l.length := by
  simpa using sum_eraseOccurrence (fun _ => 1) h

end Occurrence

/-- The elements of `l` that are not in `old`, each once and in the order of their first
occurrences. -/
def newMembers [BEq α] (old l : List α) : List α := (l.filter (! old.contains ·)).eraseDups

section Members
variable [BEq α] [LawfulBEq α] {old l : List α} {x : α}

theorem newMembers_cons_of_mem (h : x ∈ old) : newMembers old (x :: l) = newMembers old l := by
  rw [newMembers, List.filter_cons_of_neg (by simpa using h)]
  rfl

theorem newMembers_cons_of_not_mem (h : x ∉ old) :
    newMembers old (x :: l) = x :: newMembers (old ++ [x]) l := by
  rw [newMembers, List.filter_cons_of_pos (by simpa using h), List.eraseDups_cons,
    List.filter_filter, newMembers]
  congr 3
  funext y
  rw [List.contains_eq_any_beq, List.contains_eq_any_beq, List.any_append]
  simp [Bool.and_comm]

theorem mem_newMembers : x ∈ newMembers old l ↔ x ∈ l ∧ x ∉ old := by
  rw [newMembers, List.mem_eraseDups, List.mem_filter]
  simp

theorem newMembers_eq_nil (h : ∀ x ∈ l, x ∈ old) : newMembers old l = [] :=
  List.eq_nil_iff_forall_not_mem.mpr fun x hx =>
    (mem_newMembers.mp hx).2 (h x (mem_newMembers.mp hx).1)

theorem newMembers_append (old a b : List α) :
    newMembers old (a ++ b) = newMembers old a ++ newMembers (old ++ newMembers old a) b := by
  induction a generalizing old with
  | nil =>
    rw [List.nil_append, show newMembers old [] = [] from rfl, List.nil_append, List.append_nil]
  | cons x a ih =>
    rw [List.cons_append]
    by_cases hx : x ∈ old
    · rw [newMembers_cons_of_mem hx, newMembers_cons_of_mem hx, ih]
    · rw [newMembers_cons_of_not_mem hx, newMembers_cons_of_not_mem hx, ih, List.append_assoc,
        List.singleton_append, List.cons_append]

theorem nodup_newMembers (old l : List α) : (newMembers old l).Nodup := by
  induction l generalizing old with
  | nil => exact List.nodup_nil
  | cons x l ih =>
    by_cases hx : x ∈ old
    · rw [newMembers_cons_of_mem hx]
      exact ih old
    · rw [newMembers_cons_of_not_mem hx, List.nodup_cons]
      refine ⟨fun hm => (mem_newMembers.mp hm).2 ?_, ih _⟩
      exact List.mem_append_right _ (List.mem_singleton_self x)

theorem newMembers_perm (old a b : List α) :
    (newMembers old (a ++ b)).Perm (newMembers old (b ++ a)) := by
  refine (List.perm_ext_iff_of_nodup (nodup_newMembers _ _) (nodup_newMembers _ _)).mpr
    fun x => ?_
  rw [mem_newMembers, mem_newMembers, List.mem_append, List.mem_append, or_comm]

end Members
end CLib
