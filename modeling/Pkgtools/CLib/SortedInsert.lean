import Mathlib.Order.Lattice
import Mathlib.Data.List.Basic

namespace CLib
set_option autoImplicit true

section SortedInsert
variable [LinearOrder α]

def Ascending (l : List α) : Prop := l.Pairwise (· < ·)

def insertOnce (a : α) : List α → List α
  | [] => [a]
  | q :: l => if a ≤ q then if a = q then q :: l else a :: q :: l else q :: insertOnce a l

/-- The search of a sorted list, which stops behind the place of the value. -/
def searchSorted (a : α) : List α → Bool
  | [] => false
  | q :: l => if a = q then true else if a < q then false else searchSorted a l

def insertEach (l : List α) (as : List α) : List α := as.foldl (fun l a => insertOnce a l) l

variable {a x : α} {l as : List α}

theorem mem_insertOnce : x ∈ insertOnce a l ↔ x = a ∨ x ∈ l := by
  induction l with
  | nil => rw [insertOnce, List.mem_singleton, or_iff_left List.not_mem_nil]
  | cons q l ih =>
    rw [insertOnce]
    split
    · split
      · rename_i haq
        rw [haq, List.mem_cons, ← or_assoc, or_self]
      · rw [List.mem_cons]
    · rw [List.mem_cons, ih, List.mem_cons, or_left_comm]

theorem Ascending.insertOnce (h : Ascending l) (a : α) : Ascending (insertOnce a l) := by
  induction l with
  | nil => exact List.pairwise_singleton _ _
  | cons q l ih =>
    obtain ⟨hq, hl⟩ := List.pairwise_cons.mp h
    rw [CLib.insertOnce]
    split
    · split
      · exact h
      · rename_i hle hne
        have hlt : a < q := lt_of_le_of_ne hle hne
        refine List.pairwise_cons.mpr ⟨fun x hx => ?_, h⟩
        rcases List.mem_cons.mp hx with rfl | hx
        · exact hlt
        · exact lt_trans hlt (hq x hx)
    · rename_i hle
      refine List.pairwise_cons.mpr ⟨fun x hx => ?_, ih hl⟩
      rcases mem_insertOnce.mp hx with rfl | hx
      · exact not_le.mp hle
      · exact hq x hx

theorem mem_insertEach : x ∈ insertEach l as ↔ x ∈ as ∨ x ∈ l := by
  induction as generalizing l with
  | nil => rw [insertEach, List.foldl_nil, or_iff_right List.not_mem_nil]
  | cons a as ih =>
    rw [insertEach, List.foldl_cons, ← insertEach, ih, mem_insertOnce, List.mem_cons, or_assoc,
      or_left_comm]

theorem Ascending.insertEach (h : Ascending l) (as : List α) : Ascending (insertEach l as) := by
  induction as generalizing l with
  | nil => exact h
  | cons a as ih => exact ih (h.insertOnce a)

/-- The search may stop early, since all values behind are larger. -/
theorem searchSorted_eq_true (h : Ascending l) : searchSorted a l = true ↔ a ∈ l := by
  induction l with
  | nil => exact iff_of_false Bool.false_ne_true List.not_mem_nil
  | cons q l ih =>
    obtain ⟨hq, hl⟩ := List.pairwise_cons.mp h
    rw [searchSorted, List.mem_cons]
    split
    · rename_i haq
      exact iff_of_true rfl (.inl haq)
    · rename_i hne
      rw [or_iff_right hne]
      split
      · rename_i hlt
        exact iff_of_false Bool.false_ne_true fun hmem => lt_asymm hlt (hq a hmem)
      · exact ih hl

end SortedInsert

end CLib
