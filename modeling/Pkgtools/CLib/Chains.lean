import Mathlib.Data.List.Basic
import Pkgtools.CLib.PointerArray

namespace CLib
set_option autoImplicit true

/-- The elements of a table that stand in the bucket `i`, in the order of insertion. -/
def chain [DecidableEq ι] (home : α → ι) (xs : List α) (i : ι) : List α :=
  xs.filter fun x => home x = i

section Chain
variable {α ι κ : Type} [DecidableEq ι] {home : α → ι} {xs : List α} {x : α} {i : ι}

theorem chain_concat_same (h : home x = i) : chain home (xs ++ [x]) i = chain home xs i ++ [x] := by
  have hx : [x].filter (fun y => home y = i) = [x] :=
    List.filter_cons_of_pos (decide_eq_true h)
  rw [chain, List.filter_append, hx]
  rfl

theorem chain_concat_other (h : home x ≠ i) : chain home (xs ++ [x]) i = chain home xs i := by
  have hx : [x].filter (fun y => home y = i) = [] :=
    List.filter_cons_of_neg (by simpa using h)
  rw [chain, List.filter_append, hx, List.append_nil]
  rfl

/-- A search in the bucket of a key finds what a search in the whole table does. -/
theorem find?_chain [DecidableEq κ] {key : α → κ} {k : κ} (h : ∀ x, key x = k → home x = i) :
    (chain home xs i).find? (fun x => key x = k) = xs.find? fun x => key x = k := by
  rw [chain, List.find?_filter]
  congr 1
  funext x
  by_cases hk : key x = k
  · simp [hk, h x hk]
  · simp [hk]

end Chain

/-- An array that grows by `block` slots when it is full, with the elements `live` in front. -/
def Grown (block : Nat) (live : List α) (slots : List (Option α)) : Prop :=
  ∃ k < block, slots = live.map some ++ List.replicate k none ∧ block ∣ live.length + k

namespace Grown
variable {α : Type} {block : Nat} {live : List α} {slots : List (Option α)}

theorem nil (h : 0 < block) : Grown block ([] : List α) [] :=
  ⟨0, h, rfl, ⟨0, rfl⟩⟩

theorem length_le (h : Grown block live slots) : live.length ≤ slots.length := by
  obtain ⟨k, -, rfl, -⟩ := h
  simp

theorem full_iff (h : Grown block live slots) :
    slots.length ≤ live.length ↔ block ∣ live.length := by
  obtain ⟨k, hk, rfl, hdvd⟩ := h
  rw [List.length_append, List.length_map, List.length_replicate]
  constructor
  · intro hle
    rwa [show k = 0 by omega] at hdvd
  · intro hlive
    have hzero := Nat.eq_zero_of_dvd_of_lt ((Nat.dvd_add_right hlive).mp hdvd) hk
    omega

theorem getElem? (h : Grown block live slots) (hn : n < live.length) :
    slots[n]? = some live[n]? := by
  obtain ⟨k, -, rfl, -⟩ := h
  rw [List.getElem?_append_left (by rwa [List.length_map]), List.getElem?_map,
    List.getElem?_eq_getElem hn]
  rfl

theorem store (h : Grown block live slots) (hroom : live.length < slots.length) (x : α) :
    Grown block (live ++ [x]) (slots.set live.length (some x)) := by
  obtain ⟨k, hk, rfl, hdvd⟩ := h
  obtain ⟨m, rfl⟩ : ∃ m, k = m + 1 := by
    refine ⟨k - 1, ?_⟩
    simp only [List.length_append, List.length_map, List.length_replicate] at hroom
    omega
  refine ⟨m, by omega, ?_, ?_⟩
  · rw [List.replicate_succ, PointerArray.set_behind]
  · rw [List.length_append, List.length_singleton, Nat.add_assoc, Nat.add_comm 1 m]
    exact hdvd

theorem enlarge (h : Grown block live slots) (hfull : slots.length ≤ live.length)
    (hblock : 0 < block) (x : α) :
    Grown block (live ++ [x])
      ((slots ++ List.replicate block none).set live.length (some x)) := by
  have hlive : block ∣ live.length := h.full_iff.mp hfull
  obtain ⟨k, hk, rfl, -⟩ := h
  obtain rfl : k = 0 := by
    simp only [List.length_append, List.length_map, List.length_replicate] at hfull
    omega
  refine ⟨block - 1, by omega, ?_, ?_⟩
  · rw [PointerArray.replicate_pos none hblock, List.replicate_zero, List.append_nil,
      PointerArray.set_behind]
  · rw [List.length_append, List.length_singleton, Nat.add_assoc, Nat.add_sub_cancel' hblock]
    exact Nat.dvd_add hlive (Nat.dvd_refl block)

end Grown

end CLib
