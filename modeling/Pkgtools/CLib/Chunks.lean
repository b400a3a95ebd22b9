import Mathlib.Algebra.BigOperators.Group.List.Basic
import Mathlib.Tactic.Ring

namespace CLib
set_option autoImplicit true

/-- What is left of `r` items once as many full portions of `q` as leave something were taken. -/
def lastChunk (q r : Int) : Int := r - q * ((r - 1) / q)

/-- `r` items in portions of `q`, the last one holding what is left. -/
def chunks (q r : Int) : List Int := List.replicate ((r - 1) / q).toNat q ++ [lastChunk q r]

theorem chunks_of_le (hr : 0 < r) (h : r ≤ q) : chunks q r = [r] := by
  have hz : (r - 1) / q = 0 := Int.ediv_eq_zero_of_lt (by omega) (by omega)
  simp [chunks, lastChunk, hz]

theorem sub_one_ediv (hq : 0 < q) (r : Int) : (r - 1) / q = (r - q - 1) / q + 1 := by
  rw [← Int.add_mul_ediv_right _ _ (by omega : q ≠ 0)]
  congr 1
  ring

theorem lastChunk_sub (hq : 0 < q) (r : Int) : lastChunk q (r - q) = lastChunk q r := by
  rw [lastChunk, lastChunk, sub_one_ediv hq r]
  ring

theorem chunks_of_lt (hq : 0 < q) (h : q < r) : chunks q r = q :: chunks q (r - q) := by
  have hn : 0 ≤ (r - q - 1) / q := Int.ediv_nonneg (by omega) (by omega)
  rw [chunks, chunks, lastChunk_sub hq, sub_one_ediv hq r, Int.toNat_add hn (by decide)]
  rfl

/-- A property of every number of items: it holds of one portion, and from what is left after a
portion was taken it follows for the whole. -/
theorem chunks_induction {P : Int → Prop} (hq : 0 < q) (one : ∀ r, 0 < r → r ≤ q → P r)
    (more : ∀ r, q < r → P (r - q) → P r) (hr : 0 < r) : P r := by
  obtain ⟨n, hn⟩ : ∃ n : Nat, r ≤ n := ⟨r.toNat, by omega⟩
  induction n generalizing r with
  | zero => omega
  | succ n ih =>
    by_cases h : r ≤ q
    · exact one r hr h
    · exact more r (by omega) (ih (by omega) (by omega))

theorem sum_chunks (hq : 0 < q) (hr : 0 < r) : (chunks q r).sum = r := by
  apply chunks_induction hq _ _ hr
  · intro r hr h
    rw [chunks_of_le hr h, List.sum_singleton]
  · intro r h ih
    rw [chunks_of_lt hq h, List.sum_cons, ih]
    ring

theorem lastChunk_bounds (hq : 0 < q) (r : Int) : 0 < lastChunk q r ∧ lastChunk q r ≤ q := by
  have h₁ := Int.emod_nonneg (r - 1) (by omega : q ≠ 0)
  have h₂ := Int.emod_lt_of_pos (r - 1) hq
  have h₃ := Int.mul_ediv_add_emod (r - 1) q
  rw [lastChunk]
  omega

end CLib
