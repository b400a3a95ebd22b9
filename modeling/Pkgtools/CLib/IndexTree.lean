import Mathlib.Algebra.Order.Floor.Div
import Mathlib.Tactic.Ring
import Mathlib.Tactic.Linarith

namespace CLib
set_option autoImplicit true

/-- The index blocks of a tree of the given depth over `n` leaves, level by level from
the leaves. -/
def indexBlocks (fanout : Nat) : (depth : Nat) → (n : Nat) → Nat
  | 0, _ => 0
  | depth + 1, n => n ⌈/⌉ fanout + indexBlocks fanout depth (n ⌈/⌉ fanout)

theorem ceilDiv_pos {n k : Nat} (h : 0 < n) (hk : 0 < k) : 0 < n ⌈/⌉ k := by
  by_contra hlt
  have hz := (ceilDiv_le_iff_le_mul hk).mp (show n ⌈/⌉ k ≤ 0 by omega)
  omega

theorem ceilDiv_eq_one {n k : Nat} (h : 0 < n) (hk : n ≤ k) : n ⌈/⌉ k = 1 := by
  have hpos : 0 < k := Nat.lt_of_lt_of_le h hk
  have hle : n ⌈/⌉ k ≤ 1 := (ceilDiv_le_iff_le_mul hpos).mpr (by omega)
  have hge := ceilDiv_pos h hpos
  omega

theorem mul_ceilDiv_self {k : Nat} (hk : 0 < k) (m : Nat) : k * m ⌈/⌉ k = m := smul_ceilDiv hk m

theorem div_eq_ceilDiv_iff {n k : Nat} (hk : 0 < k) : n / k = n ⌈/⌉ k ↔ k ∣ n := by
  constructor
  · intro h
    have hle := (ceilDiv_le_iff_le_mul hk).mp h.symm.le
    exact ⟨n / k, le_antisymm hle (Nat.mul_div_le n k)⟩
  · rintro ⟨m, rfl⟩
    rw [Nat.mul_div_cancel_left m hk, mul_ceilDiv_self hk]

theorem indexBlocks_zero (fanout depth : Nat) : indexBlocks fanout depth 0 = 0 := by
  induction depth with
  | zero => rfl
  | succ depth ih => rw [indexBlocks, zero_ceilDiv, ih]

theorem indexBlocks_succ {fanout : Nat} (hf : 0 < fanout) {depth n : Nat} (h : 0 < n)
    (hn : n ≤ fanout ^ (depth + 1)) :
    indexBlocks fanout (depth + 1) n = indexBlocks fanout depth n + 1 := by
  induction depth generalizing n with
  | zero =>
    rw [zero_add, pow_one] at hn
    rw [indexBlocks, indexBlocks, indexBlocks, ceilDiv_eq_one h hn]
  | succ depth ih =>
    have hc : n ⌈/⌉ fanout ≤ fanout ^ (depth + 1) := by
      rw [ceilDiv_le_iff_le_mul hf, mul_comm, ← pow_succ]
      exact hn
    rw [indexBlocks, ih (ceilDiv_pos h hf) hc, ← Nat.add_assoc]
    rfl

end CLib
