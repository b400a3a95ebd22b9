import Mathlib.Algebra.Order.Ring.Int
import Mathlib.Tactic.Positivity

namespace CLib
set_option autoImplicit true

/-- A search that moves by a step which is halved after each comparison: `cmp` compares the entry
at a position, and has no result outside the table. -/
def halvingSearch (cmp : Int → Option Int) (incr : Nat) (pos : Int) : Option (Option Int) :=
  if 0 < incr then
    (cmp pos).bind fun r =>
      if r = 0 then some (some pos)
      else halvingSearch cmp (incr >>> 1) (if r < 0 then pos + ↑(incr >>> 1)
        else pos - ↑(incr >>> 1))
  else some none
termination_by incr
decreasing_by
  rw [Nat.shiftRight_one]
  omega

/-- Positions from where a step of `2 ^ j` still leads to. -/
def InReach (j : Nat) (pos i : Int) : Prop := pos - 2 ^ j < i ∧ i < pos + 2 ^ j

section Halving
variable {cmp : Int → Option Int} {pos i : Int} {j : Nat}

theorem two_pow_shiftRight (j : Nat) : (2 ^ (j + 1)) >>> 1 = 2 ^ j := by
  rw [Nat.shiftRight_one, Nat.pow_succ, Nat.mul_div_cancel _ (by omega)]

theorem InReach.left (h : InReach (j + 1) pos i) (hlt : i < pos) :
    InReach j (pos - 2 ^ j) i := by
  rw [InReach, pow_succ] at h
  rw [InReach]
  omega

theorem InReach.right (h : InReach (j + 1) pos i) (hlt : pos < i) :
    InReach j (pos + 2 ^ j) i := by
  rw [InReach, pow_succ] at h
  rw [InReach]
  omega

theorem InReach.of_left (h : InReach j (pos - 2 ^ j) i) : InReach (j + 1) pos i := by
  have hpos : (0 : Int) < 2 ^ j := by positivity
  rw [InReach] at h
  rw [InReach, pow_succ]
  omega

theorem InReach.of_right (h : InReach j (pos + 2 ^ j) i) : InReach (j + 1) pos i := by
  have hpos : (0 : Int) < 2 ^ j := by positivity
  rw [InReach] at h
  rw [InReach, pow_succ]
  omega

theorem inReach_zero_iff : InReach 0 pos i ↔ i = pos := by
  rw [InReach, pow_zero]
  omega

/-- Where an entry that is looked for tells the other comparisons, the search finds it, and else it
finds nothing; every position that it looks at is in reach. -/
theorem halvingSearch_spec (htotal : ∀ i, InReach j pos i → ∃ r, cmp i = some r)
    (hless : ∀ i k, cmp i = some 0 → InReach j pos k → k < i → ∃ r, cmp k = some r ∧ r < 0)
    (hgreater : ∀ i k, cmp i = some 0 → InReach j pos k → i < k → ∃ r, cmp k = some r ∧ 0 < r) :
    ∃ found, halvingSearch cmp (2 ^ j) pos = some found ∧
      ∀ i, found = some i ↔ InReach j pos i ∧ cmp i = some 0 := by
  induction j generalizing pos with
  | zero =>
    obtain ⟨r, hr⟩ := htotal pos (inReach_zero_iff.mpr rfl)
    rw [halvingSearch, pow_zero, if_pos Nat.one_pos, hr, Option.bind_some]
    by_cases hr0 : r = 0
    · rw [if_pos hr0]
      refine ⟨some pos, rfl, ?_⟩
      intro i
      rw [inReach_zero_iff, Option.some_inj]
      constructor
      · rintro rfl
        exact ⟨rfl, hr0 ▸ hr⟩
      · exact fun h => h.1.symm
    · rw [if_neg hr0, halvingSearch, if_neg (by decide)]
      refine ⟨none, rfl, ?_⟩
      intro i
      rw [inReach_zero_iff]
      refine iff_of_false (by simp) ?_
      rintro ⟨rfl, h⟩
      exact hr0 (Option.some_inj.mp (hr.symm.trans h))
  | succ j ih =>
    have hself : InReach (j + 1) pos pos := by
      have hpos : (0 : Int) < 2 ^ (j + 1) := by positivity
      rw [InReach]
      omega
    obtain ⟨r, hr⟩ := htotal pos hself
    rw [halvingSearch, if_pos (by positivity), hr, Option.bind_some, two_pow_shiftRight,
      Nat.cast_pow, Nat.cast_ofNat]
    by_cases hr0 : r = 0
    · rw [if_pos hr0]
      refine ⟨some pos, rfl, ?_⟩
      intro i
      rw [Option.some_inj]
      constructor
      · rintro rfl
        exact ⟨hself, hr0 ▸ hr⟩
      · rintro ⟨-, hi⟩
        -- an entry elsewhere that is looked for would make this comparison differ from 0
        rcases lt_trichotomy pos i with hlt | heq | hgt
        · obtain ⟨r', hr', hneg⟩ := hless i pos hi hself hlt
          rw [hr, hr0, Option.some_inj] at hr'
          omega
        · exact heq
        · obtain ⟨r', hr', hpos⟩ := hgreater i pos hi hself hgt
          rw [hr, hr0, Option.some_inj] at hr'
          omega
    · rw [if_neg hr0]
      by_cases hneg : r < 0
      · rw [if_pos hneg]
        obtain ⟨found, hrun, hfound⟩ := @ih (pos + 2 ^ j) (fun i h => htotal i h.of_right)
          (fun i k hi hk => hless i k hi hk.of_right) fun i k hi hk => hgreater i k hi hk.of_right
        refine ⟨found, hrun, fun i => (hfound i).trans (and_congr_left fun hi => ?_)⟩
        refine ⟨fun h => h.of_right, fun h => h.right ?_⟩
        rcases lt_trichotomy pos i with hlt | rfl | hgt
        · exact hlt
        · exact absurd (Option.some_inj.mp (hr.symm.trans hi)) hr0
        · obtain ⟨r', hr', hpos⟩ := hgreater i pos hi hself hgt
          rw [hr, Option.some_inj] at hr'
          omega
      · rw [if_neg hneg]
        obtain ⟨found, hrun, hfound⟩ := @ih (pos - 2 ^ j) (fun i h => htotal i h.of_left)
          (fun i k hi hk => hless i k hi hk.of_left) fun i k hi hk => hgreater i k hi hk.of_left
        refine ⟨found, hrun, fun i => (hfound i).trans (and_congr_left fun hi => ?_)⟩
        refine ⟨fun h => h.of_left, fun h => h.left ?_⟩
        rcases lt_trichotomy pos i with hlt | rfl | hgt
        · obtain ⟨r', hr', hneg'⟩ := hless i pos hi hself hlt
          rw [hr, Option.some_inj] at hr'
          omega
        · exact absurd (Option.some_inj.mp (hr.symm.trans hi)) hr0
        · exact hgt

end Halving

end CLib
