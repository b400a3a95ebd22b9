import Pkgtools.CLib.IndexTree
import Pkgtools.DockSpace

namespace Pkgtools
open CLib
set_option autoImplicit true

/-- The indirect blocks for `n` data blocks: 12 of them are reached without any, the others through
one tree of each depth up to three, one after the other. -/
def indirectBlocks (ind n : Nat) : Nat :=
  indexBlocks ind 1 (min (n - 12) ind) + indexBlocks ind 2 (min (n - 12 - ind) (ind ^ 2)) +
    indexBlocks ind 3 (n - 12 - ind - ind ^ 2)

def addresses (bsize : Nat) : Nat := bsize ⌈/⌉ 4

/-- The unit of which a small file occupies a whole number. -/
def fragUnit (bsize frsize : Nat) : Nat := if 0 < frsize then frsize else bsize

def fileBlocks (size bsize frsize : Nat) : Nat :=
  if size ⌈/⌉ bsize ≤ 12 then
    (size ⌈/⌉ fragUnit bsize frsize * fragUnit bsize frsize) ⌈/⌉ 512
  else bsize ⌈/⌉ 512 * (size ⌈/⌉ bsize + indirectBlocks (addresses bsize) (size ⌈/⌉ bsize))

/-- No table and no result is too large for `fsblkcnt_t`. -/
structure NoWrap (size bsize frsize : Nat) : Prop where
  tables : addresses bsize * (addresses bsize + 1) + 12 < 2 ^ 32
  rounded : size ⌈/⌉ bsize ≤ 12 →
    size ⌈/⌉ fragUnit bsize frsize * fragUnit bsize frsize < 2 ^ 32
  blocks : fileBlocks size bsize frsize < 2 ^ 32

section Counts
variable {ind n : Nat}

theorem howmany_eq {x y : Nat} (hy : 0 < y) : howmany x y = x ⌈/⌉ y := by
  rw [howmany]
  split
  · rename_i h
    exact (div_eq_ceilDiv_iff hy).mpr (Nat.dvd_of_mod_eq_zero h)
  · rename_i h
    have hmod := Nat.mod_add_div x y
    have hlt := Nat.mod_lt x hy
    refine le_antisymm ?_ ((ceilDiv_le_iff_le_mul hy).mpr ?_)
    · by_contra hle
      have hx := (ceilDiv_le_iff_le_mul hy).mp (show x ⌈/⌉ y ≤ x / y by omega)
      have hx : x ≤ y * (x / y) := hx
      omega
    · show x ≤ y * (x / y + 1)
      rw [Nat.mul_add]
      omega

theorem indexBlocks_one (h : 0 < n) (hn : n ≤ ind) : indexBlocks ind 1 n = 1 := by
  rw [indexBlocks_succ (by omega) h (by rwa [zero_add, pow_one])]
  rfl

theorem indirectBlocks_single (h : 12 < n) (hn : n ≤ ind + 12) : indirectBlocks ind n = 1 := by
  rw [indirectBlocks, show n - 12 - ind = 0 by omega, Nat.zero_sub, Nat.zero_min,
    Nat.min_eq_left (by omega), indexBlocks_one (by omega) (by omega), indexBlocks_zero,
    indexBlocks_zero]

theorem indirectBlocks_double (hind : 0 < ind) (h : ind + 12 < n) (hn : n ≤ ind * (ind + 1) + 12) :
    indirectBlocks ind n = (n - 12 - ind) ⌈/⌉ ind + 2 := by
  have hsq : ind * (ind + 1) = ind ^ 2 + ind := by ring
  have htwo : indexBlocks ind 2 (n - 12 - ind) = indexBlocks ind 1 (n - 12 - ind) + 1 :=
    indexBlocks_succ hind (by omega) (show _ ≤ ind ^ 2 by omega)
  rw [indirectBlocks, Nat.min_eq_right (by omega), Nat.min_eq_left (by omega),
    indexBlocks_one hind le_rfl, htwo, show n - 12 - ind - ind ^ 2 = 0 by omega, indexBlocks_zero,
    indexBlocks, indexBlocks]
  omega

theorem indirectBlocks_triple (hind : 0 < ind) (h : ind * (ind + 1) + 12 < n)
    (hn : n ≤ 12 + ind + ind ^ 2 + ind ^ 3) :
    indirectBlocks ind n = (n - 12 - ind - ind ^ 2) ⌈/⌉ ind +
      (n - 12 - ind - ind ^ 2) ⌈/⌉ ind ⌈/⌉ ind + ind + 3 := by
  have hsq : ind * (ind + 1) = ind ^ 2 + ind := by ring
  have htwo : indexBlocks ind 2 (ind ^ 2) = ind + 1 := by
    have hlevel : indexBlocks ind 1 (ind ^ 2) = ind := by
      rw [indexBlocks, indexBlocks, pow_two, mul_ceilDiv_self hind, Nat.add_zero]
    calc indexBlocks ind 2 (ind ^ 2) = indexBlocks ind 1 (ind ^ 2) + 1 :=
          indexBlocks_succ hind (Nat.pow_pos hind) le_rfl
      _ = ind + 1 := by rw [hlevel]
  have hthree : indexBlocks ind 3 (n - 12 - ind - ind ^ 2) =
      indexBlocks ind 2 (n - 12 - ind - ind ^ 2) + 1 :=
    indexBlocks_succ hind (by omega) (show _ ≤ ind ^ 3 by omega)
  rw [indirectBlocks, Nat.min_eq_right (by omega), Nat.min_eq_right (by omega),
    indexBlocks_one hind le_rfl, htwo, hthree, indexBlocks, indexBlocks, indexBlocks]
  omega

end Counts

section Estimate
variable {size bsize frsize : Nat}

theorem blkcnt_of_lt {n : Nat} (h : n < 2 ^ 32) : blkcnt n = n := Nat.mod_eq_of_lt h

theorem sub32_of_le {x y : Nat} (hy : y ≤ x) (hx : x < 2 ^ 32) : sub32 x y = x - y := by
  rw [sub32, blkcnt, Nat.add_comm, Nat.add_sub_assoc hy, Nat.add_mod_left]
  exact Nat.mod_eq_of_lt (by omega)

theorem blkcnt_mul_of_lt {n h : Nat} (hh : 0 < h) (hlt : h * n < 2 ^ 32) :
    blkcnt (blkcnt n * h) = h * n := by
  have hn : n < 2 ^ 32 := lt_of_le_of_lt (Nat.le_mul_of_pos_left n hh) hlt
  rw [blkcnt_of_lt hn, Nat.mul_comm, blkcnt_of_lt hlt]

theorem fileBlocks_indirect (h : 12 < size ⌈/⌉ bsize) : fileBlocks size bsize frsize =
    bsize ⌈/⌉ 512 * (size ⌈/⌉ bsize + indirectBlocks (addresses bsize) (size ⌈/⌉ bsize)) :=
  if_neg (Nat.not_le_of_lt h)

theorem nblk_of_le (hs : 0 < size) (hb : 0 < bsize) (hw : NoWrap size bsize frsize)
    (h : size ⌈/⌉ bsize ≤ addresses bsize * (addresses bsize + 1) + 12) :
    nblk size bsize frsize = fileBlocks size bsize frsize := by
  have ha : 0 < addresses bsize := ceilDiv_pos hb (by decide)
  have h512 : 0 < bsize ⌈/⌉ 512 := ceilDiv_pos hb (by decide)
  have hsq : addresses bsize * (addresses bsize + 1) =
      addresses bsize ^ 2 + addresses bsize := by ring
  have htables := hw.tables
  have hblocks := hw.blocks
  rw [nblk, if_neg (by omega)]
  dsimp only
  rw [howmany_eq (x := bsize) (y := 4) (by decide), howmany_eq hb,
    howmany_eq (x := bsize) (y := 512) (by decide), ← addresses, blkcnt_of_lt htables,
    blkcnt_of_lt (show addresses bsize + 12 < 2 ^ 32 by omega), if_neg (by omega)]
  by_cases hdouble : addresses bsize + 12 < size ⌈/⌉ bsize
  · rw [fileBlocks_indirect (by omega), indirectBlocks_double ha hdouble h] at hblocks ⊢
    have hceil : (size ⌈/⌉ bsize - 13) / addresses bsize =
        (size ⌈/⌉ bsize - 12 - addresses bsize) ⌈/⌉ addresses bsize := by
      show _ = (size ⌈/⌉ bsize - 12 - addresses bsize + addresses bsize - 1) / addresses bsize
      congr 1
      omega
    rw [if_pos hdouble, sub32_of_le (by omega) (by omega), hceil, blkcnt_mul_of_lt h512 hblocks]
  · rw [if_neg hdouble]
    by_cases hsingle : 12 < size ⌈/⌉ bsize
    · rw [fileBlocks_indirect hsingle, indirectBlocks_single hsingle (by omega)] at hblocks ⊢
      rw [if_pos hsingle, blkcnt_mul_of_lt h512 hblocks]
    · have hround : (if 0 < frsize then blkcnt (howmany size frsize * frsize)
          else blkcnt (size ⌈/⌉ bsize * bsize)) =
          size ⌈/⌉ fragUnit bsize frsize * fragUnit bsize frsize := by
        have hrounded := hw.rounded (by omega)
        by_cases hfr : 0 < frsize
        · rw [fragUnit, if_pos hfr] at hrounded ⊢
          rw [if_pos hfr, howmany_eq hfr, blkcnt_of_lt hrounded]
        · rw [fragUnit, if_neg hfr] at hrounded ⊢
          rw [if_neg hfr, blkcnt_of_lt hrounded]
      have hunit : 0 < fragUnit bsize frsize := by
        rw [fragUnit]
        split <;> assumption
      have hpos := Nat.mul_pos (ceilDiv_pos hs hunit) hunit
      rw [if_neg hsingle, hround, if_neg (by omega), howmany_eq (by decide), fileBlocks,
        if_pos (Nat.le_of_not_lt hsingle)]

/-- The blocks are counted exactly as long as there is no triple tree with a second level that is
only partly filled. -/
theorem nblk_exact_iff (hs : 0 < size) (hb : 0 < bsize)
    (hrange : size ⌈/⌉ bsize ≤ 12 + addresses bsize + addresses bsize ^ 2 + addresses bsize ^ 3)
    (hw : NoWrap size bsize frsize) :
    nblk size bsize frsize = fileBlocks size bsize frsize ↔
      size ⌈/⌉ bsize ≤ 12 + addresses bsize + addresses bsize ^ 2 ∨
        addresses bsize ∣
          (size ⌈/⌉ bsize - 12 - addresses bsize - addresses bsize ^ 2) ⌈/⌉ addresses bsize := by
  have ha : 0 < addresses bsize := ceilDiv_pos hb (by decide)
  have h512 : 0 < bsize ⌈/⌉ 512 := ceilDiv_pos hb (by decide)
  have hsq : addresses bsize * (addresses bsize + 1) =
      addresses bsize ^ 2 + addresses bsize := by ring
  by_cases h : size ⌈/⌉ bsize ≤ addresses bsize * (addresses bsize + 1) + 12
  · exact iff_of_true (nblk_of_le hs hb hw h) (.inl (by omega))
  · have htables := hw.tables
    have hblocks := hw.blocks
    have hceil : (size ⌈/⌉ bsize - addresses bsize * addresses bsize - 13) / addresses bsize =
        (size ⌈/⌉ bsize - 12 - addresses bsize - addresses bsize ^ 2) ⌈/⌉ addresses bsize := by
      show _ = (size ⌈/⌉ bsize - 12 - addresses bsize - addresses bsize ^ 2 + addresses bsize - 1) /
        addresses bsize
      rw [← pow_two]
      congr 1
      omega
    rw [fileBlocks_indirect (by omega), indirectBlocks_triple ha (by omega) hrange] at hblocks ⊢
    generalize hT : (size ⌈/⌉ bsize - 12 - addresses bsize - addresses bsize ^ 2) ⌈/⌉
      addresses bsize = T at hceil hblocks ⊢
    have hfloor : T / addresses bsize ≤ T ⌈/⌉ addresses bsize :=
      show T ⌊/⌋ addresses bsize ≤ _ from floorDiv_le_ceilDiv
    have htotal : size ⌈/⌉ bsize + (T + T ⌈/⌉ addresses bsize + addresses bsize + 3) < 2 ^ 32 :=
      lt_of_le_of_lt (Nat.le_mul_of_pos_left _ h512) hblocks
    have hless : bsize ⌈/⌉ 512 *
      (size ⌈/⌉ bsize + (T + T / addresses bsize + addresses bsize + 3)) <
        2 ^ 32 :=
      lt_of_le_of_lt (Nat.mul_le_mul_left _ (by omega)) hblocks
    have hself : addresses bsize * addresses bsize = addresses bsize ^ 2 := (pow_two _).symm
    have hcount : nblk size bsize frsize =
        bsize ⌈/⌉ 512 * (size ⌈/⌉ bsize + (T + T / addresses bsize + addresses bsize + 3)) := by
      rw [nblk, if_neg (by omega)]
      dsimp only
      rw [howmany_eq (x := bsize) (y := 4) (by decide), howmany_eq hb,
        howmany_eq (x := bsize) (y := 512) (by decide), ← addresses, blkcnt_of_lt htables,
        if_pos (by omega), blkcnt_of_lt (n := addresses bsize * addresses bsize) (by omega),
        sub32_of_le (x := size ⌈/⌉ bsize) (by omega) (by omega), sub32_of_le (by omega) (by omega),
        hceil, blkcnt_of_lt (n := T + T / addresses bsize + addresses bsize + 3) (by omega),
        blkcnt_mul_of_lt h512 hless]
    rw [hcount, or_iff_right (by omega), ← div_eq_ceilDiv_iff ha, Nat.mul_right_inj (by omega)]
    omega

end Estimate

theorem nblk_exact_iff_direct :
    nblk 70000 8192 1024 = fileBlocks 70000 8192 1024 :=
  (nblk_exact_iff (by decide) (by decide) (by decide) ⟨by decide, by decide, by decide⟩).mpr
    (.inl (by decide))

/-- One data block more than the smaller trees hold: the block of the second level is missing. -/
theorem nblk_underestimates :
    ¬ ∀ size bsize frsize : Nat, 0 < size → 0 < bsize →
      size ⌈/⌉ bsize ≤ 12 + addresses bsize + addresses bsize ^ 2 + addresses bsize ^ 3 →
      NoWrap size bsize frsize →
        nblk size bsize frsize = fileBlocks size bsize frsize ∧
          fileBlocks size bsize frsize ≤ nblk size bsize frsize := by
  intro h
  have hcase := h 8460800 512 512 (by decide) (by decide) (by decide)
    ⟨by decide, by decide, by decide⟩
  exact absurd hcase.2 (by decide)

end Pkgtools
