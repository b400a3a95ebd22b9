import Mathlib.Data.List.Basic

namespace CLib
set_option autoImplicit true

/-- `n` cells of a block of memory from an offset on. -/
def readAt (s : List α) (off n : Nat) : List α := (s.drop off).take n

def writeAt (s : List α) (off : Nat) (bs : List α) : List α :=
  s.take off ++ (bs ++ s.drop (off + bs.length))

section Block
variable {s bs : List α} {off off' n : Nat}

theorem length_writeAt (h : off + bs.length ≤ s.length) : (writeAt s off bs).length = s.length := by
  rw [writeAt, List.length_append, List.length_append, List.length_take, List.length_drop]
  omega

theorem getElem?_readAt (s : List α) (off n i : Nat) :
    (readAt s off n)[i]? = if i < n then s[off + i]? else none := by
  rw [readAt, List.getElem?_take]
  split
  · rw [List.getElem?_drop]
  · rfl

theorem getElem?_writeAt (h : off + bs.length ≤ s.length) (i : Nat) :
    (writeAt s off bs)[i]? = if off ≤ i ∧ i < off + bs.length then bs[i - off]? else s[i]? := by
  have htake : (s.take off).length = off := by
    rw [List.length_take]
    omega
  rw [writeAt, List.getElem?_append, htake]
  by_cases h₁ : i < off
  · rw [if_pos h₁, if_neg (by omega), List.getElem?_take_of_lt h₁]
  · rw [if_neg h₁, List.getElem?_append]
    by_cases h₂ : i - off < bs.length
    · rw [if_pos h₂, if_pos (by omega)]
    · rw [if_neg h₂, if_neg (by omega), List.getElem?_drop]
      congr 1
      omega

theorem readAt_writeAt_self (h : off + bs.length ≤ s.length) :
    readAt (writeAt s off bs) off bs.length = bs := by
  apply List.ext_getElem?
  intro i
  rw [getElem?_readAt, getElem?_writeAt h]
  by_cases hi : i < bs.length
  · rw [if_pos hi, if_pos (by omega), Nat.add_sub_cancel_left]
  · rw [if_neg hi, List.getElem?_eq_none (Nat.le_of_not_lt hi)]

theorem readAt_writeAt_of_disjoint (h : off + bs.length ≤ s.length)
    (hd : off' + n ≤ off ∨ off + bs.length ≤ off') :
    readAt (writeAt s off bs) off' n = readAt s off' n := by
  apply List.ext_getElem?
  intro i
  rw [getElem?_readAt, getElem?_readAt]
  by_cases hi : i < n
  · rw [if_pos hi, if_pos hi, getElem?_writeAt h, if_neg (by omega)]
  · rw [if_neg hi, if_neg hi]

theorem drop_writeAt (h : off + bs.length ≤ s.length) (hn : off + bs.length ≤ n) :
    (writeAt s off bs).drop n = s.drop n := by
  apply List.ext_getElem?
  intro i
  rw [List.getElem?_drop, List.getElem?_drop, getElem?_writeAt h, if_neg (by omega)]

theorem disjoint_of_dvd (h₁ : n ∣ off) (h₂ : n ∣ off') (hne : off ≠ off') :
    off' + n ≤ off ∨ off + n ≤ off' := by
  obtain ⟨i, rfl⟩ := h₁
  obtain ⟨j, rfl⟩ := h₂
  rcases Nat.lt_or_gt_of_ne (fun h : i = j => hne (h ▸ rfl)) with h | h
  · exact .inr (by rw [← Nat.mul_succ]; exact Nat.mul_le_mul_left n h)
  · exact .inl (by rw [← Nat.mul_succ]; exact Nat.mul_le_mul_left n h)

end Block

end CLib
