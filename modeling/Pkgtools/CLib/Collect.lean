import Mathlib.Order.Basic
import Mathlib.Data.List.Basic

namespace CLib
set_option autoImplicit true

/-- The elements `seen`, collected into a sorted list with one element for each key. If nothing went
wrong, those that had to share one are of the kind that may. -/
structure Collected [Preorder κ] [BEq κ] (key : α → κ) (shares : α → Prop) (clean : Prop)
    (seen pre : List α) : Prop where
  sorted : pre.Pairwise fun a b => key a < key b
  keys : ∀ k, k ∈ pre.map key ↔ k ∈ seen.map key
  once : ∀ x ∈ seen, (seen.map key).count (key x) = 1 → x ∈ pre
  shared : clean → ∀ x ∈ seen, 1 < (seen.map key).count (key x) → shares x

theorem Collected.nil [Preorder κ] [BEq κ] (key : α → κ) (shares : α → Prop) (clean : Prop) :
    Collected key shares clean [] [] :=
  ⟨.nil, fun _ => Iff.rfl, fun _ hx => absurd hx List.not_mem_nil,
    fun _ _ hx => absurd hx List.not_mem_nil⟩

theorem count_concat_of_ne [BEq κ] [LawfulBEq κ] {key : α → κ} (h : key x ≠ key y) (seen : List α) :
    ((seen ++ [y]).map key).count (key x) = (seen.map key).count (key x) := by
  rw [List.map_append, List.count_append, List.map_singleton,
    List.count_singleton, if_neg fun he => h (beq_iff_eq.mp he).symm, Nat.add_zero]

theorem count_concat_of_eq [BEq κ] [LawfulBEq κ] {key : α → κ} (h : key x = key y) (seen : List α) :
    ((seen ++ [y]).map key).count (key x) = (seen.map key).count (key x) + 1 := by
  rw [List.map_append, List.count_append, List.map_singleton, List.count_singleton,
    if_pos (beq_iff_eq.mpr h.symm)]

theorem eq_of_key_eq [Preorder κ] {key : α → κ} {pre : List α}
    (h : pre.Pairwise fun a b => key a < key b) (hx : x ∈ pre) (hy : y ∈ pre)
    (hk : key x = key y) : x = y := by
  induction pre with
  | nil => cases hx
  | cons z pre ih =>
    obtain ⟨hz, hs⟩ := List.pairwise_cons.mp h
    rcases List.mem_cons.mp hx with hxz | hx'
    · rcases List.mem_cons.mp hy with hyz | hy'
      · rw [hxz, hyz]
      · exact absurd (hz y hy') (by rw [← hk, hxz]; exact lt_irrefl _)
    · rcases List.mem_cons.mp hy with hyz | hy'
      · exact absurd (hz x hx') (by rw [hk, hyz]; exact lt_irrefl _)
      · exact ih hs hx' hy'

section Collected
variable {α κ : Type} [Preorder κ] [BEq κ] [LawfulBEq κ] {key : α → κ} {shares : α → Prop}
  {seen a b : List α} {x y z : α}

theorem Collected.insert (h : Collected key shares clean seen (a ++ b))
    (ha : ∀ y ∈ a, key y < key x) (hb : ∀ y ∈ b, key x < key y) :
    Collected key shares clean (seen ++ [x]) (a ++ x :: b) := by
  have hnew : key x ∉ seen.map key := by
    rw [← h.keys]
    intro hm
    obtain ⟨y, hy, hk⟩ := List.mem_map.mp hm
    rcases List.mem_append.mp hy with hy | hy
    · exact lt_irrefl _ (hk ▸ ha y hy)
    · exact lt_irrefl _ (hk ▸ hb y hy)
  have hold (y) (hy : y ∈ seen) : key y ≠ key x := fun he => hnew (he ▸ List.mem_map_of_mem hy)
  have hone : ((seen ++ [x]).map key).count (key x) = 1 := by
    rw [count_concat_of_eq rfl, List.count_eq_zero.mpr hnew]
  obtain ⟨hsa, hsb, hab⟩ := List.pairwise_append.mp h.sorted
  refine ⟨?_, fun k => ?_, fun y hy hc => ?_, fun hclean y hy hc => ?_⟩
  · refine List.pairwise_append.mpr ⟨hsa, List.pairwise_cons.mpr ⟨hb, hsb⟩, fun y hy z hz => ?_⟩
    rcases List.mem_cons.mp hz with rfl | hz
    · exact ha y hy
    · exact hab y hy z hz
  · have hkeys := h.keys k
    simp only [List.map_append, List.map_cons, List.mem_append, List.mem_cons, List.map_nil,
      List.not_mem_nil, or_false] at hkeys ⊢
    rw [← hkeys]
    tauto
  · rcases List.mem_append.mp hy with hy | hy
    · rw [count_concat_of_ne (hold y hy)] at hc
      have hmem := h.once y hy hc
      rw [List.mem_append] at hmem ⊢
      exact hmem.imp_right (List.mem_cons_of_mem _)
    · rw [List.mem_singleton.mp hy]
      simp
  · rcases List.mem_append.mp hy with hy | hy
    · rw [count_concat_of_ne (hold y hy)] at hc
      exact h.shared hclean y hy hc
    · rw [List.mem_singleton.mp hy, hone] at hc
      exact absurd hc (Nat.lt_irrefl 1)

theorem Collected.merge (h : Collected key shares clean seen (a ++ y :: b)) (hx : key x = key y)
    (hz : key z = key y) (hclean : clean' → clean ∧ shares x ∧ shares y) :
    Collected key shares clean' (seen ++ [x]) (a ++ z :: b) := by
  have hmaps : (a ++ z :: b).map key = (a ++ y :: b).map key := by
    rw [List.map_append, List.map_cons, List.map_append, List.map_cons, hz]
  have hmem : y ∈ a ++ y :: b := by simp
  have hkey : key x ∈ seen.map key := by
    rw [← h.keys, hx]
    exact List.mem_map_of_mem hmem
  have hpos := List.count_pos_iff.mpr hkey
  refine ⟨?_, fun k => ?_, fun w hw hc => ?_, fun hok w hw hc => ?_⟩
  · rw [← List.pairwise_map (f := key) (R := (· < ·)), hmaps, List.pairwise_map]
    exact h.sorted
  · rw [hmaps, h.keys, List.map_append, List.mem_append, List.map_singleton, List.mem_singleton]
    exact ⟨.inl, fun hk => hk.elim id fun hk => hk ▸ hkey⟩
  · by_cases hwx : key w = key x
    · rw [count_concat_of_eq hwx, hwx] at hc
      omega
    · rw [count_concat_of_ne hwx] at hc
      have hw : w ∈ seen := by
        rcases List.mem_append.mp hw with hw | hw
        · exact hw
        · exact absurd (congrArg key (List.mem_singleton.mp hw)) hwx
      have hold := h.once w hw hc
      rw [List.mem_append, List.mem_cons] at hold ⊢
      rcases hold with hw | rfl | hw
      · exact .inl hw
      · exact absurd hx.symm hwx
      · exact .inr (.inr hw)
  · obtain ⟨hold, hsx, hsy⟩ := hclean hok
    by_cases hwx : key w = key x
    · rcases List.mem_append.mp hw with hw | hw
      · by_cases hone : (seen.map key).count (key w) = 1
        · rw [eq_of_key_eq h.sorted (h.once w hw hone) hmem (hwx.trans hx)]
          exact hsy
        · refine h.shared hold w hw ?_
          rw [← hwx] at hpos
          omega
      · rw [List.mem_singleton.mp hw]
        exact hsx
    · rw [count_concat_of_ne hwx] at hc
      rcases List.mem_append.mp hw with hw | hw
      · exact h.shared hold w hw hc
      · exact absurd (congrArg key (List.mem_singleton.mp hw)) hwx

end Collected

end CLib
