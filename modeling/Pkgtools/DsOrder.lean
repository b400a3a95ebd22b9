import Pkgtools.CLib.Gather
import Pkgtools.HeaderRoundTrip

namespace Pkgtools
open CLib
set_option autoImplicit true

/-- The loop of `ds_order` over the table of contents: `n` names are in place. -/
def dsOrderLoop : List DsToc → (n : Nat) → List Str → List Str
  | [], _, list => list
  | tocPt :: toc, n, list =>
    let (n, list) := gather (· == tocPt.pkg) (list.length - n) n n list
    dsOrderLoop toc n list

/-- `ds_order`; the list is up to its NULL. -/
def dsOrder (toc : List DsToc) (list : List Str) : List Str := dsOrderLoop toc 0 list

def tocNames (toc : List DsToc) : List Str := toc.map (·.pkg)

theorem dsOrderLoop_spec (toc : List DsToc) (a b : List Str) (hn : n = a.length) :
    ∃ c r, dsOrderLoop toc n (a ++ b) = a ++ c ++ r ∧ (c ++ r).Perm b ∧
      (∀ x ∈ c, x ∈ tocNames toc) ∧ (∀ x ∈ r, x ∉ tocNames toc) ∧
      c.Pairwise fun x y => (tocNames toc).idxOf x ≤ (tocNames toc).idxOf y := by
  induction toc generalizing a b n with
  | nil =>
    refine ⟨[], b, ?_, .refl _, ?_, ?_, .nil⟩
    · rw [dsOrderLoop, List.append_nil]
    · exact fun x hx => absurd hx List.not_mem_nil
    · exact fun x _ => List.not_mem_nil
  | cons t toc ih =>
    obtain ⟨m, hm, hperm⟩ := @gather_spec _ n n (· == t.pkg) a [] b (by simp [hn]) hn
    rw [List.append_nil, List.nil_append] at *
    have hlen : (a ++ b).length - n = b.length := by simp [hn]
    obtain ⟨c, r, hstep, hcr, hc, hr, hsorted⟩ := @ih (n + (b.filter (· == t.pkg)).length)
      (a ++ b.filter (· == t.pkg)) m (by simp [hn])
    have hfirst : ∀ x ∈ b.filter (· == t.pkg), x = t.pkg := fun x hx =>
      beq_iff_eq.mp (List.mem_filter.mp hx).2
    have hrest : ∀ x ∈ c ++ r, x ≠ t.pkg := by
      intro x hx heq
      have hmem := (List.mem_filter.mp (hperm.subset (hcr.subset hx))).2
      simp [heq] at hmem
    refine ⟨b.filter (· == t.pkg) ++ c, r, ?_, ?_, ?_, ?_, ?_⟩
    · rw [dsOrderLoop, hlen, hm]
      dsimp only
      rw [hstep, List.append_assoc a]
    · rw [List.append_assoc]
      exact (List.Perm.append_left _ (hcr.trans hperm)).trans (List.filter_append_perm _ b)
    · intro x hx
      rw [tocNames, List.map_cons]
      rcases List.mem_append.mp hx with hx | hx
      · rw [hfirst x hx]
        exact List.mem_cons_self
      · exact List.mem_cons_of_mem _ (hc x hx)
    · intro x hx hmem
      rw [tocNames, List.map_cons] at hmem
      rcases List.mem_cons.mp hmem with heq | hmem
      · exact hrest x (List.mem_append_right _ hx) heq
      · exact hr x hx hmem
    · rw [tocNames, List.map_cons]
      apply List.pairwise_append.mpr
      refine ⟨?_, ?_, ?_⟩
      · apply List.pairwise_of_forall_mem_list
        intro x hx y hy
        rw [hfirst x hx, hfirst y hy]
      · apply hsorted.imp_of_mem
        intro x y hx hy hle
        have hx' := hrest x (List.mem_append_left _ hx)
        have hy' := hrest y (List.mem_append_left _ hy)
        rw [List.idxOf_cons_ne _ hx'.symm, List.idxOf_cons_ne _ hy'.symm]
        exact Nat.succ_le_succ hle
      · intro x hx y hy
        rw [hfirst x hx, List.idxOf_cons_self]
        exact Nat.zero_le _

/-- `ds_order` permutes the list: the names in the table come first, in the order of their first
positions there, and the others follow. -/
theorem dsOrder_sorts (toc : List DsToc) (list : List Str) :
    (dsOrder toc list).Perm list ∧ (dsOrder toc list).Pairwise fun x y =>
      y ∈ tocNames toc → x ∈ tocNames toc ∧ (tocNames toc).idxOf x ≤ (tocNames toc).idxOf y := by
  obtain ⟨c, r, hrun, hperm, hc, hr, hsorted⟩ := @dsOrderLoop_spec 0 toc [] list rfl
  rw [List.nil_append] at hrun
  rw [dsOrder, hrun, List.nil_append]
  refine ⟨hperm, List.pairwise_append.mpr ⟨?_, ?_, ?_⟩⟩
  · apply hsorted.imp_of_mem
    intro x y hx _ hle _
    exact ⟨hc x hx, hle⟩
  · apply List.pairwise_of_forall_mem_list
    intro x _ y hy hmem
    exact absurd hmem (hr y hy)
  · intro x _ y hy hmem
    exact absurd hmem (hr y hy)

end Pkgtools
