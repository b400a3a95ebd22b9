import Mathlib.Data.List.Basic
import Mathlib.Order.Basic
import Mathlib.Order.Lattice

namespace CLib
set_option autoImplicit true

section Merged
variable {α κ : Type} [LinearOrder κ] {key : α → κ} {src out xs : List α} {names : List κ}
  {x y : α} {k : κ}

/-- The update of a sequence that is sorted by a key, at the keys `names`: items with other keys are
kept, one item at most stands for each key, and no key of the sequence gets lost. -/
structure Merged (key : α → κ) (src : List α) (names : List κ) (out : List α) : Prop where
  sorted : out.Pairwise fun x y => key x < key y
  kept : (out.filter fun x => key x ∉ names) = src.filter fun x => key x ∉ names
  known : ∀ x ∈ out, key x ∈ src.map key ∨ key x ∈ names
  present : ∀ x ∈ src, key x ∈ out.map key

theorem Merged.nil (key : α → κ) : Merged key [] [] [] :=
  ⟨.nil, rfl, by simp, by simp⟩

/-- All that was read or named so far is before `k`. -/
def Before (key : α → κ) (src : List α) (names : List κ) (k : κ) : Prop :=
  (∀ x ∈ src, key x < k) ∧ ∀ n ∈ names, n < k

theorem Merged.out_lt (h : Merged key src names out) (hk : Before key src names k) :
    ∀ x ∈ out, key x < k := by
  intro x hx
  rcases h.known x hx with hs | hn
  · obtain ⟨y, hy, he⟩ := List.mem_map.mp hs
    rw [← he]
    exact hk.1 y hy
  · exact hk.2 _ hn

theorem pairwise_snoc (h : out.Pairwise fun x y => key x < key y) (hx : ∀ y ∈ out, key y < key x) :
    (out ++ [x]).Pairwise fun x y => key x < key y := by
  rw [List.pairwise_append]
  refine ⟨h, List.pairwise_singleton _ _, fun y hy z hz => ?_⟩
  rw [List.mem_singleton.mp hz]
  exact hx y hy

theorem filter_notMem_snoc (h : ∀ x ∈ xs, key x < k) (names : List κ) :
    (xs.filter fun x => key x ∉ names ++ [k]) = xs.filter fun x => key x ∉ names := by
  apply List.filter_congr
  intro x hx
  have hne := (h x hx).ne
  simp [hne]

theorem Merged.copy (h : Merged key src names out) (hk : Before key src names (key x)) :
    Merged key (src ++ [x]) names (out ++ [x]) where
  sorted := pairwise_snoc h.sorted (h.out_lt hk)
  kept := by rw [List.filter_append, List.filter_append, h.kept]
  known y hy := by
    rcases List.mem_append.mp hy with hy | hy
    · refine (h.known y hy).imp_left fun hm => ?_
      rw [List.map_append]
      exact List.mem_append_left _ hm
    · left
      exact List.mem_map_of_mem (List.mem_append_right _ hy)
  present y hy := by
    rw [List.map_append]
    rcases List.mem_append.mp hy with hy | hy
    · exact List.mem_append_left _ (h.present y hy)
    · exact List.mem_append_right _ (List.mem_map_of_mem hy)

theorem Merged.copyAll (h : Merged key src names out) (A : List α)
    (hsrc : (src ++ A).Pairwise fun x y => key x < key y) (hn : ∀ x ∈ A, ∀ n ∈ names, n < key x) :
    Merged key (src ++ A) names (out ++ A) := by
  induction A generalizing src out with
  | nil => simpa using h
  | cons x A ih =>
    have hbefore : Before key src names (key x) :=
      ⟨fun y hy => (List.pairwise_append.mp hsrc).2.2 y hy x List.mem_cons_self,
        hn x List.mem_cons_self⟩
    have hnext := ih (h.copy hbefore) (by simpa using hsrc)
      (fun y hy => hn y (List.mem_cons_of_mem _ hy))
    simpa using hnext

theorem Merged.replace (h : Merged key src names out) (hk : Before key src names (key x))
    (hy : key y = key x) : Merged key (src ++ [x]) (names ++ [key x]) (out ++ [y]) where
  sorted := pairwise_snoc h.sorted (by rw [hy]; exact h.out_lt hk)
  kept := by
    rw [List.filter_append, List.filter_append, filter_notMem_snoc (h.out_lt hk),
      filter_notMem_snoc hk.1, h.kept]
    simp [hy]
  known z hz := by
    rcases List.mem_append.mp hz with hz | hz
    · rcases h.known z hz with hs | hn
      · left
        rw [List.map_append]
        exact List.mem_append_left _ hs
      · exact .inr (List.mem_append_left _ hn)
    · rw [List.mem_singleton.mp hz, hy]
      exact .inr (by simp)
  present z hz := by
    rw [List.map_append]
    rcases List.mem_append.mp hz with hz | hz
    · exact List.mem_append_left _ (h.present z hz)
    · rw [List.mem_singleton.mp hz, ← hy]
      exact List.mem_append_right _ (by simp)

theorem Merged.insert (h : Merged key src names out) (hk : Before key src names (key y)) :
    Merged key src (names ++ [key y]) (out ++ [y]) where
  sorted := pairwise_snoc h.sorted (h.out_lt hk)
  kept := by
    rw [List.filter_append, filter_notMem_snoc (h.out_lt hk), filter_notMem_snoc hk.1, h.kept]
    simp
  known z hz := by
    rcases List.mem_append.mp hz with hz | hz
    · exact (h.known z hz).imp_right fun hn => List.mem_append_left _ hn
    · rw [List.mem_singleton.mp hz]
      exact .inr (by simp)
  present z hz := by
    rw [List.map_append]
    exact List.mem_append_left _ (h.present z hz)

theorem Merged.leave (h : Merged key src names out) (hk : Before key src names k) :
    Merged key src (names ++ [k]) out where
  sorted := h.sorted
  kept := by rw [filter_notMem_snoc (h.out_lt hk), filter_notMem_snoc hk.1, h.kept]
  known z hz := (h.known z hz).imp_right fun hn => List.mem_append_left _ hn
  present := h.present

theorem Merged.length_le_one (h : Merged key src names out) (k : κ) :
    (out.filter fun x => key x = k).length ≤ 1 := by
  have hs := h.sorted.filter fun x => decide (key x = k)
  match hf : out.filter fun x => key x = k with
  | [] => exact Nat.zero_le _
  | [_] => exact Nat.le_refl _
  | x :: y :: _ =>
    have hx : key x = k := by
      have := List.mem_filter.mp (hf ▸ List.mem_cons_self : x ∈ out.filter fun x => key x = k)
      simpa using this.2
    have hy : key y = k := by
      have hm : y ∈ out.filter fun x => key x = k := by
        rw [hf]
        exact List.mem_cons_of_mem _ List.mem_cons_self
      simpa using (List.mem_filter.mp hm).2
    rw [hf] at hs
    have := (List.pairwise_cons.mp hs).1 y List.mem_cons_self
    rw [hx, hy] at this
    exact absurd this (lt_irrefl _)

theorem Merged.length_eq_one (h : Merged key src names out) (hk : k ∈ src.map key) :
    (out.filter fun x => key x = k).length = 1 := by
  obtain ⟨x, hx, rfl⟩ := List.mem_map.mp hk
  obtain ⟨y, hy, he⟩ := List.mem_map.mp (h.present x hx)
  have hm : y ∈ out.filter fun z => key z = key x := List.mem_filter.mpr ⟨hy, by simpa using he⟩
  exact Nat.le_antisymm (h.length_le_one _) (List.length_pos_of_mem hm)

end Merged

end CLib
