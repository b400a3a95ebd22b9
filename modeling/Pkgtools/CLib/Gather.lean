import Mathlib.Data.List.Perm.Basic

namespace CLib
set_option autoImplicit true

def swapAt (l : List α) (i j : Nat) : List α :=
  match l[i]?, l[j]? with
  | some x, some y => (l.set i y).set j x
  | _, _ => l

/-- `for (j = ...; l[j]; j++) if (p(l[j])) swap l[n++] and l[j]`, for the next `k` elements. -/
def gather (p : α → Bool) : (k : Nat) → (j n : Nat) → List α → Nat × List α
  | 0, _, n, l => (n, l)
  | k + 1, j, n, l =>
    if l[j]?.any p then gather p k (j + 1) (n + 1) (swapAt l n j) else gather p k (j + 1) n l

section Gather
variable {p : α → Bool} {a m b : List α} {x y : α}

theorem swapAt_same (h : i = a.length) : swapAt (a ++ x :: b) i i = a ++ x :: b := by
  subst h
  simp [swapAt]

theorem swapAt_mid (hi : i = a.length) (hj : j = a.length + (m.length + 1)) :
    swapAt (a ++ y :: (m ++ x :: b)) i j = a ++ x :: (m ++ y :: b) := by
  subst hi hj
  have hy : (a ++ y :: (m ++ x :: b))[a.length]? = some y := by simp
  have hx : (a ++ y :: (m ++ x :: b))[a.length + (m.length + 1)]? = some x := by
    rw [List.getElem?_append_right (Nat.le_add_right _ _), Nat.add_sub_cancel_left,
      List.getElem?_cons_succ, List.getElem?_append_right (Nat.le_refl _), Nat.sub_self,
      List.getElem?_cons_zero]
  simp only [swapAt, hy, hx]
  rw [List.set_append_right _ _ (Nat.le_refl _), Nat.sub_self, List.set_cons_zero,
    List.set_append_right _ _ (Nat.le_add_right _ _), Nat.add_sub_cancel_left, List.set_cons_succ,
    List.set_append_right _ _ (Nat.le_refl _), Nat.sub_self, List.set_cons_zero]

/-- The elements with the property come behind those in front, in their order; the others follow. -/
theorem gather_spec (p : α → Bool) (a m b : List α) (hj : j = a.length + m.length)
    (hn : n = a.length) :
    ∃ r, gather p b.length j n (a ++ m ++ b) = (n + (b.filter p).length, a ++ b.filter p ++ r) ∧
      r.Perm (m ++ b.filter fun x => !p x) := by
  induction b generalizing a m j n with
  | nil =>
    refine ⟨m, ?_, ?_⟩
    · simp [gather]
    · simp
  | cons x b ih =>
    have hget : (a ++ m ++ x :: b)[j]? = some x := by
      rw [List.getElem?_append_right (by simp [hj])]
      simp [hj]
    rw [List.length_cons, gather, hget, Option.any_some]
    by_cases hx : p x = true
    · rw [if_pos hx, List.filter_cons_of_pos hx, List.filter_cons_of_neg (by simp [hx])]
      cases m with
      | nil =>
        obtain rfl : j = n := hj.trans hn.symm
        rw [List.append_nil, swapAt_same hn]
        obtain ⟨r, hr, hperm⟩ := @ih (j + 1) (j + 1) (a ++ [x]) [] (by simp [hn]) (by simp [hn])
        refine ⟨r, ?_, hperm⟩
        rw [List.append_nil, List.append_assoc, List.singleton_append] at hr
        rw [hr, List.length_cons, List.append_assoc a [x], List.singleton_append, Nat.add_assoc,
          Nat.add_comm 1]
      | cons y m =>
        rw [List.append_assoc, List.cons_append, swapAt_mid hn hj]
        obtain ⟨r, hr, hperm⟩ := @ih (j + 1) (n + 1) (a ++ [x]) (m ++ [y]) (by simp [hj]; omega)
          (by simp [hn])
        refine ⟨r, ?_, ?_⟩
        · rw [show a ++ [x] ++ (m ++ [y]) ++ b = a ++ x :: (m ++ y :: b) by simp] at hr
          rw [hr, List.length_cons, List.append_assoc a [x], List.singleton_append, Nat.add_assoc,
            Nat.add_comm 1]
        · exact hperm.trans (List.Perm.append_right _ (List.perm_append_singleton y m))
    · rw [if_neg hx, List.filter_cons_of_neg hx, List.filter_cons_of_pos (by simp [hx])]
      obtain ⟨r, hr, hperm⟩ := @ih (j + 1) n a (m ++ [x]) (by simp [hj]; omega) hn
      refine ⟨r, ?_, ?_⟩
      · rw [show a ++ (m ++ [x]) ++ b = a ++ m ++ x :: b by simp] at hr
        exact hr
      · rwa [List.append_assoc, List.singleton_append] at hperm

end Gather

end CLib
