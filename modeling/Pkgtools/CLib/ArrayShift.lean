import Mathlib.Data.List.Induction

namespace CLib
set_option autoImplicit true

/-- `l[k] = l[m]`. -/
def copyAt (l : List α) (k m : Nat) : List α := (l[m]?.map (l.set k)).getD l

/-- `for (k = i + n; k > i; k--) l[k] = l[k - 1]`. -/
def shiftUp : (n : Nat) → (i : Nat) → List α → List α
  | 0, _, l => l
  | n + 1, i, l => shiftUp n i (copyAt l (i + n + 1) (i + n))

/-- `for (k = i; k < i + n; k++) l[k] = l[k + 1]`. -/
def shiftDown : (n : Nat) → (i : Nat) → List α → List α
  | 0, _, l => l
  | n + 1, i, l => shiftDown n (i + 1) (copyAt l i (i + 1))

/-- The element at `j` is taken out and put in again at `i`, in front of those between. -/
def moveBack (l : List α) (j i : Nat) : List α :=
  (l[j]?.map fun x => (shiftUp (j - i) i l).set i x).getD l

theorem copyAt_up (a : List α) (z y : α) (b : List α) (h : k = a.length) :
    copyAt (a ++ z :: y :: b) (k + 1) k = a ++ z :: z :: b := by
  subst h
  simp [copyAt]

theorem copyAt_down (a : List α) (x z : α) (b : List α) :
    copyAt (a ++ x :: z :: b) a.length (a.length + 1) = a ++ z :: z :: b := by
  simp [copyAt]

theorem shiftUp_set (a m : List α) (x y : α) (b : List α) :
    (shiftUp m.length a.length (a ++ m ++ y :: b)).set a.length x = a ++ x :: (m ++ b) := by
  induction m using List.reverseRecOn generalizing y b with
  | nil => simp [shiftUp]
  | append_singleton m z ih =>
    have hlen : a.length + m.length = (a ++ m).length := List.length_append.symm
    rw [List.length_append, List.length_singleton, shiftUp]
    rw [show a ++ (m ++ [z]) ++ y :: b = (a ++ m) ++ z :: y :: b by simp]
    rw [copyAt_up (a ++ m) z y b hlen, ih]
    simp

theorem moveBack_eq (a m : List α) (x : α) (b : List α) :
    moveBack (a ++ m ++ x :: b) (a.length + m.length) a.length = a ++ x :: (m ++ b) := by
  have hget : (a ++ m ++ x :: b)[a.length + m.length]? = some x := by
    rw [List.getElem?_append_right (by simp)]
    simp
  rw [moveBack, hget, Option.map_some, Option.getD_some, Nat.add_sub_cancel_left, shiftUp_set]

theorem shiftDown_eq (a : List α) (x : α) (m b : List α) :
    shiftDown m.length a.length (a ++ x :: (m ++ b)) =
      a ++ m ++ (x :: m).getLast (List.cons_ne_nil _ _) :: b := by
  induction m generalizing a x with
  | nil => simp [shiftDown]
  | cons z m ih =>
    rw [List.length_cons, shiftDown, List.cons_append, copyAt_down]
    have h := ih (a ++ [z]) z
    rw [List.length_append, List.length_singleton, List.append_assoc, List.singleton_append] at h
    rw [h, List.getLast_cons_cons]
    simp

theorem length_copyAt (l : List α) (k m : Nat) : (copyAt l k m).length = l.length := by
  rw [copyAt]
  cases l[m]? with
  | none => rfl
  | some x => exact List.length_set

theorem length_shiftDown (n i : Nat) (l : List α) : (shiftDown n i l).length = l.length := by
  induction n generalizing i l with
  | zero => rfl
  | succ n ih => rw [shiftDown, ih, length_copyAt]

end CLib
