import Pkgtools.CLib.Text
import Mathlib.Logic.Function.Basic

namespace CLib
set_option autoImplicit true

/-- A directory: each name refers to at most one inode, and inodes hold the contents of files.
Inode numbers from `next` on are unused. -/
structure Directory (α : Type) where
  entry : α → Option Nat
  data : Nat → Str
  next : Nat

namespace Directory
variable {α : Type} [DecidableEq α] (d : Directory α)

def read (n : α) : Option Str := (d.entry n).map d.data

def Wf : Prop := ∀ n i, d.entry n = some i → i < d.next

def setEntry (n : α) (i : Option Nat) : Directory α :=
  { d with entry := Function.update d.entry n i }

/-- Open with `O_CREAT | O_TRUNC` and write. -/
def create (n : α) (s : Str) : Directory α :=
  match d.entry n with
  | some i => { d with data := Function.update d.data i s }
  | none =>
    { entry := Function.update d.entry n (some d.next)
      data := Function.update d.data d.next s
      next := d.next + 1 }

/-- `remove`, where `ok` tells whether the system lets it succeed. -/
def remove (n : α) (ok : Bool) : Bool × Directory α :=
  if ok ∧ (d.entry n).isSome then (true, d.setEntry n none) else (false, d)

/-- `link`, which also fails when the new name exists. -/
def link (n m : α) (ok : Bool) : Bool × Directory α :=
  if ok ∧ (d.entry n).isSome ∧ d.entry m = none then (true, d.setEntry m (d.entry n))
  else (false, d)

/-- `rename`, which does nothing when both names refer to one inode. -/
def rename (n m : α) (ok : Bool) : Bool × Directory α :=
  if ok ∧ (d.entry n).isSome then
    if d.entry n = d.entry m then (true, d)
    else (true, (d.setEntry m (d.entry n)).setEntry n none)
  else (false, d)

variable {d}

theorem read_setEntry_ne {n m : α} (h : m ≠ n) (i : Option Nat) :
    (d.setEntry n i).read m = d.read m := by
  simp [read, setEntry, Function.update_of_ne h]

theorem entry_setEntry_ne {n m : α} (h : m ≠ n) (i : Option Nat) :
    (d.setEntry n i).entry m = d.entry m := by
  simp [setEntry, Function.update_of_ne h]

@[simp] theorem entry_setEntry_same (n : α) (i : Option Nat) : (d.setEntry n i).entry n = i := by
  simp [setEntry]

theorem setEntry_none_self {n : α} (h : d.entry n = none) : d.setEntry n none = d := by
  rw [setEntry, ← h, Function.update_eq_self]

theorem remove_if_present {n : α} {ok : Bool} (h : d.entry n = none ∨ ok) :
    (if (d.entry n).isSome then d.remove n ok else (true, d)) = (true, d.setEntry n none) := by
  cases hn : d.entry n with
  | none => simp [setEntry_none_self hn]
  | some i =>
    have hok : ok = true := by simpa [hn] using h
    simp [remove, hok, hn]

theorem remove_if_present_fails {n : α} (h : d.entry n ≠ none) :
    (if (d.entry n).isSome then d.remove n false else (true, d)) = (false, d) := by
  simp [Option.isSome_iff_ne_none.mpr h, remove]

theorem read_remove_ne {n m : α} (h : m ≠ n) (ok : Bool) : (d.remove n ok).2.read m = d.read m := by
  rw [remove]
  split
  · exact read_setEntry_ne h none
  · rfl

/-- Writing one file leaves the other names alone, and their contents unless they share it. -/
theorem entry_create_ne {n m : α} (h : m ≠ n) (s : Str) : (d.create n s).entry m = d.entry m := by
  rw [create]
  split
  · rfl
  · simp [Function.update_of_ne h]

theorem read_create_ne {n m : α} (hw : d.Wf) (h : d.entry m ≠ d.entry n) (s : Str) :
    (d.create n s).read m = d.read m := by
  have hnm : m ≠ n := fun he => h (he ▸ rfl)
  rw [read, entry_create_ne hnm, read]
  cases hm : d.entry m with
  | none => rfl
  | some j =>
    rw [create]
    split
    · rename_i i hi
      have hj : j ≠ i := by
        rintro rfl
        exact h (hm.trans hi.symm)
      simp [Function.update_of_ne hj]
    · have hj : j ≠ d.next := Nat.ne_of_lt (hw m j hm)
      simp [Function.update_of_ne hj]

theorem read_create_same (n : α) (s : Str) : (d.create n s).read n = some s := by
  rw [create]
  split
  · rename_i i hi
    simp [read, hi]
  · simp [read]

theorem entry_create_isSome (n : α) (s : Str) : ((d.create n s).entry n).isSome := by
  rw [create]
  split
  · rename_i i hi
    simp [hi]
  · simp

theorem entry_create_ne_entry {n m : α} (hw : d.Wf) (h : d.entry m ≠ d.entry n)
    (hm : (d.entry m).isSome) (s : Str) : (d.create n s).entry m ≠ (d.create n s).entry n := by
  have hnm : m ≠ n := fun he => h (he ▸ rfl)
  rw [entry_create_ne hnm, create]
  split
  · rename_i i hi
    simpa [hi] using h
  · obtain ⟨j, hj⟩ := Option.isSome_iff_exists.mp hm
    have := hw m j hj
    simp only [Function.update_self, hj, ne_eq, Option.some.injEq]
    omega

theorem Wf.create (hw : d.Wf) (n : α) (s : Str) : (d.create n s).Wf := by
  intro m i hi
  rw [Directory.create] at hi ⊢
  split at hi
  · exact hw m i hi
  · by_cases h : m = n
    · subst h
      simp only [Function.update_self, Option.some.injEq] at hi
      exact hi ▸ Nat.lt_succ_self _
    · simp only [Function.update_of_ne h] at hi
      exact Nat.lt_succ_of_lt (hw m i hi)

theorem Wf.setEntry (hw : d.Wf) (n : α) (h : ∀ i, j = some i → i < d.next) :
    (d.setEntry n j).Wf := by
  intro m i hi
  by_cases hm : m = n
  · subst hm
    simp only [entry_setEntry_same] at hi
    exact h i hi
  · rw [entry_setEntry_ne hm] at hi
    exact hw m i hi

theorem Wf.remove (hw : d.Wf) (n : α) (ok : Bool) : (d.remove n ok).2.Wf := by
  rw [Directory.remove]
  split
  · exact hw.setEntry n (by simp)
  · exact hw

theorem Wf.link (hw : d.Wf) (n m : α) (ok : Bool) : (d.link n m ok).2.Wf := by
  rw [Directory.link]
  split
  · exact hw.setEntry m (fun i hi => hw n i hi)
  · exact hw

theorem Wf.rename (hw : d.Wf) (n m : α) (ok : Bool) : (d.rename n m ok).2.Wf := by
  rw [Directory.rename]
  split
  · split
    · exact hw
    · exact (hw.setEntry m (fun i hi => hw n i hi)).setEntry n (by simp)
  · exact hw

end Directory
end CLib
