import Mathlib.Logic.Function.Basic

namespace Pkgtools
set_option autoImplicit true

/-- How a locking `fcntl` call ends. -/
inductive Fcntl where
  | ok
  | eacces
  | other
  deriving DecidableEq, Repr

/-- The outcomes of the calls that `lkdevtab` and `lkdgrptab` make, in order: opening the table,
`F_SETLK` and `F_SETLKW`. -/
structure LkOutcomes where
  opens : Nat → Bool
  setlk : Nat → Fcntl
  setlkw : Nat → Fcntl

inductive LkEvent where
  | closed
  | opened
  | openFails
  | setlk (r : Fcntl)
  | setlkw (r : Fcntl)
  deriving DecidableEq, Repr

/-- The loop `Keep on going until we lock the file or an error happens`, with its condition as the
source has it: the body runs only while `noerr` is false. -/
def lktabLoop (o : LkOutcomes) : (fuel : Nat) → (i : Nat) → (noerr : Bool) → List LkEvent →
    Option (Bool × List LkEvent)
  | 0, _, _, _ => none
  | fuel + 1, i, noerr, tr =>
    if o.setlk i ≠ .ok ∧ noerr = false then
      if o.setlk i = .eacces then
        if o.setlkw i ≠ .ok then
          lktabLoop o fuel (i + 1) false (tr ++ [.setlk .eacces, .setlkw (o.setlkw i)])
        else if o.opens (i + 1) then
          lktabLoop o fuel (i + 1) noerr (tr ++ [.setlk .eacces, .setlkw .ok, .closed, .opened])
        else lktabLoop o fuel (i + 1) false
          (tr ++ [.setlk .eacces, .setlkw .ok, .closed, .openFails])
      else lktabLoop o fuel (i + 1) false (tr ++ [.setlk (o.setlk i)])
    else some (noerr, tr ++ [.setlk (o.setlk i)])

/-- The common body of `lkdevtab` and `lkdgrptab`. -/
def lktab (o : LkOutcomes) (fuel : Nat) : Option (Bool × List LkEvent) :=
  if o.opens 0 then
    match lktabLoop o fuel 0 true [.closed, .opened] with
    | none => none
    | some (noerr, tr) => some (noerr, if noerr then tr else tr ++ [.closed])
  else some (false, [.closed, .openFails])

def lkdevtab (o : LkOutcomes) (fuel : Nat) : Option (Bool × List LkEvent) := lktab o fuel

def lkdgrptab (o : LkOutcomes) (fuel : Nat) : Option (Bool × List LkEvent) := lktab o fuel

/-- The last locking call on the stream that is open at the end. -/
def lastLock (tr : List LkEvent) : Option Fcntl :=
  tr.foldl (fun _ e => match e with
    | .closed | .opened | .openFails => none
    | .setlk r | .setlkw r => some r) none

/-- The call returns, and returns TRUE only with a lock on the open stream. -/
def ReallyLocks (r : Option (Bool × List LkEvent)) : Prop :=
  ∃ noerr tr, r = some (noerr, tr) ∧ (noerr = true → lastLock tr = some .ok)

/-- The flag is TRUE when the loop is reached, so its body never runs. -/
theorem lktab_eq (o : LkOutcomes) (fuel : Nat) :
    lktab o (fuel + 1) = if o.opens 0 then some (true, [.closed, .opened, .setlk (o.setlk 0)])
      else some (false, [.closed, .openFails]) := by
  have hloop : lktabLoop o (fuel + 1) 0 true [.closed, .opened] =
      some (true, [.closed, .opened, .setlk (o.setlk 0)]) := by
    rw [lktabLoop, if_neg]
    · rfl
    · rintro ⟨-, h⟩
      cases h
  rw [lktab, hloop]
  rfl

theorem lktab_reallyLocks (o : LkOutcomes) (fuel : Nat) :
    ReallyLocks (lktab o (fuel + 1)) ↔ (o.opens 0 = true → o.setlk 0 = .ok) := by
  rw [lktab_eq]
  cases hopen : o.opens 0 with
  | false =>
    simp only [Bool.false_eq_true, if_false, false_implies, iff_true]
    refine ⟨false, _, rfl, ?_⟩
    intro h
    cases h
  | true =>
    simp only [if_true, true_implies]
    constructor
    · rintro ⟨noerr, tr, he, h⟩
      cases he
      simpa [lastLock] using h rfl
    · intro h
      refine ⟨true, _, rfl, fun _ => ?_⟩
      rw [h]
      rfl

/-- Processes and the table file. A file is named by its inode; `holder` is the kernel's table of
write locks. -/
structure TabWorld where
  /-- The file that the table's name refers to. -/
  table : Nat
  holder : Nat → Option Nat
  /-- The file of the stream of a process between `lkdevtab` and `unlkdevtab`. -/
  inside : Nat → Option Nat
  /-- Since its `lkdevtab` the process has closed another descriptor of the table or replaced it. -/
  disturbed : Nat → Bool

/-- Nobody has the table open. -/
def TabWorld.initial (table : Nat) : TabWorld :=
  ⟨table, fun _ => none, fun _ => none, fun _ => false⟩

/-- What a process that updates the table does, by the name of the function it calls. -/
inductive TabOp where
  /-- `lkdevtab` for writing, with whether the mode opens the stream for writing. -/
  | lkdevtab (p : Nat) (writable : Bool)
  | unlkdevtab (p : Nat)
  /-- `opennewdevtab` opens the table once more and closes it. -/
  | opennewdevtab (p : Nat)
  /-- `mknewdevtab` puts another file under the table's name. -/
  | mknewdevtab (p : Nat) (file : Nat)

/-- The locks of `p` on a file go when `p` closes any descriptor of that file. -/
def TabWorld.release (w : TabWorld) (p file : Nat) : TabWorld :=
  if w.holder file = some p then { w with holder := Function.update w.holder file none } else w

/-- `_enddevtab`. -/
def TabWorld.close (w : TabWorld) (p : Nat) : TabWorld :=
  match w.inside p with
  | none => w
  | some file => { w.release p file with inside := Function.update w.inside p none }

/-- The kernel grants a write lock on the table: the stream is open for writing and no other
process has a lock on the file. -/
def TabWorld.grants (w : TabWorld) (p : Nat) (writable : Bool) : Bool :=
  writable && (w.holder w.table == none || w.holder w.table == some p)

/-- The outcomes that a `lkdevtab` meets when the table can be opened. -/
def TabWorld.outcomes (w : TabWorld) (p : Nat) (writable : Bool) : LkOutcomes :=
  ⟨fun _ => true,
    fun _ => if w.grants p writable then .ok else if writable then .eacces else .other,
    fun _ => if writable then .ok else .other⟩

def TabWorld.exec (w : TabWorld) : TabOp → TabWorld
  | .lkdevtab p writable =>
    let w := w.close p
    match Pkgtools.lkdevtab (w.outcomes p writable) 1 with
    | some (true, tr) =>
      { w with
        holder := if lastLock tr = some .ok then Function.update w.holder w.table (some p)
          else w.holder
        inside := Function.update w.inside p (some w.table)
        disturbed := Function.update w.disturbed p false }
    | _ => w
  | .unlkdevtab p => w.close p
  | .opennewdevtab p =>
    if (w.inside p).isSome then
      { w.release p w.table with disturbed := Function.update w.disturbed p true }
    else w
  | .mknewdevtab p file =>
    if (w.inside p).isSome then
      { w with table := file, disturbed := Function.update w.disturbed p true }
    else w

def TabWorld.run (w : TabWorld) (ops : List TabOp) : TabWorld := ops.foldl TabWorld.exec w

/-- The first `F_SETLK` of a `lkdevtab` is granted, and no process inside has given its lock away
by closing another descriptor of the table or by replacing the table. -/
def TabWorld.Orderly (w : TabWorld) : TabOp → Prop
  | .lkdevtab p writable => (w.close p).grants p writable = true ∧
      ∀ q, q ≠ p → (w.inside q).isSome → w.disturbed q = false
  | _ => True

def OrderlyRun : TabWorld → List TabOp → Prop
  | _, [] => True
  | w, op :: ops => w.Orderly op ∧ OrderlyRun (w.exec op) ops

/-- At most one process is between `lkdevtab` and `unlkdevtab`. -/
def TabWorld.Exclusive (w : TabWorld) : Prop :=
  ∀ p q, (w.inside p).isSome → (w.inside q).isSome → p = q

/-- One process is inside at most, and has the lock on the table unless it gave it away. -/
structure TabWorld.Inv (w : TabWorld) : Prop where
  exclusive : w.Exclusive
  locked : ∀ p, (w.inside p).isSome → w.disturbed p = false →
    w.inside p = some w.table ∧ w.holder w.table = some p

section Inv
variable {w : TabWorld}

theorem TabWorld.close_inside_self (w : TabWorld) (p : Nat) : (w.close p).inside p = none := by
  rw [TabWorld.close]
  cases h : w.inside p with
  | none => exact h
  | some file => exact Function.update_self ..

theorem TabWorld.close_inside_ne (w : TabWorld) (h : q ≠ p) :
    (w.close p).inside q = w.inside q := by
  rw [TabWorld.close]
  cases w.inside p with
  | none => rfl
  | some file => exact Function.update_of_ne h ..

theorem TabWorld.release_table (w : TabWorld) (p file : Nat) :
    (w.release p file).table = w.table := by
  rw [TabWorld.release]
  split <;> rfl

theorem TabWorld.release_inside (w : TabWorld) (p file : Nat) :
    (w.release p file).inside = w.inside := by
  rw [TabWorld.release]
  split <;> rfl

theorem TabWorld.release_holder_ne (w : TabWorld) (h : w.holder f = some q) (hq : q ≠ p) :
    (w.release p file).holder f = some q := by
  rw [TabWorld.release]
  split
  · rename_i hf
    have hne : f ≠ file := by
      rintro rfl
      rw [h] at hf
      exact hq (Option.some.inj hf)
    exact (Function.update_of_ne hne ..).trans h
  · exact h

theorem TabWorld.close_table (w : TabWorld) (p : Nat) : (w.close p).table = w.table := by
  rw [TabWorld.close]
  cases w.inside p with
  | none => rfl
  | some file => exact w.release_table p file

theorem TabWorld.close_disturbed (w : TabWorld) (p : Nat) :
    (w.close p).disturbed = w.disturbed := by
  rw [TabWorld.close]
  cases w.inside p with
  | none => rfl
  | some file =>
    simp only [TabWorld.release]
    split <;> rfl

/-- Closing its stream takes no lock from another process. -/
theorem TabWorld.close_holder_ne (w : TabWorld) (h : w.holder f = some q) (hq : q ≠ p) :
    (w.close p).holder f = some q := by
  rw [TabWorld.close]
  cases w.inside p with
  | none => exact h
  | some file => exact w.release_holder_ne h hq

theorem TabWorld.Inv.close (h : w.Inv) (p : Nat) : (w.close p).Inv := by
  have hin {q : Nat} (hq : ((w.close p).inside q).isSome) : q ≠ p ∧ (w.inside q).isSome := by
    have hne : q ≠ p := by
      rintro rfl
      rw [w.close_inside_self] at hq
      cases hq
    rw [w.close_inside_ne hne] at hq
    exact ⟨hne, hq⟩
  constructor
  · intro q r hq hr
    exact h.exclusive q r (hin hq).2 (hin hr).2
  · intro q hq hd
    obtain ⟨hne, hq'⟩ := hin hq
    rw [w.close_disturbed] at hd
    obtain ⟨h₁, h₂⟩ := h.locked q hq' hd
    rw [w.close_inside_ne hne, w.close_table]
    exact ⟨h₁, w.close_holder_ne h₂ hne⟩

theorem TabWorld.Inv.of_disturbed {w' : TabWorld} (h : w.Inv) (hp : (w.inside p).isSome)
    (hin : w'.inside = w.inside) (hd : w'.disturbed p = true) : w'.Inv := by
  constructor
  · intro q r hq hr
    rw [hin] at hq hr
    exact h.exclusive q r hq hr
  · intro q hq hdq
    rw [hin] at hq
    rw [h.exclusive q p hq hp, hd] at hdq
    cases hdq

/-- A granted lock shows that nobody else is inside. -/
theorem TabWorld.Inv.alone (h : w.Inv) (ho : w.Orderly (.lkdevtab p writable))
    (hq : (w.inside q).isSome) : q = p := by
  by_contra hne
  obtain ⟨hg, hd⟩ := ho
  obtain ⟨-, hlock⟩ := h.locked q hq (hd q hne hq)
  have hlock' := w.close_holder_ne (p := p) hlock hne
  simp only [TabWorld.grants, w.close_table, hlock', Bool.and_eq_true, Bool.or_eq_true,
    beq_iff_eq, reduceCtorEq, false_or, Option.some.injEq] at hg
  exact hne hg.2

theorem TabWorld.Inv.exec (h : w.Inv) (op : TabOp) (ho : w.Orderly op) : (w.exec op).Inv := by
  cases op with
  | unlkdevtab p => exact h.close p
  | opennewdevtab p =>
    rw [TabWorld.exec]
    split
    · rename_i hp
      exact h.of_disturbed hp (w.release_inside p w.table) (Function.update_self ..)
    · exact h
  | mknewdevtab p file =>
    rw [TabWorld.exec]
    split
    · rename_i hp
      exact h.of_disturbed hp rfl (Function.update_self ..)
    · exact h
  | lkdevtab p writable =>
    have hg := ho.1
    have hlk : Pkgtools.lkdevtab ((w.close p).outcomes p writable) 1 =
        some (true, [.closed, .opened, .setlk .ok]) := by
      have hset : ((w.close p).outcomes p writable).setlk 0 = .ok := if_pos hg
      rw [Pkgtools.lkdevtab, lktab_eq, hset]
      rfl
    have hlast : lastLock [.closed, .opened, .setlk .ok] = some .ok := rfl
    simp only [TabWorld.exec, hlk, hlast, if_true]
    have halone {q : Nat}
        (hq : (Function.update (w.close p).inside p (some (w.close p).table) q).isSome) :
        q = p := by
      by_contra hne
      rw [Function.update_of_ne hne, w.close_inside_ne hne] at hq
      exact hne (h.alone ho hq)
    constructor
    · intro q r hq hr
      exact (halone hq).trans (halone hr).symm
    · intro q hq _
      cases halone hq
      exact ⟨Function.update_self .., Function.update_self ..⟩

theorem TabWorld.Inv.run (h : w.Inv) (ops : List TabOp) (ho : OrderlyRun w ops) :
    (w.run ops).Inv := by
  induction ops generalizing w with
  | nil => exact h
  | cons op ops ih => exact ih (h.exec op ho.1) ho.2

theorem TabWorld.initial_inv (table : Nat) : (TabWorld.initial table).Inv := by
  constructor
  · intro p q hp
    cases hp
  · intro p hp
    cases hp

theorem OrderlyRun.left (h : OrderlyRun w (xs ++ ys)) : OrderlyRun w xs := by
  induction xs generalizing w with
  | nil => trivial
  | cons op xs ih => exact ⟨h.1, ih h.2⟩

end Inv

/-- `lkdevtab` and `lkdgrptab` return TRUE with a lock exactly when the table cannot be opened or
the first `F_SETLK` succeeds; and in every run where these are granted and nobody inside has given
a lock away, at most one process is inside at any time. -/
theorem lkdevtab_locks_iff (o : LkOutcomes) (fuel : Nat) :
    (ReallyLocks (lkdevtab o (fuel + 1)) ↔ (o.opens 0 = true → o.setlk 0 = .ok)) ∧
    (ReallyLocks (lkdgrptab o (fuel + 1)) ↔ (o.opens 0 = true → o.setlk 0 = .ok)) ∧
    ∀ (table : Nat) (ops xs ys : List TabOp), OrderlyRun (.initial table) ops →
      ops = xs ++ ys → ((TabWorld.initial table).run xs).Exclusive := by
  refine ⟨lktab_reallyLocks o fuel, lktab_reallyLocks o fuel, ?_⟩
  rintro table ops xs ys ho rfl
  exact ((TabWorld.initial_inv table).run xs ho.left).exclusive

theorem lkdevtab_locks_two :
    ReallyLocks (lkdevtab ⟨fun _ => true, fun _ => .ok, fun _ => .ok⟩ 1) ∧
      OrderlyRun (.initial 0) [.lkdevtab 1 true, .unlkdevtab 1, .lkdevtab 2 true] ∧
      ((TabWorld.initial 0).run [.lkdevtab 1 true, .unlkdevtab 1, .lkdevtab 2 true]).Exclusive := by
  have ho : OrderlyRun (.initial 0) [.lkdevtab 1 true, .unlkdevtab 1, .lkdevtab 2 true] := by
    refine ⟨⟨rfl, ?_⟩, trivial, ⟨rfl, ?_⟩, trivial⟩
    · intro q _ hq
      cases hq
    · intro q _ _
      by_cases h : q = 1
      · subst h
        rfl
      · exact Function.update_of_ne h ..
  obtain ⟨hlocks, -, hruns⟩ := lkdevtab_locks_iff ⟨fun _ => true, fun _ => .ok, fun _ => .ok⟩ 0
  exact ⟨hlocks.mpr fun _ => rfl, ho, hruns 0 _ _ [] ho (List.append_nil _).symm⟩

/-- A second process gets TRUE for a table that the first one has locked. -/
theorem lkdevtab_unlocked :
    ¬ ReallyLocks (lkdevtab ⟨fun _ => true, fun _ => .eacces, fun _ => .ok⟩ 1) ∧
      ¬ ((TabWorld.initial 0).run [.lkdevtab 1 true, .lkdevtab 2 true]).Exclusive := by
  constructor
  · rintro ⟨noerr, tr, he, h⟩
    cases he
    cases h rfl
  · intro h
    have h₁ : ((TabWorld.initial 0).run [.lkdevtab 1 true, .lkdevtab 2 true]).inside 1 = some 0 :=
      rfl
    have h₂ : ((TabWorld.initial 0).run [.lkdevtab 1 true, .lkdevtab 2 true]).inside 2 = some 0 :=
      rfl
    cases h 1 2 (by rw [h₁]; rfl) (by rw [h₂]; rfl)

end Pkgtools
