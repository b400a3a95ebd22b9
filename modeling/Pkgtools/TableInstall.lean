import Pkgtools.CLib.Directory

namespace Pkgtools
open CLib
set_option autoImplicit true

/-- The names that an update of the device or device-group table works on. -/
inductive TabName where
  | table
  | temp
  deriving DecidableEq, Repr

/-- The outcomes of the calls that an update makes: opening the table for the lock, opening it
for writing, opening the temporary file, each write of a record, how much has reached the temporary
file when `fclose` cannot write the rest, and the steps that install the new table. -/
structure TabOutcomes where
  lock : Bool
  openOld : Bool
  openTemp : Bool
  puts : Nat → Bool
  flush : Option Nat
  unlinkTable : Bool
  linkTable : Bool
  unlinkTemp : Bool

/-- What an update decides from the contents of the table before it opens the temporary file: it
gives up, it follows a NULL pointer, or it writes records. The flag is FALSE when the update
reports an error in spite of a new table. -/
inductive TabPlan where
  | refuse
  | crash
  | write (texts : List Str) (noerr : Bool)
  deriving DecidableEq, Repr

/-- The value returned, whether it is FALSE because the new table could not be written or
installed, and the directory. -/
structure TabResult where
  ret : Bool
  failed : Bool
  dir : Directory TabName

/-- `opennewdevtab` and `opennewdgrptab`. -/
def opennewtab (o : TabOutcomes) (d : Directory TabName) : Option (Directory TabName) :=
  if o.openOld ∧ (d.entry .table).isSome ∧ o.openTemp then some (d.create .temp []) else none

def putAll (puts : Nat → Bool) : Nat → List Str → Bool × Str
  | _, [] => (true, [])
  | k, t :: ts =>
    if puts k then ((putAll puts (k + 1) ts).1, t ++ (putAll puts (k + 1) ts).2) else (false, [])

/-- What a stream has left in its file after `fclose`, whose result is not looked at. -/
def flushed (flush : Option Nat) (text : Str) : Str :=
  match flush with
  | none => text
  | some n => text.take n

/-- All that was written reaches the file. -/
def Flushes (flush : Option Nat) (text : Str) : Prop := ∀ n, flush = some n → text.length ≤ n

def mknewdevtab (o : TabOutcomes) (d : Directory TabName) : Bool × Directory TabName :=
  let (unlinked, d) := d.remove .table o.unlinkTable
  if unlinked then
    let (noerr, d) := d.link .temp .table o.linkTable
    if noerr then (true, (d.remove .temp o.unlinkTemp).2) else (false, d)
  else (false, d)

/-- `mknewdgrptab` also reports that the temporary file could not be removed. -/
def mknewdgrptab (o : TabOutcomes) (d : Directory TabName) : Bool × Directory TabName :=
  let (unlinked, d) := d.remove .table o.unlinkTable
  if unlinked then
    let (noerr, d) := d.link .temp .table o.linkTable
    if noerr then d.remove .temp o.unlinkTemp else (false, d)
  else (false, d)

/-- Write the records to the temporary file and make it the table. -/
def installTable (mknew : TabOutcomes → Directory TabName → Bool × Directory TabName)
    (o : TabOutcomes) (d : Directory TabName) (texts : List Str) (noerr : Bool) : TabResult :=
  let (written, out) := putAll o.puts 0 texts
  let d := d.create .temp (flushed o.flush out)
  if written then
    let (made, d) := mknew o d
    ⟨made && noerr, !made, d⟩
  else ⟨false, true, (d.remove .temp o.unlinkTemp).2⟩

def updateTable (mknew : TabOutcomes → Directory TabName → Bool × Directory TabName)
    (plan : Str → TabPlan) (o : TabOutcomes) (d : Directory TabName) : Option TabResult :=
  match o.lock, d.read .table with
  | true, some contents =>
    match plan contents with
    | .crash => none
    | .refuse => some ⟨false, false, d⟩
    | .write texts noerr =>
      match opennewtab o d with
      | none => some ⟨false, true, d⟩
      | some d => some (installTable mknew o d texts noerr)
  | _, _ => some ⟨false, false, d⟩

/-- The directory before an update: the table is there and the temporary name is no second link
to it. -/
structure TabDir where
  dir : Directory TabName
  wf : dir.Wf
  table : (dir.entry .table).isSome
  unshared : dir.entry .table ≠ dir.entry .temp

def TabDir.of (contents : Str) : TabDir where
  dir := ⟨fun n => if n = .table then some 0 else none, fun _ => contents, 1⟩
  wf := by
    intro n i h
    simp only at h
    split at h
    · cases h
      exact Nat.zero_lt_one
    · cases h
  table := rfl
  unshared := by
    intro h
    cases h

def TabOutcomes.ok : TabOutcomes := ⟨true, true, true, fun _ => true, none, true, true, true⟩

theorem flushed_start (flush : Option Nat) (text : Str) : flushed flush text <+: text := by
  cases flush with
  | none => exact List.prefix_rfl
  | some n => exact List.take_prefix n text

theorem flushed_eq_iff : flushed flush text = text ↔ Flushes flush text := by
  cases flush with
  | none => simp [flushed, Flushes]
  | some n =>
    simp only [flushed, Flushes, Option.some.injEq, forall_eq']
    constructor
    · intro h
      rw [← h]
      exact List.length_take_le n text
    · exact List.take_of_length_le

theorem putAll_true (puts : Nat → Bool) (k : Nat) (ts : List Str) :
    (putAll puts k ts).1 = true ↔ ∀ i, i < ts.length → puts (k + i) = true := by
  induction ts generalizing k with
  | nil => simp [putAll]
  | cons t ts ih =>
    rw [putAll]
    by_cases hk : puts k = true
    · rw [if_pos hk, ih]
      constructor
      · intro h i hi
        cases i with
        | zero => exact hk
        | succ i =>
          have := h i (Nat.lt_of_succ_lt_succ hi)
          rwa [Nat.succ_add, ← Nat.add_succ] at this
      · intro h i hi
        have := h (i + 1) (Nat.succ_lt_succ hi)
        rwa [Nat.succ_add, ← Nat.add_succ]
    · rw [if_neg hk]
      simp only [Bool.false_eq_true, false_iff]
      intro h
      exact hk (h 0 (Nat.succ_pos _))

theorem putAll_out {puts : Nat → Bool} (h : (putAll puts k ts).1 = true) :
    (putAll puts k ts).2 = ts.flatten := by
  induction ts generalizing k with
  | nil => rfl
  | cons t ts ih =>
    rw [putAll] at h ⊢
    by_cases hk : puts k = true
    · rw [if_pos hk] at h ⊢
      rw [List.flatten_cons, ← ih h]
    · rw [if_neg hk] at h
      cases h

section Install
variable {d : Directory TabName} {o : TabOutcomes}

/-- The directory once the new table has been written to the temporary file. -/
structure Staged (d : Directory TabName) (old new : Str) : Prop where
  table : (d.entry .table).isSome
  old : d.read .table = some old
  new : d.read .temp = some new

theorem Staged.temp {old new : Str} (h : Staged d old new) : (d.entry .temp).isSome := by
  have hn := h.new
  rw [Directory.read, Option.map_eq_some_iff] at hn
  obtain ⟨i, hi, -⟩ := hn
  rw [hi]
  rfl

theorem mknewdevtab_cases (h : Staged d old new) :
    (o.unlinkTable = false → mknewdevtab o d = (false, d)) ∧
    (o.unlinkTable = true → o.linkTable = false →
      (mknewdevtab o d).1 = false ∧ (mknewdevtab o d).2.read .table = none) ∧
    (o.unlinkTable = true → o.linkTable = true →
      (mknewdevtab o d).1 = true ∧ (mknewdevtab o d).2.read .table = some new) := by
  have ht := h.table
  have htemp := h.temp
  refine ⟨?_, ?_, ?_⟩
  · intro hu
    simp [mknewdevtab, Directory.remove, hu]
  · intro hu hl
    simp only [mknewdevtab, Directory.remove, hu, ht, and_self, if_true, Directory.link, hl,
      Bool.false_eq_true, false_and, if_false, true_and]
    simp [Directory.read]
  · intro hu hl
    have hentry : (d.setEntry .table none).entry .temp = d.entry .temp :=
      Directory.entry_setEntry_ne (by decide) none
    have hlink : (d.setEntry .table none).link .temp .table o.linkTable =
        (true, (d.setEntry .table none).setEntry .table (d.entry .temp)) := by
      simp [Directory.link, hl, hentry, htemp]
    simp only [mknewdevtab, Directory.remove, hu, ht, and_self, if_true, hlink]
    refine ⟨trivial, ?_⟩
    have hread : ((d.setEntry .table none).setEntry .table (d.entry .temp)).read .table =
        d.read .temp := by
      simp [Directory.read, Directory.setEntry]
    split
    · rw [Directory.read_setEntry_ne (by decide), hread, h.new]
    · rw [hread, h.new]

theorem mknewdgrptab_eq (h : Staged d old new) :
    mknewdgrptab o d = ((mknewdevtab o d).1 && o.unlinkTemp, (mknewdevtab o d).2) := by
  have ht := h.table
  have htemp := h.temp
  cases hu : o.unlinkTable with
  | false => simp [mknewdgrptab, mknewdevtab, Directory.remove, hu]
  | true =>
    simp only [mknewdgrptab, mknewdevtab, Directory.remove, hu, ht, and_self, if_true]
    have hentry : (d.setEntry .table none).entry .temp = d.entry .temp :=
      Directory.entry_setEntry_ne (by decide) none
    cases hl : o.linkTable with
    | false => simp [Directory.link]
    | true =>
      have hlink : (d.setEntry .table none).link .temp .table true =
          (true, (d.setEntry .table none).setEntry .table (d.entry .temp)) := by
        simp [Directory.link, hentry, htemp]
      have hkeep : ((d.setEntry .table none).setEntry .table (d.entry .temp)).entry .temp =
          d.entry .temp := by
        rw [Directory.entry_setEntry_ne (by decide), hentry]
      simp only [hlink, if_true, hkeep, htemp, and_true, Bool.true_and]
      cases o.unlinkTemp <;> rfl

end Install

section Staging
variable {o : TabOutcomes}

theorem TabDir.opennewtab (d : TabDir) :
    opennewtab o d.dir = if o.openOld ∧ o.openTemp then some (d.dir.create .temp []) else none := by
  rw [Pkgtools.opennewtab]
  simp [d.table]

theorem TabDir.staged (d : TabDir) (h : d.dir.read .table = some old) (out : Str) :
    Staged ((d.dir.create .temp []).create .temp out) old out := by
  have hne : (TabName.table) ≠ .temp := by decide
  have h₁ := Directory.entry_create_ne_entry d.wf d.unshared d.table []
  refine ⟨?_, ?_, Directory.read_create_same ..⟩
  · rw [Directory.entry_create_ne hne, Directory.entry_create_ne hne]
    exact d.table
  · rw [Directory.read_create_ne (d.wf.create .temp []) h₁,
      Directory.read_create_ne d.wf d.unshared, h]

/-- The update gets as far as linking the new table: every call before has succeeded. -/
def ReachesLink (o : TabOutcomes) (texts : List Str) : Prop :=
  o.lock = true ∧ o.openOld = true ∧ o.openTemp = true ∧ (∀ i, i < texts.length → o.puts i = true) ∧
    o.unlinkTable = true

/-- A FALSE that stems from writing or installing the new table leaves the table as it was. -/
def KeepsTable (d : Directory TabName) (r : Option TabResult) : Prop :=
  ∀ res, r = some res → res.failed = true → res.dir.read .table = d.read .table

/-- The end of an update that has opened the temporary file. -/
structure Installs (o : TabOutcomes) (old : Str) (texts : List Str) (noerr last : Bool)
    (res : TabResult) : Prop where
  /-- An earlier step failed. -/
  early : ¬ ((∀ i, i < texts.length → o.puts i = true) ∧ o.unlinkTable = true) →
    res.failed = true ∧ res.ret = false ∧ res.dir.read .table = some old
  /-- The table was unlinked and the new one could not be linked. -/
  lost : (∀ i, i < texts.length → o.puts i = true) → o.unlinkTable = true → o.linkTable = false →
    res.failed = true ∧ res.ret = false ∧ res.dir.read .table = none
  /-- The new table is in place; `last` tells whether the last step is reported as done. -/
  done : (∀ i, i < texts.length → o.puts i = true) → o.unlinkTable = true → o.linkTable = true →
    res.failed = !last ∧ res.ret = (last && noerr) ∧
      res.dir.read .table = some (flushed o.flush texts.flatten)

theorem installTable_dev (d : TabDir) (h : d.dir.read .table = some old) (texts : List Str)
    (noerr : Bool) : Installs o old texts noerr true
      (installTable mknewdevtab o (d.dir.create .temp []) texts noerr) := by
  have hst := d.staged h (flushed o.flush (putAll o.puts 0 texts).2)
  obtain ⟨h₁, h₂, h₃⟩ := mknewdevtab_cases (o := o) hst
  have hputs : (putAll o.puts 0 texts).1 = true ↔ ∀ i, i < texts.length → o.puts i = true := by
    simpa using putAll_true o.puts 0 texts
  constructor
  · intro hearly
    cases hw : (putAll o.puts 0 texts).1 with
    | false =>
      simp only [installTable, hw, Bool.false_eq_true, if_false, true_and]
      rw [Directory.read_remove_ne (by decide), hst.old]
    | true =>
      have hu : o.unlinkTable = false := by
        by_contra hne
        exact hearly ⟨hputs.mp hw, by simpa using hne⟩
      simp only [installTable, hw, if_true, h₁ hu, Bool.false_and, Bool.not_false, true_and]
      exact hst.old
  · intro hp hu hl
    obtain ⟨hm, hd⟩ := h₂ hu hl
    simp only [installTable, hputs.mpr hp, if_true, hm, Bool.false_and, Bool.not_false, true_and]
    exact hd
  · intro hp hu hl
    obtain ⟨hm, hd⟩ := h₃ hu hl
    simp only [installTable, hputs.mpr hp, if_true, hm, Bool.true_and, Bool.not_true, true_and]
    rw [hd, putAll_out (hputs.mpr hp)]

theorem installTable_dgrp (d : TabDir) (h : d.dir.read .table = some old) (texts : List Str)
    (noerr : Bool) : Installs o old texts noerr o.unlinkTemp
      (installTable mknewdgrptab o (d.dir.create .temp []) texts noerr) := by
  have hdev := installTable_dev (o := o) d h texts noerr
  have hst := d.staged h (flushed o.flush (putAll o.puts 0 texts).2)
  have heq := mknewdgrptab_eq (o := o) hst
  have hputs : (putAll o.puts 0 texts).1 = true ↔ ∀ i, i < texts.length → o.puts i = true := by
    simpa using putAll_true o.puts 0 texts
  cases hw : (putAll o.puts 0 texts).1 with
  | false =>
    have hno : ¬ ∀ i, i < texts.length → o.puts i = true := by
      rw [← hputs, hw]
      decide
    have hsame : installTable mknewdgrptab o (d.dir.create .temp []) texts noerr =
        installTable mknewdevtab o (d.dir.create .temp []) texts noerr := by
      simp only [installTable, hw, Bool.false_eq_true, if_false]
    rw [hsame]
    exact ⟨hdev.early, fun hp => absurd hp hno, fun hp => absurd hp hno⟩
  | true =>
    have hp := hputs.mp hw
    simp only [installTable, hw, if_true] at hdev
    simp only [installTable, hw, if_true, heq]
    constructor
    · intro hearly
      obtain ⟨e₁, e₂, e₃⟩ := hdev.early hearly
      simp only [Bool.not_eq_true'] at e₁
      simp only [e₁, Bool.false_and, Bool.not_false, true_and]
      exact e₃
    · intro _ hu hl
      obtain ⟨e₁, e₂, e₃⟩ := hdev.lost hp hu hl
      simp only [Bool.not_eq_true'] at e₁
      simp only [e₁, Bool.false_and, Bool.not_false, true_and]
      exact e₃
    · intro _ hu hl
      obtain ⟨e₁, e₂, e₃⟩ := hdev.done hp hu hl
      simp only [Bool.not_true, Bool.not_eq_false'] at e₁
      simp only [e₁, Bool.true_and, true_and]
      exact e₃

/-- TRUE is returned only when the new table is in place. -/
theorem Installs.of_ret (h : Installs o old texts noerr last res) (ht : res.ret = true) :
    (last && noerr) = true ∧ res.dir.read .table = some (flushed o.flush texts.flatten) := by
  have hreach : (∀ i, i < texts.length → o.puts i = true) ∧ o.unlinkTable = true := by
    by_contra hne
    rw [(h.early hne).2.1] at ht
    cases ht
  cases hl : o.linkTable with
  | false =>
    rw [(h.lost hreach.1 hreach.2 hl).2.1] at ht
    cases ht
  | true =>
    obtain ⟨-, h₂, h₃⟩ := h.done hreach.1 hreach.2 hl
    rw [h₂] at ht
    exact ⟨ht, h₃⟩

theorem Installs.kept_iff (h : Installs o old texts noerr last res) :
    (res.failed = true → res.dir.read .table = some old) ↔
      ((∀ i, i < texts.length → o.puts i = true) → o.unlinkTable = true →
        o.linkTable = true ∧ (last = true ∨ flushed o.flush texts.flatten = old)) := by
  constructor
  · intro hk hp hu
    cases hl : o.linkTable with
    | false =>
      obtain ⟨h₁, -, h₃⟩ := h.lost hp hu hl
      rw [hk h₁] at h₃
      cases h₃
    | true =>
      refine ⟨rfl, ?_⟩
      obtain ⟨h₁, -, h₃⟩ := h.done hp hu hl
      cases last with
      | true => exact .inl rfl
      | false =>
        rw [hk h₁] at h₃
        exact .inr (Option.some.inj h₃).symm
  · intro hc hf
    by_cases hearly : (∀ i, i < texts.length → o.puts i = true) ∧ o.unlinkTable = true
    · obtain ⟨hp, hu⟩ := hearly
      obtain ⟨hl, hlast⟩ := hc hp hu
      obtain ⟨h₁, -, h₃⟩ := h.done hp hu hl
      rcases hlast with rfl | he
      · rw [hf] at h₁
        cases h₁
      · rw [h₃, he]
    · exact (h.early hearly).2.2

/-- Exactly when a failing update keeps the table, for both ways to install it. -/
theorem updateTable_keeps {mknew : TabOutcomes → Directory TabName → Bool × Directory TabName}
    {plan : Str → TabPlan} {last : Bool} (d : TabDir)
    (hinst : ∀ old texts noerr, d.dir.read .table = some old → Installs o old texts noerr last
      (installTable mknew o (d.dir.create .temp []) texts noerr)) :
    KeepsTable d.dir (updateTable mknew plan o d.dir) ↔
      ∀ old texts noerr, d.dir.read .table = some old → plan old = .write texts noerr →
        ReachesLink o texts →
          o.linkTable = true ∧ (last = true ∨ flushed o.flush texts.flatten = old) := by
  cases hlock : o.lock with
  | false =>
    constructor
    · rintro - old texts noerr - - ⟨h, -⟩
      rw [hlock] at h
      cases h
    · rintro - res hres hf
      rw [updateTable, hlock] at hres
      cases hres
      cases hf
  | true =>
  obtain ⟨old, hold⟩ : ∃ old, d.dir.read .table = some old := by
    obtain ⟨i, hi⟩ := Option.isSome_iff_exists.mp d.table
    exact ⟨d.dir.data i, by rw [Directory.read, hi]; rfl⟩
  simp only [KeepsTable, updateTable, hlock, hold]
  cases hplan : plan old with
  | crash =>
    simp only [reduceCtorEq, false_implies, implies_true, true_iff]
    rintro old' texts noerr ho hp
    cases ho
    rw [hplan] at hp
    cases hp
  | refuse =>
    constructor
    · rintro - old' texts noerr ho hp
      cases ho
      rw [hplan] at hp
      cases hp
    · rintro - res hres hf
      cases hres
      cases hf
  | write texts noerr =>
    rw [d.opennewtab]
    by_cases hopen : o.openOld = true ∧ o.openTemp = true
    · simp only [if_pos hopen, Option.some.injEq]
      have hk := (hinst old texts noerr hold).kept_iff
      constructor
      · rintro h old' texts' noerr' ho hp ⟨-, -, -, hputs, hu⟩
        cases ho
        rw [hplan] at hp
        cases hp
        exact hk.mp (fun hf => h _ rfl hf) hputs hu
      · rintro h res rfl hf
        refine hk.mpr (fun hputs hu => ?_) hf
        exact h old texts noerr rfl hplan ⟨hlock, hopen.1, hopen.2, hputs, hu⟩
    · simp only [if_neg hopen, Option.some.injEq]
      constructor
      · rintro - old' texts' noerr' - - ⟨-, h₁, h₂, -, -⟩
        exact absurd ⟨h₁, h₂⟩ hopen
      · rintro - res rfl -
        exact hold

end Staging

end Pkgtools
