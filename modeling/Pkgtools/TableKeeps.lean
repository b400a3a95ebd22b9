import Pkgtools.DevTabUpdate
import Pkgtools.DgrpTab

namespace Pkgtools
open CLib
set_option autoImplicit true

section Keeps
variable {o : TabOutcomes}

/-- Once every call before has succeeded the new table is linked and, where this is reported, the
temporary file removed, unless the new table is the old one. -/
def InstallSafe (o : TabOutcomes) (reported : Bool) (old : Str) (texts : List Str) : Prop :=
  ReachesLink o texts →
    o.linkTable = true ∧ (reported = true ∨ flushed o.flush texts.flatten = old)

def PlanSafe (o : TabOutcomes) (reported : Bool) (d : TabDir) (plan : Str → TabPlan) : Prop :=
  ∀ old texts noerr, d.dir.read .table = some old → plan old = .write texts noerr →
    InstallSafe o reported old texts

theorem devTable_keeps (d : TabDir) (plan : Str → TabPlan) :
    KeepsTable d.dir (updateTable mknewdevtab plan o d.dir) ↔ PlanSafe o true d plan :=
  updateTable_keeps d fun _ texts noerr hread => installTable_dev d hread texts noerr

theorem dgrpTable_keeps (d : TabDir) (plan : Str → TabPlan) :
    KeepsTable d.dir (updateTable mknewdgrptab plan o d.dir) ↔ PlanSafe o o.unlinkTemp d plan :=
  updateTable_keeps d fun _ texts noerr hread => installTable_dgrp d hread texts noerr

theorem adddgrptabrec_keeps {a : AppendOutcomes} (d : TabDir) (hread : d.dir.read .table = some old)
    (hg : getdgrprec (readDgrptab b old) dgrp = some ent) (b' : RecBuf) (members : List Str) :
    KeepsTable d.dir (some (adddgrptabrec b b' o a dgrp members d.dir)) ↔
      (members ≠ [] → InstallSafe o o.unlinkTemp old (addTexts b' ent members old)) := by
  cases hlock : o.lock with
  | false =>
    constructor
    · rintro - - ⟨h, -⟩
      rw [hlock] at h
      cases h
    · rintro - res hres hf
      rw [adddgrptabrec, hlock] at hres
      cases hres
      cases hf
  | true =>
    simp only [KeepsTable, adddgrptabrec, hlock, if_true, d.table, hread, Option.getD_some, hg,
      d.opennewtab, Option.some.injEq]
    by_cases hnil : members = []
    · simp only [if_pos hnil]
      constructor
      · intro _ hne
        exact absurd hnil hne
      · rintro - res rfl hf
        cases hf
    · simp only [if_neg hnil]
      by_cases hopen : o.openOld = true ∧ o.openTemp = true
      · simp only [if_pos hopen]
        have hk := (installTable_dgrp (o := o) d hread (addTexts b' ent members old) true).kept_iff
        constructor
        · rintro h - ⟨-, -, -, hputs, hu⟩
          exact hk.mp (fun hf => h _ rfl hf) hputs hu
        · rintro h res rfl hf
          refine hk.mpr (fun hputs hu => ?_) hf
          exact h hnil ⟨hlock, hopen.1, hopen.2, hputs, hu⟩
      · simp only [if_neg hopen]
        constructor
        · rintro - - ⟨-, h₁, h₂, -, -⟩
          exact absurd ⟨h₁, h₂⟩ hopen
        · rintro - res rfl hf
          cases hf

/-- Exactly when a failing update of a table keeps it: the unlinked table is always replaced, and
for the device groups the removal of the temporary file does not fail after that. -/
theorem failed_update_keeps_iff (d : TabDir) (stat : Str → Option Stat64) (b b' : RecBuf) :
    (∀ device attrval,
      KeepsTable d.dir (updateTable mknewdevtab (moddevtabrec stat b b' device attrval) o d.dir) ↔
        PlanSafe o true d (moddevtabrec stat b b' device attrval)) ∧
    (∀ device,
      KeepsTable d.dir (updateTable mknewdevtab (rmdevtabrec stat b b' device) o d.dir) ↔
        PlanSafe o true d (rmdevtabrec stat b b' device)) ∧
    (∀ device attributes,
      KeepsTable d.dir
          (updateTable mknewdevtab (rmdevtabattrs stat b b' device attributes) o d.dir) ↔
        PlanSafe o true d (rmdevtabattrs stat b b' device attributes)) ∧
    (∀ dgrp,
      KeepsTable d.dir (updateTable mknewdgrptab (rmdgrptabrec b b' dgrp) o d.dir) ↔
        PlanSafe o o.unlinkTemp d (rmdgrptabrec b b' dgrp)) ∧
    (∀ dgrp mems,
      KeepsTable d.dir (updateTable mknewdgrptab (rmdgrpmems b b' dgrp mems) o d.dir) ↔
        PlanSafe o o.unlinkTemp d (rmdgrpmems b b' dgrp mems)) ∧
    ∀ a dgrp members old ent, d.dir.read .table = some old →
      getdgrprec (readDgrptab b old) dgrp = some ent →
      (KeepsTable d.dir (some (adddgrptabrec b b' o a dgrp members d.dir)) ↔
        (members ≠ [] → InstallSafe o o.unlinkTemp old (addTexts b' ent members old))) := by
  refine ⟨?_, ?_, ?_, ?_, ?_, ?_⟩
  · intro device attrval
    exact devTable_keeps d _
  · intro device
    exact devTable_keeps d _
  · intro device attributes
    exact devTable_keeps d _
  · intro dgrp
    exact dgrpTable_keeps d _
  · intro dgrp mems
    exact dgrpTable_keeps d _
  · intro a dgrp members old ent hread hg
    exact adddgrptabrec_keeps d hread hg b' members

end Keeps

/-- A write that fails leaves the group in the table. -/
theorem failed_update_keeps_group :
    getdgrprec (readDgrptab ⟨0, 0⟩ "g:a\n".toList) "g".toList =
        some ⟨0, .group "g".toList ["a".toList]⟩ ∧
      (adddgrptabrec ⟨0, 0⟩ ⟨0, 0⟩ { TabOutcomes.ok with puts := fun _ => false } ⟨true, true,
        0, none⟩
        "g".toList ["b".toList] (TabDir.of "g:a\n".toList).dir).failed = true ∧
      KeepsTable (TabDir.of "g:a\n".toList).dir
        (some (adddgrptabrec ⟨0, 0⟩ ⟨0, 0⟩ { TabOutcomes.ok with puts := fun _ => false }
          ⟨true, true, 0, none⟩ "g".toList ["b".toList] (TabDir.of "g:a\n".toList).dir)) := by
  have hg : getdgrprec (readDgrptab ⟨0, 0⟩ "g:a\n".toList) "g".toList =
      some ⟨0, .group "g".toList ["a".toList]⟩ := by decide +kernel
  refine ⟨hg, by decide +kernel, ?_⟩
  obtain ⟨-, -, -, -, -, h⟩ := failed_update_keeps_iff
    (o := { TabOutcomes.ok with puts := fun _ => false }) (TabDir.of "g:a\n".toList)
    (fun _ => none) ⟨0, 0⟩ ⟨0, 0⟩
  refine (h ⟨true, true, 0, none⟩ "g".toList ["b".toList] "g:a\n".toList _ rfl hg).mpr ?_
  rintro - ⟨-, -, -, hputs, -⟩
  have := hputs 0 (by decide +kernel)
  cases this

/-- When the new table cannot be linked the table is gone. -/
theorem failed_update_loses :
    ∃ res, updateTable mknewdevtab
        (moddevtabrec (fun _ => none) ⟨0, 0⟩ ⟨0, 0⟩ "tp".toList ["x=1".toList])
        { TabOutcomes.ok with linkTable := false } (TabDir.of "tp::::\n".toList).dir = some res ∧
      res.ret = false ∧ res.failed = true ∧ res.dir.read .table = none := by
  have hplan : moddevtabrec (fun _ => none) ⟨0, 0⟩ ⟨0, 0⟩ "tp".toList ["x=1".toList]
      "tp::::\n".toList = .write ["tp::::x=\"1\"\n".toList] true := by decide +kernel
  have hread : (TabDir.of "tp::::\n".toList).dir.read .table = some "tp::::\n".toList := rfl
  obtain ⟨h₁, h₂, h₃⟩ := (installTable_dev (o := { TabOutcomes.ok with linkTable := false })
    (TabDir.of "tp::::\n".toList) hread ["tp::::x=\"1\"\n".toList] true).lost (fun _ _ => rfl)
      rfl rfl
  refine ⟨_, ?_, h₂, h₁, h₃⟩
  simp only [updateTable, TabOutcomes.ok, hread, hplan]
  rfl

end Pkgtools
