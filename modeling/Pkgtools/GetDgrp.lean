import Pkgtools.DgrpTab
import Pkgtools.GetDev

namespace Pkgtools
open CLib
set_option autoImplicit true

def DTAB_LISTALL : Nat := 0x04

/-- `isincallerslist`. -/
def isincallerslist (name : Str) (dgroups : List Str) : Bool := dgroups.any (name == ·)

/-- The list of groups of the caller lets the group pass. An empty list is no list. -/
def groupPasses (dgroups : Option (List Str)) (options : Nat) (name : Str) : Bool :=
  match dgroups.getD [] with
  | [] => true
  | dgroups =>
    if options &&& DTAB_EXCLUDEFLAG = 0 then isincallerslist name dgroups
    else !isincallerslist name dgroups

/-- `addtodgrplist`, on the names of the list. -/
def addtodgrplist (name : Str) (dgrplist : List Str) : List Str := insertOnce name dgrplist

/-- All groups are to be listed, without a look at the devices. -/
def listallflag (criteria : Option (List Str)) (options : Nat) : Bool :=
  !(options &&& DTAB_LISTALL == 0 || criteria.getD [] != [])

section Tables
-- The device table as the searches for one device and as `getdev` read it.
variable (stat : Str → Option Stat64) (look ents : List Devtabent)

/-- The alias of a member; a path is searched for in the device table. -/
def memberAlias (name : Str) : Option (Option Str) :=
  if name.head? = some '/' then devattr stat look name DTAB_ALIAS else some (some name)

/-- `isindevlist`, for the members of a group and the sorted list of devices. -/
def isindevlist (devlist : List Str) : List Str → Option Bool
  | [] => some false
  | name :: membership =>
    match memberAlias stat look name with
    | none => none
    | some none => isindevlist devlist membership
    | some (some mbralias) =>
      if searchSorted mbralias devlist then some true else isindevlist devlist membership

/-- The loop of `getdgrp`, where no list of devices stands for all groups. -/
def getdgrpLoop (devlist dgroups : Option (List Str)) (options : Nat) :
    List Dgrptabent → List Str → Option (List Str)
  | [], l => some l
  | e :: dgrps, l =>
    match e.body with
    | .comment _ => getdgrpLoop devlist dgroups options dgrps l
    | .group name membership =>
      if groupPasses dgroups options name then
        match devlist with
        | none => getdgrpLoop devlist dgroups options dgrps (addtodgrplist name l)
        | some devices =>
          match isindevlist stat look devices membership with
          | none => none
          | some true => getdgrpLoop devlist dgroups options dgrps (addtodgrplist name l)
          | some false => getdgrpLoop devlist dgroups options dgrps l
      else getdgrpLoop devlist dgroups options dgrps l

/-- `getdgrp`, for the entries of the table of device groups. -/
def getdgrp (dgrps : List Dgrptabent) (dgroups criteria : Option (List Str)) (options : Nat) :
    Option (List Str) :=
  if listallflag criteria options then getdgrpLoop stat look none dgroups options dgrps []
  else match getdev stat look ents none criteria (options &&& DTAB_ANDCRITERIA) with
    | none => none
    | some devlist => getdgrpLoop stat look (some devlist) dgroups options dgrps []

end Tables

def HasMember (stat : Str → Option Stat64) (look : List Devtabent) (devices : Set Str)
    (membership : List Str) : Prop :=
  ∃ m ∈ membership, ∃ device, (memberAlias stat look m).join = some device ∧ device ∈ devices

section Search
variable {stat : Str → Option Stat64} {look ents : List Devtabent}

variable (stat) in
theorem memberAlias_isSome (h : HasAliases look) (name : Str) :
    (memberAlias stat look name).isSome := by
  rw [memberAlias]
  split
  · exact devattr_isSome stat h name DTAB_ALIAS
  · rfl

theorem hasMember_cons : HasMember stat look devices (m :: membership) ↔
    (∃ device, (memberAlias stat look m).join = some device ∧ device ∈ devices) ∨
      HasMember stat look devices membership :=
  List.exists_mem_cons_iff _ _ _

variable (stat) in
/-- The search of the members, which leaves the sorted list of devices early. -/
theorem isindevlist_spec (h : HasAliases look) (hl : Ascending devlist) (membership : List Str) :
    ∃ b, isindevlist stat look devlist membership = some b ∧
      (b = true ↔ HasMember stat look {device | device ∈ devlist} membership) := by
  induction membership with
  | nil => exact ⟨false, rfl, iff_of_false Bool.false_ne_true fun ⟨_, h, _⟩ => List.not_mem_nil h⟩
  | cons m membership ih =>
    obtain ⟨b, hb, hiff⟩ := ih
    obtain ⟨found, hfound⟩ := Option.isSome_iff_exists.mp (memberAlias_isSome stat h m)
    rw [isindevlist, hasMember_cons, hfound, Option.join_some]
    cases found with
    | none => exact ⟨b, hb, by rw [hiff, or_iff_right]; rintro ⟨_, h, _⟩; cases h⟩
    | some device =>
      have hhead : (∃ device', some device = some device' ∧ device' ∈ {d | d ∈ devlist}) ↔
          device ∈ devlist := by
        constructor
        · rintro ⟨device', heq, hmem⟩
          cases heq
          exact hmem
        · intro hmem
          exact ⟨device, rfl, hmem⟩
      rw [hhead]
      by_cases hmem : device ∈ devlist
      · refine ⟨true, ?_, iff_of_true rfl (.inl hmem)⟩
        exact if_pos ((searchSorted_eq_true hl).mpr hmem)
      · refine ⟨b, ?_, by rw [hiff, or_iff_right hmem]⟩
        simp only
        rw [if_neg fun h => hmem ((searchSorted_eq_true hl).mp h), hb]

/-- The entry is a group with the name that `getdgrp` lists: the list of the caller lets it pass,
and it has one of the devices as a member, where there is a list of devices. -/
def GroupListed (stat : Str → Option Stat64) (look : List Devtabent) (devices : Option (Set Str))
    (dgroups : Option (List Str)) (options : Nat) (e : Dgrptabent) (name : Str) : Prop :=
  ∃ membership, e.body = .group name membership ∧ groupPasses dgroups options name = true ∧
    ∀ s, devices = some s → HasMember stat look s membership

variable {devlist dgroups : Option (List Str)} {options : Nat}

structure GroupsAdded (stat : Str → Option Stat64) (look : List Devtabent)
    (devices : Option (Set Str)) (dgroups : Option (List Str)) (options : Nat)
    (dgrps : List Dgrptabent) (l r : List Str) : Prop where
  ascending : Ascending r
  mem_iff : ∀ name, name ∈ r ↔
    (∃ e ∈ dgrps, GroupListed stat look devices dgroups options e name) ∨ name ∈ l

theorem GroupsAdded.skip (h : GroupsAdded stat look devices dgroups options dgrps l r)
    (hno : ∀ name, ¬ GroupListed stat look devices dgroups options e name) :
    GroupsAdded stat look devices dgroups options (e :: dgrps) l r where
  ascending := h.ascending
  mem_iff name := by rw [h.mem_iff, List.exists_mem_cons_iff, or_iff_right (hno name)]

theorem GroupsAdded.add
    (h : GroupsAdded stat look devices dgroups options dgrps (addtodgrplist name l) r)
    (hlisted : ∀ name', GroupListed stat look devices dgroups options e name' ↔ name' = name) :
    GroupsAdded stat look devices dgroups options (e :: dgrps) l r where
  ascending := h.ascending
  mem_iff name' := by
    rw [h.mem_iff, List.exists_mem_cons_iff, hlisted, addtodgrplist, mem_insertOnce, or_left_comm,
      or_assoc]

theorem groupListed_group (hbody : e.body = .group name membership)
    (hpass : groupPasses dgroups options name = true)
    (hdev : ∀ s, devices = some s → HasMember stat look s membership) (name' : Str) :
    GroupListed stat look devices dgroups options e name' ↔ name' = name := by
  constructor
  · rintro ⟨membership', hbody', -⟩
    rw [hbody] at hbody'
    cases hbody'
    rfl
  · rintro rfl
    exact ⟨membership, hbody, hpass, hdev⟩

variable (stat dgroups options) in
theorem getdgrpLoop_spec (h : HasAliases look) (hdev : ∀ l, devlist = some l → Ascending l)
    (hl : Ascending l) (dgrps : List Dgrptabent) :
    ∃ r, getdgrpLoop stat look devlist dgroups options dgrps l = some r ∧
      GroupsAdded stat look (devlist.map fun l => {device | device ∈ l}) dgroups options dgrps l
        r := by
  induction dgrps generalizing l with
  | nil =>
    refine ⟨l, rfl, hl, fun name => ?_⟩
    rw [or_iff_right]
    rintro ⟨e, he, -⟩
    exact List.not_mem_nil he
  | cons e dgrps ih =>
    obtain ⟨skipped, hskipped, hskip⟩ := ih hl
    rw [getdgrpLoop]
    cases hbody : e.body with
    | comment t =>
      refine ⟨skipped, hskipped, hskip.skip ?_⟩
      rintro name ⟨membership, h, -⟩
      rw [hbody] at h
      cases h
    | group name membership =>
      simp only
      split
      · rename_i hpass
        obtain ⟨added, hadded, hadd⟩ := ih (hl.insertOnce name)
        cases devlist with
        | none =>
          refine ⟨added, hadded, hadd.add (groupListed_group hbody hpass ?_)⟩
          intro s hs
          cases hs
        | some devices =>
          obtain ⟨b, hb, hmember⟩ :=
            isindevlist_spec stat h (hdev devices rfl) membership
          simp only [hb]
          cases b with
          | true =>
            refine ⟨added, hadded, hadd.add (groupListed_group hbody hpass ?_)⟩
            rintro s hs
            cases hs
            exact hmember.mp rfl
          | false =>
            refine ⟨skipped, hskipped, hskip.skip ?_⟩
            rintro name' ⟨membership', hbody', -, hdev'⟩
            rw [hbody] at hbody'
            cases hbody'
            exact Bool.false_ne_true (hmember.mpr (hdev' _ rfl))
      · rename_i hpass
        refine ⟨skipped, hskipped, hskip.skip ?_⟩
        rintro name' ⟨membership', hbody', hpass', -⟩
        rw [hbody] at hbody'
        cases hbody'
        exact hpass hpass'

end Search

/-- The devices whose records the criteria select. -/
def selectedDevices (ents : List Devtabent) (criteria : Option (List Str)) (options : Nat) :
    Set Str :=
  {device | ∃ e ∈ ents, ∃ d, e.body = .data d ∧ d.aliasName = some device ∧
    Selects criteria options d.value}

/-- Without a list of devices each device is listed under its alias. -/
theorem mem_selectedDevices {ents : List Devtabent} (hents : HasAliases ents)
    (hs : criteriaList criteria = some sl) :
    device ∈ insertEach [] (ents.filterMap (listedName none sl options)) ↔
      device ∈ selectedDevices ents criteria options := by
  have hmem : device ∈ insertEach [] (ents.filterMap (listedName none sl options)) ↔
      ∃ e ∈ ents, ∃ d entry, e.body = .data d ∧ d.aliasName = some entry ∧
        Selects criteria options d.value ∧ device = entry := mem_listed hents hs none id
  rw [hmem]
  refine exists_congr fun e => and_congr_right fun _ => exists_congr fun d => ?_
  constructor
  · rintro ⟨entry, hbody, hname, hsel, rfl⟩
    exact ⟨hbody, hname, hsel⟩
  · rintro ⟨hbody, hname, hsel⟩
    exact ⟨device, hbody, hname, hsel, rfl⟩

theorem selectedDevices_and (ents : List Devtabent) (criteria : Option (List Str)) (options : Nat) :
    selectedDevices ents criteria (options &&& DTAB_ANDCRITERIA) =
      selectedDevices ents criteria options := by
  simp only [selectedDevices, Selects, Nat.and_assoc, Nat.and_self]

/-- `getdgrp` returns the names, in order and once each, of the groups that the list of the caller
lets pass and that have a member among the devices which the criteria select. With the flag and no
criteria the members do not matter. -/
theorem getdgrp_spec {look ents : List Devtabent} (stat : Str → Option Stat64)
    (hlook : HasAliases look) (hents : HasAliases ents) (dgrps : List Dgrptabent)
    (dgroups criteria : Option (List Str)) (hcriteria : ∀ l, criteria = some l → [] ∉ l)
    (options : Nat) :
    ∃ l, getdgrp stat look ents dgrps dgroups criteria options = some l ∧ Ascending l ∧
      ∀ name, name ∈ l ↔ ∃ e ∈ dgrps, ∃ membership, e.body = .group name membership ∧
        groupPasses dgroups options name = true ∧
        (listallflag criteria options = true ∨
          HasMember stat look (selectedDevices ents criteria options) membership) := by
  rw [getdgrp]
  by_cases hall : listallflag criteria options = true
  · have hno : ∀ l, (none : Option (List Str)) = some l → Ascending l := fun _ h => by cases h
    obtain ⟨l, hrun, hl⟩ :=
      getdgrpLoop_spec stat dgroups options hlook hno List.Pairwise.nil dgrps
    refine ⟨l, by rw [if_pos hall, hrun], hl.ascending, fun name => ?_⟩
    rw [hl.mem_iff, or_iff_left List.not_mem_nil]
    refine exists_congr fun e => and_congr_right fun _ => exists_congr fun membership => ?_
    refine and_congr_right fun _ => and_congr_right fun _ => iff_of_true ?_ (.inl hall)
    intro s hs
    cases hs
  · obtain ⟨sl, hs⟩ := Option.isSome_iff_exists.mp (criteriaList_isSome hcriteria)
    let names := ents.filterMap (listedName none sl (options &&& DTAB_ANDCRITERIA))
    have hdev : getdev stat look ents none criteria (options &&& DTAB_ANDCRITERIA) =
        some (insertEach [] names) := getdev_eq hlook hents hs
    have hasc : Ascending (insertEach [] names) := Ascending.insertEach List.Pairwise.nil _
    have hset : {device | device ∈ insertEach [] names} =
        selectedDevices ents criteria options := by
      ext device
      rw [← selectedDevices_and]
      exact mem_selectedDevices hents hs
    obtain ⟨l, hrun, hl⟩ := getdgrpLoop_spec stat dgroups options hlook
      (fun l h => Option.some_inj.mp h ▸ hasc) List.Pairwise.nil dgrps
    refine ⟨l, by rw [if_neg hall, hdev]; exact hrun, hl.ascending, fun name => ?_⟩
    rw [hl.mem_iff, or_iff_left List.not_mem_nil]
    refine exists_congr fun e => and_congr_right fun _ => exists_congr fun membership => ?_
    refine and_congr_right fun _ => and_congr_right fun _ => ?_
    rw [or_iff_right hall, Option.map_some, hset]
    constructor
    · intro h
      exact h _ rfl
    · rintro h s hs
      cases hs
      exact h

def sampleDiskGroups : List Dgrptabent := [⟨0, .group "disks".toList ["disk1".toList]⟩]

/-- The groups that have a disk. -/
theorem getdgrp_spec_disks : ∃ l,
    getdgrp (fun _ => none) sampleDisks sampleDisks sampleDiskGroups none
      (some ["type=disk".toList]) 0 = some l ∧ Ascending l ∧
    ∀ name, name ∈ l ↔ ∃ e ∈ sampleDiskGroups, ∃ membership, e.body = .group name membership ∧
      groupPasses none 0 name = true ∧
      (listallflag (some ["type=disk".toList]) 0 = true ∨
        HasMember (fun _ => none) sampleDisks
          (selectedDevices sampleDisks (some ["type=disk".toList]) 0) membership) :=
  getdgrp_spec (fun _ => none) sampleDisks_hasAliases sampleDisks_hasAliases sampleDiskGroups none
    (some ["type=disk".toList]) (fun l h => by cases h; decide) 0

end Pkgtools
