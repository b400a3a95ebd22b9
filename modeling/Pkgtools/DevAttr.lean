import Pkgtools.DevTabOps
import Pkgtools.GetDev
import Mathlib.Data.List.Sort

namespace Pkgtools
open CLib
set_option autoImplicit true

def DevData.attrNames (d : DevData) : List Str :=
  (if d.aliasName.isSome then [DTAB_ALIAS] else []) ++
    ((if d.bdevice.isSome then [DTAB_BDEVICE] else []) ++
      ((if d.cdevice.isSome then [DTAB_CDEVICE] else []) ++
        ((if d.pathname.isSome then [DTAB_PATHNAME] else []) ++ d.attrlist.map AttrVal.attr)))

/-- `sortlist`: each name sinks into the sorted names behind it. -/
def sortlist (list : List Str) : List Str := list.insertionSort (· ≤ ·)

section Tables
variable (stat : Str → Option Stat64) (look : List Devtabent)

/-- `listdev`. -/
def listdev (device : Str) : Option (Option (List Str)) :=
  (getdevrec stat look device).map fun record =>
    record.bind fun e =>
      match e.body with
      | .comment _ => none
      | .data d => some (sortlist d.attrNames)

end Tables

/-- Each data record has a valid alias, and no two have one alias. -/
structure DistinctAliases (ents : List Devtabent) : Prop where
  valid : ∀ e ∈ ents, ∀ d, e.body = .data d → ∃ name, d.aliasName = some name ∧ validalias name
  distinct : ents.Pairwise fun e e' => ∀ d d', e.body = .data d → e'.body = .data d' →
    d.aliasName ≠ d'.aliasName

section Search
variable {stat : Str → Option Stat64} {look ents : List Devtabent}

theorem DistinctAliases.hasAliases (h : DistinctAliases ents) : HasAliases ents := by
  intro e he d hbody
  obtain ⟨name, hname, -⟩ := h.valid e he d hbody
  rw [hname]
  rfl

theorem DistinctAliases.tail (h : DistinctAliases (e :: ents)) : DistinctAliases ents :=
  ⟨fun e' he' => h.valid e' (List.mem_cons_of_mem _ he'), h.distinct.of_cons⟩

theorem findAlias_eq (h : DistinctAliases ents) (he : e ∈ ents) (hbody : e.body = .data d)
    (hname : d.aliasName = some name) : findAlias name ents = some (some e) := by
  induction ents with
  | nil => cases he
  | cons e' ents ih =>
    rw [findAlias]
    rcases List.mem_cons.mp he with rfl | he
    · simp only [hbody, hname, if_true]
    · cases hbody' : e'.body with
      | comment t => exact ih h.tail he
      | data d' =>
        obtain ⟨name', hname', -⟩ := h.valid e' List.mem_cons_self d' hbody'
        have hne : name ≠ name' := by
          rintro rfl
          refine (List.pairwise_cons.mp h.distinct).1 e he d' d hbody' hbody ?_
          rw [hname, hname']
        simp only [hname', if_neg hne]
        exact ih h.tail he

theorem devattr_alias (h : DistinctAliases ents) (he : e ∈ ents) (hbody : e.body = .data d)
    (hname : d.aliasName = some name) (attr : Str) :
    devattr stat ents name attr = some (d.value attr) := by
  obtain ⟨name', hname', hvalid⟩ := h.valid e he d hbody
  rw [hname] at hname'
  cases hname'
  rw [devattr, getdevrec, if_pos hvalid, findAlias_eq h he hbody hname, Option.map_some,
    Option.bind_some]
  simp only [hbody]

theorem value_alias (d : DevData) : d.value DTAB_ALIAS = some (d.aliasName.getD []) := rfl

theorem alias_of_devattr (h : DistinctAliases ents)
    (hattr : devattr stat ents name DTAB_ALIAS = some (some name)) :
    ∃ e ∈ ents, ∃ d, e.body = .data d ∧ d.aliasName = some name := by
  rw [devattr] at hattr
  obtain ⟨record, hrec, hval⟩ := Option.map_eq_some_iff.mp hattr
  obtain ⟨e, rfl, hdata⟩ := Option.bind_eq_some_iff.mp hval
  obtain ⟨he, d, hbody⟩ := getdevrec_some hrec
  obtain ⟨name', hname', -⟩ := h.valid e he d hbody
  rw [hbody] at hdata
  have hvalue : some (d.aliasName.getD []) = some name := hdata
  rw [hname'] at hvalue
  cases hvalue
  exact ⟨e, he, d, hbody, hname'⟩

end Search

/-- In a table with distinct aliases `getdev` returns the aliases of exactly the devices for which
what `devattr` answers meets the criteria. -/
theorem getdev_devattr {ents : List Devtabent} (stat : Str → Option Stat64)
    (h : DistinctAliases ents) (criteria : Option (List Str))
    (hcriteria : ∀ l, criteria = some l → [] ∉ l) (options : Nat) :
    ∃ l, getdev stat ents ents none criteria options = some l ∧
      ∀ name, name ∈ l ↔ devattr stat ents name DTAB_ALIAS = some (some name) ∧
        Selects criteria options fun attr => (devattr stat ents name attr).join := by
  obtain ⟨sl, hs⟩ := Option.isSome_iff_exists.mp (criteriaList_isSome hcriteria)
  refine ⟨_, getdev_eq h.hasAliases h.hasAliases hs, fun name => ?_⟩
  rw [mem_listed h.hasAliases hs none]
  have hvalue {e : Devtabent} {d : DevData} (he : e ∈ ents) (hbody : e.body = .data d)
      (hname : d.aliasName = some name) :
      (fun attr => (devattr stat ents name attr).join) = d.value := by
    funext attr
    rw [devattr_alias h he hbody hname, Option.join_some]
  constructor
  · rintro ⟨e, he, d, entry, hbody, hname, hsel, rfl⟩
    refine ⟨?_, ?_⟩
    · rw [devattr_alias h he hbody hname, value_alias, hname]
      rfl
    · rw [hvalue he hbody hname]
      exact hsel
  · rintro ⟨hattr, hsel⟩
    obtain ⟨e, he, d, hbody, hname⟩ := alias_of_devattr h hattr
    rw [hvalue he hbody hname] at hsel
    exact ⟨e, he, d, name, hbody, hname, hsel, rfl⟩

theorem sampleDisks_distinct : DistinctAliases sampleDisks where
  valid e he d hbody := by
    cases List.mem_singleton.mp he
    cases hbody
    exact ⟨_, rfl, by decide⟩
  distinct := List.pairwise_singleton _ _

/-- The search for a disk in a table with one disk. -/
theorem getdev_devattr_disk : ∃ l,
    getdev (fun _ => none) sampleDisks sampleDisks none (some ["type=disk".toList])
      DTAB_ANDCRITERIA = some l ∧
    ∀ name, name ∈ l ↔
      devattr (fun _ => none) sampleDisks name DTAB_ALIAS = some (some name) ∧
        Selects (some ["type=disk".toList]) DTAB_ANDCRITERIA fun attr =>
          (devattr (fun _ => none) sampleDisks name attr).join :=
  getdev_devattr (fun _ => none) sampleDisks_distinct (some ["type=disk".toList])
    (fun l h => by cases h; decide) DTAB_ANDCRITERIA

theorem mem_attrNames {d : DevData} : attr ∈ d.attrNames ↔
    attr = DTAB_ALIAS ∧ d.aliasName.isSome ∨ attr = DTAB_BDEVICE ∧ d.bdevice.isSome ∨
      attr = DTAB_CDEVICE ∧ d.cdevice.isSome ∨ attr = DTAB_PATHNAME ∧ d.pathname.isSome ∨
        ∃ a ∈ d.attrlist, a.attr = attr := by
  have hpart (b : Bool) (name : Str) :
      attr ∈ (if b then [name] else []) ↔ attr = name ∧ b := by
    cases b <;> simp
  rw [DevData.attrNames, List.mem_append, List.mem_append, List.mem_append, List.mem_append,
    hpart, hpart, hpart, hpart, List.mem_map]

theorem value_isSome {d : DevData} : (d.value attr).isSome ↔
    attr ∈ [DTAB_ALIAS, DTAB_CDEVICE, DTAB_BDEVICE, DTAB_PATHNAME] ∨
      ∃ a ∈ d.attrlist, a.attr = attr := by
  rw [← field_isSome (d := d), DevData.value]
  cases d.field attr with
  | some value => simp
  | none =>
    rw [Option.isSome_none, Option.isSome_map, findAttr, List.find?_isSome,
      or_iff_right Bool.false_ne_true]
    exact exists_congr fun a => and_congr_right fun _ => beq_iff_eq.trans eq_comm

theorem value_listed {d : DevData} (halias : d.aliasName.isSome) :
    (d.value attr).isSome ↔ attr ∈ d.attrNames ∨
      attr ∈ [DTAB_CDEVICE, DTAB_BDEVICE, DTAB_PATHNAME] ∧ d.value attr = some [] := by
  rw [value_isSome, mem_attrNames]
  constructor
  · rintro (h | h)
    · simp only [List.mem_cons, List.not_mem_nil, or_false] at h
      rcases h with rfl | rfl | rfl | rfl
      · exact .inl (.inl ⟨rfl, halias⟩)
      · cases hf : d.cdevice with
        | none => exact .inr ⟨by simp, congrArg (fun f => some (Option.getD f [])) hf⟩
        | some f => exact .inl (.inr (.inr (.inl ⟨rfl, rfl⟩)))
      · cases hf : d.bdevice with
        | none => exact .inr ⟨by simp, congrArg (fun f => some (Option.getD f [])) hf⟩
        | some f => exact .inl (.inr (.inl ⟨rfl, rfl⟩))
      · cases hf : d.pathname with
        | none => exact .inr ⟨by simp, congrArg (fun f => some (Option.getD f [])) hf⟩
        | some f => exact .inl (.inr (.inr (.inr (.inl ⟨rfl, rfl⟩))))
    · exact .inl (.inr (.inr (.inr (.inr h))))
  · rintro ((⟨rfl, -⟩ | ⟨rfl, -⟩ | ⟨rfl, -⟩ | ⟨rfl, -⟩ | h) | ⟨h, -⟩)
    · exact .inl (by simp)
    · exact .inl (by simp)
    · exact .inl (by simp)
    · exact .inl (by simp)
    · exact .inr h
    · exact .inl (List.mem_cons_of_mem _ h)

/-- `listdev` returns, for exactly the devices that are found, the names of their attributes in
order. Those are the names `devattr` has a value for, but for a device file or a path that is
absent, where `devattr` answers with an empty text. -/
theorem listdev_spec {look : List Devtabent} (stat : Str → Option Stat64) (hlook : HasAliases look)
    (device : Str) :
    listdev stat look device = some none ∧
        (∀ attr, devattr stat look device attr = some none) ∨
      ∃ e ∈ look, ∃ d l, e.body = .data d ∧ listdev stat look device = some (some l) ∧
        l.Perm d.attrNames ∧ l.Pairwise (· ≤ ·) ∧
        ∀ attr, (devattr stat look device attr).join = d.value attr ∧
          ((d.value attr).isSome ↔ attr ∈ l ∨
            attr ∈ [DTAB_CDEVICE, DTAB_BDEVICE, DTAB_PATHNAME] ∧ d.value attr = some []) := by
  obtain ⟨record, hrec⟩ := Option.isSome_iff_exists.mp
    (getdevrec_isSome stat hlook device)
  cases record with
  | none =>
    refine .inl ⟨?_, fun attr => ?_⟩
    · rw [listdev, hrec]
      rfl
    · rw [devattr, hrec]
      rfl
  | some e =>
    obtain ⟨he, d, hbody⟩ := getdevrec_some hrec
    refine .inr ⟨e, he, d, sortlist d.attrNames, hbody, ?_, List.perm_insertionSort _ _,
      List.pairwise_insertionSort _ _, fun attr => ⟨?_, ?_⟩⟩
    · rw [listdev, hrec, Option.map_some, Option.bind_some]
      simp only [hbody]
    · rw [devattr, hrec, Option.map_some, Option.bind_some, Option.join_some]
      simp only [hbody]
    · rw [sortlist, List.mem_insertionSort]
      exact value_listed (hlook e he d hbody)

/-- The attributes of the disk. -/
theorem listdev_spec_disk :
    listdev (fun _ => none) sampleDisks "disk1".toList = some none ∧
        (∀ attr, devattr (fun _ => none) sampleDisks "disk1".toList attr = some none) ∨
      ∃ e ∈ sampleDisks, ∃ d l, e.body = .data d ∧
        listdev (fun _ => none) sampleDisks "disk1".toList = some (some l) ∧
        l.Perm d.attrNames ∧ l.Pairwise (· ≤ ·) ∧
        ∀ attr, (devattr (fun _ => none) sampleDisks "disk1".toList attr).join = d.value attr ∧
          ((d.value attr).isSome ↔ attr ∈ l ∨
            attr ∈ [DTAB_CDEVICE, DTAB_BDEVICE, DTAB_PATHNAME] ∧ d.value attr = some []) :=
  listdev_spec (fun _ => none) sampleDisks_hasAliases "disk1".toList

end Pkgtools
