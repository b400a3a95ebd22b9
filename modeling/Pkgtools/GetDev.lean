import Pkgtools.CLib.SortedInsert
import Pkgtools.DevTabUpdate
import Mathlib.Data.Char
import Mathlib.Data.List.Lex

namespace Pkgtools
open CLib
set_option autoImplicit true

def DTAB_ANDCRITERIA : Nat := 0x01
def DTAB_EXCLUDEFLAG : Nat := 0x02

/-- How a criterion compares: EQUAL, NOTEQUAL, EXISTS, NOEXISTS or IGNORE. -/
inductive SrchFcn where
  | equal
  | notequal
  | exist
  | noexist
  | ignore
  deriving DecidableEq, Repr

/-- `struct srch`. -/
structure Srch where
  name : Str
  cmp : Str
  fcn : SrchFcn
  deriving DecidableEq, Repr

/-- A text cut at the first `c` behind its first character, as `strchr (str + 1, c)` finds it. -/
def cutBehind (c : Char) : Str → Option (Str × Str)
  | [] => none
  | x :: s =>
    match s.dropWhile (· != c) with
    | [] => none
    | _ :: cmp => some (x :: s.takeWhile (· != c), cmp)

/-- A name that ends in an exclamation mark asks for the opposite. -/
def mkSrch (fcn opposite : SrchFcn) (q : Str × Str) : Srch :=
  if q.1.getLast? = some '!' then ⟨q.1.dropLast, q.2, opposite⟩ else ⟨q.1, q.2, fcn⟩

/-- One turn of the loop of `buildsearchlist`. A text without a sign is left out. -/
def criterion (str : Str) : Option Srch :=
  match cutBehind '=' str with
  | some q => some (mkSrch .equal .notequal q)
  | none => (cutBehind ':' str).map (mkSrch .exist .noexist)

/-- `buildsearchlist`. `none` is a read behind the end of an empty text. -/
def buildsearchlist (criteria : List Str) : Option (List Srch) :=
  if [] ∈ criteria then none else some (criteria.filterMap criterion)

/-- `matches`. -/
def srchMatches (value : Option Str) (compare : Str) : SrchFcn → Bool
  | .equal => value.getD [] == compare
  | .notequal => value.getD [] != compare
  | .exist => true
  | .noexist => false
  | .ignore => false

def DevData.field (d : DevData) (name : Str) : Option (Option Str) :=
  if name = DTAB_ALIAS then some d.aliasName
  else if name = DTAB_CDEVICE then some d.cdevice
  else if name = DTAB_BDEVICE then some d.bdevice
  else if name = DTAB_PATHNAME then some d.pathname
  else none

def findAttr (name : Str) (l : List AttrVal) : Option AttrVal := l.find? fun q => name == q.attr

def criterionMet (d : DevData) (p : Srch) : Bool :=
  match d.field p.name with
  | some value => srchMatches value p.cmp p.fcn
  | none =>
    match findAttr p.name d.attrlist with
    | none => false
    | some q => srchMatches (some q.val) p.cmp p.fcn

/-- The loop of `matchallcriteria`. That a device or the path does not exist never fails. -/
def matchAllLoop (d : DevData) : List Srch → Bool
  | [] => true
  | p :: l =>
    if p.fcn = .ignore then matchAllLoop d l
    else if p.fcn = .noexist then
      if p.name = DTAB_ALIAS then false
      else if (d.field p.name).isSome then matchAllLoop d l
      else if (findAttr p.name d.attrlist).isSome then false
      else matchAllLoop d l
    else if criterionMet d p then matchAllLoop d l
    else false

/-- The loop of `matchanycriteria`. That a device or the path does not exist never matches. -/
def matchAnyLoop (d : DevData) : List Srch → Bool
  | [] => false
  | p :: l =>
    if p.fcn = .ignore then matchAnyLoop d l
    else if p.fcn = .noexist then
      if (d.field p.name).isSome then matchAnyLoop d l
      else if (findAttr p.name d.attrlist).isSome then matchAnyLoop d l
      else true
    else if criterionMet d p then true
    else matchAnyLoop d l

def matchallcriteria (d : DevData) (criteria : List Srch) : Bool :=
  if criteria = [] then true else matchAllLoop d criteria

def matchanycriteria (d : DevData) (criteria : List Srch) : Bool :=
  if criteria = [] then true else matchAnyLoop d criteria

/-- The test of a record by `getnextmatch`. -/
def recordMatches (criteria : Option (List Srch)) (options : Nat) (d : DevData) : Bool :=
  match criteria with
  | none => true
  | some criteria =>
    if options &&& DTAB_ANDCRITERIA ≠ 0 then matchallcriteria d criteria
    else matchanycriteria d criteria

/-- `getnextmatch`, with the entries that are still to be read. `none` is a record that matches and
has no alias. -/
def getnextmatch (criteria : Option (List Srch)) (options : Nat) :
    List Devtabent → Option (Option (Str × List Devtabent))
  | [] => some none
  | e :: ents =>
    match e.body with
    | .comment _ => getnextmatch criteria options ents
    | .data d =>
      if recordMatches criteria options d then d.aliasName.map fun name => some (name, ents)
      else getnextmatch criteria options ents

/-- The value of an attribute, for `devattr`. -/
def DevData.value (d : DevData) (attr : Str) : Option Str :=
  match d.field attr with
  | some value => some (value.getD [])
  | none => (findAttr attr d.attrlist).map AttrVal.val

def findDevice (devtabentry : Str) : List Str → List Str → Option Str
  | device :: devices, name :: aliases =>
    if devtabentry = name then some device else findDevice devtabentry devices aliases
  | _, _ => none

/-- `oktoaddtolist`. The list of devices comes with the aliases. -/
def oktoaddtolist (devtabentry : Str) (devices : Option (List Str × List Str)) (options : Nat) :
    Option Str :=
  match devices with
  | none => some devtabentry
  | some (devices, aliases) =>
    match findDevice devtabentry devices aliases with
    | some device => if options &&& DTAB_EXCLUDEFLAG ≠ 0 then none else some device
    | none => if options &&& DTAB_EXCLUDEFLAG ≠ 0 then some devtabentry else none

/-- `addtodevicelist`, on the names of the list. -/
def addtodevicelist (deventry : Str) (devicelist : List Str) : List Str :=
  insertOnce deventry devicelist

section Tables
-- The entries that the search for one device reads, and those that the search of `getdev` reads.
variable (stat : Str → Option Stat64) (look ents : List Devtabent)

/-- `devattr`. `none` is the comparison with a NULL alias. -/
def devattr (device attr : Str) : Option (Option Str) :=
  (getdevrec stat look device).map fun record =>
    record.bind fun e =>
      match e.body with
      | .comment _ => none
      | .data d => d.value attr

/-- `makealiaslist`. A device that is not found has the alias "". -/
def makealiaslist : List Str → Option (List Str)
  | [] => some []
  | device :: devices =>
    match devattr stat look device DTAB_ALIAS, makealiaslist devices with
    | some name, some aliases => some (name.getD [] :: aliases)
    | _, _ => none

/-- The loop of `getdev`. -/
def getdevLoop (devices : Option (List Str × List Str)) (criteria : Option (List Srch))
    (options : Nat) : (fuel : Nat) → List Devtabent → List Str → Option (List Str)
  | 0, _, _ => none
  | fuel + 1, ents, devicelist =>
    match getnextmatch criteria options ents with
    | none => none
    | some none => some devicelist
    | some (some (entry, ents)) =>
      match oktoaddtolist entry devices options with
      | none => getdevLoop devices criteria options fuel ents devicelist
      | some device =>
        getdevLoop devices criteria options fuel ents (addtodevicelist device devicelist)

/-- The constraint of `getdev`: the devices with their aliases. -/
def constraintList : Option (List Str) → Option (Option (List Str × List Str))
  | none => some none
  | some devices => (makealiaslist stat look devices).map fun aliases => some (devices, aliases)

def criteriaList : Option (List Str) → Option (Option (List Srch))
  | none => some none
  | some criteria => (buildsearchlist criteria).map some

def getdev (devices criteria : Option (List Str)) (options : Nat) : Option (List Str) :=
  match constraintList stat look devices, criteriaList criteria with
  | some devices, some criteria =>
    getdevLoop devices criteria options (ents.length + 1) ents []
  | _, _ => none

end Tables

/-- What a criterion asks of the value of its attribute. -/
def Srch.Asks (p : Srch) (value : Option Str) : Prop :=
  match p.fcn with
  | .equal => value = some p.cmp
  | .notequal => ∃ v, value = some v ∧ v ≠ p.cmp
  | .exist => value.isSome
  | .noexist => value = none
  | .ignore => False

/-- The criterion that a device file or the path does not exist, which `matchallcriteria` skips. -/
def Srch.Skipped (p : Srch) : Prop :=
  p.fcn = .noexist ∧ p.name ∈ [DTAB_CDEVICE, DTAB_BDEVICE, DTAB_PATHNAME]

/-- The criteria select a device with these values of its attributes: it meets all of them, or one
of them, or there are none. -/
def Selects (criteria : Option (List Str)) (options : Nat) (value : Str → Option Str) : Prop :=
  match criteria with
  | none => True
  | some criteria =>
    if options &&& DTAB_ANDCRITERIA ≠ 0 then
      ∀ c ∈ criteria, ∀ p, criterion c = some p → p.Asks (value p.name) ∨ p.Skipped
    else (∃ c ∈ criteria, ∃ p, criterion c = some p ∧ p.Asks (value p.name)) ∨
      ∀ c ∈ criteria, criterion c = none

/-- The entry is listed under this name, where each device of the list has an alias. -/
def ListedAs (aliasOf : Str → Str) (devices : Option (List Str)) (options : Nat)
    (entry device : Str) : Prop :=
  match devices with
  | none => device = entry
  | some devices =>
    if options &&& DTAB_EXCLUDEFLAG ≠ 0 then device = entry ∧ ∀ x ∈ devices, aliasOf x ≠ entry
    else ∃ before behind, devices = before ++ device :: behind ∧ aliasOf device = entry ∧
      ∀ x ∈ before, aliasOf x ≠ entry

def HasAliases (ents : List Devtabent) : Prop :=
  ∀ e ∈ ents, ∀ d, e.body = .data d → d.aliasName.isSome

theorem HasAliases.tail (h : HasAliases (e :: ents)) : HasAliases ents :=
  fun e' he' => h e' (List.mem_cons_of_mem _ he')

theorem mkSrch_fcn (fcn opposite : SrchFcn) (q : Str × Str) :
    (mkSrch fcn opposite q).fcn = fcn ∨ (mkSrch fcn opposite q).fcn = opposite := by
  rw [mkSrch]
  split
  · exact .inr rfl
  · exact .inl rfl

theorem criterion_fcn (h : criterion str = some p) : p.fcn ≠ .ignore := by
  rw [criterion] at h
  split at h
  · rename_i q hq
    cases h
    rcases mkSrch_fcn .equal .notequal q with h | h <;> rw [h] <;> simp
  · obtain ⟨q, -, rfl⟩ := Option.map_eq_some_iff.mp h
    rcases mkSrch_fcn .exist .noexist q with h | h <;> rw [h] <;> simp

section Records
variable {d : DevData} {p : Srch}

theorem field_isSome :
    (d.field name).isSome ↔ name ∈ [DTAB_ALIAS, DTAB_CDEVICE, DTAB_BDEVICE, DTAB_PATHNAME] := by
  rw [DevData.field]
  split
  · simp_all
  · split
    · simp_all
    · split
      · simp_all
      · split <;> simp_all

theorem srchMatches_iff (hno : p.fcn ≠ .noexist) (hig : p.fcn ≠ .ignore) (value : Option Str) :
    srchMatches value p.cmp p.fcn = true ↔ p.Asks (some (value.getD [])) := by
  rw [Srch.Asks]
  cases hfcn : p.fcn with
  | equal => simp [srchMatches]
  | notequal => simp [srchMatches]
  | exist => simp [srchMatches]
  | noexist => exact absurd hfcn hno
  | ignore => exact absurd hfcn hig

theorem criterionMet_iff (hno : p.fcn ≠ .noexist) (hig : p.fcn ≠ .ignore) :
    criterionMet d p = true ↔ p.Asks (d.value p.name) := by
  rw [criterionMet, DevData.value]
  cases hf : d.field p.name with
  | some value => exact srchMatches_iff hno hig value
  | none =>
    cases ha : findAttr p.name d.attrlist with
    | some q => exact srchMatches_iff hno hig (some q.val)
    | none =>
      refine iff_of_false Bool.false_ne_true ?_
      rw [Srch.Asks]
      cases hfcn : p.fcn with
      | noexist => exact absurd hfcn hno
      | equal => simp
      | notequal => simp
      | exist => simp
      | ignore => exact id

theorem value_eq_none :
    d.value name = none ↔ (d.field name).isSome = false ∧
      (findAttr name d.attrlist).isSome = false := by
  rw [DevData.value]
  cases d.field name with
  | some value => simp
  | none => simp

theorem matchAllLoop_iff {l : List Srch} (hl : ∀ p ∈ l, p.fcn ≠ .ignore) :
    matchAllLoop d l = true ↔ ∀ p ∈ l, p.Asks (d.value p.name) ∨ p.Skipped := by
  induction l with
  | nil => exact iff_of_true rfl fun _ h => absurd h List.not_mem_nil
  | cons p l ih =>
    obtain ⟨hp, hl⟩ := List.forall_mem_cons.mp hl
    rw [matchAllLoop, if_neg hp, List.forall_mem_cons, ← ih hl]
    by_cases hno : p.fcn = .noexist
    · have hasks : p.Asks (d.value p.name) ↔ d.value p.name = none := by rw [Srch.Asks, hno]
      rw [if_pos hno, hasks, value_eq_none, Srch.Skipped, and_iff_right hno]
      by_cases hname : p.name = DTAB_ALIAS
      · rw [if_pos hname]
        refine iff_of_false Bool.false_ne_true fun h => ?_
        rcases h.1 with h | h
        · rw [field_isSome.mpr (by simp [hname])] at h
          exact absurd h.1 (by simp)
        · rw [hname] at h
          exact absurd h (by decide)
      · rw [if_neg hname]
        split
        · rename_i hf
          have hskip := field_isSome.mp hf
          rw [List.mem_cons, or_iff_right hname] at hskip
          exact (and_iff_right (.inr hskip)).symm
        · rename_i hf
          have hf : (d.field p.name).isSome = false := Bool.eq_false_iff.mpr hf
          have hskip : p.name ∉ [DTAB_CDEVICE, DTAB_BDEVICE, DTAB_PATHNAME] := fun h => by
            rw [field_isSome.mpr (List.mem_cons_of_mem _ h)] at hf
            cases hf
          rw [or_iff_left hskip, and_iff_right hf]
          split
          · rename_i ha
            exact iff_of_false Bool.false_ne_true fun h => by rw [ha] at h; cases h.1
          · rename_i ha
            exact (and_iff_right (Bool.eq_false_iff.mpr ha)).symm
    · rw [if_neg hno, Srch.Skipped, or_iff_left fun h => hno h.1, ← criterionMet_iff hno hp]
      split
      · rename_i hmet
        exact (and_iff_right hmet).symm
      · rename_i hmet
        exact iff_of_false Bool.false_ne_true fun h => hmet h.1

theorem matchAnyLoop_iff {l : List Srch} (hl : ∀ p ∈ l, p.fcn ≠ .ignore) :
    matchAnyLoop d l = true ↔ ∃ p ∈ l, p.Asks (d.value p.name) := by
  induction l with
  | nil => exact iff_of_false Bool.false_ne_true fun ⟨_, h, _⟩ => absurd h List.not_mem_nil
  | cons p l ih =>
    obtain ⟨hp, hl⟩ := List.forall_mem_cons.mp hl
    rw [matchAnyLoop, if_neg hp, List.exists_mem_cons_iff, ← ih hl]
    by_cases hno : p.fcn = .noexist
    · have hasks : p.Asks (d.value p.name) ↔ d.value p.name = none := by rw [Srch.Asks, hno]
      rw [if_pos hno, hasks, value_eq_none]
      split
      · rename_i hf
        rw [or_iff_right fun h => by rw [hf] at h; cases h.1]
      · rename_i hf
        split
        · rename_i ha
          rw [or_iff_right fun h => by rw [ha] at h; cases h.2]
        · rename_i ha
          exact iff_of_true rfl (.inl ⟨Bool.eq_false_iff.mpr hf, Bool.eq_false_iff.mpr ha⟩)
    · rw [if_neg hno, ← criterionMet_iff hno hp]
      split
      · rename_i hmet
        exact iff_of_true rfl (.inl hmet)
      · rename_i hmet
        rw [or_iff_right hmet]

theorem mem_filterMap_criterion {criteria : List Str} :
    p ∈ criteria.filterMap criterion ↔ ∃ c ∈ criteria, criterion c = some p :=
  List.mem_filterMap

theorem criteria_ne_ignore {criteria : List Str} :
    ∀ p ∈ criteria.filterMap criterion, p.fcn ≠ .ignore := by
  intro p hp
  obtain ⟨c, -, hc⟩ := mem_filterMap_criterion.mp hp
  exact criterion_fcn hc

theorem matchallcriteria_iff {criteria : List Str} :
    matchallcriteria d (criteria.filterMap criterion) = true ↔
      ∀ c ∈ criteria, ∀ p, criterion c = some p → p.Asks (d.value p.name) ∨ p.Skipped := by
  have hloop : matchallcriteria d (criteria.filterMap criterion) =
      matchAllLoop d (criteria.filterMap criterion) := by
    rw [matchallcriteria]
    split
    · rename_i hnil
      rw [hnil, matchAllLoop]
    · rfl
  rw [hloop, matchAllLoop_iff criteria_ne_ignore]
  constructor
  · intro h c hc p hp
    exact h p (mem_filterMap_criterion.mpr ⟨c, hc, hp⟩)
  · intro h p hp
    obtain ⟨c, hc, hp⟩ := mem_filterMap_criterion.mp hp
    exact h c hc p hp

theorem matchanycriteria_iff {criteria : List Str} :
    matchanycriteria d (criteria.filterMap criterion) = true ↔
      (∃ c ∈ criteria, ∃ p, criterion c = some p ∧ p.Asks (d.value p.name)) ∨
        ∀ c ∈ criteria, criterion c = none := by
  rw [matchanycriteria]
  split
  · rename_i hnil
    exact iff_of_true rfl (.inr (List.filterMap_eq_nil_iff.mp hnil))
  · rename_i hne
    rw [matchAnyLoop_iff criteria_ne_ignore,
      or_iff_left fun h => hne (List.filterMap_eq_nil_iff.mpr h)]
    constructor
    · rintro ⟨p, hp, hasks⟩
      obtain ⟨c, hc, hp⟩ := mem_filterMap_criterion.mp hp
      exact ⟨c, hc, p, hp, hasks⟩
    · rintro ⟨c, hc, p, hp, hasks⟩
      exact ⟨p, mem_filterMap_criterion.mpr ⟨c, hc, hp⟩, hasks⟩

theorem recordMatches_iff (hs : criteriaList criteria = some sl) (options : Nat) :
    recordMatches sl options d = true ↔ Selects criteria options d.value := by
  cases criteria with
  | none =>
    cases hs
    exact iff_of_true rfl trivial
  | some criteria =>
    obtain ⟨l, hl, rfl⟩ := Option.map_eq_some_iff.mp hs
    rw [buildsearchlist] at hl
    split at hl
    · cases hl
    · cases hl
      rw [recordMatches, Selects]
      split
      · exact matchallcriteria_iff
      · exact matchanycriteria_iff

end Records

/-- The alias that `makealiaslist` has for a device. -/
def aliasOf (stat : Str → Option Stat64) (look : List Devtabent) (device : Str) : Str :=
  (devattr stat look device DTAB_ALIAS).join.getD []

def listedName (devices : Option (List Str × List Str)) (criteria : Option (List Srch))
    (options : Nat) (e : Devtabent) : Option Str :=
  match e.body with
  | .comment _ => none
  | .data d =>
    if recordMatches criteria options d then
      d.aliasName.bind fun name => oktoaddtolist name devices options
    else none

section Search
variable {stat : Str → Option Stat64} {look ents : List Devtabent}

theorem findAlias_isSome (h : HasAliases look) (device : Str) : (findAlias device look).isSome := by
  induction look with
  | nil => rfl
  | cons e ents ih =>
    rw [findAlias]
    cases hbody : e.body with
    | comment t => exact ih h.tail
    | data d =>
      obtain ⟨name, hname⟩ := Option.isSome_iff_exists.mp (h e List.mem_cons_self d hbody)
      simp only [hname]
      split
      · rfl
      · exact ih h.tail

variable (stat) in
theorem getdevrec_isSome (h : HasAliases look) (device : Str) :
    (getdevrec stat look device).isSome := by
  rw [getdevrec]
  split
  · exact findAlias_isSome h device
  · split
    · rfl
    · split <;> rfl

variable (stat) in
theorem devattr_isSome (h : HasAliases look) (device attr : Str) :
    (devattr stat look device attr).isSome := by
  rw [devattr, Option.isSome_map]
  exact getdevrec_isSome stat h device

theorem makealiaslist_eq (h : HasAliases look) (devices : List Str) :
    makealiaslist stat look devices = some (devices.map (aliasOf stat look)) := by
  induction devices with
  | nil => rfl
  | cons device devices ih =>
    obtain ⟨name, hname⟩ := Option.isSome_iff_exists.mp
      (devattr_isSome stat h device DTAB_ALIAS)
    rw [makealiaslist, ih, hname, List.map_cons, aliasOf, hname]
    rfl

theorem findDevice_map (f : Str → Str) (entry : Str) (devices : List Str) :
    findDevice entry devices (devices.map f) = devices.find? fun x => entry == f x := by
  induction devices with
  | nil => rfl
  | cons device devices ih =>
    rw [List.map_cons, findDevice, List.find?_cons, ih]
    by_cases h : entry = f device
    · rw [if_pos h, beq_iff_eq.mpr h]
    · rw [if_neg h, beq_false_of_ne h]

theorem constraintList_eq (h : HasAliases look) (devices : Option (List Str)) :
    constraintList stat look devices =
      some (devices.map fun devices => (devices, devices.map (aliasOf stat look))) := by
  cases devices with
  | none => rfl
  | some devices => rw [constraintList, makealiaslist_eq h, Option.map_some, Option.map_some]

theorem oktoaddtolist_iff (f : Str → Str) (devices : Option (List Str)) (options : Nat) :
    oktoaddtolist entry (devices.map fun devices => (devices, devices.map f)) options =
      some device ↔ ListedAs f devices options entry device := by
  rw [oktoaddtolist.eq_def, ListedAs.eq_def]
  cases devices with
  | none => exact Option.some_inj.trans eq_comm
  | some devices =>
    simp only [Option.map_some, findDevice_map]
    cases hfind : devices.find? fun x => entry == f x with
    | none =>
      have hno : ∀ x ∈ devices, f x ≠ entry := fun x hx heq => by
        have := List.find?_eq_none.mp hfind x hx
        rw [heq, beq_self_eq_true] at this
        exact this rfl
      by_cases hexcl : options &&& DTAB_EXCLUDEFLAG ≠ 0
      · simp only [if_pos hexcl]
        rw [Option.some_inj, and_iff_left hno, eq_comm]
      · simp only [if_neg hexcl]
        refine iff_of_false (by simp) ?_
        rintro ⟨before, behind, rfl, heq, -⟩
        exact hno device (List.mem_append_right _ List.mem_cons_self) heq
    | some found =>
      obtain ⟨heq, before, behind, rfl, hbefore⟩ := List.find?_eq_some_iff_append.mp hfind
      have heq : f found = entry := (beq_iff_eq.mp heq).symm
      have hbefore : ∀ x ∈ before, f x ≠ entry := fun x hx h => by
        have := hbefore x hx
        rw [h, beq_self_eq_true] at this
        cases this
      by_cases hexcl : options &&& DTAB_EXCLUDEFLAG ≠ 0
      · simp only [if_pos hexcl]
        refine iff_of_false (by simp) fun h => ?_
        exact h.2 found (List.mem_append_right _ List.mem_cons_self) heq
      · simp only [if_neg hexcl]
        rw [Option.some_inj]
        constructor
        · rintro rfl
          exact ⟨before, behind, rfl, heq, hbefore⟩
        · rintro ⟨before', behind', hsplit, heq', hbefore'⟩
          have hfind' : (before' ++ device :: behind').find? (fun x => entry == f x) =
              some device :=
            List.find?_eq_some_iff_append.mpr ⟨beq_iff_eq.mpr heq'.symm, before', behind', rfl,
              fun x hx => by simpa using (hbefore' x hx).symm⟩
          rw [← hsplit, hfind] at hfind'
          exact Option.some_inj.mp hfind'

variable {devices : Option (List Str × List Str)} {criteria : Option (List Srch)} {options : Nat}

/-- What `getnextmatch` finds: nothing, or the next entry that is listed if its device may be. -/
def NextMatch (devices : Option (List Str × List Str)) (criteria : Option (List Srch))
    (options : Nat) (ents : List Devtabent) : Prop :=
  (getnextmatch criteria options ents = some none ∧
    ents.filterMap (listedName devices criteria options) = []) ∨
  ∃ entry ents', getnextmatch criteria options ents = some (some (entry, ents')) ∧
    HasAliases ents' ∧ ents'.length < ents.length ∧
    ents.filterMap (listedName devices criteria options) =
      (oktoaddtolist entry devices options).toList ++
        ents'.filterMap (listedName devices criteria options)

theorem NextMatch.skip (h : NextMatch devices criteria options ents)
    (hlist : listedName devices criteria options e = none)
    (hnext : getnextmatch criteria options (e :: ents) = getnextmatch criteria options ents) :
    NextMatch devices criteria options (e :: ents) := by
  rw [NextMatch, hnext, List.filterMap_cons_none hlist]
  rcases h with h | ⟨entry, ents', hsome, hal, hlen, hrest⟩
  · exact .inl h
  · exact .inr ⟨entry, ents', hsome, hal, Nat.lt_succ_of_lt hlen, hrest⟩

theorem getnextmatch_spec (h : HasAliases ents) : NextMatch devices criteria options ents := by
  induction ents with
  | nil => exact .inl ⟨rfl, rfl⟩
  | cons e ents ih =>
    cases hbody : e.body with
    | comment t =>
      apply (ih h.tail).skip
      · rw [listedName, hbody]
      · rw [getnextmatch, hbody]
    | data d =>
      by_cases hrec : recordMatches criteria options d = true
      · obtain ⟨name, hname⟩ := Option.isSome_iff_exists.mp (h e List.mem_cons_self d hbody)
        refine .inr ⟨name, ents, ?_, h.tail, Nat.lt_succ_self _, ?_⟩
        · rw [getnextmatch, hbody]
          simp only [hrec, if_true, hname, Option.map_some]
        · have hlist : listedName devices criteria options e =
              oktoaddtolist name devices options := by
            rw [listedName, hbody]
            simp only [hrec, if_true, hname, Option.bind_some]
          rw [List.filterMap_cons, hlist]
          cases oktoaddtolist name devices options <;> rfl
      · apply (ih h.tail).skip
        · rw [listedName, hbody]
          exact if_neg hrec
        · rw [getnextmatch, hbody]
          exact if_neg hrec

theorem getdevLoop_eq (h : HasAliases ents) (hf : ents.length < fuel) (l : List Str) :
    getdevLoop devices criteria options fuel ents l =
      some (insertEach l (ents.filterMap (listedName devices criteria options))) := by
  induction fuel generalizing ents l with
  | zero => exact absurd hf (Nat.not_lt_zero _)
  | succ fuel ih =>
    rw [getdevLoop]
    have hnext : NextMatch devices criteria options ents := getnextmatch_spec h
    rcases hnext with ⟨hnone, hnil⟩ | ⟨entry, ents', hsome, hal, hlen, hrest⟩
    · simp only [hnone]
      rw [hnil]
      rfl
    · simp only [hsome]
      rw [hrest]
      cases oktoaddtolist entry devices options with
      | none => exact ih hal (by omega) l
      | some device => exact ih hal (by omega) _

theorem criteriaList_isSome {criteria : Option (List Str)}
    (hcriteria : ∀ l, criteria = some l → [] ∉ l) : (criteriaList criteria).isSome := by
  cases criteria with
  | none => rfl
  | some l => rw [criteriaList, buildsearchlist, if_neg (hcriteria l rfl), Option.map_some,
      Option.isSome_some]

/-- `getdev` inserts the names that are listed one after the other. -/
theorem getdev_eq (hlook : HasAliases look) (hents : HasAliases ents)
    {devices criteria : Option (List Str)} (hs : criteriaList criteria = some sl) :
    getdev stat look ents devices criteria options = some (insertEach [] (ents.filterMap (listedName
      (devices.map fun devices => (devices, devices.map (aliasOf stat look))) sl options))) := by
  rw [getdev, constraintList_eq hlook, hs]
  exact getdevLoop_eq hents (Nat.lt_succ_self _) []

theorem listedName_iff {devices criteria : Option (List Str)} (hs : criteriaList criteria = some sl)
    {f : Str → Str}
    (hbody : e.body = .data d) (hname : d.aliasName = some name) :
    listedName (devices.map fun devices => (devices, devices.map f)) sl options e = some device ↔
      Selects criteria options d.value ∧ ListedAs f devices options name device := by
  rw [← oktoaddtolist_iff, ← recordMatches_iff hs, listedName, hbody]
  simp only [hname, Option.bind_some]
  split
  · rename_i hrec
    rw [and_iff_right hrec]
  · rename_i hrec
    exact iff_of_false (by simp) fun h => hrec h.1

theorem mem_listed (hents : HasAliases ents) {criteria : Option (List Str)}
    (hs : criteriaList criteria = some sl) (devices : Option (List Str)) (f : Str → Str) :
    device ∈ insertEach [] (ents.filterMap (listedName
      (devices.map fun devices => (devices, devices.map f)) sl options)) ↔
      ∃ e ∈ ents, ∃ d entry, e.body = .data d ∧ d.aliasName = some entry ∧
        Selects criteria options d.value ∧ ListedAs f devices options entry device := by
  rw [mem_insertEach, or_iff_left List.not_mem_nil, List.mem_filterMap]
  refine exists_congr fun e => and_congr_right fun he => ?_
  cases hbody : e.body with
  | comment t =>
    refine iff_of_false ?_ ?_
    · rw [listedName, hbody]
      simp
    · rintro ⟨d, entry, h, -⟩
      cases h
  | data d =>
    obtain ⟨name, hname⟩ := Option.isSome_iff_exists.mp (hents e he d hbody)
    rw [listedName_iff hs hbody hname]
    constructor
    · intro h
      exact ⟨d, name, rfl, hname, h⟩
    · rintro ⟨d', entry, hd, hentry, h⟩
      cases hd
      rw [hname] at hentry
      cases hentry
      exact h

end Search

/-- `getdev` returns the names, in order and once each, of the devices whose records the criteria
select and which the list of devices lets pass. -/
theorem getdev_spec {look ents : List Devtabent} (stat : Str → Option Stat64)
    (hlook : HasAliases look) (hents : HasAliases ents) (devices criteria : Option (List Str))
    (hcriteria : ∀ l, criteria = some l → [] ∉ l) (options : Nat) :
    ∃ l, getdev stat look ents devices criteria options = some l ∧ Ascending l ∧
      ∀ device, device ∈ l ↔ ∃ e ∈ ents, ∃ d entry, e.body = .data d ∧ d.aliasName = some entry ∧
        Selects criteria options d.value ∧
        ListedAs (aliasOf stat look) devices options entry device := by
  obtain ⟨sl, hs⟩ := Option.isSome_iff_exists.mp (criteriaList_isSome hcriteria)
  exact ⟨_, getdev_eq hlook hents hs, Ascending.insertEach List.Pairwise.nil _,
    fun device => mem_listed hents hs devices _⟩

def sampleDisks : List Devtabent :=
  [⟨0, .data ⟨some "disk1".toList, none, none, none, [⟨"type".toList, "disk".toList⟩]⟩⟩]

theorem sampleDisks_hasAliases : HasAliases sampleDisks := by
  intro e he d hbody
  cases List.mem_singleton.mp he
  cases hbody
  rfl

/-- The search for a disk that is not "disk2". -/
theorem getdev_spec_disk : ∃ l,
    getdev (fun _ => none) sampleDisks sampleDisks (some ["disk2".toList])
      (some ["type=disk".toList]) DTAB_EXCLUDEFLAG = some l ∧ Ascending l ∧
    ∀ device, device ∈ l ↔ ∃ e ∈ sampleDisks, ∃ d entry, e.body = .data d ∧
      d.aliasName = some entry ∧
      Selects (some ["type=disk".toList]) DTAB_EXCLUDEFLAG d.value ∧
      ListedAs (aliasOf (fun _ => none) sampleDisks) (some ["disk2".toList]) DTAB_EXCLUDEFLAG
        entry device :=
  getdev_spec (fun _ => none) sampleDisks_hasAliases sampleDisks_hasAliases (some ["disk2".toList])
    (some ["type=disk".toList]) (fun l h => by cases h; decide) DTAB_EXCLUDEFLAG

end Pkgtools
