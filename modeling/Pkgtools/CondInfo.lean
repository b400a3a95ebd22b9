import Pkgtools.SmlEdit
import Pkgtools.SmlDefined
import Pkgtools.SmlSpaces
import Pkgtools.PutParam

namespace Pkgtools
open CLib
set_option autoImplicit true

def PKGCOND_GLOBAL_VARIABLE : Str := "SUNW_PKGCOND_GLOBAL_DATA".toList
def TAG_COND_TOPLEVEL : Str := "environmentConditionInformation".toList
def TAG_COND_PARENT_ZONE : Str := "parentZone".toList
def TAG_COND_CURRENT_ZONE : Str := "currentZone".toList
def TAG_COND_ZONE_NAME : Str := "zoneName".toList
def TAG_COND_ZONE_TYPE : Str := "zoneType".toList
def TAG_COND_INHERITED_FS : Str := "inheritedFileSystem".toList
def TAG_COND_FS_NAME : Str := "fileSystemName".toList

def TAG_VALUE_GLOBAL_ZONE : Str := "global".toList
def TAG_VALUE_NONGLOBAL_ZONE : Str := "nonglobal".toList

/-- What the zone that `pkginstall` runs in answers: its name, whether it is the global one, and the
file systems that it inherits. -/
structure ZoneAnswers where
  zonename : Option Str
  inGlobalZone : Bool
  inherited : Option (List Str)

section Put

/-- `describe any inherited file systems`. -/
def addInherited : SmlTag → List Str → Option SmlTag
  | tag, [] => some tag
  | tag, fs :: fss => do
    let ntag ← smlNewTag TAG_COND_INHERITED_FS
    let ntag ← smlSetParam ntag TAG_COND_FS_NAME fs
    let added ← smlAddTag tag (-1) ntag
    addInherited added.2 fss

/-- `current zone name`, which is left out where it is not known. -/
def setZoneName (z : ZoneAnswers) (ntag : SmlTag) : Option SmlTag :=
  match z.zonename with
  | none => some ntag
  | some p => if p = [] then some ntag else smlSetParam ntag TAG_COND_ZONE_NAME p

/-- The tag of `putConditionInfo`. -/
def conditionTag (z : ZoneAnswers) (parentZoneName parentZoneType : Option Str) :
    Option SmlTag := do
  let tag ← smlNewTag TAG_COND_TOPLEVEL
  let ntag ← smlNewTag TAG_COND_PARENT_ZONE
  let ntag ← smlSetParam ntag TAG_COND_ZONE_NAME (parentZoneName.getD [])
  let ntag ← smlSetParam ntag TAG_COND_ZONE_TYPE (parentZoneType.getD [])
  let added ← smlAddTag tag (-1) ntag
  let ntag ← smlNewTag TAG_COND_CURRENT_ZONE
  let ntag ← setZoneName z ntag
  let ntag ← smlSetParam ntag TAG_COND_ZONE_TYPE
    (if z.inGlobalZone then TAG_VALUE_GLOBAL_ZONE else TAG_VALUE_NONGLOBAL_ZONE)
  let added ← smlAddTag added.2 (-1) ntag
  addInherited added.2 (z.inherited.getD [])

/-- `putConditionInfo`, where there are zones: the tag is put into the environment as one line. -/
def putConditionInfo (z : ZoneAnswers) (parentZoneName parentZoneType : Option Str)
    (environ : List Str) : Option (List Str) :=
  (conditionTag z parentZoneName parentZoneType).map fun tag =>
    putparam PKGCOND_GLOBAL_VARIABLE (spaced (smlWriteSimpleTag [] tag)) environ

end Put

/-- The fields of `GLOBALDATA_T` that `parseGlobalData` sets. -/
structure GlobalData where
  initialInstall : Bool
  globalZoneInstall : Bool
  nonglobalZoneInstall : Bool
  zoneName : Str
  patchClientVersion : Str
  parentZoneName : Option Str
  parentZoneType : Option Str
  installRoot : Str
  currentZoneName : Option Str
  currentZoneType : Option Str
  inheritedFileSystems : Option (List Str)
  deriving DecidableEq, Repr

/-- What `calloc` makes of it. -/
def GlobalData.zeroed : GlobalData :=
  ⟨false, false, false, [], [], none, none, [], none, none, none⟩

inductive ParseResult where
  | success
  | failure
  deriving DecidableEq, Repr

section Parse
variable (sun : Bool) (zone : Option Str) (environ : List Str)

def setVariable (name : String) : Option Str := (environValue environ name.toList).filter (· ≠ [])

/-- The part of `parseGlobalData` that reads the variables of the installation. Without zones the
name of the zone that is installed is not looked at. -/
def parseInstall (gdt : GlobalData) : GlobalData :=
  let gdt := match environValue environ "PKG_INIT_INSTALL".toList with
    | some a =>
      if strcasecmp a "true".toList = 0 then { gdt with initialInstall := true } else gdt
    | none => gdt
  let gdt := { gdt with zoneName := zone.getD [] }
  let gdt := match setVariable environ "SUNW_PKG_INSTALL_ZONENAME" with
    | none => { gdt with globalZoneInstall := false, nonglobalZoneInstall := false }
    | some a =>
      if sun = false then gdt
      else if a = "global".toList then
        { gdt with globalZoneInstall := true, nonglobalZoneInstall := false, zoneName := a }
      else { gdt with globalZoneInstall := false, nonglobalZoneInstall := true, zoneName := a }
  { gdt with
    installRoot := ((setVariable environ "PKG_INSTALL_ROOT").or
      (setVariable environ "ROOTDIR")).getD "/".toList
    patchClientVersion := (environValue environ "PATCH_CLIENT_VERSION".toList).getD [] }

/-- `extract any inherited file systems`. The list of the pass before is forgotten: each pass begins
with `char **ifs = NULL`. -/
def inheritedLoop (ntag : SmlTag) : Nat → Nat → GlobalData → Option GlobalData
  | 0, _, _ => none
  | passes + 1, n, gdt =>
    let ifs : Option (List Str) := none
    match smlGetParamByTag ntag n TAG_COND_INHERITED_FS TAG_COND_FS_NAME with
    | none => none
    | some none => some (if n > 0 then { gdt with inheritedFileSystems := ifs } else gdt)
    | some (some _) => inheritedLoop ntag passes (n + 1) gdt

/-- What is extracted from the tag of `putConditionInfo`. -/
def parseCondition (ntag : SmlTag) (gdt : GlobalData) : Option GlobalData := do
  let a ← smlGetParamByTag ntag 0 TAG_COND_PARENT_ZONE TAG_COND_ZONE_NAME
  let gdt := { gdt with parentZoneName := a }
  let a ← smlGetParamByTag ntag 0 TAG_COND_PARENT_ZONE TAG_COND_ZONE_TYPE
  let gdt := { gdt with parentZoneType := a }
  let a ← smlGetParamByTag ntag 0 TAG_COND_CURRENT_ZONE TAG_COND_ZONE_NAME
  let gdt := { gdt with currentZoneName := a }
  let a ← smlGetParamByTag ntag 0 TAG_COND_CURRENT_ZONE TAG_COND_ZONE_TYPE
  let gdt := { gdt with currentZoneType := a }
  inheritedLoop ntag (ntag.tags.length + 2) 0 gdt

/-- `parseGlobalData`; undefined where the conversion of the variable is. -/
def parseGlobalData (envVar : Str) (gdt : Option GlobalData) : Option (ParseResult × GlobalData) :=
  let gdt := parseInstall sun zone environ (gdt.getD GlobalData.zeroed)
  match environValue environ envVar with
  | none => some (.success, gdt)
  | some a =>
    if envVar = [] then some (.success, gdt)
    else match smlConvertStringToTag a with
      | .error .undefined => none
      | .error .resultErr => some (.failure, gdt)
      | .ok tag =>
        match smlGetTagByName tag 0 TAG_COND_TOPLEVEL with
        | none => some (.failure, gdt)
        | some ntag => (parseCondition ntag.target gdt).map (ParseResult.success, ·)

end Parse

def parentTag (parentZoneName parentZoneType : Option Str) : SmlTag :=
  .mk TAG_COND_PARENT_ZONE [⟨TAG_COND_ZONE_NAME, parentZoneName.getD []⟩,
    ⟨TAG_COND_ZONE_TYPE, parentZoneType.getD []⟩] []

/-- The type of the zone that `pkginstall` runs in. -/
def ZoneAnswers.zoneType (z : ZoneAnswers) : Str :=
  if z.inGlobalZone then TAG_VALUE_GLOBAL_ZONE else TAG_VALUE_NONGLOBAL_ZONE

def ZoneAnswers.shownName (z : ZoneAnswers) : Option Str := z.zonename.filter (· ≠ [])

def currentTag (z : ZoneAnswers) : SmlTag :=
  .mk TAG_COND_CURRENT_ZONE (z.shownName.toList.map (⟨TAG_COND_ZONE_NAME, ·⟩) ++
    [⟨TAG_COND_ZONE_TYPE, z.zoneType⟩]) []

def inheritedTag (fs : Str) : SmlTag := .mk TAG_COND_INHERITED_FS [⟨TAG_COND_FS_NAME, fs⟩] []

def conditionTags (z : ZoneAnswers) (parentZoneName parentZoneType : Option Str) : List SmlTag :=
  parentTag parentZoneName parentZoneType :: currentTag z ::
    (z.inherited.getD []).map inheritedTag

structure ZoneFits (z : ZoneAnswers) (parentZoneName parentZoneType : Option Str) : Prop where
  parentZoneName : ∀ v ∈ parentZoneName, ValueFits v
  parentZoneType : ∀ v ∈ parentZoneType, ValueFits v
  zonename : ∀ v ∈ z.zonename, ValueFits v
  inherited : ∀ fss ∈ z.inherited, ∀ v ∈ fss, ValueFits v

section Message
variable {z : ZoneAnswers} {pn pt : Option Str}

theorem smlNewTag_eq (h : name ≠ []) : smlNewTag name = some (.mk name [] []) := if_neg h

theorem addInherited_eq (fss : List Str) (name : Str) (tags : List SmlTag) :
    addInherited (.mk name [] tags) fss = some (.mk name [] (tags ++ fss.map inheritedTag)) := by
  induction fss generalizing tags with
  | nil => rw [addInherited, List.map_nil, List.append_nil]
  | cons fs fss ih =>
    rw [addInherited, smlNewTag_eq (by decide), Option.bind_eq_bind, Option.bind_some,
      smlSetParam_new (by decide) List.not_mem_nil, Option.bind_eq_bind, Option.bind_some,
      smlAddTag_end, Option.bind_some]
    dsimp only [SmlTag.name, SmlTag.params, SmlTag.tags]
    rw [ih, List.append_assoc]
    rfl

theorem setZoneName_eq (z : ZoneAnswers) : setZoneName z (.mk TAG_COND_CURRENT_ZONE [] []) =
    some (.mk TAG_COND_CURRENT_ZONE (z.shownName.toList.map (⟨TAG_COND_ZONE_NAME, ·⟩)) []) := by
  rw [setZoneName, ZoneAnswers.shownName]
  cases z.zonename with
  | none => rfl
  | some p =>
    by_cases hp : p = []
    · rw [hp]
      rfl
    · have hshown : (some p).filter (fun v => decide (v ≠ [])) = some p := by
        rw [Option.filter_some, if_pos (decide_eq_true hp)]
      rw [hshown]
      dsimp only
      rw [if_neg hp, smlSetParam_new (by decide) List.not_mem_nil]
      rfl

theorem conditionTag_eq (z : ZoneAnswers) (pn pt : Option Str) :
    conditionTag z pn pt = some (.mk TAG_COND_TOPLEVEL [] (conditionTags z pn pt)) := by
  have hne : TAG_COND_ZONE_TYPE ≠ TAG_COND_ZONE_NAME := by decide
  have hname (v : Str) :
      TAG_COND_ZONE_TYPE ∉ [SmlParam.mk TAG_COND_ZONE_NAME v].map SmlParam.name :=
    fun h => hne (List.mem_singleton.mp h)
  have hshown : TAG_COND_ZONE_TYPE ∉
      (z.shownName.toList.map fun p => SmlParam.mk TAG_COND_ZONE_NAME p).map SmlParam.name := by
    intro hmem
    rw [List.map_map] at hmem
    obtain ⟨p, -, hp⟩ := List.mem_map.mp hmem
    exact hne hp.symm
  simp only [conditionTag, smlNewTag_eq (show TAG_COND_TOPLEVEL ≠ [] by decide),
    smlNewTag_eq (show TAG_COND_PARENT_ZONE ≠ [] by decide),
    smlNewTag_eq (show TAG_COND_CURRENT_ZONE ≠ [] by decide), Option.bind_eq_bind, Option.bind_some]
  rw [smlSetParam_new (by decide) List.not_mem_nil, Option.bind_some,
    smlSetParam_new (by decide) (hname _), Option.bind_some, smlAddTag_end, Option.bind_some,
    setZoneName_eq, Option.bind_some, smlSetParam_new (by decide) hshown, Option.bind_some,
    smlAddTag_end, Option.bind_some]
  exact addInherited_eq _ _ _

theorem elementName_cond {name : Str} (h : name ∈ [TAG_COND_TOPLEVEL, TAG_COND_PARENT_ZONE,
    TAG_COND_CURRENT_ZONE, TAG_COND_INHERITED_FS]) : ElementName name :=
  ⟨by revert name; decide, by revert name; decide, by revert name; decide⟩

theorem paramName_cond {name : Str} (h : name ∈ [TAG_COND_ZONE_NAME, TAG_COND_ZONE_TYPE,
    TAG_COND_FS_NAME]) : ParamName name := by
  have hstart : ∀ n ∈ [TAG_COND_ZONE_NAME, TAG_COND_ZONE_TYPE, TAG_COND_FS_NAME],
      n.head?.all paramStartChar := by decide
  refine ⟨by revert name; decide, fun c hc => ?_, by revert name; decide, by revert name; decide⟩
  have hall := hstart name h
  rw [Option.mem_def.mp hc] at hall
  exact hall

theorem valueFits_const {v : Str} (h : v ∈ [[], TAG_VALUE_GLOBAL_ZONE, TAG_VALUE_NONGLOBAL_ZONE]) :
    ValueFits v :=
  ⟨by revert v; decide, by revert v; decide, by revert v; decide⟩

theorem ValueFits.getD {o : Option Str} (h : ∀ v ∈ o, ValueFits v) : ValueFits (o.getD []) := by
  cases o with
  | none => exact valueFits_const List.mem_cons_self
  | some v => exact h v rfl

theorem allFit_of {tags : List SmlTag} (h : ∀ tag ∈ tags, tag.Fits) : AllFit tags := by
  induction tags with
  | nil => exact trivial
  | cons tag tags ih =>
    exact ⟨h tag List.mem_cons_self, ih fun t ht => h t (List.mem_cons_of_mem _ ht)⟩

theorem ZoneFits.conditionTag (h : ZoneFits z pn pt) :
    (SmlTag.mk TAG_COND_TOPLEVEL [] (conditionTags z pn pt)).Fits := by
  have hzoneName : ParamName TAG_COND_ZONE_NAME := paramName_cond (by decide)
  have hzoneType : ParamName TAG_COND_ZONE_TYPE := paramName_cond (by decide)
  have hfsName : ParamName TAG_COND_FS_NAME := paramName_cond (by decide)
  refine ⟨elementName_cond (by decide), List.forall_mem_nil _, ?_, ?_, allFit_of ?_⟩
  · refine ⟨elementName_cond (by decide), fun p hp => ?_, trivial⟩
    rcases List.mem_pair.mp hp with rfl | rfl
    · exact ⟨hzoneName, ValueFits.getD h.parentZoneName⟩
    · exact ⟨hzoneType, ValueFits.getD h.parentZoneType⟩
  · refine ⟨elementName_cond (by decide), fun p hp => ?_, trivial⟩
    rcases List.mem_append.mp hp with hp | hp
    · obtain ⟨v, hv, rfl⟩ := List.mem_map.mp hp
      have hname : v ∈ z.zonename := (Option.filter_eq_some_iff.mp (Option.mem_toList.mp hv)).1
      exact ⟨hzoneName, h.zonename v hname⟩
    · rw [List.mem_singleton.mp hp]
      refine ⟨hzoneType, valueFits_const ?_⟩
      rw [ZoneAnswers.zoneType]
      cases z.inGlobalZone <;> decide
  · rintro tag htag
    obtain ⟨fs, hfs, rfl⟩ := List.mem_map.mp htag
    refine ⟨elementName_cond (by decide), fun p hp => ?_, trivial⟩
    rw [List.mem_singleton.mp hp]
    refine ⟨hfsName, ?_⟩
    cases hinherited : z.inherited with
    | none =>
      rw [hinherited] at hfs
      cases hfs
    | some fss =>
      rw [hinherited] at hfs
      exact h.inherited fss hinherited fs hfs

/-- Whatever the tag has, no pass of the loop sets the list of file systems. -/
theorem inheritedLoop_eq (ntag : SmlTag) (gdt : GlobalData)
    (hnull : gdt.inheritedFileSystems = none) (passes n : Nat)
    (hn : n ≤ ntag.tags.length + 1) (hpasses : ntag.tags.length + 2 ≤ n + passes) :
    inheritedLoop ntag passes n gdt = some gdt := by
  induction passes generalizing n with
  | zero => omega
  | succ passes ih =>
    have hkeep : { gdt with inheritedFileSystems := none } = gdt := by
      rw [← hnull]
    rw [inheritedLoop, smlGetParamByTag_eq (by decide) (by decide)]
    cases hget : (if ntag.name = TAG_COND_INHERITED_FS ∧ n = 0 then some ntag
        else (namedTags TAG_COND_INHERITED_FS ntag.tags)[n]?).bind
          fun t => tagParamLoop TAG_COND_FS_NAME t.params with
    | none =>
      dsimp only
      rw [hkeep, ite_self]
    | some a =>
      refine ih (n + 1) ?_ (by omega)
      by_contra hlarge
      -- behind the last element there is nothing to find
      have hlen : (namedTags TAG_COND_INHERITED_FS ntag.tags).length ≤ n :=
        Nat.le_trans (List.length_filter_le _ _) (by omega)
      rw [if_neg fun h => absurd h.2 (by omega), List.getElem?_eq_none hlen] at hget
      cases hget

theorem zoneTag_ne {tagName : Str} (h : tagName ∈ [TAG_COND_PARENT_ZONE, TAG_COND_CURRENT_ZONE]) :
    tagName ≠ [] ∧ TAG_COND_TOPLEVEL ≠ tagName := by
  revert tagName
  decide

theorem zoneParam_ne {paramName : Str} (h : paramName ∈ [TAG_COND_ZONE_NAME, TAG_COND_ZONE_TYPE]) :
    paramName ≠ [] := by
  revert paramName
  decide

theorem parseCondition_eq (z : ZoneAnswers) (pn pt : Option Str) (gdt : GlobalData)
    (hnull : gdt.inheritedFileSystems = none) :
    parseCondition (.mk TAG_COND_TOPLEVEL [] (conditionTags z pn pt)) gdt =
      some { gdt with
        parentZoneName := some (pn.getD [])
        parentZoneType := some (pt.getD [])
        currentZoneName := z.shownName
        currentZoneType := some z.zoneType } := by
  have hparent : (namedTags TAG_COND_PARENT_ZONE (conditionTags z pn pt))[0]? =
      some (parentTag pn pt) := by
    rw [namedTags, conditionTags, List.filter_cons_of_pos (by rfl), List.getElem?_cons_zero]
  have hcurrent : (namedTags TAG_COND_CURRENT_ZONE (conditionTags z pn pt))[0]? =
      some (currentTag z) := by
    rw [namedTags, conditionTags, List.filter_cons_of_neg (by rw [parentTag, SmlTag.name]; decide),
      List.filter_cons_of_pos (by rfl), List.getElem?_cons_zero]
  have hname : tagParamLoop TAG_COND_ZONE_NAME (currentTag z).params = z.shownName := by
    rw [currentTag, SmlTag.params]
    cases z.shownName with
    | none => rfl
    | some v => rfl
  have htype : tagParamLoop TAG_COND_ZONE_TYPE (currentTag z).params = some z.zoneType := by
    rw [currentTag, SmlTag.params]
    cases z.shownName with
    | none => rfl
    | some v => rfl
  have hfirst {tagName paramName : Str} {t : SmlTag}
      (htag : tagName ∈ [TAG_COND_PARENT_ZONE, TAG_COND_CURRENT_ZONE])
      (hparam : paramName ∈ [TAG_COND_ZONE_NAME, TAG_COND_ZONE_TYPE])
      (h : (namedTags tagName (conditionTags z pn pt))[0]? = some t) :
      smlGetParamByTag (.mk TAG_COND_TOPLEVEL [] (conditionTags z pn pt)) 0 tagName paramName =
        some (tagParamLoop paramName t.params) :=
    smlGetParamByTag_first _ (zoneTag_ne htag).1 (zoneParam_ne hparam) (zoneTag_ne htag).2 h
  have hparentName := hfirst (by decide) (show TAG_COND_ZONE_NAME ∈ _ by decide) hparent
  have hparentType := hfirst (by decide) (show TAG_COND_ZONE_TYPE ∈ _ by decide) hparent
  have hcurrentName := hfirst (by decide) (show TAG_COND_ZONE_NAME ∈ _ by decide) hcurrent
  have hcurrentType := hfirst (by decide) (show TAG_COND_ZONE_TYPE ∈ _ by decide) hcurrent
  have hparentParams : (parentTag pn pt).params = [⟨TAG_COND_ZONE_NAME, pn.getD []⟩,
      ⟨TAG_COND_ZONE_TYPE, pt.getD []⟩] := rfl
  have hother : TAG_COND_ZONE_NAME ≠ TAG_COND_ZONE_TYPE := by decide
  rw [hparentParams, tagParamLoop, if_pos rfl] at hparentName
  rw [hparentParams, tagParamLoop, if_neg hother, tagParamLoop, if_pos rfl] at hparentType
  rw [hname] at hcurrentName
  rw [htype] at hcurrentType
  simp only [parseCondition, hparentName, hparentType, hcurrentName, hcurrentType,
    Option.bind_eq_bind, Option.bind_some]
  refine inheritedLoop_eq _ _ ?_ _ _ (Nat.zero_le _) (Nat.le_of_eq (Nat.zero_add _).symm)
  exact hnull

theorem parseInstall_inherited (sun : Bool) (zone : Option Str) (environ : List Str)
    (gdt : GlobalData) :
    (parseInstall sun zone environ gdt).inheritedFileSystems = gdt.inheritedFileSystems := by
  have hinitial : (match environValue environ "PKG_INIT_INSTALL".toList with
      | some a =>
        if strcasecmp a "true".toList = 0 then { gdt with initialInstall := true } else gdt
      | none => gdt).inheritedFileSystems = gdt.inheritedFileSystems := by
    split
    · split <;> rfl
    · rfl
  rw [← hinitial, parseInstall]
  dsimp only
  split
  · rfl
  · split
    · rfl
    · split <;> rfl

/-- What `pkginstall` puts into the environment is what `pkgcond` takes out of it, the names and the
types of both zones; but it never sees the file systems that are inherited. -/
theorem parseGlobalData_putConditionInfo (z : ZoneAnswers) (pn pt : Option Str)
    (h : ZoneFits z pn pt) (environ : List Str) (sun : Bool) (zone : Option Str) :
    ∃ environ' gdt, putConditionInfo z pn pt environ = some environ' ∧
      (∀ name : EnvName, name.val ≠ PKGCOND_GLOBAL_VARIABLE →
        environValue environ' name = environValue environ name) ∧
      parseGlobalData sun zone environ' PKGCOND_GLOBAL_VARIABLE none = some (.success, gdt) ∧
      gdt.parentZoneName = some (pn.getD []) ∧ gdt.parentZoneType = some (pt.getD []) ∧
      gdt.currentZoneName = z.zonename.filter (· ≠ []) ∧
      gdt.currentZoneType = some
        (if z.inGlobalZone then TAG_VALUE_GLOBAL_ZONE else TAG_VALUE_NONGLOBAL_ZONE) ∧
      gdt.inheritedFileSystems = none := by
  have hname : '=' ∉ PKGCOND_GLOBAL_VARIABLE := by decide
  let text := spaced (smlWriteSimpleTag [] (.mk TAG_COND_TOPLEVEL [] (conditionTags z pn pt)))
  let environ' := putparam PKGCOND_GLOBAL_VARIABLE text environ
  let gdt := parseInstall sun zone environ' GlobalData.zeroed
  have hput : putConditionInfo z pn pt environ = some environ' := by
    rw [putConditionInfo, conditionTag_eq, Option.map_some]
  have hget : environValue environ' PKGCOND_GLOBAL_VARIABLE = some text :=
    (environValue_putparam ⟨_, hname⟩ text environ ⟨_, hname⟩).trans (if_pos rfl)
  have hread : smlConvertStringToTag text = .ok (.mk "tagfile".toList []
      [.mk TAG_COND_TOPLEVEL [] (conditionTags z pn pt)]) :=
    smlConvertStringToTag_spaced _ h.conditionTag
  have hnull : gdt.inheritedFileSystems = none := parseInstall_inherited sun zone environ' _
  refine ⟨environ', { gdt with
      parentZoneName := some (pn.getD []), parentZoneType := some (pt.getD [])
      currentZoneName := z.shownName, currentZoneType := some z.zoneType }, hput, ?_, ?_,
    rfl, rfl, rfl, rfl, hnull⟩
  · intro name hne
    exact (environValue_putparam ⟨_, hname⟩ text environ name).trans
      (if_neg fun h => hne (congrArg _ h))
  · have htop : smlGetTagByName (.mk "tagfile".toList []
        [.mk TAG_COND_TOPLEVEL [] (conditionTags z pn pt)]) 0 TAG_COND_TOPLEVEL =
        some ⟨some 0, .mk TAG_COND_TOPLEVEL [] (conditionTags z pn pt)⟩ := rfl
    rw [parseGlobalData, hget]
    dsimp only
    rw [if_neg (by decide), hread]
    dsimp only
    rw [htop]
    dsimp only
    exact congrArg (Option.map _) (parseCondition_eq z pn pt gdt hnull)

def sampleZone : ZoneAnswers := ⟨some "zone one".toList, false, some ["/usr".toList]⟩

theorem parseGlobalData_putConditionInfo_sample :
    ∃ environ' gdt, putConditionInfo sampleZone (some "global".toList) none ["A=1".toList] =
        some environ' ∧
      (∀ name : EnvName, name.val ≠ PKGCOND_GLOBAL_VARIABLE →
        environValue environ' name = environValue ["A=1".toList] name) ∧
      parseGlobalData false none environ' PKGCOND_GLOBAL_VARIABLE none = some (.success, gdt) ∧
      gdt.parentZoneName = some "global".toList ∧ gdt.parentZoneType = some [] ∧
      gdt.currentZoneName = some "zone one".toList ∧
      gdt.currentZoneType = some TAG_VALUE_NONGLOBAL_ZONE ∧ gdt.inheritedFileSystems = none := by
  have hvalue : ∀ v ∈ ["global".toList, "zone one".toList, "/usr".toList], ValueFits v :=
    fun v hv => ⟨by revert v; decide, by revert v; decide, by revert v; decide⟩
  have hfits : ZoneFits sampleZone (some "global".toList) none := by
    refine ⟨fun v hv => ?_, fun v hv => ?_, fun v hv => ?_, fun fss hfss v hv => ?_⟩
    · cases hv
      exact hvalue _ (by decide)
    · cases hv
    · cases hv
      exact hvalue _ (by decide)
    · cases hfss
      rw [List.mem_singleton.mp hv]
      exact hvalue _ (by decide)
  exact parseGlobalData_putConditionInfo sampleZone _ _ hfits ["A=1".toList] false none

theorem parseCondition_some (ntag : SmlTag) (gdt : GlobalData)
    (hnull : gdt.inheritedFileSystems = none) :
    ∃ gdt', parseCondition ntag gdt = some gdt' ∧ gdt'.inheritedFileSystems = none := by
  have hget : ∀ tagName ∈ [TAG_COND_PARENT_ZONE, TAG_COND_CURRENT_ZONE],
      ∀ paramName ∈ [TAG_COND_ZONE_NAME, TAG_COND_ZONE_TYPE],
        ∃ a, smlGetParamByTag ntag 0 tagName paramName = some a := by
    intro tagName htag paramName hparam
    exact ⟨_, smlGetParamByTag_eq (zoneTag_ne htag).1 (zoneParam_ne hparam) ntag 0⟩
  obtain ⟨a₁, h₁⟩ := hget TAG_COND_PARENT_ZONE (by decide) TAG_COND_ZONE_NAME (by decide)
  obtain ⟨a₂, h₂⟩ := hget TAG_COND_PARENT_ZONE (by decide) TAG_COND_ZONE_TYPE (by decide)
  obtain ⟨a₃, h₃⟩ := hget TAG_COND_CURRENT_ZONE (by decide) TAG_COND_ZONE_NAME (by decide)
  obtain ⟨a₄, h₄⟩ := hget TAG_COND_CURRENT_ZONE (by decide) TAG_COND_ZONE_TYPE (by decide)
  simp only [parseCondition, h₁, h₂, h₃, h₄, Option.bind_eq_bind, Option.bind_some]
  refine ⟨_, inheritedLoop_eq _ _ ?_ _ _ (Nat.zero_le _) (Nat.le_of_eq (Nat.zero_add _).symm), ?_⟩
  · exact hnull
  · exact hnull

def sampleFileSystem (name : String) : Str :=
  '<' :: TAG_COND_INHERITED_FS ++ ' ' :: TAG_COND_FS_NAME ++ "=\"".toList ++ name.toList ++
    "\"/>".toList

/-- Two file systems that are inherited, one of them with a character reference in its name. -/
def sampleInherited : Str :=
  '<' :: TAG_COND_TOPLEVEL ++ '>' :: sampleFileSystem "/usr" ++ sampleFileSystem "/a&#20;b" ++
    "</".toList ++ TAG_COND_TOPLEVEL ++ ['>']

end Message

end Pkgtools
