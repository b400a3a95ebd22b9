import Pkgtools.Sml
import Pkgtools.SpecialContents
import Pkgtools.CLib.KeyTable
import Mathlib.Data.Set.Card

namespace Pkgtools
open CLib
set_option autoImplicit true

namespace SmlTag

def name : SmlTag → Str
  | .mk name _ _ => name

def params : SmlTag → List SmlParam
  | .mk _ params _ => params

def tags : SmlTag → List SmlTag
  | .mk _ _ tags => tags

end SmlTag

/-- A pointer to a tag that `smlGetTagByName` returns: to the tag it was given or to an element of
it, and what is there. -/
structure TagPtr where
  place : Option Nat
  target : SmlTag

section Tags

/-- `smlNewTag`. The name of a new tag is not empty. -/
def smlNewTag (name : Str) : Option SmlTag := if name = [] then none else some (.mk name [] [])

/-- `smlAddTag`: where the new element is, and the tag with it. An index that is too large, or -1,
is the end of the tag. -/
def smlAddTag (tag : SmlTag) (index : Int) (subTag : SmlTag) : Option (TagPtr × SmlTag) :=
  let index : Int := if index > tag.tags.length ∨ index = -1 then tag.tags.length else index
  if index < 0 then none
  else some (⟨some index.toNat, subTag⟩,
    .mk tag.name tag.params (tag.tags.insertIdx index.toNat subTag))

/-- `smlDelTag`. A pointer that is not to an element of the tag is ignored. -/
def smlDelTag (tag : SmlTag) (subTag : TagPtr) : SmlTag :=
  match subTag.place with
  | none => tag
  | some index => .mk tag.name tag.params (tag.tags.eraseIdx index)

/-- `search for specified element`. -/
def tagByNameLoop (name : Str) : Int → Nat → List SmlTag → Option TagPtr
  | _, _, [] => none
  | index, k, t :: ts =>
    if t.name = name then
      if index = 0 then some ⟨some k, t⟩ else tagByNameLoop name (index - 1) (k + 1) ts
    else tagByNameLoop name index (k + 1) ts

/-- `smlGetTagByName`. -/
def smlGetTagByName (tag : SmlTag) (index : Int) (name : Str) : Option TagPtr :=
  if tag.name = name ∧ index = 0 then some ⟨none, tag⟩
  else if tag.tags = [] then none
  else if tag.tags.length ≤ index then none
  else tagByNameLoop name index 0 tag.tags

/-- `smlFindAndDelTag`. -/
def smlFindAndDelTag (tag : SmlTag) (findTag : Str) : Option (Bool × SmlTag) :=
  if findTag = [] then none
  else match smlGetTagByName tag 0 findTag with
    | none => some (false, tag)
    | some rtag => some (true, smlDelTag tag rtag)

end Tags

section Params
variable (tag : SmlTag)

def smlGetNumParams : Nat := tag.params.length

/-- `scan tag object looking for specified parameter`. -/
def tagParamLoop (name : Str) : List SmlParam → Option Str
  | [] => none
  | p :: ps => if p.name = name then some p.value else tagParamLoop name ps

/-- `smlGetParam`. A name that is empty fails an assertion. -/
def smlGetParam (name : Str) : Option (Option Str) :=
  if name = [] then none else some (tagParamLoop name tag.params)

/-- The loop over the parameters that exist: the one with the name gets the value, unless it has
it. -/
def modifyLoop (name value : Str) : List SmlParam → Option (List SmlParam)
  | [] => none
  | p :: ps =>
    if p.name = name then
      if p.value = value then some (p :: ps) else some (⟨p.name, value⟩ :: ps)
    else (modifyLoop name value ps).map (p :: ·)

/-- `smlSetParam`. -/
def smlSetParam (name value : Str) : Option SmlTag :=
  if name = [] then none
  else match modifyLoop name value tag.params with
    | some ps => some (.mk tag.name ps tag.tags)
    | none => some (.mk tag.name (tag.params ++ [⟨name, value⟩]) tag.tags)

/-- `smlDelParam`: the parameters behind the one that is found move down. -/
def smlDelParam (name : Str) : Option SmlTag :=
  if name = [] then none
  else match tag.params.findIdx? (·.name = name) with
    | none => some tag
    | some k => some (.mk tag.name (tag.params.eraseIdx k) tag.tags)

/-- `smlGetParamByTag`. -/
def smlGetParamByTag (index : Int) (tagName paramName : Str) : Option (Option Str) :=
  if tagName = [] ∨ paramName = [] then none
  else match smlGetTagByName tag index tagName with
    | none => some none
    | some rtag => smlGetParam rtag.target paramName

/-- `strcasecmp` of the C library. -/
def strcasecmp (s t : Str) : Int := strcmp (s.map Char.toLower) (t.map Char.toLower)

/-- `smlParamEq`. Letters that differ in case only are equal. -/
def smlParamEq (findTag findParam str : Str) : Option Bool :=
  match smlGetTagByName tag 0 findTag with
  | none => some false
  | some rtag => (smlGetParam rtag.target findParam).map fun
    | none => false
    | some rparm => strcasecmp str rparm = 0

end Params

inductive ParamEdit where
  | set (name value : Str)
  | del (name : Str)
  deriving DecidableEq, Repr

def ParamEdit.name : ParamEdit → Str
  | .set name _ => name
  | .del name => name

def editParams : SmlTag → List ParamEdit → Option SmlTag
  | tag, [] => some tag
  | tag, .set name value :: edits => (smlSetParam tag name value).bind (editParams · edits)
  | tag, .del name :: edits => (smlDelParam tag name).bind (editParams · edits)

/-- What a change makes of the value of every name. -/
def ParamEdit.update (m : Str → Option Str) : ParamEdit → Str → Option Str
  | .set name value => Function.update m name (some value)
  | .del name => Function.update m name none

section Lookups

def namedTags (name : Str) (tags : List SmlTag) : List SmlTag := tags.filter (·.name = name)

theorem tagByNameLoop_eq (name : Str) (tags : List SmlTag) (index k : Nat) :
    (tagByNameLoop name index k tags).map TagPtr.target = (namedTags name tags)[index]? := by
  induction tags generalizing index k with
  | nil => rfl
  | cons t ts ih =>
    rw [tagByNameLoop, namedTags, List.filter_cons]
    by_cases hname : t.name = name
    · rw [if_pos hname, if_pos (decide_eq_true hname)]
      cases index with
      | zero => rfl
      | succ index =>
        rw [if_neg (by omega), List.getElem?_cons_succ, ← namedTags,
          ← ih index (k + 1), Nat.cast_succ, Int.add_sub_cancel]
    · rw [if_neg hname, if_neg (hname ∘ of_decide_eq_true), ← namedTags, ih]

/-- The element that `smlGetTagByName` finds: the tag itself, if it has the name and the first one
is wanted, or else one of its own elements with the name, counted from the front. -/
theorem smlGetTagByName_target (tag : SmlTag) (index : Nat) (name : Str) :
    (smlGetTagByName tag index name).map TagPtr.target =
      if tag.name = name ∧ index = 0 then some tag else (namedTags name tag.tags)[index]? := by
  rw [smlGetTagByName]
  simp only [Int.natCast_eq_zero, Nat.cast_le]
  split
  · rfl
  · split
    · rename_i hnil
      rw [hnil, namedTags, List.filter_nil, List.getElem?_nil, Option.map_none]
    · split
      · rename_i hle
        have hlen : (namedTags name tag.tags).length ≤ index :=
          Nat.le_trans (List.length_filter_le _ _) hle
        rw [List.getElem?_eq_none hlen, Option.map_none]
      · exact tagByNameLoop_eq name tag.tags index 0

end Lookups

section Edits
variable {tag tag' : SmlTag} {name value : Str} {ps : List SmlParam}

def paramTable : KeyTable Str SmlParam Str where
  get name p := if p.name = name then some p.value else none
  separate n n' p h h' := by
    have hname : ∀ m, (if p.name = m then some p.value else none).isSome → p.name = m := by
      intro m hm
      by_contra hne
      rw [if_neg hne] at hm
      cases hm
    rw [← hname n h, hname n' h']

theorem paramTable_get : paramTable.get name p = if p.name = name then some p.value else none := rfl

theorem paramTable_isSome : (paramTable.get name p).isSome ↔ p.name = name := by
  rw [paramTable_get]
  split
  · exact iff_of_true rfl ‹_›
  · exact iff_of_false Bool.false_ne_true ‹_›

theorem tagParamLoop_eq (name : Str) (ps : List SmlParam) :
    tagParamLoop name ps = paramTable.lookup ps name := by
  induction ps with
  | nil => rfl
  | cons p ps ih =>
    rw [tagParamLoop, KeyTable.lookup_cons, paramTable_get, ih]
    split
    · rw [Option.some_or]
    · rw [Option.none_or]

/-- What the source does in two steps, the loop and the new parameter, is one assignment. A value
that is there already stays, which makes no difference. -/
theorem modifyLoop_eq (name value : Str) (ps : List SmlParam) :
    (modifyLoop name value ps).getD (ps ++ [⟨name, value⟩]) =
      paramTable.assign name ⟨name, value⟩ ps := by
  induction ps with
  | nil => rfl
  | cons p ps ih =>
    rw [modifyLoop, KeyTable.assign]
    split
    · rename_i hname
      rw [if_pos (paramTable_isSome.mpr hname)]
      split
      · rename_i hvalue
        rw [Option.getD_some, ← hname, ← hvalue]
      · rw [Option.getD_some, hname]
    · rename_i hname
      rw [if_neg (hname ∘ paramTable_isSome.mp), ← ih]
      cases modifyLoop name value ps with
      | none => rfl
      | some qs => rfl

theorem smlSetParam_eq (hname : name ≠ []) : smlSetParam tag name value =
    some (.mk tag.name (paramTable.assign name ⟨name, value⟩ tag.params) tag.tags) := by
  rw [smlSetParam, if_neg hname, ← modifyLoop_eq]
  cases modifyLoop name value tag.params with
  | none => rfl
  | some ps => rfl

theorem smlSetParam_new (hname : name ≠ []) (h : name ∉ tag.params.map SmlParam.name)
    (value : Str) :
    smlSetParam tag name value = some (.mk tag.name (tag.params ++ [⟨name, value⟩]) tag.tags) := by
  rw [smlSetParam_eq hname, KeyTable.assign_new fun p hp => ?_]
  rw [paramTable_get, if_neg fun hp' => h (List.mem_map.mpr ⟨p, hp, hp'⟩)]

theorem smlAddTag_end (tag subTag : SmlTag) : smlAddTag tag (-1) subTag =
    some (⟨some tag.tags.length, subTag⟩, .mk tag.name tag.params (tag.tags ++ [subTag])) := by
  have hindex : (if (-1 : Int) > tag.tags.length ∨ (-1 : Int) = -1 then (tag.tags.length : Int)
      else -1) = tag.tags.length := if_pos (.inr rfl)
  rw [smlAddTag, hindex, if_neg (by omega), Int.toNat_natCast, List.insertIdx_length_self]

theorem smlGetParamByTag_eq (htag : tagName ≠ []) (hparam : paramName ≠ []) (tag : SmlTag)
    (index : Nat) : smlGetParamByTag tag index tagName paramName =
      some ((if tag.name = tagName ∧ index = 0 then some tag
        else (namedTags tagName tag.tags)[index]?).bind fun t =>
          tagParamLoop paramName t.params) := by
  rw [← smlGetTagByName_target, smlGetParamByTag, if_neg (not_or.mpr ⟨htag, hparam⟩)]
  cases smlGetTagByName tag index tagName with
  | none => rfl
  | some rtag => exact if_neg hparam

theorem smlGetParamByTag_first (tag : SmlTag) (htag : tagName ≠ []) (hparam : paramName ≠ [])
    (hname : tag.name ≠ tagName) (h : (namedTags tagName tag.tags)[0]? = some t) :
    smlGetParamByTag tag 0 tagName paramName = some (tagParamLoop paramName t.params) := by
  have hget := smlGetParamByTag_eq htag hparam tag 0
  rw [if_neg fun h => hname h.1, h, Option.bind_some] at hget
  exact hget

theorem remove_eq (name : Str) (ps : List SmlParam) : paramTable.remove name ps =
    ((ps.findIdx? (·.name = name)).map ps.eraseIdx).getD ps := by
  induction ps with
  | nil => rfl
  | cons p ps ih =>
    rw [KeyTable.remove, List.findIdx?_cons]
    by_cases hname : p.name = name
    · rw [if_pos (paramTable_isSome.mpr hname), decide_eq_true hname, if_pos rfl, Option.map_some,
        Option.getD_some, List.eraseIdx_cons_zero]
    · rw [if_neg (hname ∘ paramTable_isSome.mp), decide_eq_false hname,
        if_neg Bool.false_ne_true, ih]
      cases ps.findIdx? (·.name = name) with
      | none => rfl
      | some k => rfl

theorem smlDelParam_eq (hname : name ≠ []) : smlDelParam tag name =
    some (.mk tag.name (paramTable.remove name tag.params) tag.tags) := by
  rw [smlDelParam, if_neg hname, remove_eq]
  cases tag.params.findIdx? (·.name = name) with
  | none =>
    cases tag
    rfl
  | some k => rfl

theorem distinct_iff : paramTable.Distinct ps ↔ (ps.map SmlParam.name).Nodup := by
  rw [List.Nodup, List.pairwise_map, KeyTable.Distinct]
  refine List.Pairwise.iff fun p q => ⟨fun h hpq => ?_, fun h name hp => ?_⟩
  · have hq := h p.name (paramTable_isSome.mpr rfl)
    rw [paramTable_get, if_pos hpq.symm] at hq
    cases hq
  · rw [paramTable_get, if_neg fun hq => h ((paramTable_isSome.mp hp).trans hq.symm)]

theorem lookup_isSome : (paramTable.lookup ps name).isSome ↔ name ∈ ps.map SmlParam.name := by
  rw [KeyTable.lookup, List.findSome?_isSome_iff, List.mem_map]
  exact exists_congr fun p => and_congr_right fun _ => paramTable_isSome

theorem ncard_names (h : paramTable.Distinct ps) :
    {name | (paramTable.lookup ps name).isSome}.ncard = ps.length := by
  have hset : {name | (paramTable.lookup ps name).isSome} =
      ((ps.map SmlParam.name).toFinset : Set Str) := by
    ext name
    rw [Finset.mem_coe, List.mem_toFinset]
    exact lookup_isSome
  rw [hset, Set.ncard_coe_finset, List.toFinset_card_of_nodup (distinct_iff.mp h), List.length_map]

theorem editParams_eq (edits : List ParamEdit) (hnames : ∀ e ∈ edits, e.name ≠ []) (tag : SmlTag)
    (h : paramTable.Distinct tag.params) : ∃ tag', editParams tag edits = some tag' ∧
      tag'.name = tag.name ∧ tag'.tags = tag.tags ∧ paramTable.Distinct tag'.params ∧
      paramTable.lookup tag'.params =
        edits.foldl ParamEdit.update (paramTable.lookup tag.params) := by
  induction edits generalizing tag with
  | nil => exact ⟨tag, rfl, rfl, rfl, h, rfl⟩
  | cons e edits ih =>
    have hrest : ∀ e' ∈ edits, e'.name ≠ [] := fun e' he' => hnames e' (List.mem_cons_of_mem _ he')
    cases e with
    | set name value =>
      have hname : name ≠ [] := hnames _ List.mem_cons_self
      have hget : paramTable.get name ⟨name, value⟩ = some value := if_pos rfl
      obtain ⟨tag', hrun, hname', htags, hdistinct, hlookup⟩ := ih hrest
        (.mk tag.name (paramTable.assign name ⟨name, value⟩ tag.params) tag.tags)
        (h.assign (paramTable_isSome.mpr rfl))
      refine ⟨tag', ?_, hname', htags, hdistinct, ?_⟩
      · rw [editParams, smlSetParam_eq hname, Option.bind_some, hrun]
      · rw [hlookup, List.foldl_cons, ParamEdit.update, SmlTag.params, KeyTable.lookup_assign hget]
    | del name =>
      have hname : name ≠ [] := hnames _ List.mem_cons_self
      obtain ⟨tag', hrun, hname', htags, hdistinct, hlookup⟩ := ih hrest
        (.mk tag.name (paramTable.remove name tag.params) tag.tags) (h.remove name)
      refine ⟨tag', ?_, hname', htags, hdistinct, ?_⟩
      · rw [editParams, smlDelParam_eq hname, Option.bind_some, hrun]
      · rw [hlookup, List.foldl_cons, ParamEdit.update, SmlTag.params, KeyTable.lookup_remove h]

/-- After any sequence of changes a parameter has the value that was set last, if it was not deleted
since; no name is there twice, and the number of parameters is that of the names with a value. -/
theorem editParams_spec (tag : SmlTag) (h : (tag.params.map SmlParam.name).Nodup)
    (edits : List ParamEdit) (hnames : ∀ e ∈ edits, e.name ≠ []) :
    ∃ tag', editParams tag edits = some tag' ∧ tag'.name = tag.name ∧ tag'.tags = tag.tags ∧
      (tag'.params.map SmlParam.name).Nodup ∧
      (∀ name, name ≠ [] → smlGetParam tag' name =
        some (edits.foldl ParamEdit.update (fun name => tagParamLoop name tag.params) name)) ∧
      smlGetNumParams tag' = {name | (tagParamLoop name tag'.params).isSome}.ncard := by
  obtain ⟨tag', hrun, hname, htags, hdistinct, hlookup⟩ :=
    editParams_eq edits hnames tag (distinct_iff.mpr h)
  have hstart : (fun name => tagParamLoop name tag.params) = paramTable.lookup tag.params :=
    funext fun name => tagParamLoop_eq name tag.params
  refine ⟨tag', hrun, hname, htags, distinct_iff.mp hdistinct, fun name hne => ?_, ?_⟩
  · rw [smlGetParam, if_neg hne, tagParamLoop_eq, hlookup, hstart]
  · simp only [tagParamLoop_eq]
    exact (ncard_names hdistinct).symm

def sampleEdits : List ParamEdit :=
  [.set "arch".toList "i386".toList, .set "arch".toList "sparc".toList, .del "os".toList]

theorem editParams_spec_sample :
    ∃ tag', editParams (.mk "pkg".toList [⟨"os".toList, "5".toList⟩] []) sampleEdits = some tag' ∧
      tag'.name = "pkg".toList ∧ tag'.tags = [] ∧ (tag'.params.map SmlParam.name).Nodup ∧
      (∀ name, name ≠ [] → smlGetParam tag' name = some (sampleEdits.foldl ParamEdit.update
        (fun name => tagParamLoop name [⟨"os".toList, "5".toList⟩]) name)) ∧
      smlGetNumParams tag' = {name | (tagParamLoop name tag'.params).isSome}.ncard :=
  editParams_spec (.mk "pkg".toList [⟨"os".toList, "5".toList⟩] []) (by decide) sampleEdits
    (by decide)

end Edits

end Pkgtools
