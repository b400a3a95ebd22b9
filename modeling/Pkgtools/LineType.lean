import Pkgtools.PlainParse

namespace Pkgtools
open CLib
set_option autoImplicit true

structure Ainfo.Unread (a : Ainfo) : Prop where
  mode : a.mode = badMode
  owner : a.owner = badOwner
  group : a.group = badGroup

def Cinfo.unread : Cinfo := ⟨badCont, badCont, badCont⟩

/-- An entry has no attributes that its type has no fields for; an unknown type has none. -/
structure Cfent.OfType (e : Cfent) : Prop where
  attrs : ¬ hasAttrs e.ftype → e.ainfo.Unread
  content : e.ftype = '?' → e.cinfo = .unread

/-- The contents are still to be read, the attributes may be as well. -/
structure Cfent.NoContent (e : Cfent) : Prop where
  attrs : ¬ hasAttrs e.ftype → e.ainfo.Unread
  content : e.cinfo = .unread

structure Cfent.Unread (e : Cfent) : Prop where
  attrs : e.ainfo.Unread
  content : e.cinfo = .unread

section Read
variable {T : Str} {ept e : Cfent}

theorem noContent_readAttrs (hT : OneLine T) (ha : hasAttrs ept.ftype) (h : ept.Unread) :
    Parse.Leaves (RestOf T) (readAttrs lineReaders ept) (Yields T Cfent.NoContent) := by
  have hof {e : Cfent} (he : (e.ftype, e.cinfo) = (ept.ftype, ept.cinfo)) : e.NoContent := by
    obtain ⟨hftype, hcinfo⟩ := Prod.mk.inj he
    exact ⟨fun hn => absurd (hftype ▸ ha) hn, hcinfo.trans h.content⟩
  let P (e : Cfent) : Prop := (e.ftype, e.cinfo) = (ept.ftype, ept.cinfo)
  refine Yields.bind (P := P) (yields_numField _ _ _ rfl fun _ => rfl) fun e he => ?_
  refine Yields.bind (P := P) (yields_strField hT _ _ fun _ _ => he) fun e he => ?_
  exact yields_strField hT _ _ fun _ _ => hof he

theorem ofType_readContent (hc : ept.ftype ≠ '?') (h : ept.NoContent) :
    Parse.Leaves (RestOf T) (readContent lineReaders ept) (Yields T Cfent.OfType) := by
  have hof {e : Cfent} (he : (e.ftype, e.ainfo) = (ept.ftype, ept.ainfo)) : e.OfType := by
    obtain ⟨hftype, hainfo⟩ := Prod.mk.inj he
    constructor
    · rw [hftype, hainfo]
      exact h.attrs
    · intro hany
      exact absurd (hftype.symm.trans hany) hc
  let P (e : Cfent) : Prop := (e.ftype, e.ainfo) = (ept.ftype, ept.ainfo)
  refine Yields.bind (P := P) (yields_numField _ _ _ rfl fun _ => rfl) fun e he => ?_
  refine Yields.bind (P := P) (yields_numField _ _ _ he fun _ => he) fun e he => ?_
  exact yields_numField _ _ _ (hof he) fun _ => hof he

theorem ofType_readEntry (hT : OneLine T) (f : Nat) (c : Char) (h : ept.Unread) :
    Parse.Leaves (RestOf T) (readEntry lineReaders f [] false c ept) (Yields T Cfent.OfType) := by
  have hunread {e e' : Cfent} (he : e.Unread) (hmode : e'.ainfo.mode = e.ainfo.mode)
      (howner : e'.ainfo.owner = e.ainfo.owner) (hgroup : e'.ainfo.group = e.ainfo.group)
      (hcinfo : e'.cinfo = e.cinfo) : e'.Unread :=
    ⟨⟨hmode.trans he.attrs.mode, howner.trans he.attrs.owner, hgroup.trans he.attrs.group⟩,
      hcinfo.trans he.content⟩
  refine Yields.bind (yields_onlyIf h (yields_readLocal hT fun l _ => hunread h rfl rfl rfl rfl))
    fun e he => ?_
  refine Yields.bind (yields_onlyIf he (yields_readType hT fun c s _ _ =>
    hunread he rfl rfl rfl rfl)) fun e he => ?_
  refine Parse.Leaves.ite (fun _ => yields_failAtEnd _ _) fun _ => ?_
  refine Yields.bind (yields_onlyIf he (yields_readDevice (fun e major minor he =>
    hunread he rfl rfl rfl rfl) he)) fun e he => ?_
  refine Yields.bind (P := Cfent.NoContent) (Parse.Leaves.ite
    (fun ha => noContent_readAttrs hT ha he) fun _ => yields_ret ⟨fun _ => he.attrs, he.content⟩)
      fun e he => ?_
  refine Yields.bind (P := Cfent.OfType) (Parse.Leaves.ite (fun hc => ofType_readContent ?_ he)
    fun _ => yields_ret ⟨he.attrs, fun _ => he.content⟩) fun e he => ?_
  · rintro hany
    rw [hany] at hc
    exact absurd hc (by decide)
  · refine Parse.Leaves.ite (fun _ => ?_) fun _ =>
      yields_readPackages hT (fun e p n he _ => ⟨he.attrs, he.content⟩) f he oneLine_nil
    exact yields_noExtra (fun extra => extra = true) _ he

/-- What a line has no fields for is left as `srchcfile` starts with it. -/
theorem parseLine_ofType (hL : OneLine L) (hp : L.head? = some '/')
    (h : parseLine (initEntry ept) L = some (.ok e)) : e.OfType := by
  have hinit : (withPath (initEntry ept) L).Unread := ⟨⟨rfl, rfl, rfl⟩, rfl⟩
  rw [parseLine, if_pos hp] at h
  split at h
  · cases h
  · rename_i c M hM
    obtain ⟨⟨r, q⟩, hr, he⟩ := Option.map_eq_some_iff.mp h
    obtain rfl : r = .ok e := he
    have hsub : List.Sublist M L := (List.sublist_cons_self c M).trans (hM ▸ List.drop_sublist _ _)
    exact (ofType_readEntry (hL.sublist hsub) _ c hinit _ (RestOf.self M) _ _ hr).2

end Read

end Pkgtools
