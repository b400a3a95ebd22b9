import Pkgtools.LineType
import Pkgtools.MergeVerifyMode
import Pkgtools.ObjectAttrs

namespace Pkgtools
open CLib
set_option autoImplicit true

/-- Mode, owner and group are known: the mode is neither of its two sentinels. -/
structure Ainfo.Resolved (a : Ainfo) : Prop where
  mode : a.mode ≠ badMode ∧ a.mode ≠ wildcard
  owner : a.owner ≠ badOwner
  group : a.group ≠ badGroup

/-- The attributes of an entry that has them are known. -/
def Cfent.Resolved (e : Cfent) : Prop := hasAttrs e.ftype → e.ainfo.Resolved

def Cfent.attrs (e : Cfent) : Char × Nat × Str × Str := (e.ftype, e.ainfo.names)

/-- What the steps of a merge look at in an element. -/
def Cfextra.described (el : Cfextra) : Char × Option Str × Ainfo × Cinfo :=
  (el.cfEnt.ftype, el.cfEnt.path, el.cfEnt.ainfo, el.cfEnt.cinfo)

section Names
variable {sys : System} {a b : Ainfo} {e e' : Cfent} {el : Cfextra}

theorem Ainfo.Resolved.of_names (h : a.Resolved) (hn : b.names = a.names) : b.Resolved := by
  obtain ⟨hmode, hrest⟩ := Prod.mk.inj hn
  obtain ⟨howner, hgroup⟩ := Prod.mk.inj hrest
  exact ⟨by rw [hmode]; exact h.mode, by rw [howner]; exact h.owner, by rw [hgroup]; exact h.group⟩

theorem Ainfo.resolved_congr (h : a.names = b.names) : a.Resolved ↔ b.Resolved :=
  ⟨fun ha => ha.of_names h.symm, fun hb => hb.of_names h⟩

theorem Cfent.resolved_iff (h : hasAttrs e.ftype) : e.Resolved ↔ e.ainfo.Resolved :=
  ⟨fun hr => hr h, fun hr _ => hr⟩

theorem Cfent.Resolved.congr (hr : e.Resolved) (h : e'.attrs = e.attrs) : e'.Resolved := by
  obtain ⟨hftype, hnames⟩ := Prod.mk.inj h
  intro hattrs
  rw [hftype] at hattrs
  exact (hr hattrs).of_names hnames

theorem Cfent.resolved_congr (h : e.attrs = e'.attrs) : e.Resolved ↔ e'.Resolved :=
  ⟨fun he => he.congr h.symm, fun he => he.congr h⟩

theorem Ainfo.Resolved.readOff (h : a.Resolved) (sys : System) (status : Stat) :
    (a.readOff sys status).names = a.names := by
  obtain ⟨⟨hbad, hwild⟩, howner, hgroup⟩ := h
  simp only [Ainfo.names, Ainfo.readOff, if_neg (not_or.mpr ⟨hbad, hwild⟩), if_neg howner,
    if_neg hgroup]

theorem permissions_ne (m : Nat) : m &&& 0o7777 ≠ badMode ∧ m &&& 0o7777 ≠ wildcard := by
  have hle : m &&& 0o7777 ≤ 0o7777 := Nat.and_le_right
  have hbad : 0o7777 < badMode := by decide
  have hwild : 0o7777 < wildcard := by decide
  omega

theorem readName_ne {name bad : Str} {found : Option Str} :
    (if name = bad then found.getD name else name) ≠ bad ↔
      name ≠ bad ∨ ∃ s, found = some s ∧ s ≠ bad := by
  by_cases hname : name = bad
  · rw [if_pos hname, hname]
    cases found with
    | none => simp
    | some s => simp
  · simp [hname]

theorem Ainfo.readOff_mode (sys : System) (a : Ainfo) (status : Stat) :
    (a.readOff sys status).mode ≠ badMode ∧ (a.readOff sys status).mode ≠ wildcard := by
  dsimp only [Ainfo.readOff]
  split
  · exact permissions_ne _
  · rename_i hgiven
    exact not_or.mp hgiven

/-- What is read off an object is known if its user and group have names. -/
theorem Ainfo.readOff_resolved_iff (sys : System) (a : Ainfo) (status : Stat) :
    (a.readOff sys status).Resolved ↔
      (a.owner ≠ badOwner ∨ ∃ owner, sys.cpwuid status.uid = some owner ∧ owner ≠ badOwner) ∧
      (a.group ≠ badGroup ∨ ∃ group, sys.cgrgid status.gid = some group ∧ group ≠ badGroup) := by
  constructor
  · rintro ⟨-, howner, hgroup⟩
    exact ⟨readName_ne.mp howner, readName_ne.mp hgroup⟩
  · rintro ⟨howner, hgroup⟩
    exact ⟨a.readOff_mode sys status, readName_ne.mpr howner, readName_ne.mpr hgroup⟩

theorem setChange_ftype (sys : System) (el : Cfextra) :
    (setChange sys el).cfEnt.ftype = el.cfEnt.ftype := by
  refine setChange_induct (P := fun x => x.cfEnt.ftype = el.cfEnt.ftype) rfl rfl ?_
    (fun _ h => h) fun _ h => h
  intro hf x hx _
  have hf' : x.cfEnt.ftype ≠ '?' := by rwa [hx]
  exact (averify_ftype hf' sys x.serverPath x.cfEnt.ainfo).trans hx

theorem setChange_resolved (h : el.cfEnt.Resolved) (sys : System) :
    (setChange sys el).cfEnt.Resolved := by
  intro hattrs
  rw [setChange_ftype] at hattrs
  refine (h hattrs).of_names ((setChange_names hattrs).trans ?_)
  cases el.object sys with
  | none => rfl
  | some status => exact (h hattrs).readOff sys status

end Names

section Entries
variable {sys : System} {inst : Install} {el : Cfextra} {cf e : Cfent} {ctrl : Bool}

theorem eptstat_body (e : Cfent) (pkg : Str) (c : Char) : ((eptstat e pkg c).1.ftype,
    (eptstat e pkg c).1.ainfo, (eptstat e pkg c).1.cinfo) = (e.ftype, e.ainfo, e.cinfo) := by
  rw [eptstat]
  split
  · rfl
  · split
    · dsimp only
      split <;> rfl
    · split <;> rfl

theorem eptstat_attrs (e : Cfent) (pkg : Str) (c : Char) : (eptstat e pkg c).1.attrs = e.attrs :=
  congrArg (fun b => (b.1, Ainfo.names b.2.1)) (eptstat_body e pkg c)

theorem cpCfent_attrs (cf : Cfent) (el : Cfextra) : (cpCfent cf el).cfEnt.attrs = cf.attrs := by
  unfold cpCfent
  dsimp only
  split <;> rfl

theorem mergClass_described (el : Cfextra) (cf : Cfent) (i : Nat) :
    (mergClass el cf i).2.described = el.described ∧ (mergClass el cf i).2.mstat = el.mstat := by
  have hchg (e : Cfent) : ((chgclass e i).ftype, (chgclass e i).path, (chgclass e i).ainfo,
      (chgclass e i).cinfo) = (e.ftype, e.path, e.ainfo, e.cinfo) := by
    unfold chgclass
    dsimp only
    split <;> rfl
  unfold mergClass
  split
  · exact ⟨rfl, rfl⟩
  · split
    · exact ⟨rfl, rfl⟩
    · exact ⟨hchg _, rfl⟩

theorem mergContent_described (sys : System) (el : Cfextra) (cf : Cfent) :
    (mergContent sys el cf).2.described = el.described := by
  unfold mergContent
  split
  · rfl
  · split
    · split <;> rfl
    · rfl

theorem attrs_of_described {x el : Cfextra} (h : x.described = el.described) :
    x.cfEnt.attrs = el.cfEnt.attrs := by
  obtain ⟨hftype, hrest⟩ := Prod.mk.inj h
  obtain ⟨-, hrest⟩ := Prod.mk.inj hrest
  exact Prod.ext hftype (congrArg Ainfo.names (Prod.mk.inj hrest).1)

theorem mergDevice_attrs (el : Cfextra) (cf : Cfent) :
    (mergDevice el cf).2.cfEnt.attrs = el.cfEnt.attrs := by
  unfold mergDevice
  dsimp only
  split <;> rfl

theorem inherited_known [DecidableEq α] {old new bad : α} (h : old ≠ bad ∨ new ≠ bad) :
    (if new = bad then old else new) ≠ bad := by
  split
  · rename_i hbad
    exact h.resolve_right fun hne => hne hbad
  · rename_i hne
    exact hne

theorem mergMode_ainfo (el : Cfextra) (cf : Cfent) : (mergMode el cf).2.cfEnt.ainfo =
    { el.cfEnt.ainfo with mode :=
        if el.cfEnt.ainfo.mode = badMode ∨ el.cfEnt.ainfo.mode = wildcard then cf.ainfo.mode
        else el.cfEnt.ainfo.mode } := by
  unfold mergMode
  dsimp only
  split
  · rename_i heq
    rw [heq, ite_self]
  · split
    · rename_i hbad
      rw [if_pos (.inl hbad)]
    · rename_i hbad
      split
      · rename_i hwild
        rw [if_pos (.inr hwild)]
      · rename_i hwild
        rw [if_neg (not_or.mpr ⟨hbad, hwild⟩)]
        rfl

theorem mergOwner_ainfo (el : Cfextra) (cf : Cfent) : (mergOwner el cf).2.cfEnt.ainfo =
    { el.cfEnt.ainfo with owner :=
        if el.cfEnt.ainfo.owner = badOwner then cf.ainfo.owner else el.cfEnt.ainfo.owner } := by
  unfold mergOwner
  dsimp only
  split
  · rename_i heq
    rw [heq, ite_self]
  · split
    · rfl
    · rfl

theorem mergGroup_ainfo (el : Cfextra) (cf : Cfent) : (mergGroup el cf).2.cfEnt.ainfo =
    { el.cfEnt.ainfo with group :=
        if el.cfEnt.ainfo.group = badGroup then cf.ainfo.group else el.cfEnt.ainfo.group } := by
  unfold mergGroup
  dsimp only
  split
  · rename_i heq
    rw [heq, ite_self]
  · split
    · rfl
    · rfl

/-- What is known in one of the two entries is known in the merged one. -/
theorem mergNames_resolved (h : cf.ainfo.Resolved ∨ el.cfEnt.ainfo.Resolved) :
    (mergGroup (mergOwner (mergMode el cf).2 cf).2 cf).2.cfEnt.ainfo.Resolved := by
  rw [mergGroup_ainfo, mergOwner_ainfo, mergMode_ainfo]
  refine ⟨?_, ?_, ?_⟩
  · dsimp only
    split
    · rename_i hunknown
      exact (h.resolve_right fun hel => hunknown.elim hel.mode.1 hel.mode.2).mode
    · rename_i hknown
      exact not_or.mp hknown
  · have howner : cf.ainfo.owner ≠ badOwner ∨ el.cfEnt.ainfo.owner ≠ badOwner :=
      h.imp Ainfo.Resolved.owner Ainfo.Resolved.owner
    exact inherited_known howner
  · have hgroup : cf.ainfo.group ≠ badGroup ∨ el.cfEnt.ainfo.group ≠ badGroup :=
      h.imp Ainfo.Resolved.group Ainfo.Resolved.group
    exact inherited_known hgroup

theorem not_isLink_of_hasAttrs (h : hasAttrs c) : ¬ isLink c := by
  have hall : ∀ t ∈ "dxcbpfve".toList, ¬ isLink t := by decide
  exact hall c (of_decide_eq_true h)

theorem mergAttrs_resolved
    (h : hasAttrs el.cfEnt.ftype → cf.ainfo.Resolved ∨ el.cfEnt.ainfo.Resolved) (sys : System)
    (changed : Bool) (i : Nat) :
    (mergSteps changed el (mergAttrs sys el.cfEnt.ftype cf i)).2.cfEnt.Resolved := by
  have hplace := mergSteps_keeps Cfextra.place _ (mergAttrs_place sys el.cfEnt.ftype cf i)
    changed el
  have hkept : (mergDevice (mergContent sys (mergClass el cf i).2 cf).2 cf).2.cfEnt.attrs =
      el.cfEnt.attrs :=
    (mergDevice_attrs _ cf).trans (attrs_of_described
      ((mergContent_described sys _ cf).trans (mergClass_described el cf i).1))
  have hftype : (mergSteps changed el (mergAttrs sys el.cfEnt.ftype cf i)).2.cfEnt.ftype =
      el.cfEnt.ftype := congrArg Prod.fst hplace
  intro hattrs
  rw [hftype] at hattrs
  rw [mergAttrs, if_neg (not_isLink_of_hasAttrs hattrs)]
  apply mergNames_resolved
  exact (h hattrs).imp id fun hel => hel.of_names (congrArg Prod.snd hkept)

/-- Unless one of the two entries is taken as it is, their attributes are merged. -/
theorem merg_resolved (hdbst : inst.dbst = nul) (hcf : cf.Resolved)
    (h : hasAttrs el.cfEnt.ftype → hasAttrs cf.ftype ∨ el.cfEnt.ainfo.Resolved) (sys : System)
    (i : Nat) : (merg sys inst el cf i).1 = .replace ∨
      (merg sys inst el cf i).2.cfEnt.Resolved := by
  rw [merg_eq hdbst]
  obtain ⟨ftype, hcf'⟩ := typechg_entry (el.withPinfo cf.pinfo).cfEnt cf el.mstat
  generalize typechg (el.withPinfo cf.pinfo).cfEnt cf el.mstat = t at hcf' ⊢
  obtain ⟨n, cf', mstat⟩ := t
  dsimp only at hcf'
  have hknown : hasAttrs el.cfEnt.ftype → cf'.ainfo.Resolved ∨ el.cfEnt.ainfo.Resolved := by
    rw [hcf']
    exact fun hattrs => (h hattrs).imp hcf id
  have hsteps (mstat : Mergstat) (changed : Bool) :
      (mergSteps changed ({ el.withPinfo cf.pinfo with mstat := mstat } : Cfextra)
        (mergAttrs sys (el.withPinfo cf.pinfo).cfEnt.ftype cf' i)).2.cfEnt.Resolved := by
    apply mergAttrs_resolved
    exact hknown
  cases n with
  | ok => exact .inr (hsteps _ _)
  | warning => exact .inr (hsteps _ _)
  | ignored => exact .inr (hcf.congr (cpCfent_attrs cf _))
  | replace => exact .inl rfl

theorem likeMerg_resolved (hdbst : inst.dbst = nul) (hcf : cf.Resolved)
    (h : hasAttrs el.cfEnt.ftype → hasAttrs cf.ftype ∨
      (inst.nocnflct ∧ el.mstat.shared ∧ el.cfEnt.ftype ≠ 'e') ∨ el.cfEnt.ainfo.Resolved)
    (sys : System) (i : Nat) : (likeMerg sys inst el cf i).1 = .replace ∨
      (likeMerg sys inst el cf i).2.2.cfEnt.Resolved := by
  unfold likeMerg
  split
  · exact .inr (hcf.congr (cpCfent_attrs cf _))
  · rename_i hconf
    have hmerg := merg_resolved hdbst hcf
      (fun hattrs => (h hattrs).imp id fun hor => hor.resolve_left hconf) sys i
    split
    · exact .inl rfl
    · rename_i hne heq
      rw [heq] at hmerg
      have hres := hmerg.resolve_left hne
      right
      dsimp only
      split
      · exact setChange_resolved hres sys
      · exact hres

theorem outputEntry_attrs (e : Cfent) (i : Nat) : (outputEntry e i).attrs = e.attrs := rfl

theorem likeStatus_attrs
    (hr : likeStatus sys inst ctrl ignore stflag i el = some (changed, el', i')) :
    el'.cfEnt.attrs = el.cfEnt.attrs :=
  likeStatus_induct (P := fun x => x.cfEnt.attrs = el.cfEnt.attrs) rfl
    (fun c _ _ _ => eptstat_attrs el.cfEnt inst.pkginst c) (fun _ _ hx => hx) hr

theorem mergeLikeEntry_attrs (he : mergeLikeEntry sys inst el cf i ctrl = some e) :
    e.attrs = (if (likeMerg sys inst el cf i).1 = .replace then cf
      else (likeMerg sys inst el cf i).2.2.cfEnt).attrs := by
  unfold mergeLikeEntry at he
  generalize likeMerg sys inst el cf i = x at he ⊢
  obtain ⟨res, ignore, el₁⟩ := x
  obtain ⟨⟨changed, el₂, i₂⟩, hstatus, he⟩ := Option.bind_eq_some_iff.mp he
  rw [← Option.some.inj he, outputEntry_attrs]
  dsimp only
  split
  · rfl
  · exact likeStatus_attrs hstatus

theorem mergeLikeEntry_resolved (hdbst : inst.dbst = nul) (hcf : cf.Resolved)
    (h : hasAttrs el.cfEnt.ftype → hasAttrs cf.ftype ∨
      (inst.nocnflct ∧ el.mstat.shared ∧ el.cfEnt.ftype ≠ 'e') ∨ el.cfEnt.ainfo.Resolved)
    (he : mergeLikeEntry sys inst el cf i ctrl = some e) : e.Resolved := by
  have hlike := likeMerg_resolved hdbst hcf h sys i
  refine Cfent.Resolved.congr ?_ (mergeLikeEntry_attrs he)
  split
  · exact hcf
  · rename_i hne
    exact hlike.resolve_left hne

theorem likeEntry_keeps (he : likeEntry sys inst el cf ctrl = some e) :
    ∃ cf₁ i, (cf₁.ftype, cf₁.ainfo, cf₁.cinfo) = (cf.ftype, cf.ainfo, cf.cinfo) ∧
      keptEntry sys inst (el.share (othersToo (dbEntry el cf) inst.pkginst)) cf₁ i ctrl =
        some e := by
  have hdb : ((dbEntry el cf).ftype, (dbEntry el cf).ainfo, (dbEntry el cf).cinfo) =
      (cf.ftype, cf.ainfo, cf.cinfo) := by
    unfold dbEntry
    split <;> rfl
  unfold likeEntry at he
  dsimp only at he
  obtain ⟨i, -, he⟩ := Option.bind_eq_some_iff.mp he
  exact ⟨_, i, (eptstat_body _ _ _).trans hdb, he⟩

/-- What is written for an entry of the database: its attributes are known if it has any, if it is
copied, or if the new ones are. -/
theorem likeEntry_resolved (hdbst : inst.dbst = nul) (hcf : cf.Resolved)
    (h : hasAttrs el.cfEnt.ftype → hasAttrs cf.ftype ∨ conflicts inst el (dbEntry el cf) ∨
      el.cfEnt.ainfo.Resolved)
    (he : likeEntry sys inst el cf ctrl = some e) : e.Resolved := by
  obtain ⟨cf₁, i, hbody, he⟩ := likeEntry_keeps he
  have hattrs : cf₁.attrs = cf.attrs := congrArg (fun b => (b.1, Ainfo.names b.2.1)) hbody
  have hcf₁ := hcf.congr hattrs
  unfold keptEntry at he
  split at he
  · obtain ⟨j, -, rfl⟩ := Option.map_eq_some_iff.mp he
    exact hcf₁.congr (eptstat_attrs cf₁ inst.pkginst rmRdy)
  · refine mergeLikeEntry_resolved hdbst hcf₁ (fun ha => ?_) he
    refine (h ha).imp (fun hc => ?_) (Or.imp_left fun hc => of_decide_eq_true hc)
    rwa [show cf₁.ftype = cf.ftype from congrArg Prod.fst hattrs]

end Entries

section Unread
variable {sys : System} {inst : Install} {el x : Cfextra} {cf e : Cfent} {ctrl : Bool}

def Cfextra.contentDiffers (sys : System) (el : Cfextra) (cinfo : Cinfo) : Prop :=
  el.cfEnt.ftype = 'e' ∨ (el.cfEnt.ftype = 'f' ∨ el.cfEnt.ftype = 'v') ∧
    ¬ (sys.pathIsInherited el.path el.cfEnt.ftype ∨ cinfo = el.cfEnt.cinfo)

instance (sys : System) (el : Cfextra) (cinfo : Cinfo) : Decidable (el.contentDiffers sys cinfo) :=
  inferInstanceAs (Decidable (_ ∨ _))

def Cfextra.deviceDiffers (el : Cfextra) (old : Ainfo) : Prop :=
  isDevice el.cfEnt.ftype ∧
    (old.major ≠ el.cfEnt.ainfo.major ∧ el.cfEnt.ainfo.major ≠ badMajor ∨
      old.minor ≠ el.cfEnt.ainfo.minor ∧ el.cfEnt.ainfo.minor ≠ badMinor)

instance (el : Cfextra) (old : Ainfo) : Decidable (el.deviceDiffers old) :=
  inferInstanceAs (Decidable (_ ∧ _))

theorem differs_congr (h : x.described = el.described) (sys : System) (cinfo : Cinfo)
    (old : Ainfo) :
    (x.contentDiffers sys cinfo ↔ el.contentDiffers sys cinfo) ∧
      (x.deviceDiffers old ↔ el.deviceDiffers old) := by
  obtain ⟨hftype, hrest⟩ := Prod.mk.inj h
  obtain ⟨hpath, hrest⟩ := Prod.mk.inj hrest
  obtain ⟨hainfo, hcinfo⟩ := Prod.mk.inj hrest
  simp only [Cfextra.contentDiffers, Cfextra.deviceDiffers, Cfextra.path, hftype, hpath, hainfo,
    hcinfo, and_self]

theorem mergContent_mstat (sys : System) (el : Cfextra) (cf : Cfent) :
    (mergContent sys el cf).2.mstat =
      { el.mstat with contchg := el.mstat.contchg || el.contentDiffers sys cf.cinfo } := by
  unfold mergContent Cfextra.contentDiffers Cfextra.path
  split
  · rename_i he
    simp [he, Cfextra.setContchg]
  · rename_i he
    split
    · rename_i hfv
      split
      · rename_i hsame
        simp [he, hfv, hsame]
      · rename_i hsame
        simp [he, hfv, hsame, Cfextra.setContchg]
    · rename_i hfv
      simp [he, hfv]

theorem mergDevice_mstat (el : Cfextra) (cf : Cfent) : (mergDevice el cf).2.mstat =
    { el.mstat with contchg := el.mstat.contchg || el.deviceDiffers cf.ainfo } := by
  unfold mergDevice Cfextra.deviceDiffers
  split
  · rename_i hdev
    simp [hdev]
  · rename_i hdev
    simp [hdev]

theorem mergMode_mstat (el : Cfextra) (cf : Cfent) : (mergMode el cf).2.mstat =
    { el.mstat with
      attrchg :=
        if cf.ainfo.mode = el.cfEnt.ainfo.mode ∨ el.cfEnt.ainfo.mode = badMode then el.mstat.attrchg
        else decide (el.cfEnt.ainfo.mode ≠ wildcard) } := by
  unfold mergMode
  dsimp only
  split
  · rename_i heq
    rw [if_pos (.inl heq)]
  · rename_i hne
    split
    · rename_i hbad
      rw [if_pos (.inr hbad)]
    · rename_i hbad
      rw [if_neg (not_or.mpr ⟨hne, hbad⟩)]
      split
      · rename_i hwild
        simp [hwild]
      · rename_i hwild
        simp [hwild, Cfextra.setAttrchg]

theorem mergOwner_mstat (el : Cfextra) (cf : Cfent) : (mergOwner el cf).2.mstat =
    { el.mstat with
      attrchg := el.mstat.attrchg ||
        decide (cf.ainfo.owner ≠ el.cfEnt.ainfo.owner ∧ el.cfEnt.ainfo.owner ≠ badOwner) } := by
  unfold mergOwner
  dsimp only
  split
  · rename_i heq
    simp [heq]
  · rename_i hne
    split
    · rename_i hbad
      simp [hbad]
    · rename_i hbad
      simp [hne, hbad, Cfextra.setAttrchg]

theorem mergGroup_mstat (el : Cfextra) (cf : Cfent) : (mergGroup el cf).2.mstat =
    { el.mstat with
      attrchg := el.mstat.attrchg ||
        decide (cf.ainfo.group ≠ el.cfEnt.ainfo.group ∧ el.cfEnt.ainfo.group ≠ badGroup) } := by
  unfold mergGroup
  dsimp only
  split
  · rename_i heq
    simp [heq]
  · rename_i hne
    split
    · rename_i hbad
      simp [hbad]
    · rename_i hbad
      simp [hne, hbad, Cfextra.setAttrchg]

theorem mergDevice_cinfo (el : Cfextra) (cf : Cfent) :
    (mergDevice el cf).2.cfEnt.cinfo = el.cfEnt.cinfo := by
  unfold mergDevice
  split <;> rfl

theorem mergMode_cinfo (el : Cfextra) (cf : Cfent) :
    (mergMode el cf).2.cfEnt.cinfo = el.cfEnt.cinfo := by
  unfold mergMode
  dsimp only
  split
  · rfl
  · split
    · rfl
    · split <;> rfl

theorem mergOwner_cinfo (el : Cfextra) (cf : Cfent) :
    (mergOwner el cf).2.cfEnt.cinfo = el.cfEnt.cinfo := by
  unfold mergOwner
  dsimp only
  split
  · rfl
  · split <;> rfl

theorem mergGroup_cinfo (el : Cfextra) (cf : Cfent) :
    (mergGroup el cf).2.cfEnt.cinfo = el.cfEnt.cinfo := by
  unfold mergGroup
  dsimp only
  split
  · rfl
  · split <;> rfl

/-- Nothing is known of the attributes of an element, and none of them counts as changed after it
has met an entry without attributes. -/
structure Cfextra.Unknown (el : Cfextra) : Prop where
  mode : el.cfEnt.ainfo.mode = wildcard ∨ el.cfEnt.ainfo.mode = badMode ∧ el.mstat.attrchg = false
  owner : el.cfEnt.ainfo.owner = badOwner
  group : el.cfEnt.ainfo.group = badGroup

/-- What is left of an element that has met an entry without attributes. -/
structure MetUnread (sys : System) (el : Cfextra) (cf : Cfent) (x : Cfextra) : Prop where
  place : x.place = el.place
  contents : x.cfEnt.cinfo = el.cfEnt.cinfo
  names : x.cfEnt.ainfo.names =
    (if el.cfEnt.ainfo.mode = wildcard then badMode else el.cfEnt.ainfo.mode,
      el.cfEnt.ainfo.owner, el.cfEnt.ainfo.group)
  attrchg : x.mstat.attrchg = false ↔ el.Unknown
  contchg : x.mstat.contchg = false ↔ el.mstat.contchg = false ∧
    ¬ el.contentDiffers sys cf.cinfo ∧ ¬ el.deviceDiffers cf.ainfo

/-- The first steps of a merge look at the contents and the numbers of a device. -/
theorem mergContents_outcome (sys : System) (el : Cfextra) (cf : Cfent) (i : Nat) :
    let x := (mergDevice (mergContent sys (mergClass el cf i).2 cf).2 cf).2
    x.cfEnt.ainfo.names = el.cfEnt.ainfo.names ∧ x.cfEnt.cinfo = el.cfEnt.cinfo ∧
      x.mstat.attrchg = el.mstat.attrchg ∧
      (x.mstat.contchg = false ↔ el.mstat.contchg = false ∧ ¬ el.contentDiffers sys cf.cinfo ∧
        ¬ el.deviceDiffers cf.ainfo) := by
  obtain ⟨hclass, hflags⟩ := mergClass_described el cf i
  have hcontent := (mergContent_described sys (mergClass el cf i).2 cf).trans hclass
  have hmstat := mergContent_mstat sys (mergClass el cf i).2 cf
  have hcinfo := congrArg (fun d => d.2.2.2) hcontent
  refine ⟨congrArg Prod.snd ((mergDevice_attrs _ cf).trans (attrs_of_described hcontent)),
    (mergDevice_cinfo _ cf).trans hcinfo, ?_, ?_⟩
  · rw [mergDevice_mstat, hmstat, hflags]
  · rw [mergDevice_mstat, hmstat, hflags]
    simp only [Bool.or_eq_false_iff, decide_eq_false_iff_not, and_assoc,
      (differs_congr hclass sys cf.cinfo cf.ainfo).1,
        (differs_congr hcontent sys cf.cinfo cf.ainfo).2]

theorem inherit_self [DecidableEq α] (bad new : α) : (if new = bad then bad else new) = new := by
  split
  · rename_i h
    exact h.symm
  · rfl

theorem mergNames_outcome (hcf : cf.ainfo.Unread) (el : Cfextra) :
    let x := (mergGroup (mergOwner (mergMode el cf).2 cf).2 cf).2
    x.cfEnt.ainfo.names = (if el.cfEnt.ainfo.mode = wildcard then badMode else el.cfEnt.ainfo.mode,
        el.cfEnt.ainfo.owner, el.cfEnt.ainfo.group) ∧
      x.cfEnt.cinfo = el.cfEnt.cinfo ∧ (x.mstat.attrchg = false ↔ el.Unknown) ∧
      x.mstat.contchg = el.mstat.contchg := by
  dsimp only
  refine ⟨?_, ?_, ?_, ?_⟩
  · rw [mergGroup_ainfo, mergOwner_ainfo, mergMode_ainfo]
    simp only [Ainfo.names, hcf.mode, hcf.owner, hcf.group]
    refine Prod.ext ?_ (Prod.ext (inherit_self _ _) (inherit_self _ _))
    by_cases hbad : el.cfEnt.ainfo.mode = badMode
    · simp [hbad]
    · simp [hbad]
  · rw [mergGroup_cinfo, mergOwner_cinfo, mergMode_cinfo]
  · rw [mergGroup_mstat, mergOwner_mstat, mergMode_mstat, mergOwner_ainfo, mergMode_ainfo]
    simp only [hcf.mode, hcf.owner, hcf.group, Bool.or_eq_false_iff, decide_eq_false_iff_not,
      not_and_not_right]
    constructor
    · rintro ⟨⟨hmode, howner⟩, hgroup⟩
      refine ⟨?_, ?_, ?_⟩
      · split at hmode
        · rename_i hbad
          exact .inr ⟨hbad.elim Eq.symm id, hmode⟩
        · exact .inl (by simpa using hmode)
      · by_contra hne
        exact hne (howner (Ne.symm hne))
      · by_contra hne
        exact hne (hgroup (Ne.symm hne))
    · rintro ⟨hmode, howner, hgroup⟩
      refine ⟨⟨?_, fun _ => howner⟩, fun _ => hgroup⟩
      rcases hmode with hwild | ⟨hbad, hflag⟩
      · rw [if_neg (by rw [hwild]; decide), hwild]
        rfl
      · rw [if_pos (.inr hbad)]
        exact hflag
  · rw [mergGroup_mstat, mergOwner_mstat, mergMode_mstat]

theorem mergAttrs_metUnread (hcf : cf.ainfo.Unread) (ha : hasAttrs el.cfEnt.ftype) (sys : System)
    (changed : Bool) (i : Nat) :
    MetUnread sys el cf (mergSteps changed el (mergAttrs sys el.cfEnt.ftype cf i)).2 := by
  have hplace := mergSteps_keeps Cfextra.place _ (mergAttrs_place sys el.cfEnt.ftype cf i)
    changed el
  rw [mergAttrs, if_neg (not_isLink_of_hasAttrs ha)] at hplace ⊢
  obtain ⟨hkept, hcinfo, hattrchg, hcontchg⟩ := mergContents_outcome sys el cf i
  obtain ⟨hnames, hcinfo₂, hattrchg₂, hcontchg₂⟩ := mergNames_outcome hcf
    (mergDevice (mergContent sys (mergClass el cf i).2 cf).2 cf).2
  obtain ⟨hmode, hrest⟩ := Prod.mk.inj hkept
  obtain ⟨howner, hgroup⟩ := Prod.mk.inj hrest
  rw [hmode, howner, hgroup] at hnames
  refine ⟨hplace, hcinfo₂.trans hcinfo, hnames, hattrchg₂.trans ?_, ?_⟩
  · constructor
    · rintro ⟨hm, ho, hg⟩
      rw [hmode, hattrchg] at hm
      exact ⟨hm, howner ▸ ho, hgroup ▸ hg⟩
    · rintro ⟨hm, ho, hg⟩
      exact ⟨by rw [hmode, hattrchg]; exact hm, howner.trans ho, hgroup.trans hg⟩
  · rw [← hcontchg, ← hcontchg₂]
    rfl

theorem MetUnread.resolved (h : MetUnread sys el cf x) (hx : x.cfEnt.ainfo.Resolved) :
    el.cfEnt.ainfo.Resolved := by
  obtain ⟨hmode, hrest⟩ := Prod.mk.inj h.names
  obtain ⟨howner, hgroup⟩ := Prod.mk.inj hrest
  refine ⟨?_, howner ▸ hx.owner, hgroup ▸ hx.group⟩
  have hm := hx.mode
  rw [hmode] at hm
  split at hm
  · exact absurd rfl hm.1
  · exact hm

theorem MetUnread.of_withPinfo {ps : List Pinfo} {ftype : Char}
    (h : MetUnread sys (el.withPinfo ps) { cf with ftype := ftype } x) : MetUnread sys el cf x := by
  refine ⟨h.place, h.contents, h.names, h.attrchg.trans ?_, h.contchg⟩
  exact ⟨fun hu => ⟨hu.mode, hu.owner, hu.group⟩, fun hu => ⟨hu.mode, hu.owner, hu.group⟩⟩

theorem typechg_unknown {e : Cfent} (hany : cf.ftype = '?') (ha : hasAttrs e.ftype)
    (mstat : Mergstat) : typechg e cf mstat = (.ok, { cf with ftype := e.ftype }, mstat) := by
  have hne : cf.ftype ≠ e.ftype := by
    rw [hany]
    exact (hasAttrs_cases ha).2.2.2.1.symm
  unfold typechg
  rw [if_neg hne, if_pos hany]

theorem typechg_link {e : Cfent} (hlink : isLink cf.ftype) (ha : hasAttrs e.ftype)
    (mstat : Mergstat) : typechg e cf mstat = (.warning, cf, mstat) := by
  have hgroups : ∀ c ∈ ['s', 'l'], ∀ t ∈ "dxcbpfve".toList, c ≠ t ∧ c ≠ '?' ∧ t ≠ '?' ∧ c ≠ 'd' ∧
      objectType c ≠ objectType t ∧ objectType c ≠ 4 := by decide
  have hmem : cf.ftype ∈ ['s', 'l'] := by simpa [isLink] using hlink
  obtain ⟨hne, hcany, heany, hdir, hgroup, hfour⟩ :=
    hgroups cf.ftype hmem e.ftype (of_decide_eq_true ha)
  unfold typechg
  dsimp only
  rw [if_neg hne, if_neg hcany, if_neg heany, if_neg fun h => hdir h.2, if_neg hgroup,
    if_neg fun h => hfour h.2]

/-- An element that meets an entry of unknown type counts as unchanged if it gives nothing else. -/
theorem merg_unknown (hdbst : inst.dbst = nul) (hcf : cf.ainfo.Unread) (hany : cf.ftype = '?')
    (ha : hasAttrs el.cfEnt.ftype) (sys : System) (i : Nat) :
    (merg sys inst el cf i).1 ≠ .replace ∧ MetUnread sys el cf (merg sys inst el cf i).2 := by
  have hattrs : hasAttrs (el.withPinfo cf.pinfo).cfEnt.ftype := ha
  have hmstat : { el.mstat with contchg := el.mstat.contchg || TypeChange.ok == .warning } =
      el.mstat := by
    rw [show (TypeChange.ok == .warning) = false from rfl, Bool.or_false]
  rw [merg_eq hdbst, typechg_unknown hany hattrs]
  refine ⟨mergSteps_ne_replace _ _ _, ?_⟩
  dsimp only [mergTyped]
  rw [hmstat]
  have hunread : ({ cf with ftype := el.cfEnt.ftype } : Cfent).ainfo.Unread := hcf
  exact (mergAttrs_metUnread hunread hattrs sys _ i).of_withPinfo

/-- The contents of an element that takes the place of a link change, and it gets no attributes. -/
theorem merg_link (hdbst : inst.dbst = nul) (hcf : cf.ainfo.Unread) (hlink : isLink cf.ftype)
    (ha : hasAttrs el.cfEnt.ftype) (sys : System) (i : Nat) :
    (merg sys inst el cf i).1 ≠ .replace ∧ (merg sys inst el cf i).2.mstat.contchg = true ∧
      ((merg sys inst el cf i).2.cfEnt.Resolved → el.cfEnt.ainfo.Resolved) := by
  have hattrs : hasAttrs (el.withPinfo cf.pinfo).cfEnt.ftype := ha
  rw [merg_eq hdbst, typechg_link hlink hattrs]
  refine ⟨mergSteps_ne_replace _ _ _, ?_⟩
  let y : Cfextra := { el.withPinfo cf.pinfo with
    mstat := { el.mstat with contchg := el.mstat.contchg || TypeChange.warning == .warning } }
  have hcont : y.mstat.contchg = true := Bool.or_true _
  have hy : hasAttrs y.cfEnt.ftype := ha
  have h := mergAttrs_metUnread hcf hy sys (cf.ftype != el.cfEnt.ftype) i
  refine ⟨Bool.of_not_eq_false fun hf => ?_, fun hr => h.resolved (hr ?_)⟩
  · have hsame := (h.contchg.mp hf).1
    rw [hcont] at hsame
    cases hsame
  · exact (congrArg (fun p => hasAttrs p.1 = true) h.place).mpr hy

/-- An element of which nothing is known takes everything from the object, where the entry that it
meets is of unknown type. -/
structure Cfextra.TakesAll (sys : System) (el : Cfextra) : Prop where
  unknown : el.Unknown
  unchanged : el.mstat.contchg = false ∧ ¬ el.contentDiffers sys .unread
  device : isDevice el.cfEnt.ftype →
    el.cfEnt.ainfo.major = badMajor ∧ el.cfEnt.ainfo.minor = badMinor
  checked : hasContent el.cfEnt.ftype →
    (Pkgtools.cverify sys el.cfEnt.ftype el.serverPath el.cfEnt.cinfo).1 = 0
  object : ∃ status, sys.objectOf el.cfEnt.ftype el.serverPath = some status ∧
    (∃ owner, sys.cpwuid status.uid = some owner ∧ owner ≠ badOwner) ∧
    ∃ group, sys.cgrgid status.gid = some group ∧ group ≠ badGroup

/-- Unless a conflict leaves the entry as it is, the merged element is compared with its object. -/
theorem likeMerg_merged (hconf : ¬ (inst.nocnflct ∧ el.mstat.shared ∧ el.cfEnt.ftype ≠ 'e'))
    (hne : (merg sys inst el cf i).1 ≠ .replace) :
    (likeMerg sys inst el cf i).1 ≠ .replace ∧ (likeMerg sys inst el cf i).2.2 =
      if (merg sys inst el cf i).2.mstat.contchg = false then
        setChange sys (merg sys inst el cf i).2
      else (merg sys inst el cf i).2 := by
  rw [likeMerg, if_neg hconf]
  generalize merg sys inst el cf i = r at hne ⊢
  obtain ⟨res, x⟩ := r
  cases res with
  | replace => exact absurd rfl hne
  | same => exact ⟨hne, rfl⟩
  | different => exact ⟨hne, rfl⟩

theorem MetUnread.contchg_iff (h : MetUnread sys el cf x) (hcf : cf.OfType) (hany : cf.ftype = '?')
    (hdev : isDevice el.cfEnt.ftype → el.cfEnt.ainfo.major = badMajor ∧
      el.cfEnt.ainfo.minor = badMinor) :
    x.mstat.contchg = false ↔ el.mstat.contchg = false ∧ ¬ el.contentDiffers sys .unread := by
  have hdevice : ¬ el.deviceDiffers cf.ainfo := by
    rintro ⟨hd, hmajor | hminor⟩
    · exact hmajor.2 (hdev hd).1
    · exact hminor.2 (hdev hd).2
  rw [h.contchg, hcf.content hany]
  simp only [hdevice, not_false_eq_true, and_true]

/-- The object that is looked at for an element whose contents have not changed. -/
theorem MetUnread.object_eq (h : MetUnread sys el cf x) (hc : x.mstat.contchg = false) :
    x.object sys = if x.mstat.attrchg = false ∧ (hasContent el.cfEnt.ftype →
        (Pkgtools.cverify sys el.cfEnt.ftype el.serverPath el.cfEnt.cinfo).1 = 0) then
      sys.objectOf el.cfEnt.ftype el.serverPath else none := by
  have hftype : x.cfEnt.ftype = el.cfEnt.ftype := congrArg Prod.fst h.place
  have hserver : x.serverPath = el.serverPath := congrArg (fun p => p.2.2) h.place
  simp only [Cfextra.object, hftype, hserver, h.contents, hc, true_and]

/-- What is not known after an entry of unknown type is read off the object, or it stays so. -/
theorem MetUnread.setChange_resolved_iff (h : MetUnread sys el cf x) (hcf : cf.OfType)
    (hany : cf.ftype = '?') (ha : hasAttrs el.cfEnt.ftype)
    (hdev : isDevice el.cfEnt.ftype → el.cfEnt.ainfo.major = badMajor ∧
      el.cfEnt.ainfo.minor = badMinor) (hown : ¬ el.cfEnt.ainfo.Resolved)
    (hc : x.mstat.contchg = false) : (setChange sys x).cfEnt.Resolved ↔ el.TakesAll sys := by
  have hftype : x.cfEnt.ftype = el.cfEnt.ftype := congrArg Prod.fst h.place
  have hxattrs : hasAttrs x.cfEnt.ftype := hftype ▸ ha
  have hxown : ¬ x.cfEnt.ainfo.Resolved := fun hx => hown (h.resolved hx)
  have hattrs : hasAttrs (setChange sys x).cfEnt.ftype := by rwa [setChange_ftype]
  rw [Cfent.resolved_iff hattrs, Ainfo.resolved_congr (setChange_names hxattrs), h.object_eq hc]
  constructor
  · intro hres
    split at hres
    · rename_i hchecked
      have hunknown := h.attrchg.mp hchecked.1
      cases hstatus : sys.objectOf el.cfEnt.ftype el.serverPath with
      | none =>
        rw [hstatus] at hres
        exact absurd hres hxown
      | some status =>
        rw [hstatus] at hres
        obtain ⟨-, hrest⟩ := Prod.mk.inj h.names
        obtain ⟨howner, hgroup⟩ := Prod.mk.inj hrest
        obtain ⟨hreadOwner, hreadGroup⟩ := (Ainfo.readOff_resolved_iff sys _ status).mp hres
        refine ⟨hunknown, (h.contchg_iff hcf hany hdev).mp hc, hdev, hchecked.2, status, hstatus,
          ?_, ?_⟩
        · exact hreadOwner.resolve_left (not_not.mpr (howner.trans hunknown.owner))
        · exact hreadGroup.resolve_left (not_not.mpr (hgroup.trans hunknown.group))
    · exact absurd hres hxown
  · intro htakes
    obtain ⟨status, hstatus, howner, hgroup⟩ := htakes.object
    rw [if_pos ⟨h.attrchg.mpr htakes.unknown, htakes.checked⟩, hstatus]
    exact (Ainfo.readOff_resolved_iff sys _ status).mpr ⟨.inr howner, .inr hgroup⟩

theorem likeMerg_unknown (hdbst : inst.dbst = nul) (hcf : cf.OfType) (hany : cf.ftype = '?')
    (ha : hasAttrs el.cfEnt.ftype)
    (hconf : ¬ (inst.nocnflct ∧ el.mstat.shared ∧ el.cfEnt.ftype ≠ 'e'))
    (hdev : isDevice el.cfEnt.ftype → el.cfEnt.ainfo.major = badMajor ∧
      el.cfEnt.ainfo.minor = badMinor) (hown : ¬ el.cfEnt.ainfo.Resolved) (sys : System) (i : Nat) :
    (likeMerg sys inst el cf i).1 ≠ .replace ∧
      ((likeMerg sys inst el cf i).2.2.cfEnt.Resolved ↔ el.TakesAll sys) := by
  have hunread := hcf.attrs (by rw [hany]; decide)
  obtain ⟨hne, hx⟩ := merg_unknown hdbst hunread hany ha sys i
  obtain ⟨hne', heq⟩ := likeMerg_merged hconf hne
  refine ⟨hne', ?_⟩
  rw [heq]
  split
  · rename_i hc
    exact hx.setChange_resolved_iff hcf hany ha hdev hown hc
  · rename_i hc
    have hxattrs : hasAttrs (merg sys inst el cf i).2.cfEnt.ftype :=
      (congrArg (fun p => hasAttrs p.1 = true) hx.place).mpr ha
    exact iff_of_false (fun h => hown (hx.resolved (h hxattrs)))
      fun h => hc ((hx.contchg_iff hcf hany hdev).mpr h.unchanged)

/-- What is not known before it meets a link is not known afterwards. -/
theorem likeMerg_link (hdbst : inst.dbst = nul) (hcf : cf.ainfo.Unread) (hlink : isLink cf.ftype)
    (ha : hasAttrs el.cfEnt.ftype)
    (hconf : ¬ (inst.nocnflct ∧ el.mstat.shared ∧ el.cfEnt.ftype ≠ 'e')) (sys : System) (i : Nat) :
    (likeMerg sys inst el cf i).1 ≠ .replace ∧
      ((likeMerg sys inst el cf i).2.2.cfEnt.Resolved → el.cfEnt.ainfo.Resolved) := by
  obtain ⟨hne, hcont, hres⟩ := merg_link hdbst hcf hlink ha sys i
  obtain ⟨hne', heq⟩ := likeMerg_merged hconf hne
  refine ⟨hne', ?_⟩
  rw [heq, hcont, if_neg (by decide)]
  exact hres

/-- The attributes of an element can be found out where it meets an entry of the database: the entry
has attributes or is left as it is, or the element has all of its own, or it takes them all from the
object. -/
def Cfextra.ResolvableLike (sys : System) (inst : Install) (el : Cfextra) (cf : Cfent) : Prop :=
  hasAttrs cf.ftype ∨ conflicts inst el (dbEntry el cf) ∨ el.cfEnt.ainfo.Resolved ∨
    cf.ftype = '?' ∧ el.TakesAll sys

theorem Cfextra.TakesAll.congr (h : el.TakesAll sys) (hent : x.cfEnt = el.cfEnt)
    (hserver : x.serverPath = el.serverPath) (hcont : x.mstat.contchg = el.mstat.contchg)
    (hattr : x.mstat.attrchg = el.mstat.attrchg) : x.TakesAll sys := by
  refine ⟨⟨?_, ?_, ?_⟩, ⟨?_, ?_⟩, ?_, ?_, ?_⟩
  · rw [hent, hattr]
    exact h.unknown.mode
  · rw [hent]
    exact h.unknown.owner
  · rw [hent]
    exact h.unknown.group
  · rw [hcont]
    exact h.unchanged.1
  · rw [Cfextra.contentDiffers, Cfextra.path, hent]
    exact h.unchanged.2
  · rw [hent]
    exact h.device
  · rw [hent, hserver]
    exact h.checked
  · rw [hent, hserver]
    exact h.object

theorem isLink_of_not_hasAttrs (hft : isFtype c) (ha : ¬ hasAttrs c) (hany : c ≠ '?') :
    isLink c := by
  have hall : ∀ t ∈ "?fvelspcbdx".toList, ¬ hasAttrs t → t ≠ '?' → isLink t := by decide
  exact hall c (of_decide_eq_true hft) ha hany

/-- What is written for an entry of the database has known attributes exactly if they can be found
out. -/
theorem likeEntry_resolved_iff (hdbst : inst.dbst = nul) (hcf : cf.Resolved) (hof : cf.OfType)
    (hft : isFtype cf.ftype) (ha : hasAttrs el.cfEnt.ftype)
    (hdev : cf.ftype = '?' → isDevice el.cfEnt.ftype →
      el.cfEnt.ainfo.major = badMajor ∧ el.cfEnt.ainfo.minor = badMinor)
    (he : likeEntry sys inst el cf ctrl = some e) :
    e.Resolved ↔ el.ResolvableLike sys inst cf := by
  have hrm : el.cfEnt.ftype ≠ rmRdy := (hasAttrs_cases ha).2.2.2.2.2
  by_cases hknown : hasAttrs cf.ftype ∨ conflicts inst el (dbEntry el cf) ∨ el.cfEnt.ainfo.Resolved
  · refine iff_of_true (likeEntry_resolved hdbst hcf (fun _ => hknown) he) ?_
    exact hknown.imp id (Or.imp id .inl)
  · obtain ⟨hno, hrest⟩ := not_or.mp hknown
    obtain ⟨hconf, hown⟩ := not_or.mp hrest
    have hlike : el.ResolvableLike sys inst cf ↔ cf.ftype = '?' ∧ el.TakesAll sys := by
      simp only [Cfextra.ResolvableLike, hno, hconf, hown, Bool.false_eq_true, false_or]
    obtain ⟨cf₁, i, hbody, hmerge⟩ := likeEntry_keeps he
    obtain ⟨hftype, hrest⟩ := Prod.mk.inj hbody
    obtain ⟨hainfo, hcinfo⟩ := Prod.mk.inj hrest
    have hof₁ : cf₁.OfType := ⟨by rw [hftype, hainfo]; exact hof.attrs,
      by rw [hftype, hcinfo]; exact hof.content⟩
    have hunread : cf₁.ainfo.Unread := hainfo ▸ hof.attrs hno
    have hent : (el.share (othersToo (dbEntry el cf) inst.pkginst)).cfEnt = el.cfEnt := rfl
    have hyconf : ¬ (inst.nocnflct ∧
      (el.share (othersToo (dbEntry el cf) inst.pkginst)).mstat.shared ∧
        (el.share (othersToo (dbEntry el cf) inst.pkginst)).cfEnt.ftype ≠ 'e') := fun h =>
      hconf (decide_eq_true h)
    have htakes : (el.share (othersToo (dbEntry el cf) inst.pkginst)).TakesAll sys ↔
        el.TakesAll sys := ⟨fun h => h.congr rfl rfl rfl rfl, fun h => h.congr rfl rfl rfl rfl⟩
    generalize el.share (othersToo (dbEntry el cf) inst.pkginst) = y at hent hyconf htakes hmerge
    rw [← hent] at ha hdev hown hrm
    rw [keptEntry, if_neg hrm] at hmerge
    rw [hlike, Cfent.resolved_congr (mergeLikeEntry_attrs hmerge)]
    by_cases hany : cf.ftype = '?'
    · obtain ⟨hne, hiff⟩ := likeMerg_unknown hdbst hof₁ (hftype.trans hany) ha hyconf (hdev hany)
        hown sys i
      rw [if_neg hne, hiff, htakes, and_iff_right hany]
    · have hlink : isLink cf₁.ftype := hftype ▸ isLink_of_not_hasAttrs hft hno hany
      obtain ⟨hne, hres⟩ := likeMerg_link hdbst hunread hlink ha hyconf sys i
      rw [if_neg hne]
      exact iff_of_false (fun h => hown (hres h)) fun h => hany h.1

theorem likeEntry_resolved_of (hdbst : inst.dbst = nul) (hcf : cf.Resolved) (hof : cf.OfType)
    (hft : isFtype cf.ftype) (h : hasAttrs el.cfEnt.ftype → el.ResolvableLike sys inst cf)
    (he : likeEntry sys inst el cf ctrl = some e) : e.Resolved := by
  by_cases htakes : hasAttrs el.cfEnt.ftype ∧ cf.ftype = '?' ∧ el.TakesAll sys
  · obtain ⟨ha, hany, htakes⟩ := htakes
    exact (likeEntry_resolved_iff hdbst hcf hof hft ha (fun _ => htakes.device) he).mpr (h ha)
  · refine likeEntry_resolved hdbst hcf (fun ha => ?_) he
    rcases h ha with hc | hconf | hown | ⟨hany, htake⟩
    · exact .inl hc
    · exact .inr (.inl hconf)
    · exact .inr (.inr hown)
    · exact absurd ⟨ha, hany, htake⟩ htakes

end Unread

section New
variable {sys : System} {inst : Install} {el : Cfextra} {e : Cfent} {ctrl : Bool}

/-- The attributes of a new element can be found out: it has a mode, which may be `?`, or it is left
out because of a conflict, or the mode is read off an object. -/
def Cfextra.ResolvableNew (sys : System) (inst : Install) (el : Cfextra) (inside : Prop) : Prop :=
  el.cfEnt.ainfo.mode ≠ badMode ∨ inst.nocnflct ∧ el.mstat.shared ∨
    (¬ inside ∧ sys.access el.serverPath) ∧ (inst.nocnflct ∨ (el.object sys).isSome)

/-- The defaults leave no attribute unknown but a mode that is not given. -/
theorem newDefaults_resolved_iff (e : Cfent) :
    (newDefaults e).ainfo.Resolved ↔ e.ainfo.mode ≠ badMode := by
  have hdefault {name bad default : Str} (hne : default ≠ bad) :
      (if name = bad then default else name) ≠ bad := by
    split
    · exact hne
    · assumption
  have hmode : (newDefaults e).ainfo.mode =
      if e.ainfo.mode = wildcard then if e.ftype = 'd' then 0o755 else 0o644 else e.ainfo.mode :=
        rfl
  constructor
  · intro h hbad
    have hne := h.mode.1
    rw [hmode, hbad] at hne
    exact hne rfl
  · intro h
    refine ⟨?_, hdefault (by decide), hdefault (by decide)⟩
    rw [hmode]
    split
    · split <;> decide
    · rename_i hwild
      exact ⟨h, hwild⟩

theorem newElement_ftype (sys : System) (el : Cfextra) :
    (newElement sys el).cfEnt.ftype = el.cfEnt.ftype := by
  unfold newElement
  split
  · exact setChange_ftype sys _
  · rfl

/-- What is known of a new element, and whether it is shared, when it has been compared with the
object that may be there. -/
theorem newElement_outcome (ha : hasAttrs el.cfEnt.ftype) (sys : System) :
    let present := el.mstat.parentsyml2dir = false ∧ sys.access el.serverPath
    ((newElement sys el).mstat.shared ↔ el.mstat.shared ∨ present) ∧
      ((newElement sys el).cfEnt.ainfo.mode ≠ badMode ↔
        el.cfEnt.ainfo.mode ≠ badMode ∨ present ∧ (el.object sys).isSome) := by
  have hshared (x : Cfextra) : (setChange sys x).mstat.shared = x.mstat.shared :=
    setChange_induct (P := fun y => y.mstat.shared = x.mstat.shared) rfl rfl (fun _ _ _ h => h)
      (fun _ h => h) fun _ h => h
  unfold newElement
  split
  · rename_i hpresent
    let x : Cfextra := { el with mstat := { el.mstat with shared := true, rogue := true } }
    refine ⟨?_, ?_⟩
    · rw [hshared]
      exact iff_of_true rfl (.inr hpresent)
    · have hx : hasAttrs x.cfEnt.ftype := ha
      have hmode : (setChange sys x).cfEnt.ainfo.mode =
          ((el.object sys).elim el.cfEnt.ainfo (el.cfEnt.ainfo.readOff sys)).mode :=
        congrArg Prod.fst (setChange_names hx)
      rw [hmode]
      cases el.object sys with
      | none => simp
      | some status =>
        refine iff_of_true ?_ (.inr ⟨hpresent, rfl⟩)
        exact (Ainfo.readOff_mode sys el.cfEnt.ainfo status).1
  · rename_i habsent
    refine ⟨(or_iff_left habsent).symm, ?_⟩
    exact (or_iff_left fun h => habsent h.1).symm

theorem insertedEntry_attrs (he : insertedEntry sys inst el ctrl = some e) :
    e.attrs = (newDefaults (newElement sys el).cfEnt).attrs := by
  unfold insertedEntry at he
  split at he
  · cases he
  · dsimp only at he
    split at he
    · cases he
    · rw [← Option.some.inj he, outputEntry_attrs]
      show (Cfent.modifyPinfo _ _ _).attrs = _
      split
      · exact eptstat_attrs (newDefaults (newElement sys el).cfEnt) inst.pkginst dupEntry
      · rfl

theorem insertedEntry_isSome (hne : el.cfEnt.ftype ≠ rmRdy) (sys : System) (inst : Install)
    (ctrl : Bool) :
    (insertedEntry sys inst el ctrl).isSome ↔
      ¬ (inst.nocnflct ∧ (newElement sys el).mstat.shared) := by
  unfold insertedEntry
  rw [if_neg hne]
  dsimp only
  split
  · rename_i hleft
    simp [hleft]
  · rename_i hin
    simp only [hin, not_false_eq_true, iff_true]
    rfl

/-- What is written for a new element has known attributes exactly if they can be found out. -/
theorem insertedEntry_resolved_iff (ha : hasAttrs el.cfEnt.ftype) :
    (∀ e, insertedEntry sys inst el ctrl = some e → e.Resolved) ↔
      el.ResolvableNew sys inst (el.mstat.parentsyml2dir = true) := by
  obtain ⟨hshared, hmode⟩ := newElement_outcome ha sys
  have hftype := newElement_ftype sys el
  have hsome := insertedEntry_isSome (hasAttrs_cases ha).2.2.2.2.2 sys inst ctrl
  have hres (e : Cfent) (he : insertedEntry sys inst el ctrl = some e) :
      e.Resolved ↔ (newElement sys el).cfEnt.ainfo.mode ≠ badMode := by
    rw [Cfent.resolved_congr (insertedEntry_attrs he), ← newDefaults_resolved_iff]
    exact Cfent.resolved_iff (hftype ▸ ha)
  rw [hshared] at hsome
  rw [Cfextra.ResolvableNew, Bool.not_eq_true]
  cases he : insertedEntry sys inst el ctrl with
  | none =>
    rw [he] at hsome
    obtain ⟨hconf, hleft⟩ := not_not.mp fun h => absurd (hsome.mpr h) (by decide)
    refine iff_of_true (fun e he => absurd he.symm (Option.some_ne_none e)) (.inr ?_)
    exact hleft.imp (fun h => ⟨hconf, h⟩) fun h => ⟨h, .inl hconf⟩
  | some e =>
    rw [he] at hsome
    have hin := hsome.mp rfl
    have hiff : (∀ x, some e = some x → x.Resolved) ↔ e.Resolved :=
      ⟨fun h => h e rfl, fun h x hx => Option.some.inj hx ▸ h⟩
    rw [hiff, hres e he, hmode]
    refine or_congr_right ⟨fun h => .inr ⟨h.1, .inr h.2⟩, ?_⟩
    rintro (h | ⟨hpresent, hconf | hobject⟩)
    · exact absurd ⟨h.1, .inl h.2⟩ hin
    · exact absurd ⟨hconf, .inr hpresent⟩ hin
    · exact ⟨hpresent, hobject⟩

end New

end Pkgtools
