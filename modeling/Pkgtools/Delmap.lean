import Pkgtools.Merge
import Pkgtools.RoundTrip
import Pkgtools.SearchSorted

namespace Pkgtools
open CLib
set_option autoImplicit true

/-- The variables of `delmap`. -/
structure Delmap where
  vfp : Vfp
  vfpo : Vfp
  ept : Cfent
  eptlist : List Cfent
  dbchg : Nat

/-- The loop of `delmap` for an entry that was read, with `flag` for an entry that is dropped at
once. It is undefined where the process quits. -/
def Delmap.remove (flag : Bool) (pkginst : Str) (d : Delmap) : Option Delmap := do
  let others := othersToo d.ept pkginst
  let (ept, pinfo) := eptstat d.ept pkginst (if flag then statNext else rmRdy)
  let vfpo ← if ept.npkgs > 0 then
      let (ret, vfpo) := putcvfpfile ept d.vfpo
      if ret ≠ 0 then none else some vfpo
    else some d.vfpo
  match flag, pinfo with
  | false, some i =>
    let p := ept.pinfo.getD i ⟨nul, [], 0, []⟩
    -- a shared file is marked, so that it is not removed later on
    let ftype := if p.editflag = 0 ∧ others then if ept.ftype = 'e' then '^' else nul else ept.ftype
    let pkgClass := if p.aclass ≠ [] then p.aclass else ept.pkgClass
    some { d with
      vfpo := vfpo
      ept := zeroEntry
      eptlist := d.eptlist ++ [{ ept with ftype := ftype, pkgClass := pkgClass }]
      dbchg := d.dbchg + 1 }
  | _, _ => some { d with vfpo := vfpo, ept := ept }

/-- The loop of `delmap`, with the uninitialised buffer in each call of `srchcfile`. -/
def Delmap.run (stack : Nat → Str) (flag : Bool) (pkginst : Str) : Nat → Delmap → Option Delmap
  | 0, _ => none
  | f + 1, d =>
    let found := srchcfile (stack f) d.ept (some ['*']) d.vfp none
    if found.ret = 0 then some { d with vfp := found.cf, ept := found.ept }
    else if found.ret < 0 then none
    else do
      let d ← Delmap.remove flag pkginst { d with vfp := found.cf, ept := found.ept }
      d.run stack flag pkginst f

/-- `delmap` up to the call of `swapcfile`; every round reads at least one byte. -/
def delmap (stack : Nat → Str) (flag : Bool) (pkginst : Str) (vfp vfpo : Vfp) (dbchg : Nat) :
    Option Delmap :=
  Delmap.run stack flag pkginst (vfp.mem.length + 1) ⟨vfp, vfpo, zeroEntry, [], dbchg⟩

def Cfent.withPinfo (e : Cfent) (npkgs : Int) (pinfo : List Pinfo) : Cfent :=
  { e with npkgs := npkgs, pinfo := pinfo }

def Cfent.without (pkg : Str) (e : Cfent) : Cfent :=
  let others := e.pinfo.filter fun p => p.pkg ≠ pkg
  e.withPinfo (wrap 16 others.length) others

section Without
variable (pkg : Str) (e : Cfent)

@[simp] theorem without_volno : (e.without pkg).volno = e.volno := by
  rw [Cfent.without, Cfent.withPinfo]

@[simp] theorem without_ftype : (e.without pkg).ftype = e.ftype := by
  rw [Cfent.without, Cfent.withPinfo]

@[simp] theorem without_pkgClass : (e.without pkg).pkgClass = e.pkgClass := by
  rw [Cfent.without, Cfent.withPinfo]

@[simp] theorem without_path : (e.without pkg).path = e.path := by
  rw [Cfent.without, Cfent.withPinfo]

@[simp] theorem without_ainfo : (e.without pkg).ainfo = e.ainfo := by
  rw [Cfent.without, Cfent.withPinfo]

@[simp] theorem without_cinfo : (e.without pkg).cinfo = e.cinfo := by
  rw [Cfent.without, Cfent.withPinfo]

theorem without_pinfo : (e.without pkg).pinfo = e.pinfo.filter fun p => p.pkg ≠ pkg := by
  rw [Cfent.without, Cfent.withPinfo]

theorem without_npkgs : (e.without pkg).npkgs = wrap 16 (e.without pkg).pinfo.length := by
  rw [Cfent.without, Cfent.withPinfo]

end Without

def survivors (pkg : Str) (es : List Cfent) : List Cfent :=
  (es.map (Cfent.without pkg)).filter fun e => e.pinfo ≠ []

def otherRefs (pkg : Str) (e : Cfent) : Nat := (e.pinfo.filter fun p => p.pkg ≠ pkg).length

/-- A line that is read as the entry `e`. -/
structure LineOf (l : Str) (e : Cfent) : Prop where
  oneLine : OneLine l
  entry : isSkipped l = false ∧ 2 ≤ l.length
  writable : ∃ path, e.Writable path
  parses : ∀ ept, parseLine (initEntry ept) l = some (.ok (e.readBack ept))

def IsComment (l : Str) : Prop := OneLine l ∧ l ≠ [] ∧ isSkipped l

/-- The lines of a contents file with the entries `es`, and comments anywhere. -/
inductive Database : List Str → List Cfent → Prop
  | last : (∀ c ∈ cs, IsComment c) → Database cs []
  | entry : (∀ c ∈ cs, IsComment c) → LineOf l e → Database ls es →
      Database (cs ++ l :: ls) (e :: es)

/-- A text from which exactly the entries `es` are read. -/
def HoldsEntries (text : Str) (es : List Cfent) : Prop :=
  ∀ (stack : Nat → Str) (ept : Cfent), ∃ founds final,
    searchCalls stack (es.length + 1) ept (vfpOpen text) = founds ++ [final] ∧
    List.Forall₂ (fun e found => found.ret = 1 ∧ Agrees e found.ept) es founds ∧ final.ret = 0

section Eptstat
variable {ps : List Pinfo} {e : Cfent}

theorem findPinfo_eq_none : findPinfo pkg ps = none ↔ ∀ p ∈ ps, p.pkg ≠ pkg := by
  induction ps with
  | nil => exact ⟨nofun, fun _ => rfl⟩
  | cons p ps ih =>
    rw [findPinfo, List.forall_mem_cons]
    cases hf : findPinfo pkg ps with
    | some j =>
      refine ⟨nofun, fun h => ?_⟩
      rw [hf] at ih
      cases ih.mpr h.2
    | none =>
      have hps := ih.mp hf
      by_cases hp : p.pkg = pkg
      · rw [if_pos hp]
        exact ⟨nofun, fun h => absurd hp h.1⟩
      · rw [if_neg hp]
        exact ⟨fun _ => ⟨hp, hps⟩, fun _ => rfl⟩

theorem filter_other (h : ∀ p ∈ ps, p.pkg ≠ pkg) : (ps.filter fun p => p.pkg ≠ pkg) = ps :=
  List.filter_eq_self.mpr fun p hp => decide_eq_true (h p hp)

theorem eraseIdx_findPinfo (hnodup : (ps.map Pinfo.pkg).Nodup) (hf : findPinfo pkg ps = some i) :
    ps.eraseIdx i = ps.filter fun p => p.pkg ≠ pkg := by
  induction ps generalizing i with
  | nil => cases hf
  | cons p ps ih =>
    rw [List.map_cons, List.nodup_cons] at hnodup
    rw [findPinfo] at hf
    cases hfind : findPinfo pkg ps with
    | some j =>
      have hp : p.pkg ≠ pkg := by
        rintro rfl
        have hnone : findPinfo p.pkg ps = none :=
          findPinfo_eq_none.mpr fun q hq he => hnodup.1 (he ▸ List.mem_map_of_mem hq)
        rw [hfind] at hnone
        cases hnone
      rw [hfind] at hf
      obtain rfl := Option.some.inj hf
      rw [List.eraseIdx_cons_succ, ih hnodup.2 hfind, List.filter_cons_of_pos (by simpa using hp)]
    | none =>
      rw [hfind] at hf
      by_cases hp : p.pkg = pkg
      · rw [if_pos hp] at hf
        obtain rfl := Option.some.inj hf
        rw [List.eraseIdx_cons_zero, List.filter_cons_of_neg (by simpa using hp),
          filter_other (findPinfo_eq_none.mp hfind)]
      · rw [if_neg hp] at hf
        cases hf

theorem length_eraseIdx_findPinfo (hf : findPinfo pkg ps = some i) :
    (ps.eraseIdx i).length + 1 = ps.length := by
  induction ps generalizing i with
  | nil => cases hf
  | cons p ps ih =>
    rw [findPinfo] at hf
    cases hfind : findPinfo pkg ps with
    | some j =>
      rw [hfind] at hf
      obtain rfl := Option.some.inj hf
      rw [List.eraseIdx_cons_succ, List.length_cons, ih hfind, List.length_cons]
    | none =>
      rw [hfind] at hf
      by_cases hp : p.pkg = pkg
      · rw [if_pos hp] at hf
        obtain rfl := Option.some.inj hf
        rw [List.eraseIdx_cons_zero, List.length_cons]
      · rw [if_neg hp] at hf
        cases hf

/-- The request to drop a package takes its references out of the list. -/
theorem eptstat_statNext (hnodup : (e.pinfo.map Pinfo.pkg).Nodup)
    (hn : e.npkgs = wrap 16 e.pinfo.length) (pkg : Str) :
    eptstat e pkg statNext = (e.without pkg, none) := by
  have hnul : ¬ statNext = nul := by decide
  rw [eptstat, if_neg hnul]
  cases hf : findPinfo pkg e.pinfo with
  | none =>
    have hall := filter_other (findPinfo_eq_none.mp hf)
    dsimp only
    rw [if_pos (.inl rfl), Cfent.without, hall, ← hn]
    rfl
  | some i =>
    have hlen : ((e.pinfo.length : Int) + -1) = (e.pinfo.eraseIdx i).length := by
      have := length_eraseIdx_findPinfo hf
      omega
    dsimp only
    rw [if_pos rfl, Cfent.without, ← eraseIdx_findPinfo hnodup hf, hn, Int.sub_eq_add_neg,
      wrap_wrap_add, hlen]
    rfl

end Eptstat

section ReadBack
variable {e ept : Cfent}

/-- The device numbers that an entry leaves behind for the next one. -/
def DevicesInRange (ept : Cfent) : Prop :=
  InRange 32 ept.ainfo.major badMajor ∧ InRange 32 ept.ainfo.minor badMinor

theorem Pinfo.Writable.readBack {p : Pinfo} (h : p.Writable) : p.readBack.Writable :=
  ⟨h.status, h.pkg, h.named, h.fits, h.aclass⟩

theorem badWord : Word badOwner ∧ badOwner.length ≤ atrsiz ∧ Word badGroup ∧ badGroup.length ≤
    atrsiz := by
  refine ⟨⟨?_, ?_, ?_⟩, ?_, ⟨?_, ?_, ?_⟩, ?_⟩ <;> decide +kernel

theorem readBack_ainfo (e ept : Cfent) : (e.readBack ept).ainfo =
    ⟨e.ainfo.localPath, if hasAttrs e.ftype then e.ainfo.mode else badMode,
      if hasAttrs e.ftype then e.ainfo.owner else badOwner,
      if hasAttrs e.ftype then e.ainfo.group else badGroup,
      if isDevice e.ftype then e.ainfo.major else ept.ainfo.major,
      if isDevice e.ftype then e.ainfo.minor else ept.ainfo.minor⟩ := by
  simp only [Cfent.readBack, fillContent, fillAttrs, fillDevices, initEntry]
  split <;> split <;> split <;> rfl

theorem readBack_cinfo (e ept : Cfent) : (e.readBack ept).cinfo =
    if hasContent e.ftype then e.cinfo else ⟨badCont, badCont, badCont⟩ := by
  simp only [Cfent.readBack, fillContent, fillAttrs, fillDevices, initEntry]
  split <;> split <;> split <;> rfl

theorem readBack_fields (e ept : Cfent) : (e.readBack ept).volno = 0 ∧
    (e.readBack ept).ftype = e.ftype ∧ (e.readBack ept).pkgClass = e.pkgClass ∧
    (e.readBack ept).path = e.path ∧ (e.readBack ept).npkgs = e.npkgs ∧
    (e.readBack ept).pinfo = e.pinfo.map Pinfo.readBack := by
  simp only [Cfent.readBack, fillContent, fillAttrs, fillDevices, initEntry]
  split <;> split <;> split <;> simp

theorem inRange_ite {p : Prop} [Decidable p] (hn : InRange w n bad) (hk : InRange w k bad) :
    InRange w (if p then n else k) bad := by
  split
  · exact hn
  · exact hk

theorem Cfent.Writable.readBack {path : Str} (hw : e.Writable path) (hept : DevicesInRange ept) :
    (e.readBack ept).Writable path := by
  obtain ⟨hvolno, hftype, hclass, hpath, hnpkgs, hpinfo⟩ := readBack_fields e ept
  have hainfo := readBack_ainfo e ept
  have hcinfo := readBack_cinfo e ept
  have hbad : InRange 64 badCont badCont := .inr rfl
  have hword {s t : Str} (hs : Word s ∧ s.length ≤ atrsiz) (ht : Word t ∧ t.length ≤ atrsiz) :
      Word (if hasAttrs e.ftype then s else t) ∧
        (if hasAttrs e.ftype then s else t).length ≤ atrsiz := by
    split
    · exact hs
    · exact ht
  constructor
  case volno => exact hvolno
  case ftype => exact hftype ▸ hw.ftype
  case named => exact hpath.trans hw.named
  case absolute => exact hw.absolute
  case pathChars => exact hw.pathChars
  case pathLength => exact hw.pathLength
  case linked =>
    rw [hftype, hainfo]
    exact hw.linked
  case localPath =>
    rw [hainfo]
    exact hw.localPath
  case pkgClass => exact hclass ▸ hw.pkgClass
  case mode =>
    rw [hainfo]
    dsimp only
    split
    · exact hw.mode
    · decide
  case owner =>
    rw [hainfo]
    exact hword hw.owner ⟨badWord.1, badWord.2.1⟩
  case group =>
    rw [hainfo]
    exact hword hw.group badWord.2.2
  case major =>
    rw [hainfo]
    exact inRange_ite hw.major hept.1
  case minor =>
    rw [hainfo]
    exact inRange_ite hw.minor hept.2
  case size =>
    rw [hcinfo, apply_ite Cinfo.size]
    exact inRange_ite hw.size hbad
  case cksum =>
    rw [hcinfo, apply_ite Cinfo.cksum]
    exact inRange_ite hw.cksum hbad
  case modtime =>
    rw [hcinfo, apply_ite Cinfo.modtime]
    exact inRange_ite hw.modtime hbad
  case packaged =>
    rw [hpinfo]
    exact fun h => hw.packaged (List.map_eq_nil_iff.mp h)
  case pinfo =>
    rw [hpinfo]
    intro p hp
    obtain ⟨q, hq, rfl⟩ := List.mem_map.mp hp
    exact (hw.pinfo q hq).readBack
  case npkgs =>
    rw [hnpkgs, hpinfo, List.length_map]
    exact hw.npkgs

def pinfoKey (p : Pinfo) : Str × Char × Bool × Str := (p.pkg, p.status, p.editflag != 0, p.aclass)

theorem pinfoText_eq_of_key {p q : Pinfo} (h : pinfoKey p = pinfoKey q) :
    pinfoText p = pinfoText q := by
  simp only [pinfoKey, Prod.mk.injEq] at h
  obtain ⟨hpkg, hstatus, hedit, hclass⟩ := h
  have hiff : p.editflag ≠ 0 ↔ q.editflag ≠ 0 := by
    rw [← bne_iff_ne, ← bne_iff_ne, hedit]
  simp only [pinfoText, hpkg, hstatus, hclass, hiff]

theorem flatMap_pinfoText_of_keys : {ps qs : List Pinfo} → ps.map pinfoKey = qs.map pinfoKey →
    ps.flatMap pinfoText = qs.flatMap pinfoText
  | [], [], _ => rfl
  | p :: ps, q :: qs, h => by
    obtain ⟨hp, hps⟩ := List.cons.inj h
    rw [List.flatMap_cons, List.flatMap_cons, pinfoText_eq_of_key hp, flatMap_pinfoText_of_keys hps]

theorem Agrees.entryText {e' : Cfent} (h : Agrees e e') (path : Str) :
    entryText e' path = entryText e path := by
  have hdevice : deviceText e' = deviceText e := by
    rw [deviceText, deviceText, h.ftype]
    by_cases hd : isDevice e.ftype
    · rw [if_pos hd, if_pos hd, (h.devices hd).1, (h.devices hd).2]
    · rw [if_neg hd, if_neg hd]
  have hattr : attrText e' = attrText e := by
    rw [attrText, attrText, h.ftype]
    by_cases ha : hasAttrs e.ftype
    · obtain ⟨hmode, howner, hgroup⟩ := h.attrs ha
      rw [if_pos ha, if_pos ha, hmode, howner, hgroup]
    · rw [if_neg ha, if_neg ha]
  have hcontent : contentText e' = contentText e := by
    rw [contentText, contentText, h.ftype]
    by_cases hc : hasContent e.ftype
    · rw [if_pos hc, if_pos hc, h.content hc]
    · rw [if_neg hc, if_neg hc]
  have hpkgs : e'.pinfo.flatMap pinfoText = e.pinfo.flatMap pinfoText :=
    flatMap_pinfoText_of_keys h.pinfo
  rw [Pkgtools.entryText, Pkgtools.entryText, hdevice, hattr, hcontent, hpkgs, h.localPath, h.ftype,
    h.pkgClass]

theorem Agrees.without {e' : Cfent} (h : Agrees e e') (pkg : Str) :
    Agrees (e.without pkg) (e'.without pkg) := by
  have hkeys : e'.pinfo.map pinfoKey = e.pinfo.map pinfoKey := h.pinfo
  have hothers (ps : List Pinfo) : (ps.filter fun p => p.pkg ≠ pkg).map pinfoKey =
      (ps.map pinfoKey).filter fun k => k.1 ≠ pkg := by
    rw [List.filter_map]
    rfl
  have hpinfo : (e'.without pkg).pinfo.map pinfoKey = (e.without pkg).pinfo.map pinfoKey := by
    rw [without_pinfo, without_pinfo, hothers, hothers, hkeys]
  have hlen := congrArg List.length hpinfo
  rw [List.length_map, List.length_map] at hlen
  constructor
  case npkgs => rw [without_npkgs, without_npkgs, hlen]
  case pinfo => exact hpinfo
  all_goals simp only [without_path, without_ftype, without_pkgClass, without_ainfo, without_cinfo]
  case path => exact h.path
  case ftype => exact h.ftype
  case pkgClass => exact h.pkgClass
  case localPath => exact h.localPath
  case devices => exact h.devices
  case attrs => exact h.attrs
  case noAttrs => exact h.noAttrs
  case content => exact h.content
  case noContent => exact h.noContent

end ReadBack

section Remove
variable {e ept : Cfent} {pkg path : Str} {d : Delmap}

theorem Cfent.Writable.withPinfo (hw : e.Writable path) (hne : ps ≠ [])
    (hps : ∀ p ∈ ps, Pinfo.Writable p) (hn : n = wrap 16 ps.length) :
    (e.withPinfo n ps).Writable path :=
  ⟨hw.volno, hw.ftype, hw.named, hw.absolute, hw.pathChars, hw.pathLength, hw.linked, hw.localPath,
    hw.pkgClass, hw.mode, hw.owner, hw.group, hw.major, hw.minor, hw.size, hw.cksum,
      hw.modtime, hne,
    hps, hn⟩

theorem Cfent.Writable.without (hw : e.Writable path) (hne : (e.without pkg).pinfo ≠ []) :
    (e.without pkg).Writable path := by
  rw [without_pinfo] at hne
  exact hw.withPinfo hne (fun p hp => hw.pinfo p (List.mem_filter.mp hp).1) rfl

theorem lineOf_without (hw : e.Writable path) :
    lineOf (e.without pkg) = entryText (e.without pkg) path := by
  rw [lineOf, without_path, hw.named]
  rfl

def written (e : Cfent) : List Cfent := if e.npkgs > 0 then [e] else []

/-- The entries that `delmap` writes. -/
def writtenEntries (pkg : Str) (es : List Cfent) : List Cfent :=
  (es.map (Cfent.without pkg)).flatMap written

theorem Delmap.remove_entry (hw : e.Writable path) (hnodup : (e.pinfo.map Pinfo.pkg).Nodup)
    (hept : DevicesInRange ept) (pkg : Str) :
    ∃ v, Delmap.remove true pkg { d with ept := e.readBack ept } =
        some { d with vfpo := v, ept := (e.readBack ept).without pkg } ∧
      Appends d.vfpo v (unlines ((written (e.without pkg)).map lineOf)) ∧
      (written (e.without pkg) = [] → v = d.vfpo) := by
  have hagrees := readBack_agrees e ept
  have hread := hw.readBack hept
  have hkeys : ((e.readBack ept).pinfo.map Pinfo.pkg).Nodup := by
    have hmap : (e.readBack ept).pinfo.map Pinfo.pkg = e.pinfo.map Pinfo.pkg := by
      rw [(readBack_fields e ept).2.2.2.2.2, List.map_map]
      rfl
    rw [hmap]
    exact hnodup
  have hnpkgs := (hagrees.without pkg).npkgs
  unfold Delmap.remove
  simp only [if_true, eptstat_statNext hkeys hread.npkgs, hnpkgs]
  by_cases hpos : (e.without pkg).npkgs > 0
  · have hne : ((e.readBack ept).without pkg).pinfo ≠ [] := by
      intro hnil
      rw [← hnpkgs, without_npkgs, hnil] at hpos
      exact absurd hpos (by decide)
    have hput := (hread.without hne).ftype
    have hwrite := putcvfpfile_appends d.vfpo (hread.without hne).typed (isFtype_nonspace hput).2
      (hread.without hne).volno (hread.without hne).named
    have hret : (putcvfpfile ((e.readBack ept).without pkg) d.vfpo).1 = 0 := by
      rw [putcvfpfile, if_neg (isFtype_nonspace hput).2, (hread.without hne).named]
    simp only [if_pos hpos, hret]
    rw [written, if_pos hpos]
    refine ⟨_, rfl, ?_, fun hnil => absurd hnil (List.cons_ne_nil _ _)⟩
    rw [List.map_singleton, unlines_cons, unlines_nil, lineOf_without hw,
      ← (hagrees.without pkg).entryText]
    exact hwrite
  · simp only [if_neg hpos]
    rw [written, if_neg hpos]
    exact ⟨_, rfl, Appends.refl _, fun _ => rfl⟩

theorem devicesInRange_without (hw : e.Writable path) (hept : DevicesInRange ept) (pkg : Str) :
    DevicesInRange ((e.readBack ept).without pkg) := by
  have hread := hw.readBack hept
  rw [DevicesInRange, without_ainfo]
  exact ⟨hread.major, hread.minor⟩

theorem srchcfile_onlyComments {cf : Vfp} (hcs : ∀ c ∈ cs, IsComment c)
    (hcf : cf.Reads before (unlines cs)) (stack : Str) (ept : Cfent) (tmp : Option Vfp) :
    (srchcfile stack ept (some ['*']) cf tmp).ret = 0 := by
  rw [srchcfile]
  by_cases hrem : vfpGetBytesRemaining cf ≤ 1
  · rw [if_pos hrem]
  · have hread : cf.Reads before (unlines cs ++ []) := by rwa [List.append_nil]
    have hend : vfpGetBytesRemaining (cf.moveTo (before.length + (unlines cs).length)) = 0 := by
      rw [hread.moveTo.remaining]
      rfl
    have hlines := length_le_unlines cs
    have hlen : cf.mem.length = before.length + (unlines cs).length := by
      rw [hcf.mem, List.length_append]
    have hfuel : cf.mem.length + 2 = cs.length + (cf.mem.length - cs.length + 1 + 1) := by omega
    have hstar : ('*' : Char) ≠ '/' := by decide
    rw [if_neg hrem]
    simp only [if_neg hstar, if_true, searchFrom]
    rw [hfuel, Search.run_skipped (s := ⟨cf, tmp, initEntry ept, cf.curr, 0, false⟩) cs
      (fun c hc => ⟨(hcs c hc).1, (hcs c hc).2.2⟩) hread (.inr fun c hc => (hcs c hc).2.1),
      Search.run, Search.step_end hend]
    rfl

theorem Delmap.run_database (hdb : Database ls es)
    (hnodup : ∀ e ∈ es, (e.pinfo.map Pinfo.pkg).Nodup) (hread : d.vfp.Reads before (unlines ls))
    (hept : DevicesInRange d.ept) (hf : es.length < f) (stack : Nat → Str) (pkg : Str) :
    ∃ d', d.run stack true pkg f = some d' ∧
      Appends d.vfpo d'.vfpo (unlines ((writtenEntries pkg es).map lineOf)) ∧
      (writtenEntries pkg es = [] → d'.vfpo = d.vfpo) := by
  induction hdb generalizing before d f with
  | last hcs =>
    obtain ⟨f, rfl⟩ := Nat.exists_eq_add_of_lt hf
    have hret := srchcfile_onlyComments hcs hread (stack f) d.ept none
    have hrun : d.run stack true pkg (f + 1) = some { d with
        vfp := (srchcfile (stack f) d.ept (some ['*']) d.vfp none).cf
        ept := (srchcfile (stack f) d.ept (some ['*']) d.vfp none).ept } := by
      rw [Delmap.run]
      simp only [hret, if_true]
    rw [List.length_nil, Nat.zero_add]
    exact ⟨_, hrun, Appends.refl _, fun _ => rfl⟩
  | @entry cs l e ls es hcs hl hdb ih =>
    obtain ⟨path, hw⟩ := hl.writable
    obtain ⟨f, rfl⟩ : ∃ k, f = k + 1 := ⟨f - 1, by omega⟩
    rw [unlines_append, unlines_cons] at hread
    have hcall := srchcfile_of_parseLine hread (fun c hc => ⟨(hcs c hc).1, (hcs c hc).2.2⟩)
      hl.oneLine hl.entry.1 hl.entry.2 (hl.parses d.ept) (stack f) none
    have hnext : (d.vfp.moveTo (before.length + (unlines cs).length + l.length + 1)).Reads
        (before ++ unlines cs ++ (l ++ ['\n'])) (unlines ls) := by
      have hline := (hread.moveTo (s := unlines cs)).line
      rwa [List.length_append, ← Nat.add_assoc] at hline
    obtain ⟨v, hremove, happ, hnone⟩ := Delmap.remove_entry (d := { d with
      vfp := d.vfp.moveTo (before.length + (unlines cs).length + l.length + 1) }) hw
      (hnodup e List.mem_cons_self) hept pkg
    obtain ⟨d', hrun, happ', hnone'⟩ := ih (d := ⟨_, v, _, d.eptlist, d.dbchg⟩)
      (fun x hx => hnodup x (List.mem_cons_of_mem _ hx)) hnext
      (devicesInRange_without hw hept pkg)
      (Nat.lt_of_succ_lt_succ hf)
    have hall : writtenEntries pkg (e :: es) = written (e.without pkg) ++
        writtenEntries pkg es := by
      rw [writtenEntries, List.map_cons, List.flatMap_cons]
      rfl
    refine ⟨d', ?_, ?_, fun hnil => ?_⟩
    · rw [Delmap.run, hcall]
      simp only [Search.finish,
        show ¬ (1 : Int) = 0 by decide, show ¬ (1 : Int) < 0 by decide, if_false]
      rw [hremove]
      exact hrun
    · rw [hall, List.map_append, unlines_append]
      exact happ.trans happ'
    · rw [hall] at hnil
      obtain ⟨hwritten, hrest⟩ := List.append_eq_nil_iff.mp hnil
      rw [hnone' hrest]
      exact hnone hwritten

theorem Database.length_le (h : Database ls es) : es.length ≤ (unlines ls).length := by
  induction h with
  | last => exact Nat.zero_le _
  | entry hcs hl hdb ih =>
    rw [unlines_append, unlines_cons, List.length_cons, List.length_append, List.length_append,
      List.length_cons]
    omega

theorem Database.oneLine (h : Database ls es) : ∀ l ∈ ls, OneLine l := by
  induction h with
  | last hcs => exact fun c hc => (hcs c hc).1
  | entry hcs hl hdb ih =>
    intro x hx
    rcases List.mem_append.mp hx with hx | hx
    · exact (hcs x hx).1
    · rcases List.mem_cons.mp hx with rfl | hx
      · exact hl.oneLine
      · exact ih x hx

theorem Database.writable (h : Database ls es) : ∀ e ∈ es, ∃ path, e.Writable path := by
  induction h with
  | last => exact List.forall_mem_nil _
  | entry hcs hl hdb ih =>
    intro x hx
    rcases List.mem_cons.mp hx with rfl | hx
    · exact hl.writable
    · exact ih x hx

theorem delmap_image (hdb : Database ls es) (hnodup : ∀ e ∈ es, (e.pinfo.map Pinfo.pkg).Nodup)
    {vfpo : Vfp} (hv : vfpo.Wf) (hempty : vfpo.text = []) (stack : Nat → Str) (pkg : Str)
    (dbchg : Nat) :
    ∃ d, delmap stack true pkg (vfpOpen (unlines ls)) vfpo dbchg = some d ∧
      (d.vfpo.HasRoom → d.vfpo.text = unlines ((writtenEntries pkg es).map lineOf)) ∧
      (writtenEntries pkg es = [] → d.vfpo = vfpo) := by
  have hdev : DevicesInRange zeroEntry := ⟨.inl ⟨by decide, by decide⟩, .inl ⟨by decide, by decide⟩⟩
  obtain ⟨d, hrun, happ, hnone⟩ := Delmap.run_database
    (d := ⟨vfpOpen (unlines ls), vfpo, zeroEntry, [], dbchg⟩) hdb hnodup
    (vfpOpen_reads (nulFree_unlines hdb.oneLine)) hdev (Nat.lt_succ_of_le hdb.length_le) stack pkg
  refine ⟨d, hrun, fun hroom => ?_, hnone⟩
  rw [happ.text hv hroom, hempty, List.nil_append]

end Remove

section Frame
variable {es es' : List Cfent} {text : Str}

theorem searchCalls_take (n k : Nat) (ept : Cfent) (cf : Vfp) :
    (searchCalls (fun _ => []) (n + k) ept cf).take n = searchCalls (fun _ => []) n ept cf := by
  induction n generalizing ept cf with
  | zero => rfl
  | succ n ih =>
    rw [Nat.succ_add, searchCalls, searchCalls, List.take_succ_cons, ih]

theorem HoldsEntries.length_le (h : HoldsEntries text es) (h' : HoldsEntries text es') :
    es'.length ≤ es.length := by
  obtain ⟨founds, final, hcalls, hfounds, hfinal⟩ := h (fun _ => []) zeroEntry
  obtain ⟨founds', final', hcalls', hfounds', -⟩ := h' (fun _ => []) zeroEntry
  by_contra hlt
  have hlt := Nat.lt_of_not_le hlt
  have htake := searchCalls_take (es.length + 1) (es'.length - es.length) zeroEntry (vfpOpen text)
  rw [show es.length + 1 + (es'.length - es.length) = es'.length + 1 by omega, hcalls, hcalls']
    at htake
  -- the call that ends the first sequence finds an entry in the second one
  have hget := congrArg (fun l => l[es.length]?) htake
  have hlen : es.length < founds'.length := by rwa [← hfounds'.length_eq]
  simp only [List.getElem?_take_of_lt (Nat.lt_succ_self _), List.getElem?_append_left hlen] at hget
  rw [List.getElem?_append_right (Nat.le_of_eq hfounds.length_eq.symm), hfounds.length_eq,
    Nat.sub_self, List.getElem?_eq_getElem (by rwa [← hfounds.length_eq])] at hget
  have hret := (hfounds'.get (i := founds.length) (by rwa [← hfounds.length_eq])
    (by rwa [← hfounds.length_eq])).1
  rw [List.get_eq_getElem, Option.some.inj hget, hfinal] at hret
  exact absurd hret (by decide)

theorem holdsEntries_unlines (hes : ∀ e ∈ es, ∃ path, e.Writable path) :
    HoldsEntries (unlines (es.map lineOf)) es := by
  intro stack ept
  exact searchCalls_unlines es hes stack ept

theorem wrap16_pos (k : Nat) : 0 < wrap 16 k ↔ 1 ≤ k % 65536 ∧ k % 65536 ≤ 32767 := by
  rw [wrap, Int.bmod_def]
  norm_num
  split <;> omega

theorem writtenEntries_eq (pkg : Str) (es : List Cfent) :
    writtenEntries pkg es = (es.map (Cfent.without pkg)).filter fun e => 0 < e.npkgs := by
  rw [writtenEntries]
  induction es.map (Cfent.without pkg) with
  | nil => rfl
  | cons e es ih =>
    rw [List.flatMap_cons, ih, written]
    by_cases h : e.npkgs > 0
    · rw [if_pos h, List.filter_cons_of_pos (by simpa using h)]
      rfl
    · rw [if_neg h, List.filter_cons_of_neg (by simpa using h)]
      rfl

theorem filter_eq_of_length {p q : α → Bool} {xs : List α} (himp : ∀ x ∈ xs, p x → q x)
    (hlen : (xs.filter q).length ≤ (xs.filter p).length) : ∀ x ∈ xs, p x = q x := by
  rw [← List.countP_eq_length_filter, ← List.countP_eq_length_filter] at hlen
  induction xs with
  | nil => exact nofun
  | cons x xs ih =>
    have htail (y) (hy : y ∈ xs) := himp y (List.mem_cons_of_mem _ hy)
    have hle := List.countP_mono_left htail
    have hx := himp x List.mem_cons_self
    rw [List.countP_cons, List.countP_cons] at hlen
    have hpq : p x = q x := by
      cases hp : p x with
      | true => exact (hx hp).symm
      | false =>
        cases hq : q x with
        | false => rfl
        | true =>
          rw [hp, hq, if_pos rfl, if_neg (by decide)] at hlen
          omega
    intro y hy
    rcases List.mem_cons.mp hy with rfl | hy
    · exact hpq
    · rw [hpq] at hlen
      exact ih htail (by omega) y hy

def CountersPositive (pkg : Str) (es : List Cfent) : Prop :=
  ∀ e ∈ es, otherRefs pkg e = 0 ∨ 1 ≤ otherRefs pkg e % 65536 ∧ otherRefs pkg e % 65536 ≤ 32767

theorem without_npkgs_pos (pkg : Str) (e : Cfent) : 0 < (e.without pkg).npkgs ↔
    1 ≤ otherRefs pkg e % 65536 ∧ otherRefs pkg e % 65536 ≤ 32767 := by
  rw [without_npkgs, wrap16_pos, without_pinfo, otherRefs]

theorem without_pinfo_ne_nil (pkg : Str) (e : Cfent) :
    (e.without pkg).pinfo ≠ [] ↔ otherRefs pkg e ≠ 0 := by
  rw [without_pinfo, otherRefs, ne_eq, ne_eq, List.length_eq_zero_iff]

theorem without_written (pkg : Str) (e : Cfent) (h : 0 < (e.without pkg).npkgs) :
    (e.without pkg).pinfo ≠ [] := by
  rw [without_pinfo_ne_nil]
  have hpos := ((without_npkgs_pos pkg e).mp h).1
  intro hzero
  rw [hzero] at hpos
  exact absurd hpos (by decide)

theorem survivors_image_iff (hes : ∀ e ∈ es, ∃ path, e.Writable path) (pkg : Str) :
    HoldsEntries (unlines ((writtenEntries pkg es).map lineOf)) (survivors pkg es) ↔
      CountersPositive pkg es := by
  have hkept (e) (he : e ∈ es.map (Cfent.without pkg)) : 0 < e.npkgs → e.pinfo ≠ [] := by
    obtain ⟨x, -, rfl⟩ := List.mem_map.mp he
    exact without_written pkg x
  have hwritten : ∀ e ∈ writtenEntries pkg es, ∃ path, e.Writable path := by
    intro e he
    rw [writtenEntries_eq, List.mem_filter] at he
    obtain ⟨x, hx, rfl⟩ := List.mem_map.mp he.1
    obtain ⟨path, hw⟩ := hes x hx
    exact ⟨path, hw.without (without_written pkg x (of_decide_eq_true he.2))⟩
  have hholds := holdsEntries_unlines hwritten
  constructor
  · intro h e he
    have hlen := hholds.length_le h
    rw [writtenEntries_eq, survivors] at hlen
    have hsame := filter_eq_of_length (by simpa using hkept) hlen (e.without pkg)
      (List.mem_map_of_mem he)
    rw [decide_eq_decide, without_npkgs_pos, without_pinfo_ne_nil] at hsame
    by_cases hzero : otherRefs pkg e = 0
    · exact .inl hzero
    · exact .inr (hsame.mpr hzero)
  · intro h
    have heq : writtenEntries pkg es = survivors pkg es := by
      rw [writtenEntries_eq, survivors]
      apply List.filter_congr
      intro e he
      rw [decide_eq_decide]
      refine ⟨hkept e he, fun hne => ?_⟩
      obtain ⟨x, hx, rfl⟩ := List.mem_map.mp he
      rw [without_pinfo_ne_nil] at hne
      exact (without_npkgs_pos pkg x).mpr ((h x hx).resolve_left hne)
    rw [← heq]
    exact hholds

/-- The removal of a package leaves exactly the entries of the other packages, as long as no entry
has so many of them that their counter wraps. -/
theorem delmap_frame_iff (hdb : Database ls es) (hnodup : ∀ e ∈ es, (e.pinfo.map Pinfo.pkg).Nodup)
    (hv : vfpo.Wf) (hempty : vfpo.text = []) (stack : Nat → Str) (pkg : Str) (dbchg : Nat) :
    ∃ d, delmap stack true pkg (vfpOpen (unlines ls)) vfpo dbchg = some d ∧
      (d.vfpo.HasRoom → (HoldsEntries d.vfpo.text (survivors pkg es) ↔
        ∀ e ∈ es, otherRefs pkg e = 0 ∨
          1 ≤ otherRefs pkg e % 65536 ∧ otherRefs pkg e % 65536 ≤ 32767)) := by
  obtain ⟨d, hrun, himage, -⟩ := delmap_image hdb hnodup hv hempty stack pkg dbchg
  refine ⟨d, hrun, fun hroom => ?_⟩
  rw [himage hroom]
  exact survivors_image_iff hdb.writable pkg

end Frame

section Samples

def crowdedEntry (n : Nat) : Cfent :=
  sampleLink.withPinfo (wrap 16 n) ((List.range n).map fun i : Nat => ⟨nul, fmtD i, 0, []⟩)

theorem isPkgNameSep_of_isDigit (h : Char.isDigit c) : isPkgNameSep c = false := by
  rw [Bool.eq_false_iff]
  intro hs
  simp only [isPkgNameSep, Bool.or_eq_true, beq_iff_eq] at hs
  rcases hs with ((((rfl | rfl) | rfl) | rfl) | rfl) | rfl <;> exact absurd h (by decide)

theorem isStatus_of_isDigit (h : Char.isDigit c) : isStatus c = false := by
  rw [Bool.eq_false_iff]
  intro hs
  have hmem : c = '-' ∨ c = '+' ∨ c = '*' ∨ c = '~' ∨ c = '!' ∨ c = '%' := by
    simpa [isStatus] using hs
  rcases hmem with rfl | rfl | rfl | rfl | rfl | rfl <;> exact absurd h (by decide)

theorem numbered_writable {i : Nat} (hi : i < 2 ^ 63) : Pinfo.Writable ⟨nul, fmtD i, 0, []⟩ := by
  have hdigit := fmtD_isDigit (x := i) (by omega)
  have hlen := fmtD_length (x := i) (by omega) (by omega)
  have hsize : pkgsiz = 64 := rfl
  refine ⟨.inl rfl,
    fun c hc => ⟨isspace_of_isDigit (hdigit c hc), isPkgNameSep_of_isDigit (hdigit c hc)⟩,
    fun _ => ?_, ?_, .inl rfl⟩
  · obtain ⟨c, name, hname⟩ := List.exists_cons_of_ne_nil (fmtD_ne_nil (i : Int))
    exact ⟨c, name, hname, isStatus_of_isDigit (hdigit c (by rw [hname]; exact List.mem_cons_self))⟩
  · dsimp only
    rw [if_neg (not_not.mpr rfl), List.length_nil]
    omega

theorem crowdedEntry_writable (hpos : 0 < n) (hn : n < 2 ^ 63) :
    (crowdedEntry n).Writable "/usr/adm".toList := by
  apply sampleLink_writable.withPinfo
  · simp only [ne_eq, List.map_eq_nil_iff, List.range_eq_nil]
    omega
  · intro p hp
    obtain ⟨i, hi, rfl⟩ := List.mem_map.mp hp
    exact numbered_writable (Nat.lt_trans (List.mem_range.mp hi) hn)
  · rw [List.length_map, List.length_range]

theorem crowdedEntry_nodup (hn : n < 2 ^ 63) : ((crowdedEntry n).pinfo.map Pinfo.pkg).Nodup := by
  have hmap : (crowdedEntry n).pinfo.map Pinfo.pkg = (List.range n).map fun i : Nat => fmtD i := by
    rw [crowdedEntry, Cfent.withPinfo, List.map_map]
    rfl
  rw [hmap]
  refine List.Nodup.map_on ?_ List.nodup_range
  intro i hi j hj he
  have hvalue {k : Nat} (hk : k ∈ List.range n) : digitsValue 10 (fmtD k) = k :=
    digitsValue_fmtD (by omega) (by have := List.mem_range.mp hk; omega)
  have hij := hvalue hi
  rw [he, hvalue hj] at hij
  exact (Int.ofNat.inj hij).symm

theorem crowdedEntry_otherRefs : otherRefs "SUNWcsr".toList (crowdedEntry n) = n := by
  have hall : ∀ p ∈ (crowdedEntry n).pinfo, p.pkg ≠ "SUNWcsr".toList := by
    intro p hp he
    rw [crowdedEntry, Cfent.withPinfo] at hp
    obtain ⟨i, -, rfl⟩ := List.mem_map.mp hp
    dsimp only at he
    have hdigit := fmtD_isDigit (x := i) (by omega) 'S' (by rw [he]; decide)
    exact absurd hdigit (by decide)
  rw [otherRefs, filter_other hall, crowdedEntry, Cfent.withPinfo, List.length_map,
    List.length_range]

theorem writable_lineOf (hw : e.Writable path) : LineOf (entryText e path) e :=
  ⟨hw.legible.oneLine, hw.legible.found, ⟨path, hw⟩,
    parseLine_entryText hw.legible hw.numbered⟩

/-- An entry whose number of packages is no positive `short`, none of them the one removed, gets
lost. -/
theorem delmap_drops (hpos : 0 < n) (hn : n < 2 ^ 63)
    (hcount : ¬ (1 ≤ n % 65536 ∧ n % 65536 ≤ 32767)) :
    Database [entryText (crowdedEntry n) "/usr/adm".toList] [crowdedEntry n] ∧
    ((crowdedEntry n).pinfo.map Pinfo.pkg).Nodup ∧
    ∃ d, delmap (fun _ => []) true "SUNWcsr".toList
        (vfpOpen (unlines [entryText (crowdedEntry n) "/usr/adm".toList]))
        (vfpAnonymous 512 0 fun _ => nul) 0 = some d ∧ d.vfpo.HasRoom ∧
      ¬ HoldsEntries d.vfpo.text (survivors "SUNWcsr".toList [crowdedEntry n]) := by
  have hw : (crowdedEntry n).Writable "/usr/adm".toList := crowdedEntry_writable hpos hn
  have hdb : Database ([] ++ entryText (crowdedEntry n) "/usr/adm".toList :: []) [crowdedEntry n] :=
    .entry (by simp) (writable_lineOf hw) (.last (by simp))
  have hnodup := crowdedEntry_nodup hn
  have hall : ∀ e ∈ [crowdedEntry n], (e.pinfo.map Pinfo.pkg).Nodup := by
    intro e he
    rw [List.mem_singleton.mp he]
    exact hnodup
  obtain ⟨d, hrun, himage, hnone⟩ := delmap_image hdb hall
    (vfpAnonymous_wf 512 0 (fun _ => nul) (by decide)) rfl (fun _ => []) "SUNWcsr".toList 0
  have hempty : writtenEntries "SUNWcsr".toList [crowdedEntry n] = [] := by
    rw [writtenEntries_eq, List.map_singleton, List.filter_cons_of_neg, List.filter_nil]
    rw [decide_eq_true_eq, without_npkgs_pos, crowdedEntry_otherRefs]
    exact hcount
  have hroom : d.vfpo.HasRoom := by
    rw [hnone hempty]
    decide
  refine ⟨hdb, hnodup, d, hrun, hroom, ?_⟩
  rw [himage hroom, survivors_image_iff hdb.writable]
  intro hshort
  have h := hshort _ (List.mem_singleton.mpr rfl)
  rw [crowdedEntry_otherRefs] at h
  exact h.elim (by omega) hcount

/-- An entry with 32768 packages gets lost. -/
theorem delmap_drops_crowded :
    Database [entryText (crowdedEntry 32768) "/usr/adm".toList] [crowdedEntry 32768] ∧
    ((crowdedEntry 32768).pinfo.map Pinfo.pkg).Nodup ∧
    ∃ d, delmap (fun _ => []) true "SUNWcsr".toList
        (vfpOpen (unlines [entryText (crowdedEntry 32768) "/usr/adm".toList]))
        (vfpAnonymous 512 0 fun _ => nul) 0 = some d ∧ d.vfpo.HasRoom ∧
      ¬ HoldsEntries d.vfpo.text (survivors "SUNWcsr".toList [crowdedEntry 32768]) :=
  delmap_drops (by decide) (by decide) (by decide)

/-- Of three objects the link goes away with its package, and the directory loses one of two. -/
theorem delmap_frame_three :
    ∃ d, delmap (fun _ => []) true "SUNWcsr".toList
        (vfpOpen (unlines (threeObjects.map lineOf ++ ["# end".toList])))
        (vfpAnonymous 512 0 fun _ => nul) 0 = some d ∧ d.vfpo.HasRoom ∧
      HoldsEntries d.vfpo.text (survivors "SUNWcsr".toList threeObjects) ∧
      (survivors "SUNWcsr".toList threeObjects).map
          (fun e => (e.path, e.pinfo.map Pinfo.pkg)) =
        [(some "/usr/lib".toList, ["SUNWcsu".toList]),
          (some "/usr/lib/magic".toList, ["SUNWcsu".toList])] := by
  have hdb : Database (threeObjects.map lineOf ++ ["# end".toList]) threeObjects := by
    have hnone : ∀ c ∈ ([] : List Str), IsComment c := nofun
    change Database ([] ++ _ :: ([] ++ _ :: ([] ++ _ :: _))) _
    refine .entry hnone (writable_lineOf sampleLink_writable) ?_
    refine .entry hnone (writable_lineOf sharedDir_writable) ?_
    refine .entry hnone (writable_lineOf ownedFile_writable) (.last ?_)
    exact List.forall_mem_singleton.mpr ⟨by decide +kernel, by decide, by decide⟩
  obtain ⟨d, hrun, hiff⟩ := delmap_frame_iff hdb (by decide +kernel)
    (vfpAnonymous_wf 512 0 (fun _ => nul) (by decide)) rfl (fun _ => []) "SUNWcsr".toList 0
  have hroom : (delmap (fun _ => []) true "SUNWcsr".toList
      (vfpOpen (unlines (threeObjects.map lineOf ++ ["# end".toList])))
      (vfpAnonymous 512 0 fun _ => nul) 0).any fun d => d.vfpo.HasRoom := by
    decide +kernel
  rw [hrun] at hroom
  have hroom := of_decide_eq_true hroom
  exact ⟨d, hrun, hroom, (hiff hroom).mpr (by decide +kernel), by decide +kernel⟩

end Samples

end Pkgtools
