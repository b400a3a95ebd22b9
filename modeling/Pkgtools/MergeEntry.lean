import Pkgtools.Merge
import Pkgtools.NarrowSearch
import Pkgtools.PlainParse

namespace Pkgtools
open CLib
set_option autoImplicit true

/-- A path that the contents file can hold. -/
structure IsPath (path : Str) : Prop where
  absolute : path.head? = some '/'
  chars : ∀ c ∈ path, isPkgPathSep c = false

/-- An entry that is written as a line for `path`. -/
structure Cfent.LineFor (path : Str) (e : Cfent) : Prop where
  plain : e.Plain
  ftype : e.ftype ≠ 'i'
  path : e.path = some path

/-- An element of the extlist for `path`. -/
structure Cfextra.Mergeable (path : Str) (el : Cfextra) : Prop where
  cfEnt : el.cfEnt.LineFor path
  client : el.clientPath = path
  clientLocal : ∀ l, el.clientLocal = some l → OneLine l

/-- Writing took `v` to `w` and added one line, for `path`. -/
def WritesLine (path : Str) (v w : Vfp) : Prop :=
  ∃ l, IsEntry l ∧ linePath l = path ∧ Appends v w (l ++ ['\n'])

section Lines
variable {path : Str} {e cf : Cfent} {el : Cfextra}

theorem Parsed.lineFor (h : Parsed (some path) e) : e.LineFor path := by
  refine ⟨h.plain, fun he => ?_, h.path⟩
  have := h.ftype
  rw [he] at this
  exact absurd this (by decide)

theorem IsPath.oneLine (h : IsPath path) : OneLine path :=
  oneLine_of_forall h.chars (by decide) (by decide)

theorem putcvfpfile_writes (hp : IsPath path) (h : e.LineFor path) (v : Vfp) :
    (putcvfpfile e v).1 = 0 ∧ WritesLine path v (putcvfpfile e v).2 := by
  obtain ⟨hr, c, s, hc, hs, happ⟩ := putcvfpfile_line h.plain h.ftype h.path v
  have hsep : (fun c => !isPkgPathSep c) c = false := by
    rcases hc with rfl | rfl <;> rfl
  have hpath : linePath (path ++ c :: s) = path := by
    refine takeWhile_append_cons (fun d hd => ?_) hsep s
    rw [hp.chars d hd]
    rfl
  refine ⟨hr, path ++ c :: s, ⟨?_, ?_, ?_⟩, hpath, happ⟩
  · exact hp.oneLine.append (OneLine.cons (by rcases hc with rfl | rfl <;> decide) hs)
  · rw [List.head?_append, hp.absolute]
    rfl
  · rw [hpath]
    intro he
    have := congrArg List.length he
    rw [List.length_append, List.length_cons] at this
    omega

theorem plain_modify {ps : List Pinfo} (h : ∀ p ∈ ps, p.Plain) (i : Nat) {f : Pinfo → Pinfo}
    (hf : ∀ p : Pinfo, p.Plain → (f p).Plain) : ∀ p ∈ ps.modify i f, p.Plain := by
  induction ps generalizing i with
  | nil =>
    intro p hp
    rw [List.modify_nil] at hp
    cases hp
  | cons x ps ih =>
    have hx := h x List.mem_cons_self
    have hps := fun p hp => h p (List.mem_cons_of_mem x hp)
    intro p hp
    cases i with
    | zero =>
      rw [List.modify_zero_cons] at hp
      rcases List.mem_cons.mp hp with rfl | hp
      · exact hf x hx
      · exact hps p hp
    | succ i =>
      rw [List.modify_succ_cons] at hp
      rcases List.mem_cons.mp hp with rfl | hp
      · exact hx
      · exact ih hps i p hp

theorem Cfent.LineFor.modifyPinfo (h : e.LineFor path) (i : Nat) {f : Pinfo → Pinfo}
    (hf : ∀ p : Pinfo, p.Plain → (f p).Plain) : (e.modifyPinfo i f).LineFor path :=
  ⟨⟨h.plain.ftype, h.plain.pkgClass, h.plain.ainfo, plain_modify h.plain.pinfo i hf⟩, h.ftype,
    h.path⟩

theorem emptyPinfo_plain : Pinfo.Plain ⟨nul, [], 0, []⟩ :=
  ⟨by decide, oneLine_nil, oneLine_nil⟩

theorem plain_getD {ps : List Pinfo} (h : ∀ p ∈ ps, p.Plain) (i : Nat) :
    (ps.getD i ⟨nul, [], 0, []⟩).Plain := by
  rcases Nat.lt_or_ge i ps.length with hi | hi
  · rw [List.getD_eq_getElem _ _ hi]
    exact h _ (List.getElem_mem hi)
  · rw [List.getD_eq_default _ _ hi]
    exact emptyPinfo_plain

theorem markPinfo_plain (hpkg : OneLine pkg) (hc : c ≠ '\n') (h : p.Plain) :
    (markPinfo pkg c p).Plain := by
  refine ⟨?_, hpkg.sublist (List.take_sublist _ _), h.aclass⟩
  rw [markPinfo]
  dsimp only
  split
  · split
    · decide
    · exact hc
  · exact h.status

theorem plain_snoc {p : Pinfo} {ps : List Pinfo} (h : ∀ p ∈ ps, p.Plain) (hp : p.Plain) :
    ∀ x ∈ ps ++ [p], x.Plain := by
  intro x hx
  rcases List.mem_append.mp hx with hx | hx
  · exact h x hx
  · rw [List.mem_singleton.mp hx]
    exact hp

theorem eptstat_lineFor (h : e.LineFor path) (hpkg : OneLine pkg) (hc : c ≠ '\n') :
    (eptstat e pkg c).1.LineFor path := by
  unfold eptstat
  split
  · exact h
  · split
    · rename_i i _
      have hme := plain_getD h.plain.pinfo i
      have hrest : ∀ p ∈ e.pinfo.eraseIdx i, p.Plain :=
        fun p hp => h.plain.pinfo p (List.mem_of_mem_eraseIdx hp)
      dsimp only
      split
      · exact ⟨⟨h.plain.ftype, h.plain.pkgClass, h.plain.ainfo, hrest⟩, h.ftype, h.path⟩
      · refine ⟨⟨h.plain.ftype, ?_, h.plain.ainfo, plain_snoc hrest (markPinfo_plain hpkg hc hme)⟩,
          h.ftype, h.path⟩
        dsimp only
        split
        · exact hme.aclass
        · exact h.plain.pkgClass
    · split
      · exact h
      · exact ⟨⟨h.plain.ftype, h.plain.pkgClass, h.plain.ainfo,
          plain_snoc h.plain.pinfo (markPinfo_plain hpkg hc emptyPinfo_plain)⟩, h.ftype, h.path⟩

theorem outputEntry_lineFor (h : e.LineFor path) (i : Nat) : (outputEntry e i).LineFor path := by
  have hps := plain_modify h.plain.pinfo i (f := fun p => { p with editflag := 0 })
    fun p hp => ⟨hp.status, hp.pkg, hp.aclass⟩
  have hlocal (l : Str) (hl : (if isLink e.ftype then e.ainfo.localPath else none) = some l) :
      OneLine l := by
    split at hl
    · exact h.plain.ainfo.localPath l hl
    · cases hl
  exact ⟨⟨h.plain.ftype, h.plain.pkgClass, ⟨hlocal, h.plain.ainfo.owner, h.plain.ainfo.group⟩, hps⟩,
    h.ftype, h.path⟩

theorem output_writes (hp : IsPath path) (h : e.LineFor path) (ho : output v e i = some w) :
    WritesLine path v w := by
  obtain ⟨hr, hw⟩ := putcvfpfile_writes hp (outputEntry_lineFor h i) v
  simp only [output, hr, ne_eq, not_true_eq_false, if_false] at ho
  rw [← Option.some.inj ho]
  exact hw

theorem Cfextra.Mergeable.withMstat (h : el.Mergeable path) (mstat : Mergstat) :
    ({ el with mstat := mstat } : Cfextra).Mergeable path :=
  ⟨h.cfEnt, h.client, h.clientLocal⟩

theorem Cfextra.Mergeable.withCfEnt (h : el.Mergeable path) (he : e.LineFor path) :
    ({ el with cfEnt := e } : Cfextra).Mergeable path :=
  ⟨he, h.client, h.clientLocal⟩

theorem Cfent.LineFor.withAinfo (h : e.LineFor path) {a : Ainfo} (ha : a.Plain) :
    ({ e with ainfo := a } : Cfent).LineFor path :=
  ⟨⟨h.plain.ftype, h.plain.pkgClass, ha, h.plain.pinfo⟩, h.ftype, h.path⟩

theorem averify_mergeable (hs : sys.Plain) (h : el.Mergeable path) (hf : el.cfEnt.ftype ≠ '?') :
    (el.averify sys).2.Mergeable path := by
  have ha := averify_plain hs h.cfEnt.plain.ainfo el.cfEnt.ftype el.serverPath
  have hftype := averify_ftype hf sys el.serverPath el.cfEnt.ainfo
  have he : (el.averify sys).2 = { el with cfEnt := { el.cfEnt with
      ftype := (averify sys el.cfEnt.ftype el.serverPath el.cfEnt.ainfo).2.1
      ainfo := (averify sys el.cfEnt.ftype el.serverPath el.cfEnt.ainfo).2.2 } } := rfl
  rw [he, hftype]
  exact h.withCfEnt (h.cfEnt.withAinfo ha)

theorem cverify_mergeable (h : el.Mergeable path) : (el.cverify sys).2.Mergeable path :=
  h.withCfEnt ⟨⟨h.cfEnt.plain.ftype, h.cfEnt.plain.pkgClass, h.cfEnt.plain.ainfo,
    h.cfEnt.plain.pinfo⟩, h.cfEnt.ftype, h.cfEnt.path⟩

theorem setChange_mergeable (hs : sys.Plain) (h : el.Mergeable path) :
    (setChange sys el).Mergeable path := by
  refine setChange_induct h (cverify_mergeable h) (fun hf x hx h => ?_) (fun x h => h.withMstat _)
    fun x h => h.withMstat _
  exact averify_mergeable hs h (by rw [hx]; exact hf)

theorem cpCfent_mergeable (hcf : cf.LineFor path') (h : el.Mergeable path) :
    (cpCfent cf el).Mergeable path := by
  have hclass : OneLine (strlcpy (clssiz + 1) el.cfEnt.pkgClass) :=
    h.cfEnt.plain.pkgClass.sublist (List.take_sublist _ _)
  unfold cpCfent
  split
  · refine ⟨⟨⟨hcf.plain.ftype, hclass, ⟨h.clientLocal, hcf.plain.ainfo.owner,
      hcf.plain.ainfo.group⟩, hcf.plain.pinfo⟩, hcf.ftype, ?_⟩, h.client, h.clientLocal⟩
    rw [← h.client]
  · refine ⟨⟨⟨hcf.plain.ftype, hclass, hcf.plain.ainfo, hcf.plain.pinfo⟩, hcf.ftype, ?_⟩,
      h.client, ?_⟩
    · rw [← h.client]
    · intro l hl
      cases hl

theorem chgclass_lineFor (h : e.LineFor path) (i : Nat) : (chgclass e i).LineFor path := by
  have hnew : OneLine (strlcpy (clssiz + 1) (e.pinfo.getD i ⟨nul, [], 0, []⟩).aclass) :=
    (plain_getD h.plain.pinfo i).aclass.sublist (List.take_sublist _ _)
  unfold chgclass
  dsimp only
  split
  · refine ⟨⟨h.plain.ftype, hnew, h.plain.ainfo, ?_⟩, h.ftype, h.path⟩
    intro p hp
    obtain ⟨q, hq, rfl⟩ := List.mem_map.mp hp
    have hq' := h.plain.pinfo q hq
    split
    · exact ⟨hq'.status, hq'.pkg, h.plain.pkgClass⟩
    · split
      · exact ⟨hq'.status, hq'.pkg, oneLine_nil⟩
      · exact hq'
  · exact h

theorem mergClass_mergeable (hcf : cf.LineFor path) (i : Nat) (h : el.Mergeable path) :
    (mergClass el cf i).2.Mergeable path := by
  unfold mergClass
  split
  · exact h
  · split
    · exact h
    · apply h.withCfEnt
      apply chgclass_lineFor
      have hm := h.cfEnt.modifyPinfo i (f := fun p => { p with aclass := el.cfEnt.pkgClass })
        fun p hp => ⟨hp.status, hp.pkg, h.cfEnt.plain.pkgClass⟩
      exact ⟨⟨hm.plain.ftype, hcf.plain.pkgClass, hm.plain.ainfo, hm.plain.pinfo⟩, hm.ftype,
        hm.path⟩

theorem mergLink_mergeable (hcf : cf.LineFor path) (h : el.Mergeable path) :
    (mergLink el cf).2.Mergeable path := by
  unfold mergLink
  split
  · rename_i old new hold hnew
    split
    · exact h
    · split
      · refine h.withCfEnt (h.cfEnt.withAinfo ⟨?_, h.cfEnt.plain.ainfo.owner,
          h.cfEnt.plain.ainfo.group⟩)
        intro l hl
        rw [← Option.some.inj hl]
        exact (hcf.plain.ainfo.localPath old hold).sublist (List.take_sublist _ _)
      · exact h.withMstat _
  · exact h

theorem mergContent_mergeable (h : el.Mergeable path) (sys : System) (cf : Cfent) :
    (mergContent sys el cf).2.Mergeable path := by
  unfold mergContent
  split
  · exact h.withMstat _
  · split
    · split
      · exact h
      · exact h.withMstat _
    · exact h

theorem mergDevice_mergeable (h : el.Mergeable path) (cf : Cfent) :
    (mergDevice el cf).2.Mergeable path := by
  have ha := h.cfEnt.plain.ainfo
  unfold mergDevice
  split
  · exact ⟨h.cfEnt.withAinfo ⟨ha.localPath, ha.owner, ha.group⟩, h.client, h.clientLocal⟩
  · exact h

theorem mergMode_mergeable (h : el.Mergeable path) (cf : Cfent) :
    (mergMode el cf).2.Mergeable path := by
  have ha := h.cfEnt.plain.ainfo
  have hnew := h.cfEnt.withAinfo (a := { el.cfEnt.ainfo with mode := cf.ainfo.mode })
    ⟨ha.localPath, ha.owner, ha.group⟩
  unfold mergMode
  dsimp only
  split
  · exact h
  · split
    · exact h.withCfEnt hnew
    · split
      · exact (h.withCfEnt hnew).withMstat _
      · exact h.withMstat _

theorem mergOwner_mergeable (hcf : cf.LineFor path) (h : el.Mergeable path) :
    (mergOwner el cf).2.Mergeable path := by
  have ha := h.cfEnt.plain.ainfo
  unfold mergOwner
  dsimp only
  split
  · exact h
  · split
    · exact h.withCfEnt (h.cfEnt.withAinfo ⟨ha.localPath, hcf.plain.ainfo.owner, ha.group⟩)
    · exact h.withMstat _

theorem mergGroup_mergeable (hcf : cf.LineFor path) (h : el.Mergeable path) :
    (mergGroup el cf).2.Mergeable path := by
  have ha := h.cfEnt.plain.ainfo
  unfold mergGroup
  dsimp only
  split
  · exact h
  · split
    · exact h.withCfEnt (h.cfEnt.withAinfo ⟨ha.localPath, ha.owner, hcf.plain.ainfo.group⟩)
    · exact h.withMstat _

theorem mergSteps_mergeable (fs : List (Cfextra → Bool × Cfextra))
    (hfs : ∀ f ∈ fs, ∀ el : Cfextra, el.Mergeable path → (f el).2.Mergeable path)
    (h : el.Mergeable path) (changed : Bool) : (mergSteps changed el fs).2.Mergeable path := by
  induction fs generalizing el changed with
  | nil => exact h
  | cons f fs ih =>
    exact ih (fun g hg => hfs g (List.mem_cons_of_mem _ hg)) (hfs f List.mem_cons_self el h) _

theorem typechg_lineFor (hcf : cf.LineFor path) (he : e.LineFor path) (mstat : Mergstat) :
    (typechg e cf mstat).2.1.LineFor path := by
  rcases typechg_cases e cf mstat with ⟨ftype, hftype, h⟩ | ⟨-, h⟩ | h | h
  · rw [h]
    rcases hftype with rfl | rfl
    · exact ⟨⟨he.plain.ftype, hcf.plain.pkgClass, hcf.plain.ainfo, hcf.plain.pinfo⟩, he.ftype,
        hcf.path⟩
    · exact hcf
  · rw [h]
    exact hcf
  · rw [h]
    exact hcf
  · rw [h]
    exact hcf

theorem merg_mergeable (hcf : cf.LineFor path) (h : el.Mergeable path) (sys : System)
    (inst : Install) (i : Nat) : (merg sys inst el cf i).2.Mergeable path := by
  have h₁ := h.withCfEnt (e := { el.cfEnt with pinfo := cf.pinfo })
    ⟨⟨h.cfEnt.plain.ftype, h.cfEnt.plain.pkgClass, h.cfEnt.plain.ainfo, hcf.plain.pinfo⟩,
      h.cfEnt.ftype, h.cfEnt.path⟩
  have h₂ : (if inst.dbst = instRdy ∧ el.cfEnt.ftype = '?' then
      { el with cfEnt := { el.cfEnt with pinfo := cf.pinfo, ftype := cf.ftype } }
      else { el with cfEnt := { el.cfEnt with pinfo := cf.pinfo } }).Mergeable path := by
    split
    · exact h₁.withCfEnt ⟨⟨hcf.plain.ftype, h₁.cfEnt.plain.pkgClass, h₁.cfEnt.plain.ainfo,
        h₁.cfEnt.plain.pinfo⟩, hcf.ftype, h₁.cfEnt.path⟩
    · exact h₁
  unfold merg
  dsimp only
  generalize (if inst.dbst = instRdy ∧ el.cfEnt.ftype = '?' then
      ({ el with cfEnt := { el.cfEnt with pinfo := cf.pinfo, ftype := cf.ftype } } : Cfextra)
      else { el with cfEnt := { el.cfEnt with pinfo := cf.pinfo } }) = el₂ at h₂ ⊢
  have hcf' := typechg_lineFor hcf h₂.cfEnt el₂.mstat
  split
  · exact cpCfent_mergeable hcf h₂
  · exact h₂.withMstat _
  · apply mergSteps_mergeable _ _ (h₂.withMstat _)
    intro f hf
    rcases List.mem_cons.mp hf with rfl | hf
    · exact fun el h => mergClass_mergeable hcf' i h
    · split at hf
      · rw [List.mem_singleton.mp hf]
        exact fun el h => mergLink_mergeable hcf' h
      · simp only [List.mem_cons, List.not_mem_nil, or_false] at hf
        rcases hf with rfl | rfl | rfl | rfl | rfl
        · exact fun el h => mergContent_mergeable h sys _
        · exact fun el h => mergDevice_mergeable h _
        · exact fun el h => mergMode_mergeable h _
        · exact fun el h => mergOwner_mergeable hcf' h
        · exact fun el h => mergGroup_mergeable hcf' h

end Lines

/-- The settings of an installation have texts that can stand on a line. -/
structure Install.Plain (inst : Install) : Prop where
  dbst : inst.dbst ≠ '\n'
  pkginst : OneLine inst.pkginst

section Entries
variable {path : Str} {cf : Cfent} {el : Cfextra} {sys : System} {inst : Install} {v : Vfp}

theorem eptstat_mergeable (hi : inst.Plain) (h : el.Mergeable path) (hc : c ≠ '\n') :
    ({ el with cfEnt := (eptstat el.cfEnt inst.pkginst c).1 } : Cfextra).Mergeable path :=
  h.withCfEnt (eptstat_lineFor h.cfEnt hi.pkginst hc)

theorem likeStatus_mergeable (hi : inst.Plain) (h : el.Mergeable path)
    (hr : likeStatus sys inst ctrl ignore stflag i el = some (changed, el', i')) :
    el'.Mergeable path := by
  have hstatus : ∀ c ∈ [entryOk, nul, confirmCont, confirmAttr, inst.dbst], c ≠ '\n' := by
    intro c hc
    simp only [List.mem_cons, List.not_mem_nil, or_false] at hc
    obtain rfl | rfl | rfl | rfl | rfl := hc
    · decide
    · decide
    · decide
    · decide
    · exact hi.dbst
  have hserved : servedFile ≠ '\n' := by decide
  refine likeStatus_induct (P := fun x => x.Mergeable path) h ?_ ?_ hr
  · intro c i hc _
    exact eptstat_mergeable hi h (hstatus c hc)
  · intro x i hx
    exact hx.withCfEnt (hx.cfEnt.modifyPinfo _ fun p hp => ⟨hserved, hp.pkg, hp.aclass⟩)

theorem eraseEnt_writes (hp : IsPath path) (hi : inst.Plain) (hcf : cf.LineFor path)
    (hr : eraseEnt inst v el cf = some r) : WritesLine path v r.tmp := by
  unfold eraseEnt at hr
  dsimp only at hr
  obtain ⟨i, -, hr⟩ := Option.bind_eq_some_iff.mp hr
  have hrm : rmRdy ≠ '\n' := by decide
  have hent := (eptstat_lineFor hcf hi.pkginst hrm).modifyPinfo i
    (f := fun p => { p with status := rmRdy }) fun p hp => ⟨hrm, hp.pkg, hp.aclass⟩
  obtain ⟨hz, hw⟩ := putcvfpfile_writes hp hent v
  simp only [hz, ne_eq, not_true_eq_false, if_false] at hr
  rw [← Option.some.inj hr]
  exact hw

theorem likeMerg_mergeable (hs : sys.Plain) (h : el.Mergeable path) (hcf : cf.LineFor path)
    (inst : Install) (i : Nat) : (likeMerg sys inst el cf i).2.2.Mergeable path := by
  have hm := merg_mergeable hcf h sys inst i
  unfold likeMerg
  split
  · exact cpCfent_mergeable hcf (setChange_mergeable hs h)
  · split
    · rename_i he
      rw [he] at hm
      exact hm.withMstat _
    · rename_i he
      rw [he] at hm
      dsimp only
      split
      · exact setChange_mergeable hs hm
      · exact hm

theorem mergeLike_writes (hs : sys.Plain) (hp : IsPath path) (hi : inst.Plain)
    (h : el.Mergeable path) (hcf : cf.LineFor path)
    (hr : mergeLike sys inst v el cf i ctrl = some r) : WritesLine path v r.tmp := by
  have hm := likeMerg_mergeable hs h hcf inst i
  unfold mergeLike at hr
  dsimp only at hr
  obtain ⟨⟨changed, el', i'⟩, hst, hr⟩ := Option.bind_eq_some_iff.mp hr
  obtain ⟨w, hw, hr⟩ := Option.bind_eq_some_iff.mp hr
  have hm' := likeStatus_mergeable hi hm hst
  rw [← Option.some.inj hr]
  refine output_writes hp ?_ hw
  split
  · exact ⟨⟨hcf.plain.ftype, hcf.plain.pkgClass, hcf.plain.ainfo, hm'.cfEnt.plain.pinfo⟩, hcf.ftype,
      hcf.path⟩
  · exact hm'.cfEnt

/-- The entry of a path that is in the database is replaced by one line. -/
theorem doLikeEnt_writes (hs : sys.Plain) (hp : IsPath path) (hi : inst.Plain)
    (h : el.Mergeable path) (hcf : cf.LineFor path)
    (hr : doLikeEnt sys inst v el cf ctrl = some r) : WritesLine path v r.tmp := by
  have hcf₀ : (if el.mstat.preloaded then { cf with pinfo := el.cfEnt.pinfo }
      else cf).LineFor path := by
    split
    · exact ⟨⟨hcf.plain.ftype, hcf.plain.pkgClass, hcf.plain.ainfo, h.cfEnt.plain.pinfo⟩, hcf.ftype,
        hcf.path⟩
    · exact hcf
  unfold doLikeEnt at hr
  dsimp only at hr
  obtain ⟨i, -, hr⟩ := Option.bind_eq_some_iff.mp hr
  have hcf₁ := eptstat_lineFor hcf₀ hi.pkginst (c := dupEntry) (by decide)
  split at hr
  · exact eraseEnt_writes hp hi hcf₁ hr
  · exact mergeLike_writes hs hp hi (h.withMstat _) hcf₁ hr

theorem newDefaults_lineFor (h : e.LineFor path) : (newDefaults e).LineFor path := by
  have ha := h.plain.ainfo
  refine h.withAinfo ⟨ha.localPath, ?_, ?_⟩
  · dsimp only
    split
    · decide
    · exact ha.owner
  · dsimp only
    split
    · decide
    · exact ha.group

theorem doNewEnt_writes (hs : sys.Plain) (hp : IsPath path) (hi : inst.Plain)
    (h : el.Mergeable path) (hr : doNewEnt sys inst v el ctrl = some r) :
    r.tmp = v ∨ WritesLine path v r.tmp := by
  have hel : (if el.mstat.parentsyml2dir = false ∧ sys.access el.serverPath then
      setChange sys { el with mstat := { el.mstat with shared := true, rogue := true } }
      else { el with mstat := { el.mstat with rogue := false, contchg := true, attrchg := true } })
      |>.Mergeable path := by
    split
    · exact setChange_mergeable hs (h.withMstat _)
    · exact h.withMstat _
  unfold doNewEnt at hr
  dsimp only at hr
  split at hr
  · rw [← Option.some.inj hr]
    exact .inl rfl
  · generalize (if el.mstat.parentsyml2dir = false ∧ sys.access el.serverPath then
      setChange sys { el with mstat := { el.mstat with shared := true, rogue := true } }
      else { el with mstat := { el.mstat with rogue := false, contchg := true, attrchg := true } })
      = el₁ at hel hr
    have hnew := newDefaults_lineFor hel.cfEnt
    split at hr
    · rw [← Option.some.inj hr]
      exact .inl rfl
    · obtain ⟨i, -, hr⟩ := Option.bind_eq_some_iff.mp hr
      obtain ⟨w, hw, hr⟩ := Option.bind_eq_some_iff.mp hr
      rw [← Option.some.inj hr]
      refine .inr (output_writes hp (Cfent.LineFor.modifyPinfo ?_ i ?_) hw)
      · split
        · exact eptstat_lineFor hnew hi.pkginst (by decide)
        · refine ⟨⟨hnew.plain.ftype, hnew.plain.pkgClass, hnew.plain.ainfo, ?_⟩, hnew.ftype,
            hnew.path⟩
          intro p hp
          rw [List.mem_singleton.mp hp]
          exact ⟨emptyPinfo_plain.status, hi.pkginst, oneLine_nil⟩
      · intro p hp
        refine ⟨?_, hp.pkg, hp.aclass⟩
        dsimp only
        split
        · decide
        · split
          · exact hi.dbst
          · split
            · decide
            · decide

end Entries

end Pkgtools
