import Pkgtools.MergeOwnClass
import Pkgtools.MergeTwins

namespace Pkgtools
open CLib
set_option autoImplicit true

/-- The merged entry that `do_like_ent` hands to `putcvfpfile`; its package has its record
at `i`. -/
def mergeLikeEntry (sys : System) (inst : Install) (el : Cfextra) (cf : Cfent) (i : Nat)
    (ctrl : Bool) : Option Cfent := do
  let (res, ignore, el) := likeMerg sys inst el cf i
  let (_, el, i) ← likeStatus sys inst ctrl ignore (cf.pinfoAt i).status i el
  some (outputEntry (if res = .replace then { cf with pinfo := el.cfEnt.pinfo } else el.cfEnt) i)

/-- The entry that `do_like_ent` hands to `putcvfpfile`, for an element that is erased or stays. -/
def keptEntry (sys : System) (inst : Install) (el : Cfextra) (cf : Cfent) (i : Nat) (ctrl : Bool) :
    Option Cfent :=
  if el.cfEnt.ftype = rmRdy then
    let erased := eptstat cf inst.pkginst rmRdy
    erased.2.map fun i => erased.1.modifyPinfo i fun p => { p with status := rmRdy }
  else mergeLikeEntry sys inst el cf i ctrl

def Cfextra.share (el : Cfextra) (others : Bool) : Cfextra :=
  { el with mstat := { el.mstat with shared := el.mstat.shared || others } }

/-- The entry that `do_like_ent` hands to `putcvfpfile`. -/
def likeEntry (sys : System) (inst : Install) (el : Cfextra) (cf : Cfent) (ctrl : Bool) :
    Option Cfent :=
  let marked := eptstat (dbEntry el cf) inst.pkginst dupEntry
  marked.2.bind fun i =>
    keptEntry sys inst (el.share (othersToo (dbEntry el cf) inst.pkginst)) marked.1 i ctrl

/-- A new element, compared with the object of its path if there is one. -/
def newElement (sys : System) (el : Cfextra) : Cfextra :=
  if el.mstat.parentsyml2dir = false ∧ sys.access el.serverPath then
    setChange sys { el with mstat := { el.mstat with shared := true, rogue := true } }
  else { el with mstat := { el.mstat with rogue := false, contchg := true, attrchg := true } }

/-- The entry that `do_new_ent` hands to `putcvfpfile`, unless it leaves the element out. -/
def insertedEntry (sys : System) (inst : Install) (el : Cfextra) (ctrl : Bool) : Option Cfent :=
  if el.cfEnt.ftype = rmRdy then none
  else
    let el := newElement sys el
    let el := { el with cfEnt := newDefaults el.cfEnt }
    if inst.nocnflct ∧ el.mstat.shared then none
    else
      let (cfEnt, me) := if el.mstat.preloaded then eptstat el.cfEnt inst.pkginst dupEntry
        else ({ el.cfEnt with npkgs := 1, pinfo := [⟨nul, inst.pkginst, 0, []⟩] }, some 0)
      let i := me.getD 0
      let status := if ctrl ∧ sys.isServed el.serverPath then servedFile
        else if inst.dbst ≠ nul then inst.dbst
        else if ctrl then entryOk else confirmCont
      some (outputEntry (cfEnt.modifyPinfo i fun p => { p with status := status }) i)

/-- `putcvfpfile`, after which the process quits on an error. -/
def putEntry (vfpo : Vfp) (e : Cfent) : Option Vfp :=
  let (r, vfpo) := putcvfpfile e vfpo
  if r ≠ 0 then none else some vfpo

section Entries
variable {sys : System} {inst : Install} {el : Cfextra} {cf cf' : Cfent} {ctrl : Bool}

theorem output_eq_putEntry (v : Vfp) (e : Cfent) (i : Nat) :
    output v e i = putEntry v (outputEntry e i) := rfl

theorem eraseEnt_tmp (inst : Install) (v : Vfp) (el : Cfextra) (cf : Cfent) :
    (eraseEnt inst v el cf).map EntResult.tmp =
      ((eptstat cf inst.pkginst rmRdy).2.map fun i =>
        (eptstat cf inst.pkginst rmRdy).1.modifyPinfo i fun p =>
          { p with status := rmRdy }).bind (putEntry v) := by
  unfold eraseEnt putEntry
  generalize eptstat cf inst.pkginst rmRdy = x
  obtain ⟨e, me⟩ := x
  cases me with
  | none => rfl
  | some i =>
    simp only [Option.bind_eq_bind, Option.bind_some, Option.map_some]
    split <;> rfl

theorem mergeLike_tmp (sys : System) (inst : Install) (v : Vfp) (el : Cfextra) (cf : Cfent)
    (i : Nat)
    (ctrl : Bool) : (mergeLike sys inst v el cf i ctrl).map EntResult.tmp =
      (mergeLikeEntry sys inst el cf i ctrl).bind (putEntry v) := by
  unfold mergeLike mergeLikeEntry
  simp only [Option.bind_eq_bind]
  generalize likeMerg sys inst el cf i = x
  obtain ⟨res, ignore, el₁⟩ := x
  dsimp only
  cases likeStatus sys inst ctrl ignore _ i el₁ with
  | none => rfl
  | some y =>
    obtain ⟨changed, el₂, i₂⟩ := y
    simp only [Option.bind_some, output_eq_putEntry]
    cases putEntry v (outputEntry _ i₂) <;> rfl

theorem doLikeEnt_tmp (sys : System) (inst : Install) (v : Vfp) (el : Cfextra) (cf : Cfent)
    (ctrl : Bool) : (doLikeEnt sys inst v el cf ctrl).map EntResult.tmp =
      (likeEntry sys inst el cf ctrl).bind (putEntry v) := by
  unfold doLikeEnt likeEntry
  dsimp only
  rw [← dbEntry]
  generalize dbEntry el cf = cf₁
  generalize eptstat cf₁ inst.pkginst dupEntry = x
  obtain ⟨e, me⟩ := x
  cases me with
  | none => rfl
  | some i =>
    simp only [Option.bind_eq_bind, Option.bind_some]
    rw [keptEntry, Cfextra.share]
    by_cases hrm : el.cfEnt.ftype = rmRdy
    · rw [if_pos hrm, if_pos hrm]
      exact eraseEnt_tmp inst v _ _
    · rw [if_neg hrm, if_neg hrm]
      exact mergeLike_tmp sys inst v _ _ i ctrl

theorem eptstat_dup_some (e : Cfent) (pkg : Str) : ∃ i, (eptstat e pkg dupEntry).2 = some i := by
  rw [eptstat, if_neg (by decide)]
  cases findPinfo pkg e.pinfo with
  | none =>
    dsimp only
    rw [if_neg (by decide)]
    exact ⟨_, rfl⟩
  | some i =>
    dsimp only
    rw [if_neg (by decide)]
    exact ⟨_, rfl⟩

theorem doNewEnt_tmp (sys : System) (inst : Install) (v : Vfp) (el : Cfextra) (ctrl : Bool) :
    (doNewEnt sys inst v el ctrl).map EntResult.tmp =
      (insertedEntry sys inst el ctrl).elim (some v) (putEntry v) := by
  unfold doNewEnt insertedEntry
  split
  · rfl
  · dsimp only
    rw [← newElement]
    generalize newElement sys el = el₁
    split
    · rfl
    · obtain ⟨i, hi⟩ := eptstat_dup_some (newDefaults el₁.cfEnt) inst.pkginst
      split
      · simp only [hi, Option.bind_eq_bind, Option.bind_some, Option.getD_some, Option.elim_some,
          output_eq_putEntry]
        cases putEntry v _ <;> rfl
      · simp only [Option.bind_eq_bind, Option.bind_some, Option.getD_some, Option.elim_some,
          output_eq_putEntry]
        cases putEntry v _ <;> rfl

end Entries

section Packages
variable {sys : System} {inst : Install} {el : Cfextra} {cf cf' : Cfent} {ctrl : Bool}

theorem DeviceTwin.dbEntry (h : DeviceTwin cf cf') (el : Cfextra) (inside : Bool) :
    DeviceTwin (dbEntry el cf) (dbEntry (el.vary none inside) cf') := by
  unfold Pkgtools.dbEntry
  by_cases hp : el.mstat.preloaded
  · have hp' : (el.vary none inside).mstat.preloaded := hp
    rw [if_pos hp, if_pos hp']
    exact h.store (fun e => { e with pinfo := el.cfEnt.pinfo }) (fun _ _ => rfl) rfl
  · have hp' : ¬ (el.vary none inside).mstat.preloaded := hp
    rw [if_neg hp, if_neg hp']
    exact h

theorem DeviceTwin.eptstat (h : DeviceTwin cf cf') (pkg : Str) (c : Char) :
    DeviceTwin (eptstat cf pkg c).1 (eptstat cf' pkg c).1 ∧
      (Pkgtools.eptstat cf' pkg c).2 = (Pkgtools.eptstat cf pkg c).2 := by
  refine ⟨h.store (fun e => (Pkgtools.eptstat e pkg c).1) (fun e dev => ?_)
    (eptstat_ftype cf pkg c), ?_⟩
  · rw [eptstat_withDevice]
  · obtain ⟨dev, rfl⟩ := h.twin
    rw [eptstat_withDevice]

theorem dbEntry_ftype (el : Cfextra) (cf : Cfent) : (dbEntry el cf).ftype = cf.ftype := by
  unfold dbEntry
  split <;> rfl

theorem mergeLikeEntry_vary (hdbst : inst.dbst = nul) (hcf : DeviceTwin cf cf')
    (hft : isFtype cf.ftype) (el : Cfextra) (hd : isDevice el.cfEnt.ftype → cf.ftype ≠ '?')
    (sys : System) (i : Nat) (ctrl inside : Bool) :
    (mergeLikeEntry sys inst (el.vary none inside) cf' i ctrl).map Cfent.pinfo =
      (mergeLikeEntry sys inst el cf i ctrl).map Cfent.pinfo := by
  obtain ⟨dev, hmerg⟩ := likeMerg_vary hdbst hcf hft el hd sys i inside
  have hat : cf'.pinfoAt i = cf.pinfoAt i := by rw [Cfent.pinfoAt, Cfent.pinfoAt, hcf.pinfo]
  unfold mergeLikeEntry
  rw [hmerg, hat]
  dsimp only
  rw [likeStatus_vary]
  generalize likeMerg sys inst el cf i = r
  cases likeStatus sys inst ctrl r.2.1 (cf.pinfoAt i).status i r.2.2 with
  | none => rfl
  | some y =>
    simp only [Option.map_some, Option.bind_eq_bind, Option.bind_some]
    by_cases hres : r.1 = .replace
    · rw [if_pos hres, if_pos hres]
      rfl
    · rw [if_neg hres, if_neg hres]
      rfl

theorem Cfextra.share_vary (el : Cfextra) (inside others : Bool) :
    (el.vary none inside).share others = (el.share others).vary none inside := rfl

theorem keptEntry_vary (hdbst : inst.dbst = nul) (hcf : DeviceTwin cf cf') (hft : isFtype cf.ftype)
    (el : Cfextra) (hd : isDevice el.cfEnt.ftype → cf.ftype ≠ '?') (sys : System) (i : Nat)
    (ctrl inside : Bool) :
    (keptEntry sys inst (el.vary none inside) cf' i ctrl).map Cfent.pinfo =
      (keptEntry sys inst el cf i ctrl).map Cfent.pinfo := by
  by_cases hrm : el.cfEnt.ftype = rmRdy
  · have hrm' : (el.vary none inside).cfEnt.ftype = rmRdy := hrm
    obtain ⟨herase, hi⟩ := hcf.eptstat inst.pkginst rmRdy
    rw [keptEntry, keptEntry, if_pos hrm, if_pos hrm']
    dsimp only
    rw [hi]
    cases (eptstat cf inst.pkginst rmRdy).2 with
    | none => rfl
    | some i =>
      simp only [Option.map_some, Cfent.modifyPinfo]
      rw [herase.pinfo]
  · have hrm' : ¬ (el.vary none inside).cfEnt.ftype = rmRdy := hrm
    rw [keptEntry, keptEntry, if_neg hrm, if_neg hrm']
    exact mergeLikeEntry_vary hdbst hcf hft el hd sys i ctrl inside

/-- Neither the mark nor the device numbers of another entry make a difference to the packages that
are written. -/
theorem likeEntry_vary (hdbst : inst.dbst = nul) (hcf : DeviceTwin cf cf') (hft : isFtype cf.ftype)
    (el : Cfextra) (hd : isDevice el.cfEnt.ftype → cf.ftype ≠ '?') (sys : System)
    (ctrl inside : Bool) : (likeEntry sys inst (el.vary none inside) cf' ctrl).map Cfent.pinfo =
      (likeEntry sys inst el cf ctrl).map Cfent.pinfo := by
  have hdb := hcf.dbEntry el inside
  have hftype : (dbEntry el cf).ftype = cf.ftype := dbEntry_ftype el cf
  unfold likeEntry
  generalize dbEntry (el.vary none inside) cf' = d' at hdb
  generalize dbEntry el cf = d at hdb hftype
  have hothers : othersToo d' inst.pkginst = othersToo d inst.pkginst := by
    rw [othersToo, othersToo, hdb.pinfo]
  obtain ⟨hstat, hme⟩ := hdb.eptstat inst.pkginst dupEntry
  have hstype : (eptstat d inst.pkginst dupEntry).1.ftype = cf.ftype :=
    (eptstat_ftype d inst.pkginst dupEntry).trans hftype
  generalize eptstat d' inst.pkginst dupEntry = x' at hstat hme
  generalize eptstat d inst.pkginst dupEntry = x at hstat hme hstype
  rw [hothers, Cfextra.share_vary]
  dsimp only
  rw [hme]
  cases x.2 with
  | none => rw [Option.bind_none, Option.bind_none]
  | some i =>
    rw [Option.bind_some, Option.bind_some]
    exact keptEntry_vary hdbst hstat (by rw [hstype]; exact hft) (el.share _)
      (by rw [hstype]; exact hd) sys i ctrl inside

end Packages

/-- What a system answers about the object at `server` with the path `path`. -/
def System.forObject (sys : System) (server path : Str) : System :=
  { sys with
    stat := fun p => if p = server then sys.stat p else none
    lstat := fun p => if p = server then sys.lstat p else none
    statFrom := fun d p => if d = (dirOf server).getD [] then sys.statFrom d p else none
    readlink := fun p => if p = server then sys.readlink p else none
    access := fun p => p == server && sys.access p
    chdir := fun d => dirOf server == some d && sys.chdir d
    statvfs := fun p => p == server && sys.statvfs p
    checksum := fun p => if p = server then sys.checksum p else (0, true)
    isServed := fun p => p == server && sys.isServed p
    pathIsInherited := fun p c => p == path && sys.pathIsInherited p c
    clDvfy := fun _ => 0 }

section Object
variable {inst : Install} {el : Cfextra} {cf : Cfent}

theorem cverify_forObject (sys : System) (server path : Str) (ftype : Char) (cinfo : Cinfo) :
    cverify (sys.forObject server path) ftype server cinfo = cverify sys ftype server cinfo := by
  simp only [cverify, System.forObject, if_true]

theorem averify_forObject (sys : System) (server path : Str) (ftype : Char) (ainfo : Ainfo) :
    averify (sys.forObject server path) ftype server ainfo = averify sys ftype server ainfo := by
  have hlink : averifyLink (sys.forObject server path) server ainfo.localPath =
      averifyLink sys server ainfo.localPath := by
    cases hdir : dirOf server with
    | none => simp only [averifyLink, System.forObject, hdir, if_true, Option.any_none]
    | some dir => simp [averifyLink, System.forObject, hdir]
  have htyped (setval : Prop) [Decidable setval] (ftype myftype : Char) (status : Stat) :
      verifyTyped (sys.forObject server path) setval ftype server myftype status ainfo =
        verifyTyped sys setval ftype server myftype status ainfo := by
    simp [verifyTyped, verifySymlink, verifyAttrs, System.forObject]
  unfold averify
  rw [hlink]
  simp only [htyped]
  simp only [System.forObject, if_true]

theorem setChange_forObject (sys : System) (el : Cfextra) (path : Str) :
    setChange (sys.forObject el.serverPath path) el = setChange sys el := by
  have hav (x : Cfextra) (hx : x.serverPath = el.serverPath) :
      x.averify (sys.forObject el.serverPath path) = x.averify sys := by
    unfold Cfextra.averify
    rw [hx, averify_forObject]
  have hcv : el.cverify (sys.forObject el.serverPath path) = el.cverify sys := by
    unfold Cfextra.cverify
    rw [cverify_forObject]
  have hnext : (el.cverify sys).2.averify (sys.forObject el.serverPath path) =
      (el.cverify sys).2.averify sys := hav _ rfl
  unfold setChange
  rw [hcv, hav el rfl]
  dsimp only
  rw [hnext]

theorem mergAttrs_place (sys : System) (ftype : Char) (cf : Cfent) (i : Nat) :
    ∀ f ∈ mergAttrs sys ftype cf i, ∀ el : Cfextra, (f el).2.place = el.place := by
  intro f hf el
  rw [mergAttrs] at hf
  rcases List.mem_cons.mp hf with rfl | hf
  · exact mergClass_place el cf i
  split at hf
  · rw [List.mem_singleton.mp hf]
    exact mergLink_place el cf
  · simp only [List.mem_cons, List.not_mem_nil, or_false] at hf
    rcases hf with rfl | rfl | rfl | rfl | rfl
    · exact mergContent_place sys el cf
    · exact mergDevice_place el cf
    · exact mergMode_place el cf
    · exact mergOwner_place el cf
    · exact mergGroup_place el cf

theorem cpCfent_serverPath (cf : Cfent) (el : Cfextra) :
    (cpCfent cf el).serverPath = el.serverPath := by
  unfold cpCfent
  dsimp only
  split <;> rfl

theorem merg_serverPath (hdbst : inst.dbst = nul) (sys : System) (el : Cfextra) (cf : Cfent)
    (i : Nat) : (merg sys inst el cf i).2.serverPath = el.serverPath := by
  rw [merg_eq hdbst]
  generalize typechg (el.withPinfo cf.pinfo).cfEnt cf el.mstat = t
  obtain ⟨n, cf', mstat⟩ := t
  have hsteps (changed : Bool) (x : Cfextra) :
      (mergSteps changed x (mergAttrs sys el.cfEnt.ftype cf' i)).2.serverPath = x.serverPath :=
    congrArg (fun x => x.2.2)
      (mergSteps_keeps Cfextra.place _ (mergAttrs_place sys el.cfEnt.ftype cf' i) changed x)
  cases n with
  | ignored => exact cpCfent_serverPath cf _
  | replace => rfl
  | ok => exact hsteps _ _
  | warning => exact hsteps _ _

theorem merg_forObject (hdbst : inst.dbst = nul) (sys : System) (el : Cfextra) (cf : Cfent)
    (i : Nat) : merg (sys.forObject el.serverPath el.path) inst el cf i =
      merg sys inst el cf i := by
  rw [merg_eq hdbst, merg_eq hdbst]
  generalize typechg (el.withPinfo cf.pinfo).cfEnt cf el.mstat = t
  obtain ⟨n, cf', mstat⟩ := t
  have hfs : List.Forall₂ (fun f f' => ∀ x : Cfextra, x.place = el.place →
      f' (id x) = ((f x).1, id (f x).2) ∧ (f x).2.place = el.place)
      (mergAttrs sys el.cfEnt.ftype cf' i)
      (mergAttrs (sys.forObject el.serverPath el.path) el.cfEnt.ftype cf' i) := by
    refine .cons (fun x hx => ⟨rfl, (mergClass_place x cf' i).trans hx⟩) ?_
    split
    · exact .cons (fun x hx => ⟨rfl, (mergLink_place x cf').trans hx⟩) .nil
    · refine .cons (fun x hx => ⟨?_, (mergContent_place sys x cf').trans hx⟩) ?_
      · have hpath : x.cfEnt.path.getD [] = el.path := by
          rw [show x.cfEnt.path = el.cfEnt.path from congrArg (fun x => x.2.1) hx]
          rfl
        simp only [id_eq, mergContent, System.forObject, hpath, BEq.rfl, Bool.true_and]
      · refine .cons (fun x hx => ⟨rfl, (mergDevice_place x cf').trans hx⟩) ?_
        refine .cons (fun x hx => ⟨rfl, (mergMode_place x cf').trans hx⟩) ?_
        refine .cons (fun x hx => ⟨rfl, (mergOwner_place x cf').trans hx⟩) ?_
        exact .cons (fun x hx => ⟨rfl, (mergGroup_place x cf').trans hx⟩) .nil
  have hsteps (changed : Bool) (mstat : Mergstat) :
      mergSteps changed { el.withPinfo cf.pinfo with mstat := mstat }
        (mergAttrs (sys.forObject el.serverPath el.path) el.cfEnt.ftype cf' i) =
      mergSteps changed { el.withPinfo cf.pinfo with mstat := mstat }
        (mergAttrs sys el.cfEnt.ftype cf' i) := mergSteps_commute hfs changed rfl
  cases n with
  | ignored => rfl
  | replace => rfl
  | ok => exact hsteps _ _
  | warning => exact hsteps _ _

theorem setChange_serverPath (sys : System) (el : Cfextra) :
    (setChange sys el).serverPath = el.serverPath ∧
      (setChange sys el).mstat.preloaded = el.mstat.preloaded :=
  setChange_induct
    (P := fun x => x.serverPath = el.serverPath ∧ x.mstat.preloaded = el.mstat.preloaded)
    ⟨rfl, rfl⟩ ⟨rfl, rfl⟩ (fun _ _ _ h => h) (fun _ h => h) fun _ h => h

theorem likeMerg_forObject (hdbst : inst.dbst = nul) (sys : System) (el : Cfextra) (cf : Cfent)
    (i : Nat) : likeMerg (sys.forObject el.serverPath el.path) inst el cf i =
        likeMerg sys inst el cf i ∧
      (likeMerg sys inst el cf i).2.2.serverPath = el.serverPath := by
  have hserver := merg_serverPath hdbst sys el cf i
  have hset := setChange_forObject sys (merg sys inst el cf i).2 el.path
  rw [hserver] at hset
  unfold likeMerg
  rw [setChange_forObject, merg_forObject hdbst]
  generalize merg sys inst el cf i = r at hserver hset
  obtain ⟨res, x⟩ := r
  dsimp only at hserver hset
  split
  · exact ⟨rfl, (cpCfent_serverPath cf _).trans (setChange_serverPath sys el).1⟩
  · have hif : (if x.mstat.contchg = false then setChange sys x else x).serverPath =
        el.serverPath := by
      split
      · exact (setChange_serverPath sys x).1.trans hserver
      · exact hserver
    cases res with
    | replace => exact ⟨rfl, hserver⟩
    | same =>
      dsimp only
      rw [hset]
      exact ⟨rfl, hif⟩
    | different =>
      dsimp only
      rw [hset]
      exact ⟨rfl, hif⟩

theorem likeStatus_forObject (sys : System) (ctrl ignore : Bool) (stflag : Char) (i : Nat)
    (x : Cfextra) (path : Str) :
    likeStatus (sys.forObject x.serverPath path) inst ctrl ignore stflag i x =
      likeStatus sys inst ctrl ignore stflag i x := by
  unfold likeStatus
  dsimp only
  split
  · cases (eptstat x.cfEnt inst.pkginst entryOk).2 with
    | none => rfl
    | some j =>
      simp only [Option.map_some, Option.bind_eq_bind, Option.bind_some, System.forObject, BEq.rfl,
        Bool.true_and]
  · rfl

theorem mergeLikeEntry_forObject (hdbst : inst.dbst = nul) (sys : System) (el : Cfextra)
    (cf : Cfent)
    (i : Nat) (ctrl : Bool) :
    mergeLikeEntry (sys.forObject el.serverPath el.path) inst el cf i ctrl =
      mergeLikeEntry sys inst el cf i ctrl := by
  obtain ⟨hmerg, hserver⟩ := likeMerg_forObject hdbst sys el cf i
  unfold mergeLikeEntry
  rw [hmerg]
  generalize likeMerg sys inst el cf i = r at hserver
  obtain ⟨res, ignore, x⟩ := r
  dsimp only at hserver ⊢
  rw [← hserver, likeStatus_forObject]

theorem likeEntry_forObject (hdbst : inst.dbst = nul) (sys : System) (el : Cfextra) (cf : Cfent)
    (ctrl : Bool) : likeEntry (sys.forObject el.serverPath el.path) inst el cf ctrl =
      likeEntry sys inst el cf ctrl := by
  have hkept (x : Cfextra) (e : Cfent) (i : Nat) :
      keptEntry (sys.forObject x.serverPath x.path) inst x e i ctrl =
        keptEntry sys inst x e i ctrl := by
    unfold keptEntry
    rw [mergeLikeEntry_forObject hdbst]
  unfold likeEntry
  dsimp only
  cases (eptstat (dbEntry el cf) inst.pkginst dupEntry).2 with
  | none => rw [Option.bind_none, Option.bind_none]
  | some i =>
    rw [Option.bind_some, Option.bind_some]
    exact hkept (el.share _) _ i

end Object

section New
variable {sys : System} {inst : Install} {el : Cfextra} {e e' : Cfent} {ctrl : Bool}

theorem eptstat_pinfo (h : e'.pinfo = e.pinfo) (pkg : Str) (c : Char) :
    (eptstat e' pkg c).1.pinfo = (eptstat e pkg c).1.pinfo ∧
      (eptstat e' pkg c).2 = (eptstat e pkg c).2 := by
  unfold eptstat
  rw [h]
  split
  · exact ⟨h, rfl⟩
  · cases findPinfo pkg e.pinfo with
    | none =>
      dsimp only
      split
      · exact ⟨h, rfl⟩
      · exact ⟨rfl, rfl⟩
    | some i =>
      dsimp only
      split
      · exact ⟨rfl, rfl⟩
      · exact ⟨rfl, rfl⟩

def newPackages (inst : Install) (el : Cfextra) (status : Char) : List Pinfo :=
  let (cfEnt, me) := if el.mstat.preloaded then eptstat el.cfEnt inst.pkginst dupEntry
    else ({ el.cfEnt with npkgs := 1, pinfo := [⟨nul, inst.pkginst, 0, []⟩] }, some 0)
  let i := me.getD 0
  (outputEntry (cfEnt.modifyPinfo i fun p => { p with status := status }) i).pinfo

theorem newElement_kept (sys : System) (el : Cfextra) :
    (newElement sys el).cfEnt.pinfo = el.cfEnt.pinfo ∧
      (newElement sys el).serverPath = el.serverPath ∧
      (newElement sys el).mstat.preloaded = el.mstat.preloaded := by
  unfold newElement
  split
  · exact ⟨(refs_eq (setChange_refs sys _)).2.2, setChange_serverPath sys _⟩
  · exact ⟨rfl, rfl, rfl⟩

theorem insertedEntry_pinfo (hdbst : inst.dbst = nul)
    (h : insertedEntry sys inst el ctrl = some e) :
    e.pinfo = newPackages inst el (if ctrl ∧ sys.isServed el.serverPath then servedFile
      else if ctrl then entryOk else confirmCont) := by
  obtain ⟨hpinfo, hserver, hpre⟩ := newElement_kept sys el
  unfold insertedEntry at h
  split at h
  · cases h
  · dsimp only at h
    rw [hserver, hpre, hdbst, if_neg (not_not.mpr rfl)] at h
    generalize newElement sys el = x at h hpinfo
    split at h
    · cases h
    · have hdefaults : (newDefaults x.cfEnt).pinfo = el.cfEnt.pinfo := hpinfo
      obtain ⟨hps, hi⟩ := eptstat_pinfo hdefaults inst.pkginst dupEntry
      rw [← Option.some.inj h, newPackages]
      dsimp only
      split
      · simp only [outputEntry, Cfent.modifyPinfo, hps, hi]
      · rfl

end New

/-- The mode that the class of an element is verified in. -/
def Cfextra.quick (sys : System) (el : Cfextra) : Bool :=
  sys.clDvfy el.cfEnt.pkgClassIdx == qkVerify

def overwriting (cf : Cfent) (el : Cfextra) : Cfextra :=
  { el with mstat := { el.mstat with
    osetuid := el.mstat.osetuid || isSetuid cf
    osetgid := el.mstat.osetgid || isSetgid cf } }

/-- The entry that the loop hands to `putcvfpfile` for an element. -/
def Merge.entry (sys : System) (inst : Install) (stack : Str) (m : Merge) (el : Cfextra) :
    Option Cfent :=
  let ctrl := m.assumeOk || inst.dbst == nul && el.quick sys
  let el := adminSetuid inst el
  if m.eocontents then insertedEntry sys inst el ctrl
  else
    let found := srchcfile stack m.cfEnt el.cfEnt.path m.map (some m.tmp)
    if found.ret < 0 then none
    else if found.ret = 1 then likeEntry sys inst (overwriting found.ept el) found.ept ctrl
    else insertedEntry sys inst el ctrl

/-- The entries that a run hands to `putcvfpfile`, with the paths of their elements. -/
def Merge.entries (sys : System) (inst : Install) (stack : Nat → Str) :
    Nat → Merge → List (Str × Cfent)
  | 0, _ => []
  | n + 1, m => match m.todo with
    | [] => []
    | el :: todo => match m.step sys inst (stack (n + 1)) el todo with
      | some (.ok m') =>
        let e := if el.isMetafile ∨ (todo.head?.any fun next => next.path = el.path) then none
          else m.entry sys inst (stack (n + 1)) el
        (e.map fun e => (el.path, e)).toList ++ m'.entries sys inst stack n
      | _ => []

/-- The entries that `pkgdbmerg` writes for the elements of the extlist. -/
def mergedEntries (sys : System) (inst : Install) (stack : Nat → Str) (cfEnt : Cfent)
    (map tmp : Vfp)
    (extlist : List Cfextra) : List (Str × Cfent) :=
  Merge.entries sys inst stack extlist.length
    ⟨vfpRewind map, vfpRewind tmp, { cfEnt with pinfo := [] }, [], extlist, false, false, 0, 0⟩

section Mode
variable {sys : System} {inst : Install} {stack : Str} {m m' : Merge} {el : Cfextra}

theorem Merge.mergeEnt_tmp (h : m.mergeEnt sys inst stack el = some (.ok m')) :
    ∃ t, (t = m.tmp ∨ m.eocontents = false ∧
        (srchcfile stack m.cfEnt el.cfEnt.path m.map (some m.tmp)).tmp.getD m.tmp = t) ∧
      (m.entry sys inst stack el).elim (some t) (putEntry t) = some m'.tmp := by
  have hpath : (adminSetuid inst el).cfEnt.path = el.cfEnt.path := rfl
  unfold Merge.mergeEnt at h
  unfold Merge.entry Cfextra.quick
  dsimp only at h ⊢
  rw [hpath] at h ⊢
  split at h
  · rename_i heof
    obtain ⟨r, hr, hstep⟩ := Option.bind_eq_some_iff.mp h
    have hm' := Except.ok.inj (Option.some.inj hstep)
    have hput := doNewEnt_tmp sys inst m.tmp (adminSetuid inst el)
      (m.assumeOk || inst.dbst == nul && sys.clDvfy el.cfEnt.pkgClassIdx == qkVerify)
    rw [hr] at hput
    rw [if_pos heof, ← hm']
    exact ⟨m.tmp, .inl rfl, hput.symm⟩
  · rename_i heof
    rw [if_neg heof]
    generalize srchcfile stack m.cfEnt el.cfEnt.path m.map (some m.tmp) = found at h
    refine ⟨_, .inr ⟨by simpa using heof, rfl⟩, ?_⟩
    split at h
    · cases h
    · rename_i hret
      rw [if_neg hret]
      split at h
      · rename_i hone
        obtain ⟨r, hr, hstep⟩ := Option.bind_eq_some_iff.mp h
        have hm' := Except.ok.inj (Option.some.inj hstep)
        have hput := doLikeEnt_tmp sys inst (found.tmp.getD m.tmp)
          (overwriting found.ept (adminSetuid inst el)) found.ept
          (m.assumeOk || inst.dbst == nul && sys.clDvfy el.cfEnt.pkgClassIdx == qkVerify)
        rw [if_pos hone, ← hm']
        have hr' : doLikeEnt sys inst (found.tmp.getD m.tmp)
            (overwriting found.ept (adminSetuid inst el)) found.ept
            (m.assumeOk || inst.dbst == nul && sys.clDvfy el.cfEnt.pkgClassIdx == qkVerify) =
            some r := hr
        rw [hr'] at hput
        cases hlike : likeEntry sys inst (overwriting found.ept (adminSetuid inst el)) found.ept
            (m.assumeOk || inst.dbst == nul && sys.clDvfy el.cfEnt.pkgClassIdx == qkVerify) with
        | none =>
          rw [hlike] at hput
          cases hput
        | some e =>
          rw [hlike] at hput
          exact hput.symm
      · rename_i hone
        obtain ⟨r, hr, hstep⟩ := Option.bind_eq_some_iff.mp h
        have hm' := Except.ok.inj (Option.some.inj hstep)
        have hput := doNewEnt_tmp sys inst (found.tmp.getD m.tmp) (adminSetuid inst el)
          (m.assumeOk || inst.dbst == nul && sys.clDvfy el.cfEnt.pkgClassIdx == qkVerify)
        rw [hr] at hput
        rw [if_neg hone, ← hm']
        exact hput.symm

end Mode

/-- An entry that is made from an element and the line of its path, if there is one. -/
inductive MadeFrom (sys : System) (inst : Install) (ls : List Str) (el : Cfextra) (ctrl : Bool)
    (e : Cfent) : Prop where
  | new (inside : Bool) (hls : ∀ l ∈ ls, linePath l ≠ el.path)
      (he : insertedEntry sys inst ((adminSetuid inst el).vary none inside) ctrl = some e)
  | like (inside : Bool) (l : Str) (hl : l ∈ ls) (hpath : linePath l = el.path) (ept cf : Cfent)
      (hparse : parseLine (initEntry ept) l = some (.ok cf))
      (he : likeEntry sys inst ((overwriting cf (adminSetuid inst el)).vary none inside) cf ctrl =
        some e)

/-- An entry that is made from what belongs to its element: the line of its path, if there is one,
and the mode of its class. -/
inductive FromOwn (sys : System) (inst : Install) (ls : List Str) (el : Cfextra) (e : Cfent) :
    Prop where
  | new (inside : Bool) (hls : ∀ l ∈ ls, linePath l ≠ el.path)
      (he : insertedEntry sys inst ((adminSetuid inst el).vary none inside) (el.quick sys) = some e)
  | like (inside : Bool) (l : Str) (hl : l ∈ ls) (hpath : linePath l = el.path) (ept cf : Cfent)
      (hparse : parseLine (initEntry ept) l = some (.ok cf))
      (he : likeEntry sys inst ((overwriting cf (adminSetuid inst el)).vary none inside) cf
        (el.quick sys) = some e)

theorem MadeFrom.own (h : MadeFrom sys inst ls el (el.quick sys) e) : FromOwn sys inst ls el e := by
  cases h with
  | new inside hls he => exact .new inside hls he
  | like inside l hl hpath ept cf hparse he => exact .like inside l hl hpath ept cf hparse he

theorem eq_of_sorted {key : α → Str} {l : List α} (h : l.Pairwise fun a b => key a < key b)
    (ha : a ∈ l) (hb : b ∈ l) (hk : key a = key b) : a = b := by
  have hnodup : (l.map key).Nodup := List.pairwise_map.mpr (h.imp fun hlt => ne_of_lt hlt)
  exact List.inj_on_of_nodup_map hnodup ha hb hk

section Own
variable {sys₁ sys₂ : System} {inst : Install} {ls₁ ls₂ : List Str} {el : Cfextra} {e₁ e₂ : Cfent}

theorem overwriting_twin (h : DeviceTwin cf cf') (el : Cfextra) :
    overwriting cf' el = overwriting cf el := by
  obtain ⟨dev, rfl⟩ := h.twin
  rfl

theorem FromOwn.pinfo_eq (h₁ : FromOwn sys₁ inst ls₁ el e₁) (h₂ : FromOwn sys₂ inst ls₂ el e₂)
    (hdbst : inst.dbst = nul) (hwf : ∀ l ∈ ls₁, OneLine l ∧ WellFormed l)
    (hsorted : ls₁.Pairwise fun a b => linePath a < linePath b)
    (hd : isDevice el.cfEnt.ftype → ∀ l ∈ ls₁, linePath l = el.path → ∀ ept cf,
      parseLine (initEntry ept) l = some (.ok cf) → cf.ftype ≠ '?')
    (hown : ∀ l, linePath l = el.path → (l ∈ ls₁ ↔ l ∈ ls₂))
    (hfs : sys₁.forObject el.serverPath el.path = sys₂.forObject el.serverPath el.path)
    (hmode : el.quick sys₁ = el.quick sys₂) : e₁.pinfo = e₂.pinfo := by
  cases h₁ with
  | new inside₁ hls₁ he₁ =>
    cases h₂ with
    | new inside₂ hls₂ he₂ =>
      have hserved : sys₁.isServed el.serverPath = sys₂.isServed el.serverPath := by
        have h := congrArg (fun s => s.isServed el.serverPath) hfs
        simpa [System.forObject] using h
      have hserved' : sys₁.isServed ((adminSetuid inst el).vary none inside₁).serverPath =
          sys₂.isServed ((adminSetuid inst el).vary none inside₂).serverPath := hserved
      rw [insertedEntry_pinfo hdbst he₁, insertedEntry_pinfo hdbst he₂, hmode]
      simp only [hserved']
      rfl
    | like inside₂ l hl hpath ept cf hparse he₂ =>
      exact absurd hpath (hls₁ l ((hown l hpath).mpr hl))
  | like inside₁ l₁ hl₁ hpath₁ ept₁ cf₁ hparse₁ he₁ =>
    cases h₂ with
    | new inside₂ hls₂ he₂ => exact absurd hpath₁ (hls₂ l₁ ((hown l₁ hpath₁).mp hl₁))
    | like inside₂ l₂ hl₂ hpath₂ ept₂ cf₂ hparse₂ he₂ =>
      obtain rfl : l₂ = l₁ := eq_of_sorted hsorted ((hown l₂ hpath₂).mpr hl₂) hl₁
        (hpath₂.trans hpath₁.symm)
      obtain ⟨hline, hwfl⟩ := hwf l₂ hl₁
      have htwin := parseLine_deviceTwin hwfl.head hparse₁ hparse₂
      have hft := (parseLine_parsed hline hwfl.head hparse₁).ftype
      let x := overwriting cf₁ (adminSetuid inst el)
      have hdx : isDevice x.cfEnt.ftype → cf₁.ftype ≠ '?' :=
        fun h => hd h l₂ hl₁ hpath₁ ept₁ cf₁ hparse₁
      have hvary₁ := likeEntry_vary hdbst (DeviceTwin.refl cf₁) hft x hdx sys₁ (el.quick sys₁)
        inside₁
      have hvary₂ := likeEntry_vary hdbst htwin hft x hdx sys₂ (el.quick sys₂) inside₂
      rw [overwriting_twin htwin] at he₂
      rw [he₁, ← likeEntry_forObject hdbst] at hvary₁
      rw [he₂, ← likeEntry_forObject hdbst] at hvary₂
      have hobj : sys₁.forObject x.serverPath x.path = sys₂.forObject x.serverPath x.path := hfs
      rw [hobj, hmode, ← hvary₂] at hvary₁
      exact Option.some.inj hvary₁

end Own

theorem mem_markInside_vary (h : el ∈ markInside path todo) :
    ∃ el₀ ∈ todo, ∃ inside, el = el₀.vary none inside := by
  rcases List.mem_append.mp h with h | h
  · obtain ⟨el₀, hel, rfl⟩ := List.mem_map.mp h
    exact ⟨el₀, (List.takeWhile_sublist _).subset hel, true, rfl⟩
  · exact ⟨el, (List.dropWhile_sublist _).subset h, el.mstat.parentsyml2dir, rfl⟩

/-- The elements that are left are those of the extlist, some of them marked, and the mode of an
element that was merged is that of one in front of them. -/
structure Pending (sys : System) (extlist : List Cfextra) (m : Merge) : Prop where
  elements : ∀ x ∈ m.todo, ∃ el ∈ extlist, ∃ inside, x = el.vary none inside
  assumed : m.assumeOk → ∃ b ∈ extlist, b.isMetafile = false ∧ b.quick sys ∧
    ∀ x ∈ m.todo, b.path < x.path

section Run
variable {sys : System} {inst : Install} {ls cs before rest out names : List Str} {start : Vfp}
  {m m' : Merge} {el x : Cfextra} {extlist todo : List Cfextra} {e : Cfent}

theorem Merge.mergeEnt_assumeOk (h : m.mergeEnt sys inst stack el = some (.ok m')) :
    m'.assumeOk = (m.assumeOk || inst.dbst == nul && el.quick sys) := by
  unfold Merge.mergeEnt at h
  dsimp only at h
  split at h
  · obtain ⟨r, -, hstep⟩ := Option.bind_eq_some_iff.mp h
    rw [← Except.ok.inj (Option.some.inj hstep)]
    rfl
  · split at h
    · cases h
    · split at h
      · obtain ⟨r, -, hstep⟩ := Option.bind_eq_some_iff.mp h
        rw [← Except.ok.inj (Option.some.inj hstep)]
        rfl
      · obtain ⟨r, -, hstep⟩ := Option.bind_eq_some_iff.mp h
        rw [← Except.ok.inj (Option.some.inj hstep)]
        rfl

theorem Pending.next (h : Pending sys extlist m) (hsorted : SortedList m.todo)
    (hm : m.todo = x :: todo) (hremains : Remains todo m'.todo)
    (hassumed : m'.assumeOk → m.assumeOk ∨ x.isMetafile = false ∧ x.quick sys) :
    Pending sys extlist m' := by
  have hpaths (y) (hy : y ∈ m'.todo) : ∃ z ∈ todo, y.path = z.path := by
    have hmem : y.path ∈ todo.map Cfextra.path := by
      rw [← hremains.paths.1]
      exact List.mem_map_of_mem hy
    obtain ⟨z, hz, hpath⟩ := List.mem_map.mp hmem
    exact ⟨z, hz, hpath.symm⟩
  constructor
  · intro y hy
    have hold : ∃ z ∈ todo, ∃ inside, y = z.vary none inside := by
      rcases hremains with htodo | ⟨path, htodo⟩
      · rw [htodo] at hy
        exact ⟨y, hy, y.mstat.parentsyml2dir, rfl⟩
      · rw [htodo] at hy
        exact mem_markInside_vary hy
    obtain ⟨z, hz, inside, rfl⟩ := hold
    obtain ⟨el, hel, inside', rfl⟩ := h.elements z (by rw [hm]; exact List.mem_cons_of_mem _ hz)
    exact ⟨el, hel, inside, rfl⟩
  · intro hok
    rcases hassumed hok with hok | ⟨hmeta, hquick⟩
    · obtain ⟨b, hb, hbmeta, hbquick, hlt⟩ := h.assumed hok
      refine ⟨b, hb, hbmeta, hbquick, fun y hy => ?_⟩
      obtain ⟨z, hz, hpath⟩ := hpaths y hy
      rw [hpath]
      exact hlt z (by rw [hm]; exact List.mem_cons_of_mem _ hz)
    · obtain ⟨b, hb, inside, rfl⟩ := h.elements x (by rw [hm]; exact List.mem_cons_self)
      refine ⟨b, hb, hmeta, hquick, fun y hy => ?_⟩
      obtain ⟨z, hz, hpath⟩ := hpaths y hy
      have hlt := hsorted.sorted
      rw [hm] at hlt
      rw [hpath]
      exact (List.pairwise_cons.mp hlt).1 z hz

theorem Merge.entry_from (hc : Contents ls cs)
    (h : Progress ls cs extlist start m before rest out names)
    (hm : m.todo = el.vary none inside :: todo)
    (hmeta : el.isMetafile = false)
    (hstep : Merge.mergeEnt sys inst stack { m with todo := todo } (el.vary none inside) =
      some (.ok m'))
    (he : m.entry sys inst stack (el.vary none inside) = some e) :
    MadeFrom sys inst ls el (m.assumeOk || inst.dbst == nul && el.quick sys) e := by
  have hmem : el.vary none inside ∈ m.todo := by
    rw [hm]
    exact List.mem_cons_self
  have hpath : (adminSetuid inst (el.vary none inside)).cfEnt.path = some el.path :=
    (adminSetuid_mergeable (h.todo.mergeable (el.vary none inside) hmem hmeta).2 inst).cfEnt.path
  have hahead := (h.ahead (el.vary none inside) hmem).1
  unfold Merge.entry at he
  dsimp only at he
  rw [hpath] at he
  cases h.mergeCase hc hm hmeta hstep with
  | new A B t ctrl r hrest hA hB ht hfound hdo htmp htodo hreads hended =>
    refine .new inside ?_ ?_
    · intro l hl
      rw [h.lines, hrest] at hl
      rcases List.mem_append.mp hl with hl | hl
      · exact ne_of_lt (hahead l hl)
      · rcases List.mem_append.mp hl with hl | hl
        · exact ne_of_lt (hA l hl)
        · exact ne_of_gt (hB l hl)
    · split at he
      · exact he
      · rename_i heof
        have hne := hfound.resolve_left heof
        split at he
        · cases he
        · split at he
          · rename_i hone
            exact absurd hone hne
          · exact he
  | like A l B t ctrl r cf mstat hrest hA hl ht hparse hfound hshared hdo htmp htodo hreads
      hended =>
    obtain ⟨heof, hone, hept⟩ := hfound
    have hls : l ∈ ls := by
      rw [h.lines, hrest]
      simp
    refine .like inside l hls hl m.cfEnt cf hparse ?_
    have hone' : (srchcfile stack m.cfEnt (some el.path) m.map (some m.tmp)).ret = 1 := hone
    have hept' : (srchcfile stack m.cfEnt (some el.path) m.map (some m.tmp)).ept = cf := hept
    rw [if_neg (by rw [heof]; decide), hone', if_neg (by decide), if_pos rfl, hept'] at he
    exact he

/-- The mode that an element is merged in is its own, or that of an element in front of it. -/
theorem Pending.mode (hp : Pending sys extlist m) (hdbst : inst.dbst = nul)
    (hmem : el.vary none inside ∈ m.todo) :
    (m.assumeOk || inst.dbst == nul && el.quick sys) = el.quick sys ∨
      (m.assumeOk || inst.dbst == nul && el.quick sys) = true ∧
        ∃ b ∈ extlist, b.isMetafile = false ∧ b.quick sys ∧ b.path < el.path := by
  rw [hdbst]
  cases hok : m.assumeOk with
  | false => exact .inl rfl
  | true =>
    obtain ⟨b, hb, hbmeta, hbquick, hlt⟩ := hp.assumed hok
    exact .inr ⟨rfl, b, hb, hbmeta, hbquick, hlt (el.vary none inside) hmem⟩

end Run

section Runs
variable {sys : System} {inst : Install} {ls cs before rest out names : List Str} {start : Vfp}
  {m m' : Merge} {el x : Cfextra} {extlist todo : List Cfextra} {e : Cfent}

theorem Pending.step (hc : Contents ls cs)
    (h : Progress ls cs extlist start m before rest out names)
    (hp : Pending sys extlist m) (hm : m.todo = x :: todo)
    (hstep : m.step sys inst stack x todo = some (.ok m')) : Pending sys extlist m' := by
  have hdup := next_path_ne (hm ▸ h.todo.sorted)
  unfold Merge.step at hstep
  dsimp only at hstep
  rw [hdup] at hstep
  by_cases hmeta : x.isMetafile
  · rw [if_pos (.inl hmeta)] at hstep
    have hm' := Except.ok.inj (Option.some.inj hstep)
    refine hp.next h.todo hm (.inl ?_) fun hok => .inl ?_
    · rw [← hm']
    · rw [← hm'] at hok
      exact hok
  · have hmeta' : x.isMetafile = false := by simpa using hmeta
    have hskip : ¬ (x.isMetafile = true ∨ false = true) := by simp [hmeta']
    rw [if_neg hskip] at hstep
    refine hp.next h.todo hm (h.mergeCase hc hm hmeta' hstep).remains fun hok => ?_
    rw [Merge.mergeEnt_assumeOk hstep] at hok
    rcases Bool.or_eq_true_iff.mp hok with hok | hok
    · exact .inl hok
    · exact .inr ⟨hmeta', (Bool.and_eq_true_iff.mp hok).2⟩

/-- In a run, every entry is made from an element and the line of its path, in a mode that is its
own or that of an element in front of it. -/
theorem Merge.entries_from (hc : Contents ls cs) (hs : sys.Plain) (hi : inst.Plain)
    (hdbst : inst.dbst = nul) (n : Nat) (h : Progress ls cs extlist start m before rest out names)
    (hp : Pending sys extlist m) (he : (path, e) ∈ m.entries sys inst stack n) :
    ∃ el ∈ extlist, el.isMetafile = false ∧ el.path = path ∧ ∃ ctrl,
      MadeFrom sys inst ls el ctrl e ∧ (ctrl = el.quick sys ∨ ctrl = true ∧
        ∃ b ∈ extlist, b.isMetafile = false ∧ b.quick sys ∧ b.path < el.path) := by
  induction n generalizing m before rest out names with
  | zero => cases he
  | succ n ih =>
    rw [Merge.entries] at he
    split at he
    · cases he
    · rename_i x todo hm
      split at he
      · rename_i m₁ hstep
        obtain ⟨-, _, _, _, _, hprogress⟩ := h.step hc hs hi hm hstep
        have hpending := hp.step hc h hm hstep
        rcases List.mem_append.mp he with he | he
        · obtain ⟨e', he', hpair⟩ := Option.map_eq_some_iff.mp (Option.mem_toList.mp he)
          obtain ⟨hpath, rfl⟩ := Prod.mk.inj hpair
          split at he'
          · cases he'
          · rename_i hskip
            have hmeta : x.isMetafile = false := by simpa using fun hx => hskip (.inl hx)
            have hmem : x ∈ m.todo := by
              rw [hm]
              exact List.mem_cons_self
            unfold Merge.step at hstep
            dsimp only at hstep
            rw [if_neg hskip] at hstep
            obtain ⟨el, hel, inside, rfl⟩ := hp.elements x hmem
            exact ⟨el, hel, hmeta, hpath, _, Merge.entry_from hc h hm hmeta hstep he',
              hp.mode hdbst hmem⟩
        · exact ih hprogress hpending he
      · cases he

theorem mergedEntries_from (hs : sys.Plain) (hi : inst.Plain) (hdbst : inst.dbst = nul)
    (hc : Contents ls cs) (hext : SortedList extlist)
    (he : (path, e) ∈
      mergedEntries sys inst stack cfEnt (vfpOpen (unlines (ls ++ cs))) tmp extlist) :
    ∃ el ∈ extlist, el.isMetafile = false ∧ el.path = path ∧ ∃ ctrl,
      MadeFrom sys inst ls el ctrl e ∧ (ctrl = el.quick sys ∨ ctrl = true ∧
        ∃ b ∈ extlist, b.isMetafile = false ∧ b.quick sys ∧ b.path < el.path) := by
  have hstart := progress_start hc hext cfEnt tmp
  exact Merge.entries_from hc hs hi hdbst _ hstart
    ⟨fun x hx => ⟨x, hx, x.mstat.parentsyml2dir, rfl⟩, nofun⟩ he

/-- The entry of an element is made from its own, if no element in front of it has another mode. -/
theorem mergedEntries_own (hs : sys.Plain) (hi : inst.Plain) (hdbst : inst.dbst = nul)
    (hc : Contents ls cs) (hext : SortedList extlist) (hel : el ∈ extlist)
    (hq : ∀ b ∈ extlist, b.isMetafile = false → b.path < el.path → b.quick sys → el.quick sys)
    (he : (el.path, e) ∈
      mergedEntries sys inst stack cfEnt (vfpOpen (unlines (ls ++ cs))) tmp extlist) :
    FromOwn sys inst ls el e := by
  obtain ⟨el', hel', -, hpath, ctrl, hfrom, hctrl⟩ := mergedEntries_from hs hi hdbst hc hext he
  obtain rfl : el' = el := eq_of_sorted hext.sorted hel' hel hpath
  have hquick : ctrl = el'.quick sys := by
    rcases hctrl with hctrl | ⟨hctrl, b, hb, hbmeta, hbquick, hlt⟩
    · exact hctrl
    · rw [hctrl, hq b hb hbmeta hlt hbquick]
  rw [hquick] at hfrom
  exact hfrom.own

end Runs

/-- Lines that are copied by searches, and entries that are put behind them. -/
inductive Written : Vfp → List Cfent → Vfp → Prop where
  | done (v : Vfp) : Written v [] v
  | search (stack : Str) (ept : Cfent) (path : Option Str) (map : Vfp)
      (h : Written ((srchcfile stack ept path map (some v)).tmp.getD v) es w) : Written v es w
  | put (hput : putEntry v e = some u) (h : Written u es w) : Written v (e :: es) w

section Written
variable {sys : System} {inst : Install} {m m' : Merge}

theorem Merge.run_written (n : Nat) (hrun : m.run sys inst stack n = some (ret, m'))
    (hret : 0 ≤ ret) : Written m.tmp ((m.entries sys inst stack n).map Prod.snd) m'.tmp := by
  have hfinish (m : Merge) (s : Str) : Written m.tmp [] (m.finish s).2.tmp := by
    unfold Merge.finish
    split
    · exact .done _
    · exact .search _ _ _ _ (.done _)
  induction n generalizing m with
  | zero =>
    have hm' := Option.some.inj hrun
    rw [Merge.entries]
    have hdone := hfinish m (stack 0)
    rw [hm'] at hdone
    exact hdone
  | succ n ih =>
    rw [Merge.run] at hrun
    rw [Merge.entries]
    cases hm : m.todo with
    | nil =>
      rw [hm] at hrun
      have hdone := hfinish m (stack 0)
      rw [Option.some.inj hrun] at hdone
      exact hdone
    | cons el todo =>
      rw [hm] at hrun
      obtain ⟨r, hstep, hrun⟩ := Option.bind_eq_some_iff.mp hrun
      cases r with
      | error m₁ =>
        obtain ⟨rfl, -⟩ := Prod.mk.inj (Option.some.inj hrun)
        exact absurd hret (by decide)
      | ok m₁ =>
        dsimp only at hstep ⊢
        rw [hstep]
        dsimp only
        have hnext := ih hrun
        unfold Merge.step at hstep
        dsimp only at hstep
        split at hstep
        · rename_i hskip
          rw [if_pos hskip]
          rw [← Except.ok.inj (Option.some.inj hstep)] at hnext ⊢
          exact hnext
        · rename_i hskip
          rw [if_neg hskip]
          obtain ⟨t, ht, hput⟩ := Merge.mergeEnt_tmp hstep
          have hentry : ({ m with todo := todo } : Merge).entry sys inst (stack (n + 1)) el =
            m.entry sys inst (stack (n + 1)) el := rfl
          rw [hentry] at hput
          have hsearched : Written t ((m.entry sys inst (stack (n + 1)) el).toList ++
              (m₁.entries sys inst stack n).map Prod.snd) m'.tmp := by
            cases hentry : m.entry sys inst (stack (n + 1)) el with
            | none =>
              rw [hentry] at hput
              rw [Option.some.inj hput]
              exact hnext
            | some e =>
              rw [hentry] at hput
              exact .put hput hnext
          have hmap : ((m.entry sys inst (stack (n + 1)) el).map fun e => (el.path, e)).toList.map
              Prod.snd = (m.entry sys inst (stack (n + 1)) el).toList := by
            cases m.entry sys inst (stack (n + 1)) el <;> rfl
          rw [List.map_append, hmap]
          rcases ht with rfl | ⟨-, rfl⟩
          · exact hsearched
          · exact .search _ _ _ _ hsearched

/-- What `pkgdbmerg` writes: the lines that are copied, and `mergedEntries`. -/
theorem pkgdbmerg_written
    (hrun : pkgdbmerg sys inst stack cfEnt map tmp extlist = some (ret, m)) (hret : 0 ≤ ret) :
    Written (vfpRewind tmp)
      ((mergedEntries sys inst stack cfEnt map tmp extlist).map Prod.snd) m.tmp :=
  Merge.run_written _ hrun hret

end Written

def ownStatus (pkg : Str) (e : Cfent) : Option Char :=
  (findPinfo pkg e.pinfo).map fun i => (e.pinfoAt i).status

/-- A contents file with well-formed entries, sorted by path, and comments at its end. -/
structure ContentsFile (ls cs : List Str) : Prop where
  entry : ∀ l ∈ ls, Printable l ∧ WellFormed l
  sorted : ls.Pairwise fun a b => linePath a < linePath b
  comment : ∀ c ∈ cs, Printable c ∧ c.head? = some '#'
  nonempty : cs ≠ []

theorem ContentsFile.contents (h : ContentsFile ls cs) : Contents ls cs :=
  contents_of_printable h.entry h.sorted h.comment h.nonempty

/-- Neither the mode nor the device numbers of another object come to the element: the class of an
element in front of it is verified quickly only if its own is, and a device does not meet an entry
of unknown type. -/
structure Unaffected (sys : System) (ls : List Str) (extlist : List Cfextra) (el : Cfextra) :
    Prop where
  mode : ∀ b ∈ extlist, b.isMetafile = false → b.path < el.path → b.quick sys → el.quick sys
  device : isDevice el.cfEnt.ftype → ∀ l ∈ ls, linePath l = el.path → ∀ ept cf,
    parseLine (initEntry ept) l = some (.ok cf) → cf.ftype ≠ '?'

/-- The status that the merge writes for an element depends on its own entries, the state of its own
object and the mode of its own class. -/
theorem pkgdbmerg_status_own (hi : inst.Plain) (hdbst : inst.dbst = nul) (hs₁ : sys₁.Plain)
    (hs₂ : sys₂.Plain) (hdb₁ : ContentsFile ls₁ cs₁) (hdb₂ : ContentsFile ls₂ cs₂)
    (hext₁ : SortedList extlist₁) (hext₂ : SortedList extlist₂) (hel₁ : el ∈ extlist₁)
    (hel₂ : el ∈ extlist₂) (hown : ∀ l, linePath l = el.path → (l ∈ ls₁ ↔ l ∈ ls₂))
    (hfs : sys₁.forObject el.serverPath el.path = sys₂.forObject el.serverPath el.path)
    (hmode : sys₁.clDvfy el.cfEnt.pkgClassIdx = sys₂.clDvfy el.cfEnt.pkgClassIdx)
    (hok₁ : Unaffected sys₁ ls₁ extlist₁ el) (hok₂ : Unaffected sys₂ ls₂ extlist₂ el)
    (he₁ : (el.path, e₁) ∈
      mergedEntries sys₁ inst stack₁ cfEnt₁ (vfpOpen (unlines (ls₁ ++ cs₁))) tmp₁ extlist₁)
    (he₂ : (el.path, e₂) ∈
      mergedEntries sys₂ inst stack₂ cfEnt₂ (vfpOpen (unlines (ls₂ ++ cs₂))) tmp₂ extlist₂) :
    ownStatus inst.pkginst e₁ = ownStatus inst.pkginst e₂ := by
  have hfrom₁ := mergedEntries_own hs₁ hi hdbst hdb₁.contents hext₁ hel₁ hok₁.mode he₁
  have hfrom₂ := mergedEntries_own hs₂ hi hdbst hdb₂.contents hext₂ hel₂ hok₂.mode he₂
  have hquick : el.quick sys₁ = el.quick sys₂ := by rw [Cfextra.quick, Cfextra.quick, hmode]
  have hpinfo := hfrom₁.pinfo_eq hfrom₂ hdbst
    (fun l hl => ⟨(hdb₁.entry l hl).1.oneLine, (hdb₁.entry l hl).2⟩) hdb₁.sorted hok₁.device hown
    hfs hquick
  simp only [ownStatus, Cfent.pinfoAt, hpinfo]

def sampleOfClass (pkgClass : String) (idx : Int) (path : String) : Cfextra :=
  ⟨⟨0, 'd', pkgClass.toList, idx, some path.toList,
      ⟨none, 0o755, "root".toList, "sys".toList, 0, 0⟩, ⟨-1, -1, -1⟩, 0, []⟩,
    ⟨false, false, false, false, false, false, false, false, false, false, false, false⟩,
      path.toList,
    path.toList, none⟩

def sampleClasses : List Cfextra := [sampleOfClass "one" 0 "/a", sampleOfClass "two" 1 "/b"]

def modeSystem (one two : Int) : System :=
  { bareSystem with clDvfy := fun i => if i = 0 then one else two }

/-- The entries of the two directories in an empty database, and the lines that are written. -/
def sampleEntries (one two : Int) : List (Str × Cfent) :=
  mergedEntries (modeSystem one two) ⟨nul, "SUNWnew".toList, false, false⟩ (fun _ => []) zeroEntry
    (vfpOpen (unlines ([] ++ ["# end".toList]))) (vfpAnonymous 160 0 fun _ => nul) sampleClasses

def sampleLines (one two : Int) : Option (List Str) :=
  (pkgdbmerg (modeSystem one two) ⟨nul, "SUNWnew".toList, false, false⟩ (fun _ => []) zeroEntry
    (vfpOpen (unlines ([] ++ ["# end".toList]))) (vfpAnonymous 160 0 fun _ => nul)
    sampleClasses).map fun r => entryLines r.2.tmp.text

theorem sampleClasses_sorted : SortedList sampleClasses := by
  refine ⟨by decide +kernel, fun el hel _ => ?_⟩
  rcases List.mem_pair.mp hel with rfl | rfl
  · exact ⟨⟨by decide, by decide +kernel⟩, ⟨⟨by decide, by decide, ⟨nofun, by decide, by decide⟩,
      nofun⟩, by decide, rfl⟩, rfl, nofun⟩
  · exact ⟨⟨by decide, by decide +kernel⟩, ⟨⟨by decide, by decide, ⟨nofun, by decide, by decide⟩,
      nofun⟩, by decide, rfl⟩, rfl, nofun⟩

theorem modeSystem_plain (one two : Int) : (modeSystem one two).Plain :=
  ⟨bareSystem_plain.readlink, bareSystem_plain.group, bareSystem_plain.user⟩

theorem emptyContents : ContentsFile [] ["# end".toList] :=
  ⟨by simp, .nil, by decide +kernel, by decide⟩

/-- The mode of the class in front may change if the class of the element is verified quickly. -/
theorem pkgdbmerg_status_own_quick :
    ∃ e₁ e₂, ("/b".toList, e₁) ∈ sampleEntries 0 qkVerify ∧
      ("/b".toList, e₂) ∈ sampleEntries qkVerify qkVerify ∧
      ownStatus "SUNWnew".toList e₁ = ownStatus "SUNWnew".toList e₂ := by
  have hsome₁ : ∃ x ∈ sampleEntries 0 qkVerify, x.1 = "/b".toList := by decide +kernel
  have hsome₂ : ∃ x ∈ sampleEntries qkVerify qkVerify, x.1 = "/b".toList := by decide +kernel
  obtain ⟨⟨p₁, e₁⟩, he₁, hp₁⟩ := hsome₁
  obtain ⟨⟨p₂, e₂⟩, he₂, hp₂⟩ := hsome₂
  obtain rfl : p₁ = "/b".toList := hp₁
  obtain rfl : p₂ = "/b".toList := hp₂
  have hel : sampleOfClass "two" 1 "/b" ∈ sampleClasses := by simp [sampleClasses]
  have hok (one : Int) : Unaffected (modeSystem one qkVerify) [] sampleClasses
      (sampleOfClass "two" 1 "/b") :=
    ⟨fun _ _ _ _ _ => rfl, fun _ l hl => absurd hl List.not_mem_nil⟩
  have hfs (one : Int) : (modeSystem one qkVerify).forObject "/b".toList "/b".toList =
      bareSystem.forObject "/b".toList "/b".toList := rfl
  refine ⟨e₁, e₂, he₁, he₂, ?_⟩
  exact pkgdbmerg_status_own ⟨by decide, by decide +kernel⟩ rfl
    (modeSystem_plain 0 qkVerify) (modeSystem_plain qkVerify qkVerify) emptyContents emptyContents
    sampleClasses_sorted sampleClasses_sorted hel hel (fun _ _ => Iff.rfl)
    ((hfs 0).trans (hfs qkVerify).symm) rfl (hok 0) (hok qkVerify) he₁ he₂

/-- With the first class verified quickly, the entry of the second is taken for correct too. -/
theorem pkgdbmerg_status_of_other :
    (modeSystem qkVerify 0).forObject "/b".toList "/b".toList =
      (modeSystem 0 0).forObject "/b".toList "/b".toList ∧
    (modeSystem qkVerify 0).clDvfy 1 = (modeSystem 0 0).clDvfy 1 ∧
    (sampleEntries qkVerify 0).map (fun x => (x.1, ownStatus "SUNWnew".toList x.2)) =
      [("/a".toList, some entryOk), ("/b".toList, some entryOk)] ∧
    (sampleEntries 0 0).map (fun x => (x.1, ownStatus "SUNWnew".toList x.2)) =
      [("/a".toList, some confirmCont), ("/b".toList, some confirmCont)] ∧
    sampleLines qkVerify 0 = some ["/a d one 0755 root sys SUNWnew".toList,
      "/b d two 0755 root sys SUNWnew".toList] ∧
    sampleLines 0 0 = some ["/a d one 0755 root sys *SUNWnew".toList,
      "/b d two 0755 root sys *SUNWnew".toList] :=
  ⟨rfl, rfl, by decide +kernel, by decide +kernel, by decide +kernel, by decide +kernel⟩

end Pkgtools
