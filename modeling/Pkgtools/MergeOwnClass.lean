import Pkgtools.MergeClass

namespace Pkgtools
open CLib
set_option autoImplicit true

def ownClass (pkg : Str) (e : Cfent) : Option Str :=
  (findPinfo pkg e.pinfo).map fun i => effectiveClass e (e.pinfoAt i)

/-- The class of its own that a package has in an entry, or none. -/
def oldClass (pkg : Str) (e : Cfent) : Str :=
  (findPinfo pkg e.pinfo).elim [] fun i => (e.pinfoAt i).aclass

/-- The package has no class of its own in the entry or the new one already; or it has the entry for
itself; or the class of the entry is another than the new one. -/
def ClassMerges (pkg newclass : Str) (e : Cfent) : Prop :=
  oldClass pkg e = [] ∨ oldClass pkg e = newclass ∨
    if e.npkgs = 1 then oldClass pkg e ≠ "?".toList else e.pkgClass ≠ newclass

/-- The last record is that of the package, with class `c`. -/
def OwnLast (pkg c : Str) (e : Cfent) : Prop :=
  ∃ A p, e.pinfo = A ++ [p] ∧ p.pkg = pkg ∧ effectiveClass e p = c

section Own
variable {e e' : Cfent} {pkg c : Str}

theorem findPinfo_last (A : List Pinfo) {p : Pinfo} (hp : p.pkg = pkg) :
    findPinfo pkg (A ++ [p]) = some A.length := by
  induction A with
  | nil => rw [List.nil_append, findPinfo, findPinfo, if_pos hp]; rfl
  | cons a A ih => rw [List.cons_append, findPinfo, ih]; rfl

theorem pinfoAt_last {A : List Pinfo} {p : Pinfo} (h : e.pinfo = A ++ [p]) :
    e.pinfoAt A.length = p := by
  rw [Cfent.pinfoAt, h, List.getD_append_right _ _ _ _ (Nat.le_refl _), Nat.sub_self]
  rfl

theorem OwnLast.ownClass (h : OwnLast pkg c e) : ownClass pkg e = some c := by
  obtain ⟨A, p, hps, hp, hc⟩ := h
  rw [Pkgtools.ownClass, hps, findPinfo_last A hp, Option.map_some, pinfoAt_last hps, hc]

theorem modify_concat (A : List Pinfo) (p : Pinfo) (i : Nat) (f : Pinfo → Pinfo) :
    ∃ A' q, (A ++ [p]).modify i f = A' ++ [q] ∧ (q = p ∨ q = f p) := by
  induction A generalizing i with
  | nil =>
    cases i with
    | zero => exact ⟨[], f p, rfl, .inr rfl⟩
    | succ i => exact ⟨[], p, by simp, .inl rfl⟩
  | cons a A ih =>
    cases i with
    | zero => exact ⟨f a :: A, p, rfl, .inl rfl⟩
    | succ i =>
      obtain ⟨A', q, hmod, hq⟩ := ih i
      exact ⟨a :: A', q, by rw [List.cons_append, List.modify_succ_cons, hmod]; rfl, hq⟩

theorem OwnLast.modify (h : OwnLast pkg c e) (i : Nat) {f : Pinfo → Pinfo}
    (hf : ∀ p, (f p).pkg = p.pkg ∧ (f p).aclass = p.aclass) :
    OwnLast pkg c (e.modifyPinfo i f) := by
  obtain ⟨A, p, hps, hp, hc⟩ := h
  obtain ⟨A', q, hmod, hq⟩ := modify_concat A p i f
  refine ⟨A', q, by rw [Cfent.modifyPinfo, hps]; exact hmod, ?_, ?_⟩
  · rcases hq with rfl | rfl
    · exact hp
    · exact (hf p).1.trans hp
  · rcases hq with rfl | rfl
    · exact hc
    · rw [← hc, effectiveClass, effectiveClass, (hf p).2]
      rfl

theorem OwnLast.refs {el el' : Cfextra} (h : OwnLast pkg c el.cfEnt) (hr : refs el' = refs el) :
    OwnLast pkg c el'.cfEnt := by
  obtain ⟨A, p, hps, hp, hc⟩ := h
  obtain ⟨hclass, -, hpinfo⟩ := refs_eq hr
  exact ⟨A, p, hpinfo.trans hps, hp, by rw [← hc, effectiveClass, effectiveClass, hclass]⟩

theorem OwnLast.eptstat (h : OwnLast pkg c e) (hpkg : pkg.length ≤ pkgsiz)
    (hs : (Pkgtools.eptstat e pkg s).2 = some i) : OwnLast pkg c (Pkgtools.eptstat e pkg s).1 := by
  obtain ⟨A, p, hps, hp, hc⟩ := h
  have hfind : findPinfo pkg e.pinfo = some A.length := by rw [hps, findPinfo_last A hp]
  have herase : e.pinfo.eraseIdx A.length = A := by
    rw [hps, List.eraseIdx_append_of_length_le (Nat.le_refl _), Nat.sub_self,
      List.eraseIdx_cons_zero, List.append_nil]
  have hme : e.pinfo.getD A.length ⟨nul, [], 0, []⟩ = p := pinfoAt_last hps
  rw [Pkgtools.eptstat] at hs ⊢
  split
  · exact ⟨A, p, hps, hp, hc⟩
  · rename_i hc'
    rw [if_neg hc', hfind] at hs
    rw [hfind]
    dsimp only at hs ⊢
    split
    · rename_i hnext
      rw [if_pos hnext] at hs
      cases hs
    · rw [herase, hme]
      refine ⟨A, markPinfo pkg s p, rfl, List.take_of_length_le hpkg, ?_⟩
      rw [← hc, effectiveClass, effectiveClass, markPinfo]
      dsimp only
      by_cases hnil : p.aclass = []
      · rw [if_neg (not_not.mpr hnil), if_neg (not_not.mpr hnil), if_neg fun h => h.2 hnil]
      · rw [if_pos hnil, if_pos hnil]

theorem eptstat_dup (hpkg : pkg.length ≤ pkgsiz) (hn : -2 ^ 15 ≤ e.npkgs ∧ e.npkgs < 2 ^ 15) :
    ∃ (A : List Pinfo) (p : Pinfo), (eptstat e pkg dupEntry).1.pinfo = A ++ [p] ∧
      (eptstat e pkg dupEntry).2 = some A.length ∧ p.pkg = pkg ∧ p.aclass = oldClass pkg e ∧
      (eptstat e pkg dupEntry).1.pkgClass =
        if e.npkgs = 1 ∧ oldClass pkg e ≠ [] then oldClass pkg e else e.pkgClass := by
  have hme (p : Pinfo) : (markPinfo pkg dupEntry p).pkg = pkg := List.take_of_length_le hpkg
  have hwrap : wrap 16 (wrap 16 (e.npkgs - 1) + 1) = 1 ↔ e.npkgs = 1 := by
    rw [wrap, wrap, Int.bmod_add_bmod, Int.sub_add_cancel, Int.bmod_eq_of_le (by omega) (by omega)]
  rw [eptstat, if_neg (by decide), oldClass]
  cases hf : findPinfo pkg e.pinfo with
  | none =>
    dsimp only
    rw [if_neg (by decide)]
    refine ⟨_, _, rfl, rfl, hme _, rfl, ?_⟩
    rw [if_neg fun h => h.2 rfl]
  | some i =>
    dsimp only
    rw [if_neg (by decide)]
    refine ⟨_, _, rfl, rfl, hme _, rfl, ?_⟩
    simp only [hwrap, Option.elim_some]
    rfl

def mergedClass (oldclass newclass entry : Str) : Str :=
  if entry = newclass ∨ entry = "?".toList then if oldclass ≠ [] then oldclass else newclass
  else newclass

theorem mergClass_ownLast {el : Cfextra} {cf : Cfent} {A : List Pinfo} {p : Pinfo}
    (hel : el.cfEnt.pinfo = A ++ [p]) (hp : p.pkg = pkg) (hne : el.cfEnt.pkgClass ≠ [])
    (hlen : el.cfEnt.pkgClass.length ≤ clssiz) :
    OwnLast pkg (mergedClass p.aclass el.cfEnt.pkgClass cf.pkgClass)
      (mergClass el cf A.length).2.cfEnt := by
  rw [mergClass, mergedClass]
  by_cases hclass : cf.pkgClass = el.cfEnt.pkgClass
  · rw [if_pos hclass, if_pos (Or.inl hclass)]
    exact ⟨A, p, hel, hp, rfl⟩
  · by_cases hq : cf.pkgClass = "?".toList
    · rw [if_neg hclass, if_pos hq, if_pos (Or.inr hq)]
      exact ⟨A, p, hel, hp, rfl⟩
    · rw [if_neg hclass, if_neg hq, if_neg (not_or.mpr ⟨hclass, hq⟩)]
      -- the record has the new class when the classes are counted
      have hmod : (el.cfEnt.modifyPinfo A.length fun p =>
          { p with aclass := el.cfEnt.pkgClass }).pinfo =
          A ++ [{ p with aclass := el.cfEnt.pkgClass }] := by
        rw [Cfent.modifyPinfo, hel]
        exact modify_split A [] p _
      have hnew : strlcpy (clssiz + 1) el.cfEnt.pkgClass = el.cfEnt.pkgClass :=
        List.take_of_length_le (by simpa using hlen)
      have hget : (A ++ [{ p with aclass := el.cfEnt.pkgClass }]).getD A.length ⟨nul, [], 0, []⟩ =
          { p with aclass := el.cfEnt.pkgClass } := by
        rw [List.getD_append_right _ _ _ _ (Nat.le_refl _), Nat.sub_self]
        rfl
      unfold chgclass
      dsimp only
      rw [hmod, hget, hnew]
      split
      · refine ⟨_, _, List.map_append, ?_, ?_⟩
        · dsimp only
          rw [if_neg hne, if_pos rfl]
          exact hp
        · dsimp only
          rw [if_neg hne, if_pos rfl, effectiveClass, if_neg (not_not.mpr rfl)]
      · exact ⟨A, { p with aclass := el.cfEnt.pkgClass }, rfl, hp, if_pos hne⟩

theorem mergedClass_eq_iff : mergedClass oldclass newclass entry = newclass ↔
    oldclass = [] ∨ oldclass = newclass ∨ entry ≠ newclass ∧ entry ≠ "?".toList := by
  rw [mergedClass]
  by_cases hentry : entry = newclass ∨ entry = "?".toList
  · rw [if_pos hentry]
    by_cases hold : oldclass = []
    · rw [if_neg (not_not.mpr hold)]
      exact iff_of_true rfl (.inl hold)
    · rw [if_pos hold]
      tauto
  · rw [if_neg hentry]
    rw [not_or] at hentry
    exact iff_of_true rfl (.inr (.inr hentry))

end Own

section Merge
variable {sys : System} {inst : Install} {el el' : Cfextra} {cf : Cfent}

/-- A merge that neither keeps the entry of the database nor leaves the decision for later changes
the records as the merge of the classes does. -/
theorem merg_refs (hign : mergTypechg inst el cf ≠ .ignored)
    (hrep : mergTypechg inst el cf ≠ .replace) (sys : System) (i : Nat) :
    (merg sys inst el cf i).1 ≠ .replace ∧
    ∃ elx cfx, elx.cfEnt.pinfo = cf.pinfo ∧ elx.cfEnt.pkgClass = el.cfEnt.pkgClass ∧
      cfx.pkgClass = cf.pkgClass ∧
      refs (merg sys inst el cf i).2 = refs (mergClass elx cfx i).2 := by
  unfold merg
  dsimp only
  generalize hstart : (if inst.dbst = instRdy ∧ el.cfEnt.ftype = '?' then
    ({ el with cfEnt := { el.cfEnt with pinfo := cf.pinfo, ftype := cf.ftype } } : Cfextra)
    else { el with cfEnt := { el.cfEnt with pinfo := cf.pinfo } }) = el₀
  have hftype : el₀.cfEnt.ftype = mergFtype inst el.cfEnt cf := by
    rw [← hstart, mergFtype]
    split <;> rfl
  have hpinfo : el₀.cfEnt.pinfo = cf.pinfo := by
    rw [← hstart]
    split <;> rfl
  have hclass : el₀.cfEnt.pkgClass = el.cfEnt.pkgClass := by
    rw [← hstart]
    split <;> rfl
  have htype : (typechg el₀.cfEnt cf el₀.mstat).1 = mergTypechg inst el cf :=
    typechg_ftype hftype rfl _ _
  obtain ⟨hcfclass, -⟩ := typechg_refs el₀.cfEnt cf el₀.mstat
  generalize typechg el₀.cfEnt cf el₀.mstat = t at htype hcfclass ⊢
  obtain ⟨n, cf', mstat⟩ := t
  dsimp only at htype hcfclass ⊢
  have hsteps (changed : Bool) (mstat : Mergstat) (link : Prop) [Decidable link] :
      ∃ elx cfx, elx.cfEnt.pinfo = cf.pinfo ∧ elx.cfEnt.pkgClass = el.cfEnt.pkgClass ∧
        cfx.pkgClass = cf.pkgClass ∧
        refs (mergSteps changed { el₀ with mstat := mstat } ((mergClass · cf' i) :: if link then
          [(mergLink · cf')] else [(mergContent sys · cf'), (mergDevice · cf'), (mergMode · cf'),
            (mergOwner · cf'), (mergGroup · cf')])).2 = refs (mergClass elx cfx i).2 :=
    ⟨{ el₀ with mstat := mstat }, cf', hpinfo, hclass, hcfclass,
      mergSteps_keeps refs _ (mergAttrs_refs sys cf' link) _ _⟩
  rw [← htype] at hign hrep
  cases n with
  | replace => exact absurd rfl hrep
  | ignored => exact absurd rfl hign
  | ok => exact ⟨mergSteps_ne_replace _ _ _, hsteps _ _ _⟩
  | warning => exact ⟨mergSteps_ne_replace _ _ _, hsteps _ _ _⟩

theorem likeStatus_ownLast (hpkg : inst.pkginst.length ≤ pkgsiz)
    (h : OwnLast inst.pkginst c el.cfEnt)
    (hr : likeStatus sys inst ctrl ignore stflag i el = some (changed, el', i')) :
    OwnLast inst.pkginst c el'.cfEnt := by
  refine likeStatus_induct (P := fun x => OwnLast inst.pkginst c x.cfEnt) h ?_ ?_ hr
  · intro s i _ hi
    exact h.eptstat hpkg hi
  · intro x i hx
    exact hx.modify _ fun p => ⟨rfl, rfl⟩

/-- The entry of the database as `do_like_ent` takes it: with the packages of an element that was
loaded before. -/
def dbEntry (el : Cfextra) (cf : Cfent) : Cfent :=
  if el.mstat.preloaded then { cf with pinfo := el.cfEnt.pinfo } else cf

/-- What is written by a merge: the new class is that of the package exactly if `ClassMerges`. -/
theorem mergeLike_ownClass {A : List Pinfo} {p : Pinfo} (hcf : cf.pinfo = A ++ [p])
    (hp : p.pkg = inst.pkginst) (hpkg : inst.pkginst.length ≤ pkgsiz)
    (hne : el.cfEnt.pkgClass ≠ []) (hlen : el.cfEnt.pkgClass.length ≤ clssiz)
    (hconf : ¬ (inst.nocnflct ∧ el.mstat.shared ∧ el.cfEnt.ftype ≠ 'e'))
    (hign : mergTypechg inst el cf ≠ .ignored) (hrep : mergTypechg inst el cf ≠ .replace)
    (hr : mergeLike sys inst v el cf A.length ctrl = some r) :
    ∃ w, r.tmp = (putcvfpfile w v).2 ∧
      OwnLast inst.pkginst (mergedClass p.aclass el.cfEnt.pkgClass cf.pkgClass) w := by
  obtain ⟨hres, elx, cfx, hpinfo, hclass, hcfclass, hrefs⟩ := merg_refs hign hrep sys A.length
  have hown : OwnLast inst.pkginst (mergedClass p.aclass elx.cfEnt.pkgClass cfx.pkgClass)
      (mergClass elx cfx A.length).2.cfEnt :=
    mergClass_ownLast (hpinfo.trans hcf) hp (by rwa [hclass]) (by rwa [hclass])
  rw [hclass, hcfclass] at hown
  unfold mergeLike likeMerg at hr
  simp only [if_neg hconf] at hr
  generalize merg sys inst el cf A.length = mr at hres hrefs hr
  obtain ⟨res, el₁⟩ := mr
  have hown₁ := hown.refs hrefs
  have hown₂ : OwnLast inst.pkginst (mergedClass p.aclass el.cfEnt.pkgClass cf.pkgClass)
      (if el₁.mstat.contchg = false then setChange sys el₁ else el₁).cfEnt := by
    split
    · exact hown₁.refs (setChange_refs sys el₁)
    · exact hown₁
  dsimp only at hr
  obtain ⟨⟨changed, el₂, i⟩, hstat, hr⟩ := Option.bind_eq_some_iff.mp hr
  obtain ⟨w, hout, hr⟩ := Option.bind_eq_some_iff.mp hr
  rw [if_neg hres] at hout
  obtain rfl := Option.some.inj hr
  refine ⟨outputEntry el₂.cfEnt i, output_tmp hout, ?_⟩
  have hown₃ := likeStatus_ownLast hpkg hown₂ hstat
  exact hown₃.modify i fun p => ⟨rfl, rfl⟩

/-- The class of the package in the line that `do_like_ent` writes is that of the new entry exactly
if `ClassMerges`. -/
theorem doLikeEnt_ownClass_iff (hpkg : inst.pkginst.length ≤ pkgsiz)
    (hne : el.cfEnt.pkgClass ≠ []) (hlen : el.cfEnt.pkgClass.length ≤ clssiz)
    (hq : cf.pkgClass ≠ "?".toList) (hn : -2 ^ 15 ≤ cf.npkgs ∧ cf.npkgs < 2 ^ 15)
    (hstays : el.cfEnt.ftype ≠ rmRdy) (hconf : conflicts inst el (dbEntry el cf) = false)
    (hign : mergTypechg inst el cf ≠ .ignored) (hrep : mergTypechg inst el cf ≠ .replace)
    (hr : doLikeEnt sys inst v el cf ctrl = some r) :
    ∃ w, r.tmp = (putcvfpfile w v).2 ∧
      (ownClass inst.pkginst w = some el.cfEnt.pkgClass ↔
        ClassMerges inst.pkginst el.cfEnt.pkgClass (dbEntry el cf)) := by
  have hclass : (dbEntry el cf).pkgClass = cf.pkgClass := by
    rw [dbEntry]
    split <;> rfl
  have hnpkgs : (dbEntry el cf).npkgs = cf.npkgs := by
    rw [dbEntry]
    split <;> rfl
  have hftype : (dbEntry el cf).ftype = cf.ftype := by
    rw [dbEntry]
    split <;> rfl
  obtain ⟨A, p, hps, hi, hp, haclass, hcfclass⟩ :=
    eptstat_dup (e := dbEntry el cf) hpkg (by rw [hnpkgs]; exact hn)
  unfold doLikeEnt at hr
  dsimp only at hr
  rw [show (if el.mstat.preloaded = true then { cf with pinfo := el.cfEnt.pinfo } else cf) =
    dbEntry el cf from rfl] at hr
  obtain ⟨i, hi', hr⟩ := Option.bind_eq_some_iff.mp hr
  obtain rfl : A.length = i := Option.some.inj (hi.symm.trans hi')
  rw [if_neg hstays] at hr
  generalize hel : ({ el with mstat := { el.mstat with
    shared := el.mstat.shared || othersToo (dbEntry el cf) inst.pkginst } } : Cfextra) = el₁ at hr
  have hent : el₁.cfEnt = el.cfEnt := by rw [← hel]
  have hconf₁ : ¬ (inst.nocnflct ∧ el₁.mstat.shared ∧ el₁.cfEnt.ftype ≠ 'e') := by
    rw [← hel]
    simpa [conflicts] using hconf
  have htype : mergTypechg inst el₁ (eptstat (dbEntry el cf) inst.pkginst dupEntry).1 =
      mergTypechg inst el cf := by
    rw [mergTypechg, mergTypechg, hent]
    refine typechg_ftype ?_ ((eptstat_ftype _ _ _).trans hftype) _ _
    dsimp only
    rw [mergFtype, mergFtype, eptstat_ftype, hftype]
  obtain ⟨w, hw, hown⟩ := mergeLike_ownClass hps hp hpkg (by rwa [hent]) (by rwa [hent]) hconf₁
    (by rwa [htype]) (by rwa [htype]) hr
  refine ⟨w, hw, ?_⟩
  rw [hown.ownClass, Option.some_inj, hent, mergedClass_eq_iff, haclass, hcfclass, ClassMerges,
    hnpkgs, hclass]
  refine or_congr_right' fun hold => or_congr_right' fun hnew => ?_
  by_cases hone : cf.npkgs = 1
  · rw [if_pos ⟨hone, hold⟩, if_pos hone]
    exact and_iff_right hnew
  · rw [if_neg fun h => hone h.1, if_neg hone]
    exact and_iff_left hq

end Merge

theorem doLikeEnt_ownClass_iff_new :
    ∃ r w, doLikeEnt bareSystem ⟨nul, "SUNWb".toList, false, false⟩ (vfpAnonymous 96 0 fun _ => nul)
        sampleNew sampleOwned false = some r ∧
      r.tmp = (putcvfpfile w (vfpAnonymous 96 0 fun _ => nul)).2 ∧
      ownClass "SUNWb".toList w = some "app".toList := by
  have hrun : (doLikeEnt bareSystem ⟨nul, "SUNWb".toList, false, false⟩
      (vfpAnonymous 96 0 fun _ => nul) sampleNew sampleOwned false).isSome := by decide +kernel
  obtain ⟨r, hr⟩ := Option.isSome_iff_exists.mp hrun
  obtain ⟨w, hw, hiff⟩ := doLikeEnt_ownClass_iff (by decide) (by decide) (by decide) (by decide)
    (by decide) (by decide) (by decide +kernel) (by decide +kernel) (by decide +kernel) hr
  exact ⟨r, w, hr, hw, hiff.mpr (.inl rfl)⟩

/-- The directory when it belongs to both packages, to the second one with a class of its own. -/
def sampleReclassed : Cfent :=
  { sampleOwned with
    pkgClass := "app".toList
    npkgs := 2
    pinfo := [⟨nul, "SUNWa".toList, 0, []⟩, ⟨nul, "SUNWb".toList, 0, "old".toList⟩] }

/-- The new class is that of the entry, so the old one of the package stays. -/
theorem doLikeEnt_keeps_old_class :
    ∃ r w, doLikeEnt bareSystem ⟨nul, "SUNWb".toList, false, false⟩ (vfpAnonymous 96 0 fun _ => nul)
        sampleNew sampleReclassed false = some r ∧
      r.tmp.text = "/opt d app 0755 root sys SUNWa SUNWb:old\n".toList ∧
      parseLine (initEntry zeroEntry) r.tmp.text.dropLast = some (.ok w) ∧
      sampleNew.cfEnt.pkgClass = "app".toList ∧
      ownClass "SUNWb".toList w = some "old".toList := by
  have hrun : (doLikeEnt bareSystem ⟨nul, "SUNWb".toList, false, false⟩
      (vfpAnonymous 96 0 fun _ => nul) sampleNew sampleReclassed false).any
      (fun r => r.tmp.text = "/opt d app 0755 root sys SUNWa SUNWb:old\n".toList) := by
    decide +kernel
  rw [Option.any_eq_true] at hrun
  obtain ⟨r, hr, htext⟩ := hrun
  have htext := of_decide_eq_true htext
  refine ⟨r, sampleReclassed, hr, htext, ?_, by decide, by decide +kernel⟩
  rw [htext]
  decide +kernel

end Pkgtools
