import Pkgtools.MergeClass
import Pkgtools.MergeRuns

namespace Pkgtools
open CLib
set_option autoImplicit true

def Cfent.withDevice (e : Cfent) (dev : Option (Int × Int)) : Cfent :=
  { e with
    ainfo := { e.ainfo with
      major := dev.elim e.ainfo.major Prod.fst
      minor := dev.elim e.ainfo.minor Prod.snd } }

def Redeviced (e e' : Cfent) : Prop := ∃ dev, e' = e.withDevice dev

/-- Two entries that are the same but for device numbers that are not theirs. -/
structure DeviceTwin (e e' : Cfent) : Prop where
  twin : Redeviced e e'
  same : isDevice e.ftype → e' = e

section Parse
variable {e e' : Cfent}

theorem DeviceTwin.refl (e : Cfent) : DeviceTwin e e := ⟨⟨none, rfl⟩, fun _ => rfl⟩

theorem DeviceTwin.ftype (h : DeviceTwin e e') : e'.ftype = e.ftype := by
  obtain ⟨dev, rfl⟩ := h.twin
  rfl

theorem DeviceTwin.store (h : DeviceTwin e e') (f : Cfent → Cfent)
    (hf : ∀ e dev, f (e.withDevice dev) = (f e).withDevice dev)
    (hftype : (f e).ftype = e.ftype) : DeviceTwin (f e) (f e') := by
  obtain ⟨dev, he⟩ := h.twin
  refine ⟨⟨dev, by rw [he, hf]⟩, fun hd => ?_⟩
  rw [hftype] at hd
  rw [h.same hd]

theorem alike_failAtEnd (R : α → β → Prop) (rd : FieldReaders σ) (errstr : String) (e e' : Cfent) :
    Parse.Alike R (failAtEnd rd errstr e) (failAtEnd rd errstr e') :=
  Parse.Alike.prim_bind fun _ => Parse.Alike.raise R _ _

theorem alike_numField {R : Cfent → Cfent → Prop} (rd : FieldReaders σ) (base bad : Int)
    {store : Int → Cfent → Cfent} (errstr : String) (h : R e e')
    (hs : ∀ v, R (store v e) (store v e')) :
    Parse.Alike R (numField rd base bad store errstr e) (numField rd base bad store errstr e') := by
  refine Parse.Alike.prim_bind fun (failed, v) => ?_
  refine Parse.Alike.ite Iff.rfl (fun _ => alike_failAtEnd R rd errstr _ _) fun _ => ?_
  cases v with
  | none => exact Parse.Alike.ret h
  | some v => exact Parse.Alike.ret (hs v)

theorem alike_strField {R : Cfent → Cfent → Prop} (rd : FieldReaders σ) (n : Nat)
    {store : Str → Cfent → Cfent} (errstr : String) (h : R e e')
    (hs : ∀ v, R (store v e) (store v e')) :
    Parse.Alike R (strField rd n store errstr e) (strField rd n store errstr e') := by
  refine Parse.Alike.prim_bind fun (c, v) => ?_
  refine Parse.Alike.ite Iff.rfl (fun _ => alike_failAtEnd R rd errstr _ _) fun _ => ?_
  cases v with
  | none => exact Parse.Alike.ret h
  | some v => exact Parse.Alike.ret (hs v)

theorem alike_readType (rd : FieldReaders σ) (h : Redeviced e e') :
    Parse.Alike Redeviced (readType rd e) (readType rd e') := by
  obtain ⟨dev, rfl⟩ := h
  refine Parse.Alike.prim_bind fun c => ?_
  refine Parse.Alike.ite Iff.rfl (fun _ => ?_) fun _ => ?_
  · exact alike_strField rd _ _ ⟨dev, rfl⟩ fun v => ⟨dev, rfl⟩
  · refine Parse.Alike.ite Iff.rfl (fun _ => ?_) fun _ => ?_
    · exact Parse.Alike.prim_bind fun _ => Parse.Alike.raise _ _ _
    · refine Parse.Alike.ite Iff.rfl (fun _ => alike_failAtEnd _ rd _ _ _) fun _ => ?_
      exact Parse.Alike.ite Iff.rfl (fun _ => alike_failAtEnd _ rd _ _ _)
        fun _ => alike_failAtEnd _ rd _ _ _

theorem alike_readAttrs (rd : FieldReaders σ) (h : DeviceTwin e e') :
    Parse.Alike DeviceTwin (readAttrs rd e) (readAttrs rd e') := by
  refine Parse.Alike.bind (alike_numField rd _ _ _ h fun v => ?_) fun e e' h => ?_
  · exact h.store (storeMode v) (fun _ _ => rfl) rfl
  refine Parse.Alike.bind (alike_strField rd _ _ h fun v => ?_) fun e e' h => ?_
  · exact h.store (storeOwner v) (fun _ _ => rfl) rfl
  refine alike_strField rd _ _ h fun v => ?_
  exact h.store (storeGroup v) (fun _ _ => rfl) rfl

theorem alike_readContent (rd : FieldReaders σ) (h : DeviceTwin e e') :
    Parse.Alike DeviceTwin (readContent rd e) (readContent rd e') := by
  refine Parse.Alike.bind (alike_numField rd _ _ _ h fun v => ?_) fun e e' h => ?_
  · exact h.store (storeSize v) (fun _ _ => rfl) rfl
  refine Parse.Alike.bind (alike_numField rd _ _ _ h fun v => ?_) fun e e' h => ?_
  · exact h.store (storeCksum v) (fun _ _ => rfl) rfl
  refine alike_numField rd _ _ _ h fun v => ?_
  exact h.store (storeModtime v) (fun _ _ => rfl) rfl

theorem DeviceTwin.pinfo (h : DeviceTwin e e') : e'.pinfo = e.pinfo := by
  obtain ⟨dev, rfl⟩ := h.twin
  rfl

theorem alike_noExtra (rd : FieldReaders σ) (p q : Bool → Prop) [∀ b, Decidable (p b)]
    [∀ b, Decidable (q b)] (hpq : ∀ b, p b ↔ q b) (f f' : Fail) (h : DeviceTwin e e') :
    Parse.Alike DeviceTwin
      (Parse.prim rd.getend >>= fun extra => if p extra then Parse.raise f else pure e)
      (Parse.prim rd.getend >>= fun extra => if q extra then Parse.raise f' else pure e') :=
  Parse.Alike.prim_bind fun extra => Parse.Alike.ite (hpq extra)
    (fun _ => Parse.Alike.raise _ _ _) fun _ => Parse.Alike.ret h

theorem alike_readPackages (rd : FieldReaders σ) (f : Nat) (classname : Str) (h : DeviceTwin e e') :
    Parse.Alike DeviceTwin (readPackages rd f classname e) (readPackages rd f classname e') := by
  induction f generalizing classname e e' with
  | zero => exact fun s => .inl ⟨rfl, rfl⟩
  | succ f ih =>
    refine Parse.Alike.prim_bind fun x => ?_
    refine Parse.Alike.ite Iff.rfl (fun _ => alike_failAtEnd _ rd _ _ _) fun _ => ?_
    refine Parse.Alike.ite Iff.rfl (fun _ => ?_) fun _ => ?_
    · exact alike_noExtra rd (fun extra => extra ∧ e.pinfo ≠ []) (fun extra => extra ∧
        e'.pinfo ≠ [])
        (fun extra => by rw [h.pinfo]) _ _ h
    · refine Parse.Alike.bind (Parse.Alike.refl (R := Eq) (fun _ => rfl) _) ?_
      rintro ⟨c, pinfo, classname'⟩ _ rfl
      have hadd := h.store
        (fun e => { e with npkgs := wrap 16 (e.npkgs + 1), pinfo := e.pinfo ++ [pinfo] })
        (fun _ _ => rfl) rfl
      refine Parse.Alike.ite Iff.rfl (fun _ => Parse.Alike.ret hadd) fun _ => ?_
      exact Parse.Alike.ite Iff.rfl (fun _ => alike_failAtEnd _ rd _ _ _) fun _ => ih _ hadd

theorem alike_readFields (rd : FieldReaders σ) (f : Nat) (classname : Str) (h : Redeviced e e') :
    Parse.Alike DeviceTwin (readFields rd f classname e) (readFields rd f classname e') := by
  obtain ⟨dev, rfl⟩ := h
  have hdevice : Parse.Alike DeviceTwin (Parse.onlyIf (isDevice e.ftype) (readDevice rd) e)
      (Parse.onlyIf (isDevice e.ftype) (readDevice rd) (e.withDevice dev)) := by
    refine Parse.Alike.ite Iff.rfl (fun _ => ?_) fun hd => ?_
    · exact Parse.Alike.refl DeviceTwin.refl (readDevice rd e)
    · exact Parse.Alike.ret ⟨⟨dev, rfl⟩, fun h => absurd h hd⟩
  refine Parse.Alike.ite Iff.rfl (fun _ => alike_failAtEnd _ rd _ _ _) fun _ => ?_
  refine Parse.Alike.bind hdevice fun e e' h => ?_
  refine Parse.Alike.bind (R := DeviceTwin) ?_ fun e e' h => ?_
  · exact Parse.Alike.ite (by rw [h.ftype]) (fun _ => alike_readAttrs rd h)
      fun _ => Parse.Alike.ret h
  refine Parse.Alike.bind (R := DeviceTwin) ?_ fun e e' h => ?_
  · exact Parse.Alike.ite (by rw [h.ftype]) (fun _ => alike_readContent rd h)
      fun _ => Parse.Alike.ret h
  refine Parse.Alike.ite (by rw [h.ftype]) (fun _ => ?_) fun _ =>
    alike_readPackages rd f classname h
  exact alike_noExtra rd (fun extra => extra) (fun extra => extra) (fun _ => Iff.rfl) _ _ h

theorem alike_readEntry (rd : FieldReaders σ) (f : Nat) (classname : Str) (c : Char)
    (h : Redeviced e e') :
    Parse.Alike DeviceTwin (readEntry rd f classname false c e)
      (readEntry rd f classname false c e') := by
  refine Parse.Alike.bind (R := Redeviced) ?_ fun e e' h => ?_
  · refine Parse.Alike.ite Iff.rfl (fun _ => ?_) fun _ => Parse.Alike.ret h
    obtain ⟨dev, rfl⟩ := h
    exact (alike_strField rd _ _ ⟨dev, rfl⟩ fun v => ⟨dev, rfl⟩).mapError _ _
  refine Parse.Alike.bind (R := Redeviced) ?_ fun e e' h => alike_readFields rd f classname h
  exact Parse.Alike.ite Iff.rfl (fun _ => alike_readType rd h) fun _ => Parse.Alike.ret h

/-- What the entry of the call before leaves in the one read next. -/
theorem parseLine_deviceTwin (hp : L.head? = some '/')
    (h : parseLine (initEntry ept) L = some (.ok e))
    (h' : parseLine (initEntry ept') L = some (.ok e')) : DeviceTwin e e' := by
  rw [parseLine, if_pos hp] at h h'
  split at h
  · cases h
  · rename_i c M hM
    rw [hM] at h'
    dsimp only at h'
    have hinit : Redeviced (withPath (initEntry ept) L) (withPath (initEntry ept') L) :=
      ⟨some (ept'.ainfo.major, ept'.ainfo.minor), rfl⟩
    obtain ⟨⟨r, q⟩, hr, he⟩ := Option.map_eq_some_iff.mp h
    obtain ⟨⟨r', q'⟩, hr', he'⟩ := Option.map_eq_some_iff.mp h'
    obtain rfl : r = .ok e := he
    obtain rfl : r' = .ok e' := he'
    rcases alike_readEntry lineReaders (L.length + 1) [] c hinit (some M) with
      ⟨hn, -⟩ | ⟨f, f', s', hf, -⟩ | ⟨a, b, s', ha, hb, hab⟩
    · rw [hr] at hn
      cases hn
    · rw [hr] at hf
      cases hf
    · rw [hr] at ha
      rw [hr'] at hb
      obtain rfl := Except.ok.inj (Prod.mk.inj (Option.some.inj ha)).1
      obtain rfl := Except.ok.inj (Prod.mk.inj (Option.some.inj hb)).1
      exact hab

end Parse

/-- An element with other device numbers, and marked or not as inside of a directory that was a
symbolic link. -/
def Cfextra.vary (el : Cfextra) (dev : Option (Int × Int)) (inside : Bool) : Cfextra :=
  { el with
    cfEnt := el.cfEnt.withDevice dev
    mstat := { el.mstat with parentsyml2dir := inside } }

section Vary
variable {el : Cfextra} {cf cf' : Cfent} {dev dev' : Option (Int × Int)} {inside : Bool}

theorem eptstat_withDevice (e : Cfent) (pkg : Str) (c : Char) (dev : Option (Int × Int)) :
    eptstat (e.withDevice dev) pkg c =
      ((eptstat e pkg c).1.withDevice dev, (eptstat e pkg c).2) := by
  rw [eptstat, eptstat]
  split
  · rfl
  · rw [show (e.withDevice dev).pinfo = e.pinfo from rfl]
    cases findPinfo pkg e.pinfo with
    | none =>
      dsimp only
      split
      · rfl
      · rfl
    | some i =>
      dsimp only
      split
      · rfl
      · rfl

theorem cpCfent_vary (cf : Cfent) (el : Cfextra) :
    cpCfent (cf.withDevice dev) (el.vary dev' inside) = (cpCfent cf el).vary dev inside := by
  obtain ⟨⟨volno, ftype, pkgClass, idx, path, ⟨local', mode, owner, group, ma, mi⟩, cinfo, npkgs,
    pinfo⟩, mstat, client, server, clientLocal⟩ := el
  cases local' with
  | none => rfl
  | some l => rfl

def varyStep (dev : Option (Int × Int)) (inside : Bool) (x : Bool × Cfextra) : Bool × Cfextra :=
  (x.1, x.2.vary dev inside)

theorem varyStep_ite (p : Prop) [Decidable p] (x y : Bool × Cfextra) :
    varyStep dev' inside (if p then x else y) =
      if p then varyStep dev' inside x else varyStep dev' inside y :=
  apply_ite (varyStep dev' inside) p x y

theorem chgclass_withDevice (e : Cfent) (i : Nat) (dev : Option (Int × Int)) :
    chgclass (e.withDevice dev) i = (chgclass e i).withDevice dev := by
  have hite (p : Prop) [Decidable p] (x y : Cfent) : (if p then x else y).withDevice dev =
      if p then x.withDevice dev else y.withDevice dev := by
    split <;> rfl
  rw [chgclass, chgclass, hite]
  rfl

theorem mergClass_vary (el : Cfextra) (cf : Cfent) (i : Nat) :
    mergClass (el.vary dev' inside) (cf.withDevice dev) i =
      varyStep dev' inside (mergClass el cf i) := by
  rw [mergClass, mergClass, varyStep_ite, varyStep_ite]
  congr 2
  have hchg := chgclass_withDevice
    { el.cfEnt.modifyPinfo i (fun p => { p with aclass := el.cfEnt.pkgClass }) with
      pkgClass := cf.pkgClass } i dev'
  exact congrArg (fun e => (true, { el.vary none inside with cfEnt := e })) hchg

theorem mergLink_vary (el : Cfextra) (cf : Cfent) :
    mergLink (el.vary dev' inside) (cf.withDevice dev) =
      varyStep dev' inside (mergLink el cf) := by
  rw [mergLink, mergLink]
  dsimp only [Cfextra.vary, Cfent.withDevice]
  split
  · rw [varyStep_ite, varyStep_ite]
    rfl
  · rfl

theorem mergContent_vary (sys : System) (el : Cfextra) (cf : Cfent) :
    mergContent sys (el.vary dev' inside) (cf.withDevice dev) =
      varyStep dev' inside (mergContent sys el cf) := by
  rw [mergContent, mergContent, varyStep_ite, varyStep_ite, varyStep_ite]
  rfl

theorem mergMode_vary (el : Cfextra) (cf : Cfent) :
    mergMode (el.vary dev' inside) (cf.withDevice dev) =
      varyStep dev' inside (mergMode el cf) := by
  unfold mergMode
  dsimp only
  rw [varyStep_ite, varyStep_ite, varyStep_ite]
  rfl

theorem mergOwner_vary (el : Cfextra) (cf : Cfent) :
    mergOwner (el.vary dev' inside) (cf.withDevice dev) =
      varyStep dev' inside (mergOwner el cf) := by
  unfold mergOwner
  dsimp only
  rw [varyStep_ite, varyStep_ite]
  rfl

theorem mergGroup_vary (el : Cfextra) (cf : Cfent) :
    mergGroup (el.vary dev' inside) (cf.withDevice dev) =
      varyStep dev' inside (mergGroup el cf) := by
  unfold mergGroup
  dsimp only
  rw [varyStep_ite, varyStep_ite]
  rfl

theorem mergDevice_vary (hcf : isDevice el.cfEnt.ftype → cf' = cf) :
    mergDevice (el.vary none inside) cf' = varyStep none inside (mergDevice el cf) := by
  rw [mergDevice, mergDevice]
  by_cases hd : isDevice el.cfEnt.ftype
  · rw [hcf hd, if_pos hd]
    exact if_pos hd
  · rw [if_neg hd]
    exact if_neg hd

end Vary

section Merg
variable {sys : System} {inst : Install} {el : Cfextra} {cf cf' : Cfent} {inside : Bool}

theorem mergSteps_true (el : Cfextra) (fs : List (Cfextra → Bool × Cfextra)) :
    mergSteps true el fs = (.different, fs.foldl (fun el f => (f el).2) el) := by
  induction fs generalizing el with
  | nil => rfl
  | cons f fs ih =>
    rw [mergSteps, Bool.true_or, ih]
    rfl

theorem mergSteps_commute {g : Cfextra → Cfextra} {P : Cfextra → Prop}
    {fs fs' : List (Cfextra → Bool × Cfextra)}
    (h : List.Forall₂ (fun f f' => ∀ el, P el → f' (g el) = ((f el).1, g (f el).2) ∧ P (f el).2)
      fs fs') (changed : Bool) (hel : P el) :
    mergSteps changed (g el) fs' =
      ((mergSteps changed el fs).1, g (mergSteps changed el fs).2) := by
  induction h generalizing changed el with
  | nil => rfl
  | cons hf _ ih =>
    obtain ⟨hstep, hnext⟩ := hf el hel
    rw [mergSteps, mergSteps, hstep]
    exact ih _ hnext

/-- What stays of an element while the attributes are merged. -/
def Cfextra.place (el : Cfextra) : Char × Option Str × Str :=
  (el.cfEnt.ftype, el.cfEnt.path, el.serverPath)

theorem mergClass_place (el : Cfextra) (cf : Cfent) (i : Nat) :
    (mergClass el cf i).2.place = el.place := by
  have hchg (e : Cfent) : ((chgclass e i).ftype, (chgclass e i).path) = (e.ftype, e.path) := by
    unfold chgclass
    dsimp only
    split <;> rfl
  unfold mergClass
  split
  · rfl
  · split
    · rfl
    · exact congrArg (fun x : Char × Option Str => (x.1, x.2, el.serverPath)) (hchg _)

theorem mergLink_place (el : Cfextra) (cf : Cfent) :
    (mergLink el cf).2.place = el.place := by
  unfold mergLink
  split
  · split
    · rfl
    · split <;> rfl
  · rfl

theorem mergContent_place (sys : System) (el : Cfextra) (cf : Cfent) :
    (mergContent sys el cf).2.place = el.place := by
  unfold mergContent
  split
  · rfl
  · split
    · split <;> rfl
    · rfl

theorem mergDevice_place (el : Cfextra) (cf : Cfent) :
    (mergDevice el cf).2.place = el.place := by
  unfold mergDevice
  split <;> rfl

theorem mergMode_place (el : Cfextra) (cf : Cfent) :
    (mergMode el cf).2.place = el.place := by
  unfold mergMode
  dsimp only
  split
  · rfl
  · split
    · rfl
    · split <;> rfl

theorem mergOwner_place (el : Cfextra) (cf : Cfent) :
    (mergOwner el cf).2.place = el.place := by
  unfold mergOwner
  dsimp only
  split
  · rfl
  · split <;> rfl

theorem mergGroup_place (el : Cfextra) (cf : Cfent) :
    (mergGroup el cf).2.place = el.place := by
  unfold mergGroup
  dsimp only
  split
  · rfl
  · split <;> rfl

end Merg

section Typechg
variable {el cf : Cfent}

theorem typechg_vary (el cf : Cfent) (mstat : Mergstat) (dev : Option (Int × Int)) (inside : Bool) :
    typechg el (cf.withDevice dev) { mstat with parentsyml2dir := inside } =
      ((typechg el cf mstat).1, (typechg el cf mstat).2.1.withDevice dev,
        { (typechg el cf mstat).2.2 with parentsyml2dir := inside }) := by
  let g (x : TypeChange × Cfent × Mergstat) : TypeChange × Cfent × Mergstat :=
    (x.1, x.2.1.withDevice dev, { x.2.2 with parentsyml2dir := inside })
  have hite (p : Prop) [Decidable p] (x y : TypeChange × Cfent × Mergstat) :
      g (if p then x else y) = if p then g x else g y := apply_ite g p x y
  change _ = g (typechg el cf mstat)
  unfold typechg
  dsimp only
  rw [hite, hite, hite, hite, hite, hite]
  rfl

theorem typechg_entry (el cf : Cfent) (mstat : Mergstat) :
    ∃ ftype, (typechg el cf mstat).2.1 = { cf with ftype := ftype } := by
  rcases typechg_cases el cf mstat with ⟨_, -, h⟩ | ⟨-, h⟩ | h | h
  · rw [h]
    exact ⟨_, rfl⟩
  · rw [h]
    exact ⟨_, rfl⟩
  · rw [h]
    exact ⟨_, rfl⟩
  · rw [h]
    exact ⟨_, rfl⟩

theorem typechg_ignored (el cf : Cfent) (mstat : Mergstat)
    (h : (typechg el cf mstat).1 = .ignored) : cf.ftype = 'd' := by
  rcases typechg_cases el cf mstat with ⟨_, -, hc⟩ | ⟨hd, -⟩ | hc | hc
  · rw [hc] at h
    cases h
  · exact hd
  · rw [hc] at h
    cases h
  · rw [hc] at h
    cases h

theorem typechg_device (hel : isDevice el.ftype) (hcf : ¬ isDevice cf.ftype) (hany : cf.ftype ≠ '?')
    (hft : isFtype cf.ftype) (mstat : Mergstat) :
    (typechg el cf mstat).1 = .warning ∨ (typechg el cf mstat).1 = .replace := by
  have hgroups : ∀ t ∈ "?fvelspcbdx".toList, ¬ isDevice t → t ≠ '?' →
      objectType t ≠ objectType 'c' ∧ objectType t ≠ objectType 'b' := by decide
  obtain ⟨hc, hb⟩ := hgroups cf.ftype (of_decide_eq_true hft) hcf hany
  have hne : cf.ftype ≠ el.ftype := fun h => hcf (h ▸ hel)
  have htypes : el.ftype = 'c' ∨ el.ftype = 'b' := of_decide_eq_true hel
  have hother : el.ftype ≠ '?' ∧ el.ftype ≠ 'x' ∧ objectType cf.ftype ≠ objectType el.ftype := by
    rcases htypes with h | h <;> rw [h]
    · exact ⟨by decide, by decide, hc⟩
    · exact ⟨by decide, by decide, hb⟩
  unfold typechg
  dsimp only
  rw [if_neg hne, if_neg hany, if_neg hother.1, if_neg fun h => hother.2.1 h.1, if_neg hother.2.2]
  split
  · exact .inr rfl
  · exact .inl rfl

end Typechg

section Merg
variable {sys : System} {inst : Install} {el : Cfextra} {cf cf' : Cfent} {inside : Bool} {i : Nat}

def mergAttrs (sys : System) (ftype : Char) (cf : Cfent) (i : Nat) :
    List (Cfextra → Bool × Cfextra) :=
  (mergClass · cf i) :: if isLink ftype then [(mergLink · cf)]
    else [(mergContent sys · cf), (mergDevice · cf), (mergMode · cf), (mergOwner · cf),
      (mergGroup · cf)]

theorem mergAttrs_contchg (sys : System) (ftype : Char) (cf : Cfent) (i : Nat) :
    ∀ f ∈ mergAttrs sys ftype cf i, ∀ el : Cfextra, el.mstat.contchg →
      (f el).2.mstat.contchg := by
  intro f hf el hel
  rw [mergAttrs] at hf
  rcases List.mem_cons.mp hf with rfl | hf
  · unfold mergClass
    dsimp only
    split
    · exact hel
    · split <;> exact hel
  split at hf
  · rw [List.mem_singleton.mp hf]
    unfold mergLink
    dsimp only
    split
    · split
      · exact hel
      · split
        · exact hel
        · rfl
    · exact hel
  · simp only [List.mem_cons, List.not_mem_nil, or_false] at hf
    rcases hf with rfl | rfl | rfl | rfl | rfl
    · unfold mergContent
      dsimp only
      split
      · rfl
      · split
        · split
          · exact hel
          · rfl
        · exact hel
    · unfold mergDevice
      dsimp only
      split
      · dsimp only
        rw [hel, Bool.true_or]
      · exact hel
    · unfold mergMode
      dsimp only
      split
      · exact hel
      · split
        · exact hel
        · split <;> exact hel
    · unfold mergOwner
      dsimp only
      split
      · exact hel
      · split <;> exact hel
    · unfold mergGroup
      dsimp only
      split
      · exact hel
      · split <;> exact hel

theorem foldl_contchg (fs : List (Cfextra → Bool × Cfextra))
    (hfs : ∀ f ∈ fs, ∀ el : Cfextra, el.mstat.contchg → (f el).2.mstat.contchg)
    (hel : el.mstat.contchg) : (fs.foldl (fun el f => (f el).2) el).mstat.contchg := by
  induction fs generalizing el with
  | nil => exact hel
  | cons f fs ih =>
    exact ih (fun g hg => hfs g (List.mem_cons_of_mem _ hg)) (hfs f List.mem_cons_self el hel)

/-- The mark makes no difference to the merge of an element, nor do the numbers of other devices. -/
theorem mergSteps_vary (el : Cfextra) (cf : Cfent) (dev : Option (Int × Int))
    (hcf : isDevice el.cfEnt.ftype → cf.withDevice dev = cf) (sys : System) (changed : Bool)
    (ftype : Char) (i : Nat) (inside : Bool) :
    mergSteps changed (el.vary none inside) (mergAttrs sys ftype (cf.withDevice dev) i) =
      ((mergSteps changed el (mergAttrs sys ftype cf i)).1,
        (mergSteps changed el (mergAttrs sys ftype cf i)).2.vary none inside) := by
  refine mergSteps_commute (g := fun el => el.vary none inside)
    (P := fun el => isDevice el.cfEnt.ftype → cf.withDevice dev = cf) ?_ changed hcf
  have hkeep {x y : Cfextra} (h : y.place = x.place)
      (hx : isDevice x.cfEnt.ftype → cf.withDevice dev = cf) :
      isDevice y.cfEnt.ftype → cf.withDevice dev = cf := by
    have hftype : y.cfEnt.ftype = x.cfEnt.ftype := congrArg Prod.fst h
    rwa [hftype]
  refine .cons (fun x hx => ⟨mergClass_vary x cf i, hkeep (mergClass_place x cf i) hx⟩) ?_
  split
  · exact .cons (fun x hx => ⟨mergLink_vary x cf, hkeep (mergLink_place x cf) hx⟩) .nil
  · refine .cons (fun x hx => ⟨mergContent_vary sys x cf, hkeep (mergContent_place sys x cf) hx⟩) ?_
    refine .cons (fun x hx => ⟨mergDevice_vary hx, hkeep (mergDevice_place x cf) hx⟩) ?_
    refine .cons (fun x hx => ⟨mergMode_vary x cf, hkeep (mergMode_place x cf) hx⟩) ?_
    refine .cons (fun x hx => ⟨mergOwner_vary x cf, hkeep (mergOwner_place x cf) hx⟩) ?_
    exact .cons (fun x hx => ⟨mergGroup_vary x cf, hkeep (mergGroup_place x cf) hx⟩) .nil

end Merg

section Merg
variable {sys : System} {inst : Install} {el : Cfextra} {cf cf' : Cfent} {inside : Bool} {i : Nat}

/-- `merg` after `typechg`. -/
def mergTyped (sys : System) (el : Cfextra) (cf : Cfent) (i : Nat) :
    TypeChange × Cfent × Mergstat → MergResult × Cfextra
  | (.ignored, _, _) => (.same, cpCfent cf el)
  | (.replace, _, mstat) => (.replace, { el with mstat := { mstat with replace := true } })
  | (n, cf', mstat) => mergSteps (cf.ftype != el.cfEnt.ftype)
      { el with mstat := { mstat with contchg := mstat.contchg || n == .warning } }
      (mergAttrs sys el.cfEnt.ftype cf' i)

def Cfextra.withPinfo (el : Cfextra) (pinfo : List Pinfo) : Cfextra :=
  { el with cfEnt := { el.cfEnt with pinfo := pinfo } }

theorem merg_eq (hdbst : inst.dbst = nul) (sys : System) (el : Cfextra) (cf : Cfent) (i : Nat) :
    merg sys inst el cf i = mergTyped sys (el.withPinfo cf.pinfo) cf i
      (typechg (el.withPinfo cf.pinfo).cfEnt cf el.mstat) := by
  have hrdy : ¬ (inst.dbst = instRdy ∧ el.cfEnt.ftype = '?') := by
    rw [hdbst]
    exact fun h => absurd h.1 (by decide)
  unfold merg Cfextra.withPinfo
  dsimp only
  rw [if_neg hrdy]
  dsimp only
  generalize typechg _ cf el.mstat = t
  obtain ⟨n, cf', mstat⟩ := t
  cases n <;> rfl

/-- If the contents change anyway, the numbers of the entry make a difference to the
numbers only. -/
theorem mergDevice_contchg (hc : el.mstat.contchg) (cf : Cfent) (dev : Option (Int × Int))
    (inside : Bool) : ∃ dev', (mergDevice (el.vary none inside) (cf.withDevice dev)).2 =
      (mergDevice el cf).2.vary dev' inside := by
  by_cases hd : isDevice el.cfEnt.ftype
  · let ainfo := (mergDevice (el.vary none inside) (cf.withDevice dev)).2.cfEnt.ainfo
    refine ⟨some (ainfo.major, ainfo.minor), ?_⟩
    have hd' : isDevice (el.vary none inside).cfEnt.ftype := hd
    have hc' : (el.vary none inside).mstat.contchg = true := hc
    simp only [ainfo, mergDevice, if_pos hd, if_pos hd', hc, hc', Bool.true_or]
    rfl
  · have hd' : ¬ isDevice (el.vary none inside).cfEnt.ftype := hd
    rw [mergDevice, mergDevice, if_neg hd, if_neg hd']
    exact ⟨none, rfl⟩

theorem mergSteps_device (el : Cfextra) (hel : isDevice el.cfEnt.ftype) (hc : el.mstat.contchg)
    (hch : changed = true) (sys : System) (cf : Cfent) (dev : Option (Int × Int)) (i : Nat)
    (inside : Bool) :
    ∃ dev', mergSteps changed (el.vary none inside)
        (mergAttrs sys el.cfEnt.ftype (cf.withDevice dev) i) =
      ((mergSteps changed el (mergAttrs sys el.cfEnt.ftype cf i)).1,
        (mergSteps changed el (mergAttrs sys el.cfEnt.ftype cf i)).2.vary dev' inside) ∧
      (mergSteps changed el (mergAttrs sys el.cfEnt.ftype cf i)).2.mstat.contchg := by
  subst hch
  have hlink : ¬ isLink el.cfEnt.ftype := by
    have htypes : el.cfEnt.ftype = 'c' ∨ el.cfEnt.ftype = 'b' := of_decide_eq_true hel
    rcases htypes with h | h <;> rw [h] <;> decide
  have hcont := foldl_contchg _ (mergAttrs_contchg sys el.cfEnt.ftype cf i) hc
  rw [mergSteps_true, mergSteps_true]
  have hattrs (cf : Cfent) : mergAttrs sys el.cfEnt.ftype cf i = [(mergClass · cf i),
      (mergContent sys · cf), (mergDevice · cf), (mergMode · cf), (mergOwner · cf),
      (mergGroup · cf)] := by
    rw [mergAttrs, if_neg hlink]
  rw [hattrs] at hcont
  rw [hattrs, hattrs]
  simp only [List.foldl_cons, List.foldl_nil] at hcont ⊢
  rw [mergClass_vary]
  dsimp only [varyStep]
  rw [mergContent_vary]
  dsimp only [varyStep]
  have hc₁ := mergAttrs_contchg sys el.cfEnt.ftype cf i (mergClass · cf i)
    (List.mem_cons_self) el hc
  have hc₂ := mergAttrs_contchg sys el.cfEnt.ftype cf i (mergContent sys · cf)
    (by rw [hattrs]; simp) _ hc₁
  obtain ⟨dev', hdev⟩ := mergDevice_contchg hc₂ cf dev inside
  refine ⟨dev', ?_, hcont⟩
  rw [hdev, mergMode_vary]
  dsimp only [varyStep]
  rw [mergOwner_vary]
  dsimp only [varyStep]
  rw [mergGroup_vary]
  rfl

theorem cpCfent_ftype (cf : Cfent) (el : Cfextra) : (cpCfent cf el).cfEnt.ftype = cf.ftype := by
  unfold cpCfent
  dsimp only
  split <;> rfl

/-- How `merg` goes for a marked element and an entry with the device numbers of another. -/
theorem merg_vary (hdbst : inst.dbst = nul) (hcf : DeviceTwin cf cf') (hft : isFtype cf.ftype)
    (hd : isDevice el.cfEnt.ftype → cf.ftype ≠ '?') (sys : System) (i : Nat) (inside : Bool) :
    ∃ dev, merg sys inst (el.vary none inside) cf' i =
        ((merg sys inst el cf i).1, (merg sys inst el cf i).2.vary dev inside) ∧
      (dev = none ∨ (merg sys inst el cf i).2.mstat.contchg ∨
        (merg sys inst el cf i).2.cfEnt.ftype = 'd') := by
  obtain ⟨dev, rfl⟩ := hcf.twin
  have htype := typechg_vary (el.withPinfo cf.pinfo).cfEnt cf el.mstat dev inside
  have hvary : merg sys inst (el.vary none inside) (cf.withDevice dev) i =
      mergTyped sys ((el.withPinfo cf.pinfo).vary none inside) (cf.withDevice dev) i
        (typechg (el.withPinfo cf.pinfo).cfEnt (cf.withDevice dev)
          { el.mstat with parentsyml2dir := inside }) := merg_eq hdbst _ _ _ _
  obtain ⟨ftype, hentry⟩ := typechg_entry (el.withPinfo cf.pinfo).cfEnt cf el.mstat
  have hign := typechg_ignored (el.withPinfo cf.pinfo).cfEnt cf el.mstat
  have hdevice (hel : isDevice (el.withPinfo cf.pinfo).cfEnt.ftype) (hcf : ¬ isDevice cf.ftype) :=
    typechg_device hel hcf (hd hel) hft el.mstat
  rw [hvary, merg_eq hdbst, htype]
  have hel : (el.withPinfo cf.pinfo).cfEnt.ftype = el.cfEnt.ftype := rfl
  generalize typechg (el.withPinfo cf.pinfo).cfEnt cf el.mstat = t at hentry hign hdevice ⊢
  generalize el.withPinfo cf.pinfo = el₀ at hentry hdevice hel ⊢
  obtain ⟨n, cf₁, mstat⟩ := t
  dsimp only at hentry hign hdevice ⊢
  have hattrs (c : Bool) (h : isDevice el₀.cfEnt.ftype → cf.withDevice dev = cf) :=
    mergSteps_vary { el₀ with mstat := { mstat with contchg := c } } cf₁ dev
      (by rw [hentry]; exact fun hx => congrArg (fun e : Cfent => { e with ftype := ftype }) (h hx))
      sys (cf.ftype != el₀.cfEnt.ftype) el₀.cfEnt.ftype i inside
  cases n with
  | ignored =>
    refine ⟨dev, Prod.ext rfl (cpCfent_vary cf el₀), .inr (.inr ?_)⟩
    rw [← hign rfl]
    exact cpCfent_ftype cf el₀
  | replace => exact ⟨none, rfl, .inl rfl⟩
  | ok =>
    refine ⟨none, hattrs _ fun hx => ?_, .inl rfl⟩
    by_contra hne
    rcases hdevice hx fun h => hne (hcf.same h) with h | h <;> cases h
  | warning =>
    by_cases hown : isDevice el₀.cfEnt.ftype → cf.withDevice dev = cf
    · exact ⟨none, hattrs _ hown, .inl rfl⟩
    · obtain ⟨hx, hne⟩ := Classical.not_imp.mp hown
      have hother : cf.ftype ≠ el₀.cfEnt.ftype := fun h => hne (hcf.same (h ▸ hx))
      obtain ⟨dev', hsteps, hcont⟩ := mergSteps_device
        { el₀ with mstat := { mstat with contchg := mstat.contchg || true } } hx
        (Bool.or_true _) (bne_iff_ne.mpr hother) sys cf₁ dev i inside
      exact ⟨dev', hsteps, .inr (.inl hcont)⟩

end Merg

section Like
variable {sys : System} {inst : Install} {el : Cfextra} {cf cf' : Cfent} {inside : Bool} {i : Nat}

theorem setChange_vary (sys : System) (el : Cfextra) (inside : Bool) :
    setChange sys (el.vary none inside) = (setChange sys el).vary none inside := by
  have hav (x : Cfextra) : (x.vary none inside).averify sys =
      ((x.averify sys).1, (x.averify sys).2.vary none inside) := rfl
  have hcv : (el.vary none inside).cverify sys =
      ((el.cverify sys).1, (el.cverify sys).2.vary none inside) := rfl
  have hite (p : Prop) [Decidable p] (x y : Cfextra) : (if p then x else y).vary none inside =
      if p then x.vary none inside else y.vary none inside := by
    split <;> rfl
  unfold setChange
  rw [hcv, hav]
  dsimp only
  rw [hav]
  simp only [hite]
  rfl

theorem averify_dir (sys : System) (path : Str) (e : Cfent) (dev : Option (Int × Int)) :
    averify sys 'd' path (e.withDevice dev).ainfo =
      ((averify sys 'd' path e.ainfo).1, (averify sys 'd' path e.ainfo).2.1,
        ({ e with ainfo := (averify sys 'd' path e.ainfo).2.2 }.withDevice dev).ainfo) := by
  have hattrs (status : Stat) :
      verifyAttrs sys ('d' = '?') path 'd' status (e.withDevice dev).ainfo =
      ((verifyAttrs sys ('d' = '?') path 'd' status e.ainfo).1,
        ({ e with ainfo := (verifyAttrs sys ('d' = '?') path 'd' status e.ainfo).2 }.withDevice
          dev).ainfo) := by
    have hdev : isDevice 'd' = false := rfl
    simp only [verifyAttrs, hdev, Bool.false_eq_true, false_and, if_false]
    rfl
  unfold averify
  split
  · rfl
  · rw [if_neg (show ¬ 'd' = 'l' by decide), if_neg (show ¬ 'd' = 'l' by decide)]
    split
    · rfl
    · rename_i status _
      split
      · rfl
      · rename_i myftype _
        by_cases hmy : myftype = 'd'
        · subst hmy
          exact congrArg (fun x => (x.1, 'd', x.2)) (hattrs status)
        · have hother : ¬ 'd' = '?' ∧
            ¬ ('d' = myftype ∨ myftype = 'f' ∧ 'd' ∈ nul :: "ilev".toList ∨
              myftype = 'd' ∧ 'd' = 'x') := by
            refine ⟨by decide, ?_⟩
            rintro (h | h | h)
            · exact hmy h.symm
            · exact absurd h.2 (by decide)
            · exact hmy h.1
          dsimp only
          rw [if_pos hother, if_pos hother]

theorem setChange_dir (hdir : el.cfEnt.ftype = 'd') (sys : System) (dev : Option (Int × Int)) :
    setChange sys (el.vary dev inside) = (setChange sys el).vary dev inside := by
  have hite (p : Prop) [Decidable p] (x y : Cfextra) : (if p then x else y).vary dev inside =
      if p then x.vary dev inside else y.vary dev inside := by
    split <;> rfl
  have hav : (el.vary dev inside).averify sys =
      ((el.averify sys).1, (el.averify sys).2.vary dev inside) := by
    have h := averify_dir sys el.serverPath el.cfEnt dev
    rw [← hdir] at h
    exact congrArg (fun x : Int × Char × Ainfo => (x.1, { el.vary dev inside with
      cfEnt := { el.cfEnt with ftype := x.2.1, ainfo := x.2.2 } })) h
  have hcont : ¬ hasContent el.cfEnt.ftype := by rw [hdir]; decide
  have hcont' : ¬ hasContent (el.vary dev inside).cfEnt.ftype := hcont
  unfold setChange
  rw [if_neg hcont, if_neg hcont', hav]
  dsimp only
  simp only [hite]
  rfl

end Like

section LikeVary
variable {sys : System} {inst : Install} {el : Cfextra} {cf cf' : Cfent} {inside : Bool} {i : Nat}

theorem likeMerg_vary (hdbst : inst.dbst = nul) (hcf : DeviceTwin cf cf') (hft : isFtype cf.ftype)
    (el : Cfextra) (hd : isDevice el.cfEnt.ftype → cf.ftype ≠ '?') (sys : System) (i : Nat)
    (inside : Bool) :
    ∃ dev, likeMerg sys inst (el.vary none inside) cf' i =
      ((likeMerg sys inst el cf i).1, (likeMerg sys inst el cf i).2.1,
        (likeMerg sys inst el cf i).2.2.vary dev inside) := by
  by_cases hconf : inst.nocnflct ∧ el.mstat.shared ∧ el.cfEnt.ftype ≠ 'e'
  · obtain ⟨dev, rfl⟩ := hcf.twin
    have hconf' : inst.nocnflct ∧ (el.vary none inside).mstat.shared ∧
        (el.vary none inside).cfEnt.ftype ≠ 'e' := hconf
    rw [likeMerg, likeMerg, if_pos hconf, if_pos hconf', setChange_vary, cpCfent_vary]
    exact ⟨dev, rfl⟩
  · have hconf' : ¬ (inst.nocnflct ∧ (el.vary none inside).mstat.shared ∧
        (el.vary none inside).cfEnt.ftype ≠ 'e') := hconf
    obtain ⟨dev, hmerg, hwhich⟩ := merg_vary hdbst hcf hft hd sys i inside
    rw [likeMerg, likeMerg, if_neg hconf, if_neg hconf', hmerg]
    generalize merg sys inst el cf i = r at hwhich
    obtain ⟨res, el₁⟩ := r
    have hset : (if (el₁.vary dev inside).mstat.contchg = false then
        setChange sys (el₁.vary dev inside) else el₁.vary dev inside) =
        (if el₁.mstat.contchg = false then setChange sys el₁ else el₁).vary dev inside := by
      by_cases hc : el₁.mstat.contchg = false
      · rw [if_pos hc]
        refine (if_pos hc).trans ?_
        rcases hwhich with rfl | hcont | hdir
        · exact setChange_vary sys el₁ inside
        · exact absurd hc (by rw [hcont]; decide)
        · exact setChange_dir hdir sys dev
      · rw [if_neg hc]
        exact if_neg hc
    refine ⟨dev, ?_⟩
    cases res with
    | replace => rfl
    | same => exact congrArg (fun x => (MergResult.same, false, x)) hset
    | different => exact congrArg (fun x => (MergResult.different, false, x)) hset

theorem likeStatus_vary (sys : System) (inst : Install) (ctrl ignore : Bool) (stflag : Char)
    (i : Nat) (el : Cfextra) (dev : Option (Int × Int)) (inside : Bool) :
    likeStatus sys inst ctrl ignore stflag i (el.vary dev inside) =
      (likeStatus sys inst ctrl ignore stflag i el).map fun x =>
        (x.1, x.2.1.vary dev inside, x.2.2) := by
  have hstat (c : Char) : eptstat (el.vary dev inside).cfEnt inst.pkginst c =
      ((eptstat el.cfEnt inst.pkginst c).1.withDevice dev, (eptstat el.cfEnt inst.pkginst c).2) :=
    eptstat_withDevice el.cfEnt inst.pkginst c dev
  unfold likeStatus
  simp only [hstat]
  split
  · cases (eptstat el.cfEnt inst.pkginst entryOk).2 with
    | none => rfl
    | some i =>
      simp only [Option.map_some, Option.bind_eq_bind, Option.bind_some]
      change (if sys.isServed el.serverPath then _ else _) = _
      split <;> rfl
  · change (if ignore = false ∧ el.mstat.contchg then _ else
      if ignore = false ∧ el.mstat.attrchg then _ else
      if ignore = false ∧ el.mstat.shared then _ else if stflag ≠ dupEntry then _ else _) = _
    split
    · rw [Option.map_map]
      rfl
    · split
      · rw [Option.map_map]
        rfl
      · split
        · rw [Option.map_map]
          rfl
        · split
          · rw [Option.map_map]
            rfl
          · rfl

end LikeVary

end Pkgtools
