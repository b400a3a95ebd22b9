import Pkgtools.LineParse
import Pkgtools.PlainEntry

namespace Pkgtools
open CLib
set_option autoImplicit true

/-- What the parse of an entry has made of it so far. -/
structure Parsed (path : Option Str) (e : Cfent) : Prop where
  plain : e.Plain
  ftype : isFtype e.ftype
  volno : e.volno = 0
  path : e.path = path

def Yields (T : Str) (P : α → Prop) : Except Fail α → Option Str → Prop
  | .ok a, q => RestOf T q ∧ P a
  | .error _, _ => True

theorem oneLine_of_isFtype (h : isFtype c) : OneLine [c] := by
  constructor
  · rw [List.mem_singleton]
    rintro rfl
    exact absurd h (by decide)
  · rw [List.mem_singleton]
    rintro rfl
    exact absurd h (by decide)

section Yields
variable {T : Str} {P Q : Cfent → Prop} {ept : Cfent}

theorem Yields.bind {P : α → Prop} {Q : β → Prop} {m : Parse (Option Str) Fail α}
    {f : α → Parse (Option Str) Fail β} (hm : Parse.Leaves (RestOf T) m (Yields T P))
    (hf : ∀ a, P a → Parse.Leaves (RestOf T) (f a) (Yields T Q)) :
    Parse.Leaves (RestOf T) (m >>= f) (Yields T Q) := by
  refine Parse.Leaves.bind hm (fun a q hq r q' h => ?_) fun _ _ _ => trivial
  exact hf a hq.2 q hq.1 r q' h

theorem yields_ret {P : α → Prop} {a : α} (h : P a) :
    Parse.Leaves (RestOf T) (pure a) (Yields T P) :=
  Parse.Leaves.ret fun _ hq => ⟨hq, h⟩

theorem yields_failAtEnd {P : α → Prop} (errstr : String) (ept : Cfent) :
    Parse.Leaves (RestOf T) (failAtEnd lineReaders errstr ept : Parse _ Fail α) (Yields T P) := by
  intro q hq r q' h
  obtain ⟨⟨e, rfl⟩, -⟩ := leaves_failAtEnd errstr ept q hq r q' h
  exact trivial

theorem yields_onlyIf {P : α → Prop} {a : α} {p : Prop} [Decidable p]
    {m : α → Parse (Option Str) Fail α} (ha : P a)
    (hm : Parse.Leaves (RestOf T) (m a) (Yields T P)) :
    Parse.Leaves (RestOf T) (Parse.onlyIf p m a) (Yields T P) :=
  Parse.Leaves.ite (fun _ => hm) fun _ => yields_ret ha

theorem yields_numField (base bad : Int) (errstr : String) {store : Int → Cfent → Cfent}
    (hept : Q ept) (hs : ∀ v, Q (store v ept)) :
    Parse.Leaves (RestOf T) (numField lineReaders base bad store errstr ept) (Yields T Q) := by
  refine Parse.Leaves.prim_bind (Q := fun _ => RestOf T) ?_ ?_
  · intro q hq x q' h
    exact lineReaders_getnum hq h
  · rintro ⟨failed, v⟩
    refine Parse.Leaves.ite (fun _ => yields_failAtEnd _ _) fun _ => yields_ret ?_
    cases v with
    | none => exact hept
    | some v => exact hs v

theorem yields_strField (hT : OneLine T) (n : Nat) (errstr : String) {store : Str → Cfent → Cfent}
    (hs : ∀ s, OneLine s → Q (store s ept)) :
    Parse.Leaves (RestOf T) (strField lineReaders n store errstr ept) (Yields T Q) := by
  refine Parse.Leaves.prim_bind
    (Q := fun x q => RestOf T q ∧ ∃ s, x.2 = some s ∧ OneLine s) ?_ ?_
  · intro q hq x q' h
    obtain ⟨L, v, M, rfl, hv, rfl, hM, hsub⟩ := lineReaders_getstr h
    exact ⟨hq.of_sublist hM, v, hv, hT.sublist (hsub.trans (hq L rfl))⟩
  · rintro ⟨c, v⟩ q ⟨hq, s, rfl, hs'⟩
    exact Parse.Leaves.ite (fun _ => yields_failAtEnd _ _)
      (fun _ => yields_ret (hs s hs')) q hq

end Yields

section Parsed
variable {T : Str} {path : Option Str} {ept : Cfent} {P : Cfent → Prop}

/-- Only the owner is not known: the mode is stored over it. -/
def Parsed.ButOwner (path : Option Str) (e : Cfent) : Prop := Parsed path (storeOwner [] e)

theorem Parsed.butOwner (h : Parsed path ept) : Parsed.ButOwner path ept :=
  ⟨⟨h.plain.ftype, h.plain.pkgClass, ⟨h.plain.ainfo.localPath, oneLine_nil, h.plain.ainfo.group⟩,
    h.plain.pinfo⟩, h.ftype, h.volno, h.path⟩

theorem Parsed.ButOwner.storeOwner (h : Parsed.ButOwner path ept) (hs : OneLine s) :
    Parsed path (storeOwner s ept) :=
  ⟨⟨h.plain.ftype, h.plain.pkgClass, ⟨h.plain.ainfo.localPath, hs, h.plain.ainfo.group⟩,
    h.plain.pinfo⟩, h.ftype, h.volno, h.path⟩

theorem Parsed.withLocal (h : Parsed path ept) (l : Str) (hl : OneLine l) :
    Parsed path { ept with ainfo := { ept.ainfo with localPath := some l } } :=
  ⟨⟨h.plain.ftype, h.plain.pkgClass,
    ⟨fun _ he => Option.some.inj he ▸ hl, h.plain.ainfo.owner, h.plain.ainfo.group⟩, h.plain.pinfo⟩,
    h.ftype, h.volno, h.path⟩

theorem Parsed.withType (h : Parsed path ept) (c : Char) (s : Str) (hc : isFtype c)
    (hs : OneLine s) : Parsed path { ept with ftype := c, pkgClass := s } :=
  ⟨⟨oneLine_of_isFtype hc, hs, h.plain.ainfo, h.plain.pinfo⟩, hc, h.volno, h.path⟩

theorem Parsed.withNumbers (h : Parsed path ept) (major minor : Int) (cinfo : Cinfo) :
    Parsed path { ept with
      ainfo := { ept.ainfo with major := major, minor := minor }, cinfo := cinfo } :=
  ⟨⟨h.plain.ftype, h.plain.pkgClass,
    ⟨h.plain.ainfo.localPath, h.plain.ainfo.owner, h.plain.ainfo.group⟩, h.plain.pinfo⟩,
    h.ftype, h.volno, h.path⟩

theorem yields_readLocal (hT : OneLine T) (hlocal : ∀ l, OneLine l →
      P { ept with ainfo := { ept.ainfo with localPath := some l } }) :
    Parse.Leaves (RestOf T) (readLocal lineReaders ept) (Yields T P) :=
  Parse.Leaves.mapError (yields_strField hT _ _ hlocal) _ fun _ _ _ => trivial

theorem yields_readType (hT : OneLine T) (htype : ∀ c s, isFtype c → OneLine s →
      P { ept with ftype := c, pkgClass := s }) :
    Parse.Leaves (RestOf T) (readType lineReaders ept) (Yields T P) := by
  refine Parse.Leaves.prim_bind (Q := fun _ => RestOf T) ?_ fun c => ?_
  · intro q hq c q' h
    exact lineReaders_getcNonspace hq h
  · refine Parse.Leaves.ite (fun hc => ?_) fun _ => ?_
    · exact yields_strField hT _ _ fun s hs => htype c s hc hs
    · refine Parse.Leaves.ite (fun _ => ?_) fun _ => ?_
      · intro q _ r q' h
        rw [Parse.bind_none rfl] at h
        cases h
      · refine Parse.Leaves.ite (fun _ => yields_failAtEnd _ _) fun _ => ?_
        exact Parse.Leaves.ite (fun _ => yields_failAtEnd _ _) fun _ => yields_failAtEnd _ _

theorem yields_readDevice (hdev : ∀ e major minor, P e →
      P { e with ainfo := { e.ainfo with major := major, minor := minor } }) (h : P ept) :
    Parse.Leaves (RestOf T) (readDevice lineReaders ept) (Yields T P) := by
  have hinit := hdev ept (wrap 32 badMajor) (wrap 32 badMinor) h
  refine Yields.bind (yields_numField _ _ _ hinit fun v => hdev ept _ _ h) fun e he => ?_
  exact yields_numField _ _ _ he fun v => hdev e _ _ he

theorem yields_readAttrs (hT : OneLine T) (h : Parsed path ept) :
    Parse.Leaves (RestOf T) (readAttrs lineReaders ept) (Yields T (Parsed path)) := by
  refine Yields.bind (P := Parsed.ButOwner path) (yields_numField _ _ _ h.butOwner fun v => ?_)
    fun e he => ?_
  · exact ⟨⟨h.plain.ftype, h.plain.pkgClass,
      ⟨h.plain.ainfo.localPath, oneLine_nil, h.plain.ainfo.group⟩, h.plain.pinfo⟩, h.ftype, h.volno,
      h.path⟩
  · refine Yields.bind (P := Parsed path) (yields_strField hT _ _ fun s hs => he.storeOwner hs)
      fun e he => ?_
    refine yields_strField hT _ _ fun s hs => ?_
    exact ⟨⟨he.plain.ftype, he.plain.pkgClass,
      ⟨he.plain.ainfo.localPath, he.plain.ainfo.owner, hs⟩, he.plain.pinfo⟩, he.ftype, he.volno,
      he.path⟩

theorem yields_readContent (h : Parsed path ept) :
    Parse.Leaves (RestOf T) (readContent lineReaders ept) (Yields T (Parsed path)) := by
  have hnum {e : Cfent} (he : Parsed path e) (cinfo : Cinfo) :
      Parsed path { e with cinfo := cinfo } := he.withNumbers e.ainfo.major e.ainfo.minor cinfo
  refine Yields.bind (yields_numField _ _ _ h fun v => hnum h _) fun e he => ?_
  refine Yields.bind (yields_numField _ _ _ he fun v => hnum he _) fun e he => ?_
  exact yields_numField _ _ _ he fun v => hnum he _

theorem lineReaders_getc (hq : RestOf T q) (h : lineReaders.getc q = some (c, q')) :
    RestOf T q' := by
  match q with
  | none => cases h
  | some [] =>
    obtain ⟨-, rfl⟩ := Prod.mk.inj (Option.some.inj h)
    exact RestOf.none T
  | some (d :: L) =>
    obtain ⟨-, rfl⟩ := Prod.mk.inj (Option.some.inj h)
    exact hq.of_sublist (List.sublist_cons_self _ _)

theorem newPinfo_plain (h : OneLine s) : (newPinfo s).Plain := by
  have hnul : nul ≠ '\n' := by decide
  unfold newPinfo
  split
  · rename_i c name
    split
    · refine ⟨fun he => h.1 ?_, h.sublist (List.sublist_cons_self _ _), oneLine_nil⟩
      rw [← he]
      exact List.mem_cons_self
    · exact ⟨hnul, h, oneLine_nil⟩
  · exact ⟨hnul, oneLine_nil, oneLine_nil⟩

theorem yields_readPkgSuffix (hT : OneLine T) (hp : p.Plain) (hc : OneLine classname) :
    Parse.Leaves (RestOf T) (readPkgSuffix lineReaders p classname)
      (Yields T fun x => x.2.1.Plain ∧ OneLine x.2.2) := by
  refine Parse.Leaves.prim_bind (Q := fun _ => RestOf T) ?_ fun c => ?_
  · intro q hq c q' h
    exact lineReaders_getc hq h
  · refine Yields.bind (P := fun x => x.2.Plain) (yields_onlyIf hp ?_) fun x hx => ?_
    · refine Parse.Leaves.prim_bind (Q := fun _ => RestOf T) ?_ fun c => ?_
      · intro q hq c q' h
        exact lineReaders_getc hq h
      · exact yields_ret ⟨hp.status, hp.pkg, hp.aclass⟩
    · refine yields_onlyIf ⟨hx, hc⟩ ?_
      refine Parse.Leaves.prim_bind
        (Q := fun y q => RestOf T q ∧ ∃ s, y.2 = some s ∧ OneLine s) ?_ ?_
      · intro q hq x q' h
        obtain ⟨L, v, M, rfl, hv, rfl, hM, hsub⟩ := lineReaders_getstr h
        exact ⟨hq.of_sublist hM, v, hv, hT.sublist (hsub.trans (hq L rfl))⟩
      · rintro ⟨c, v⟩ q ⟨hq, s, rfl, hs⟩
        refine Parse.Leaves.prim_bind (Q := fun _ => RestOf T) ?_ (fun c => ?_) q hq
        · intro q hq c q' h
          exact lineReaders_getc hq h
        · exact yields_ret ⟨⟨hx.status, hx.pkg, hs.sublist (List.take_sublist _ _)⟩, hs⟩

theorem Parsed.addPinfo (h : Parsed path ept) (hp : p.Plain) (n : Int) :
    Parsed path { ept with npkgs := n, pinfo := ept.pinfo ++ [p] } := by
  refine ⟨⟨h.plain.ftype, h.plain.pkgClass, h.plain.ainfo, fun x hx => ?_⟩, h.ftype, h.volno,
    h.path⟩
  rcases List.mem_append.mp hx with hx | hx
  · exact h.plain.pinfo x hx
  · rw [List.mem_singleton.mp hx]
    exact hp

theorem yields_noExtra (p : Bool → Prop) [∀ b, Decidable (p b)] (e : Fail) (h : P ept) :
    Parse.Leaves (RestOf T) (Parse.prim lineReaders.getend >>= fun extra =>
      if p extra then Parse.raise e else pure ept) (Yields T P) := by
  refine Parse.Leaves.prim_bind (Q := fun _ => RestOf T) ?_ fun _ => ?_
  · intro q _ x q' h
    obtain ⟨L, rfl, h⟩ := Option.bind_eq_some_iff.mp h
    rw [← (Prod.mk.inj (Option.some.inj h)).2]
    exact RestOf.none T
  · exact Parse.Leaves.ite (fun _ => Parse.Leaves.raise fun _ _ => trivial) fun _ => yields_ret h

theorem yields_readPackages (hT : OneLine T) (hadd : ∀ e p n, P e → p.Plain →
      P { e with npkgs := n, pinfo := e.pinfo ++ [p] }) (f : Nat) (h : P ept)
    (hc : OneLine classname) :
    Parse.Leaves (RestOf T) (readPackages lineReaders f classname ept) (Yields T P) := by
  induction f generalizing classname ept with
  | zero =>
    intro q _ r q' h
    cases h
  | succ f ih =>
    refine Parse.Leaves.prim_bind
      (Q := fun x q => RestOf T q ∧ ∃ s, x.2 = some s ∧ OneLine s) ?_ ?_
    · intro q hq x q' h
      obtain ⟨L, v, M, rfl, hv, rfl, hM, hsub⟩ := lineReaders_getstr h
      exact ⟨hq.of_sublist hM, v, hv, hT.sublist (hsub.trans (hq L rfl))⟩
    · rintro ⟨c, v⟩ q ⟨hq, s, rfl, hs⟩
      refine Parse.Leaves.ite (fun _ => yields_failAtEnd _ _) (fun _ => ?_) q hq
      refine Parse.Leaves.ite (fun _ => ?_) fun _ => ?_
      · exact yields_noExtra (fun extra => extra ∧ ept.pinfo ≠ []) _ h
      · refine Yields.bind (yields_readPkgSuffix hT (newPinfo_plain hs) hc) ?_
        rintro ⟨c, pinfo, classname⟩ ⟨hp, hc⟩
        have hnext := hadd ept pinfo (wrap 16 (ept.npkgs + 1)) h hp
        refine Parse.Leaves.ite (fun _ => yields_ret hnext) fun _ => ?_
        exact Parse.Leaves.ite (fun _ => yields_failAtEnd _ _) fun _ => ih hnext hc

theorem yields_readEntry (hT : OneLine T) (f : Nat) (c : Char) (h : Parsed path ept) :
    Parse.Leaves (RestOf T) (readEntry lineReaders f [] false c ept) (Yields T (Parsed path)) := by
  refine Yields.bind (yields_onlyIf h (yields_readLocal hT h.withLocal)) fun e he => ?_
  refine Yields.bind (yields_onlyIf he (yields_readType hT he.withType)) fun e he => ?_
  refine Parse.Leaves.ite (fun _ => yields_failAtEnd _ _) fun _ => ?_
  refine Yields.bind (yields_onlyIf he (yields_readDevice (fun e major minor he =>
    he.withNumbers major minor e.cinfo) he)) fun e he => ?_
  refine Yields.bind (yields_onlyIf he (yields_readAttrs hT he)) fun e he => ?_
  refine Yields.bind (yields_onlyIf he (yields_readContent he)) fun e he => ?_
  refine Parse.Leaves.ite (fun _ => ?_) fun _ =>
    yields_readPackages hT (fun e p n he hp => he.addPinfo hp n) f he oneLine_nil
  exact yields_noExtra (fun extra => extra = true) _ he

theorem initEntry_parsed (ept : Cfent) : Parsed none (initEntry ept) := by
  have hclass : OneLine badClass := by decide
  have howner : OneLine badOwner := by decide
  have hgroup : OneLine badGroup := by decide
  have hftype : isFtype '?' := by decide
  refine ⟨⟨oneLine_of_isFtype hftype, hclass, ⟨?_, howner, hgroup⟩, ?_⟩, hftype, rfl, rfl⟩
  · intro l hl
    cases hl
  · intro p hp
    cases hp

/-- The entry that is read from a line has texts that can stand on a line. -/
theorem parseLine_parsed (hL : OneLine L) (hp : L.head? = some '/')
    (h : parseLine (initEntry ept) L = some (.ok e)) :
    Parsed (some (copyPath (linePath L))) e := by
  have hinit := initEntry_parsed ept
  rw [parseLine, if_pos hp] at h
  split at h
  · cases h
  · rename_i c M hM
    obtain ⟨⟨r, q⟩, hr, he⟩ := Option.map_eq_some_iff.mp h
    obtain rfl : r = .ok e := he
    have hsub : List.Sublist M L := (List.sublist_cons_self c M).trans (hM ▸ List.drop_sublist _ _)
    have hstart : Parsed (some (copyPath (linePath L))) (withPath (initEntry ept) L) :=
      ⟨⟨hinit.plain.ftype, hinit.plain.pkgClass, hinit.plain.ainfo, hinit.plain.pinfo⟩, hinit.ftype,
        rfl, rfl⟩
    exact (yields_readEntry (hL.sublist hsub) _ c hstart _ (RestOf.self M) _ _ hr).2

end Parsed

end Pkgtools
