import Pkgtools.CLib.Lines
import Pkgtools.EntryLine

namespace Pkgtools
open CLib
set_option autoImplicit true

/-- The state on the line `T`: what is left of it, or behind it. -/
def RestOf (T : Str) (q : Option Str) : Prop := ∀ L, q = some L → List.Sublist L T

/-- A field is left on the line, and a failed one behind it. -/
def AfterField (T : Str) : Except Fail α → Option Str → Prop
  | .ok _, q => RestOf T q
  | .error _, q => q = none

theorem RestOf.of_sublist (h : RestOf T (some L)) (hs : List.Sublist M L) : RestOf T (some M) := by
  intro M' hM
  rw [← Option.some.inj hM]
  exact hs.trans (h L rfl)

theorem RestOf.none (T : Str) : RestOf T none := by
  intro L h
  cases h

theorem RestOf.self (T : Str) : RestOf T (some T) := by
  intro L h
  rw [← Option.some.inj h]

theorem sublist_of_dropWhile (h : (L : Str).dropWhile isspace = c :: M) (k : Nat) :
    List.Sublist ((c :: M).drop k) L :=
  (List.drop_sublist k _).trans (h ▸ List.dropWhile_sublist _)

theorem lineReaders_getcNonspace (hq : RestOf T q) (h : lineReaders.getcNonspace q = some (c, q')) :
    RestOf T q' := by
  match q with
  | none => cases h
  | some L =>
    simp only [lineReaders, Option.bind_some] at h
    split at h
    · rename_i c M hL
      obtain ⟨rfl, rfl⟩ := Prod.mk.inj (Option.some.inj h)
      exact hq.of_sublist (sublist_of_dropWhile hL 1)
    · cases h

theorem lineReaders_getnum (hq : RestOf T q) (h : lineReaders.getnum base bad q = some (x, q')) :
    RestOf T q' := by
  match q with
  | none => cases h
  | some L =>
    simp only [lineReaders, Option.bind_some] at h
    split at h
    · cases h
    · rename_i c M hL
      have hsub := sublist_of_dropWhile hL
      split at h
      · obtain ⟨rfl, rfl⟩ := Prod.mk.inj (Option.some.inj h)
        exact hq.of_sublist (hsub 1)
      · split at h
        · obtain ⟨rfl, rfl⟩ := Prod.mk.inj (Option.some.inj h)
          exact hq.of_sublist (hsub 0)
        · obtain ⟨rfl, rfl⟩ := Prod.mk.inj (Option.some.inj h)
          exact hq.of_sublist (hsub _)

theorem lineReaders_getstr (h : lineReaders.getstr n sep q = some (x, q')) :
    ∃ L v M, q = some L ∧ x.2 = some v ∧ q' = some M ∧ List.Sublist M L ∧ List.Sublist v L := by
  match q with
  | none => cases h
  | some L =>
    simp only [lineReaders, Option.bind_some] at h
    split at h
    · cases h
    · rename_i c M hL
      have hsub := sublist_of_dropWhile hL
      have htok : List.Sublist ((c :: M).takeWhile fun c => !sep c) L :=
        (List.takeWhile_sublist _).trans (hsub 0)
      split at h
      · obtain ⟨rfl, rfl⟩ := Prod.mk.inj (Option.some.inj h)
        exact ⟨L, _, _, rfl, rfl, rfl, hsub _, htok⟩
      · obtain ⟨rfl, rfl⟩ := Prod.mk.inj (Option.some.inj h)
        exact ⟨L, _, _, rfl, rfl, rfl, hsub _, (List.take_sublist _ _).trans htok⟩

theorem lineReaders_getstr_restOf (hq : RestOf T q)
    (h : lineReaders.getstr n sep q = some (x, q')) :
    RestOf T q' := by
  obtain ⟨L, v, M, rfl, -, rfl, hs, -⟩ := lineReaders_getstr h
  exact hq.of_sublist hs

section Leaves
variable {T : Str}

theorem leaves_failAtEnd (errstr : String) (ept : Cfent) :
    Parse.Leaves (RestOf T) (failAtEnd lineReaders errstr ept : Parse _ Fail α) fun r q =>
      (∃ e, r = .error e) ∧ q = none := by
  refine Parse.Leaves.prim_bind (Q := fun _ q => q = none) ?_ fun _ => ?_
  · intro q _ x q' h
    obtain ⟨L, rfl, h⟩ := Option.bind_eq_some_iff.mp h
    exact (Prod.mk.inj (Option.some.inj h)).2.symm
  · exact Parse.Leaves.raise fun _ h => ⟨⟨_, rfl⟩, h⟩

theorem leaves_failedField (errstr : String) (ept : Cfent) :
    Parse.Leaves (RestOf T) (failAtEnd lineReaders errstr ept : Parse _ Fail Cfent)
      (AfterField T) := by
  intro q hq r q' h
  obtain ⟨⟨e, rfl⟩, hq'⟩ := leaves_failAtEnd errstr ept q hq r q' h
  exact hq'

theorem leaves_numField (base bad : Int) (store : Int → Cfent → Cfent) (errstr : String)
    (ept : Cfent) :
    Parse.Leaves (RestOf T) (numField lineReaders base bad store errstr ept) (AfterField T) := by
  refine Parse.Leaves.prim_bind (Q := fun _ => RestOf T) ?_ ?_
  · intro q hq x q' h
    exact lineReaders_getnum hq h
  · rintro ⟨failed, v⟩
    exact Parse.Leaves.ite (fun _ => leaves_failedField _ _)
      (fun _ => Parse.Leaves.ret fun _ h => h)

theorem leaves_strField (n : Nat) (store : Str → Cfent → Cfent) (errstr : String) (ept : Cfent) :
    Parse.Leaves (RestOf T) (strField lineReaders n store errstr ept) (AfterField T) := by
  refine Parse.Leaves.prim_bind (Q := fun _ => RestOf T) ?_ ?_
  · intro q hq x q' h
    exact lineReaders_getstr_restOf hq h
  · rintro ⟨c, v⟩
    exact Parse.Leaves.ite (fun _ => leaves_failedField _ _)
      (fun _ => Parse.Leaves.ret fun _ h => h)

theorem leaves_field {p : Prop} [Decidable p] {m : Cfent → Parse (Option Str) Fail Cfent}
    {f : Cfent → Parse (Option Str) Fail Cfent} {ept : Cfent}
    (hm : Parse.Leaves (RestOf T) (m ept) (AfterField T))
    {post : Except Fail Cfent → Option Str → Prop}
    (hf : ∀ ept, Parse.Leaves (RestOf T) (f ept) post) (he : ∀ e, post (.error e) none) :
    Parse.Leaves (RestOf T) (Parse.onlyIf p m ept >>= f) post := by
  refine Parse.Leaves.bind (Q := AfterField T) ?_ hf ?_
  · exact Parse.Leaves.ite (fun _ => hm) fun _ => Parse.Leaves.ret fun _ h => h
  · intro e q hq
    rw [hq]
    exact he e

theorem leaves_readType (ept : Cfent) :
    Parse.Leaves (RestOf T) (readType lineReaders ept) (AfterField T) := by
  refine Parse.Leaves.prim_bind (Q := fun _ => RestOf T) ?_ fun c => ?_
  · intro q hq c q' h
    exact lineReaders_getcNonspace hq h
  · refine Parse.Leaves.ite (fun _ => leaves_strField _ _ _ _) fun _ => ?_
    refine Parse.Leaves.ite (fun _ => ?_) fun _ => ?_
    · -- on a line there is nothing to unread
      intro q _ r q' h
      rw [Parse.bind_none rfl] at h
      cases h
    · refine Parse.Leaves.ite (fun _ => leaves_failedField _ _) fun _ => ?_
      exact Parse.Leaves.ite (fun _ => leaves_failedField _ _) (fun _ => leaves_failedField _ _)

theorem leaves_andThen {m : Parse (Option Str) Fail Cfent}
    {f : Cfent → Parse (Option Str) Fail Cfent} (hm : Parse.Leaves (RestOf T) m (AfterField T))
    (hf : ∀ ept, Parse.Leaves (RestOf T) (f ept) (AfterField T)) :
    Parse.Leaves (RestOf T) (m >>= f) (AfterField T) :=
  hm.bind hf fun _ _ h => h

theorem leaves_readDevice (ept : Cfent) :
    Parse.Leaves (RestOf T) (readDevice lineReaders ept) (AfterField T) :=
  leaves_andThen (leaves_numField _ _ _ _ _) fun _ => leaves_numField _ _ _ _ _

theorem leaves_readAttrs (ept : Cfent) :
    Parse.Leaves (RestOf T) (readAttrs lineReaders ept) (AfterField T) :=
  leaves_andThen (leaves_numField _ _ _ _ _) fun _ =>
    leaves_andThen (leaves_strField _ _ _ _) fun _ => leaves_strField _ _ _ _

theorem leaves_readContent (ept : Cfent) :
    Parse.Leaves (RestOf T) (readContent lineReaders ept) (AfterField T) :=
  leaves_andThen (leaves_numField _ _ _ _ _) fun _ =>
    leaves_andThen (leaves_numField _ _ _ _ _) fun _ => leaves_numField _ _ _ _ _

end Leaves

/-- What is left of the line once the character `c` is read from `L` or behind it. -/
structure ReadFrom (L : Str) (c : Char) (q : Option Str) : Prop where
  shorter : ∀ M, q = some M → List.Sublist M L ∧ M.length < L.length
  ends : OneLine L → c = '\n' ∨ c = nul → q = none
  onLine : c ≠ '\n' → ∃ M, q = some M

theorem getc_some (L : Str) : ∃ c q, lineReaders.getc (some L) = some (c, q) ∧ ReadFrom L c q := by
  cases L with
  | nil =>
    refine ⟨'\n', none, rfl, ?_, fun _ _ => rfl, fun h => absurd rfl h⟩
    intro M hM
    cases hM
  | cons c L =>
    refine ⟨c, some L, rfl, ?_, ?_, fun _ => ⟨L, rfl⟩⟩
    · intro M hM
      rw [← Option.some.inj hM, List.length_cons]
      exact ⟨List.sublist_cons_self _ _, Nat.lt_succ_self _⟩
    · intro h hc
      rcases hc with rfl | rfl
      · exact absurd List.mem_cons_self h.1
      · exact absurd List.mem_cons_self h.2

theorem ReadFrom.of_sublist (h : ReadFrom M c q) (hs : List.Sublist M L) : ReadFrom L c q where
  shorter N hN := by
    obtain ⟨h₁, h₂⟩ := h.shorter N hN
    exact ⟨h₁.trans hs, Nat.lt_of_lt_of_le h₂ hs.length_le⟩
  ends hL := h.ends (OneLine.sublist hL hs)
  onLine := h.onLine

theorem ReadFrom.trans (h : ReadFrom L c (some M)) (h' : ReadFrom M d q) : ReadFrom L d q :=
  h'.of_sublist (h.shorter M rfl).1

theorem ReadFrom.restOf (h : ReadFrom L c q) (hL : List.Sublist L T) : RestOf T q :=
  fun M hM => (h.shorter M hM).1.trans hL

theorem readEditflag_line (pinfo : Pinfo) (h : ReadFrom L c q) : ∃ c' pinfo' q',
    Parse.onlyIf (c = '\\') (readEditflag lineReaders) (c, pinfo) q =
      some (.ok (c', pinfo'), q') ∧ ReadFrom L c' q' := by
  rw [Parse.onlyIf]
  split
  · rename_i hc
    obtain ⟨M, rfl⟩ := h.onLine (by rw [hc]; decide)
    obtain ⟨c', q', hg, hr⟩ := getc_some M
    refine ⟨c', { pinfo with editflag := 1 }, q', ?_, h.trans hr⟩
    rw [readEditflag, Parse.bind_ok (Parse.prim_some hg)]
    rfl
  · exact ⟨c, pinfo, q, rfl, h⟩

theorem readAclass_line (pinfo : Pinfo) (h : ReadFrom L c q) :
    (∀ classname, Parse.onlyIf (c = ':') (readAclass lineReaders) (c, pinfo, classname) q = none) ∨
    ∃ c' pinfo' q', ReadFrom L c' q' ∧ ∀ classname, ∃ classname',
      Parse.onlyIf (c = ':') (readAclass lineReaders) (c, pinfo, classname) q =
        some (.ok (c', pinfo', classname'), q') := by
  by_cases hc : c = ':'
  · simp only [Parse.onlyIf, if_pos hc]
    cases hs : lineReaders.getstr (clssiz + 1) isWordSep q with
    | none =>
      left
      intro classname
      rw [readAclass, Parse.bind_none (Parse.prim_none hs)]
    | some x =>
      right
      obtain ⟨x, q''⟩ := x
      obtain ⟨M, v, M', rfl, hv, rfl, hsub, -⟩ := lineReaders_getstr hs
      obtain ⟨c', q', hg, hr⟩ := getc_some M'
      refine ⟨c', { pinfo with aclass := strlcpy (atrsiz + 1) v }, q',
        h.trans (hr.of_sublist hsub), fun classname => ⟨v, ?_⟩⟩
      rw [readAclass, Parse.bind_ok (Parse.prim_some hs)]
      simp only [hv, Option.getD_some]
      rw [Parse.bind_ok (Parse.prim_some hg)]
      rfl
  · right
    refine ⟨c, pinfo, q, h, fun classname => ⟨classname, ?_⟩⟩
    rw [Parse.onlyIf, if_neg hc]
    rfl

/-- What follows a package name on its line does not depend on the buffer `classname`. -/
theorem readPkgSuffix_line (pinfo : Pinfo) (L : Str) :
    (∀ classname, readPkgSuffix lineReaders pinfo classname (some L) = none) ∨
    ∃ c pinfo' q', ReadFrom L c q' ∧ ∀ classname, ∃ classname',
      readPkgSuffix lineReaders pinfo classname (some L) =
        some (.ok (c, pinfo', classname'), q') := by
  obtain ⟨c, q, hg, hr⟩ := getc_some L
  obtain ⟨c', pinfo', q', he, hr'⟩ := readEditflag_line pinfo hr
  have hrun (classname : Str) : readPkgSuffix lineReaders pinfo classname (some L) =
      Parse.onlyIf (c' = ':') (readAclass lineReaders) (c', pinfo', classname) q' := by
    rw [readPkgSuffix, Parse.bind_ok (Parse.prim_some hg), Parse.bind_ok he]
  simp only [hrun]
  exact readAclass_line pinfo' hr'

theorem readPackages_line (f f' : Nat) (classname classname' : Str) (ept : Cfent) (q : Option Str)
    (hf : ∀ L, q = some L → L.length < f ∧ L.length < f') :
    readPackages lineReaders f classname ept q = readPackages lineReaders f' classname' ept q := by
  have hnone (f : Nat) (classname : Str) (ept : Cfent) :
      readPackages lineReaders f classname ept none = none := by
    cases f with
    | zero => rfl
    | succ f => rfl
  induction f generalizing f' classname classname' ept q with
  | zero =>
    cases q with
    | none => rw [hnone, hnone]
    | some L => exact absurd (hf L rfl).1 (Nat.not_lt_zero _)
  | succ f ih =>
    cases q with
    | none => rw [hnone, hnone]
    | some L =>
      obtain ⟨hf₁, hf₂⟩ := hf L rfl
      obtain ⟨g, rfl⟩ : ∃ g, f' = g + 1 := ⟨f' - 1, by omega⟩
      rw [readPackages, readPackages]
      cases hs : lineReaders.getstr (pkgsiz + 1) isPkgNameSep (some L) with
      | none => rw [Parse.bind_none (Parse.prim_none hs), Parse.bind_none (Parse.prim_none hs)]
      | some x =>
        obtain ⟨x, q'⟩ := x
        obtain ⟨_, v, M, hL, -, rfl, hsub, -⟩ := lineReaders_getstr hs
        obtain rfl := Option.some.inj hL
        have hle := hsub.length_le
        rw [Parse.bind_ok (Parse.prim_some hs), Parse.bind_ok (Parse.prim_some hs)]
        simp only [readPackage]
        split
        · rfl
        · split
          · rfl
          · rcases readPkgSuffix_line (newPinfo (x.2.getD [])) M with hn | ⟨c, pinfo, q'', hr, hrun⟩
            · rw [Parse.bind_none (hn _), Parse.bind_none (hn _)]
            · obtain ⟨_, hc⟩ := hrun classname
              obtain ⟨_, hc'⟩ := hrun classname'
              rw [Parse.bind_ok hc, Parse.bind_ok hc']
              simp only
              split
              · rfl
              · split
                · rfl
                · apply ih
                  intro M' hM'
                  have := (hr.shorter M' hM').2
                  omega

section Leaves
variable {T : Str}

theorem leaves_noExtra (p : Bool → Prop) [∀ b, Decidable (p b)] (e : Fail) (ept : Cfent) :
    Parse.Leaves (RestOf T) (Parse.prim lineReaders.getend >>= fun extra =>
      if p extra then Parse.raise e else pure ept) fun _ q => q = none := by
  refine Parse.Leaves.prim_bind (Q := fun _ q => q = none) ?_ fun _ => ?_
  · intro q _ x q' h
    obtain ⟨L, rfl, h⟩ := Option.bind_eq_some_iff.mp h
    exact (Prod.mk.inj (Option.some.inj h)).2.symm
  · exact Parse.Leaves.ite (fun _ => Parse.Leaves.raise fun _ h => h)
      (fun _ => Parse.Leaves.ret fun _ h => h)

theorem leaves_readPackages (hT : OneLine T) (f : Nat) (classname : Str) (ept : Cfent) :
    Parse.Leaves (RestOf T) (readPackages lineReaders f classname ept) fun _ q => q = none := by
  induction f generalizing classname ept with
  | zero =>
    intro q _ r q' h
    cases h
  | succ f ih =>
    refine Parse.Leaves.prim_bind (Q := fun _ q => ∃ L, q = some L ∧ List.Sublist L T) ?_ ?_
    · intro q hq x q' h
      obtain ⟨L, v, M, rfl, -, rfl, hs, -⟩ := lineReaders_getstr h
      exact ⟨M, rfl, hs.trans (hq L rfl)⟩
    · rintro x q ⟨L, rfl, hL⟩ r q' h
      have hq : RestOf T (some L) := fun M hM => Option.some.inj hM ▸ hL
      rw [readPackage] at h
      split at h
      · exact (leaves_failAtEnd _ _ _ hq _ _ h).2
      · split at h
        · exact leaves_noExtra (fun extra => extra ∧ ept.pinfo ≠ []) _ _ _ hq _ _ h
        · rcases readPkgSuffix_line (newPinfo (x.2.getD [])) L with hn | ⟨c, pinfo, q'', hr, hrun⟩
          · rw [Parse.bind_none (hn _)] at h
            cases h
          · obtain ⟨classname', hc⟩ := hrun classname
            rw [Parse.bind_ok hc] at h
            simp only at h
            split at h
            · rename_i hend
              obtain ⟨-, rfl⟩ := Prod.mk.inj (Option.some.inj h)
              exact hr.ends (OneLine.sublist hT hL) hend
            · split at h
              · exact (leaves_failAtEnd _ _ _ (hr.restOf hL) _ _ h).2
              · exact ih _ _ _ (hr.restOf hL) _ _ h

theorem leaves_readFields (hT : OneLine T) (f : Nat) (classname : Str) (ept : Cfent) :
    Parse.Leaves (RestOf T) (readFields lineReaders f classname ept) fun _ q => q = none := by
  refine Parse.Leaves.ite (fun _ => ?_) fun _ => ?_
  · intro q hq r q' h
    exact (leaves_failAtEnd _ _ q hq r q' h).2
  · refine leaves_field (leaves_readDevice _) (fun ept => ?_) fun _ => rfl
    refine leaves_field (leaves_readAttrs _) (fun ept => ?_) fun _ => rfl
    refine leaves_field (leaves_readContent _) (fun ept => ?_) fun _ => rfl
    refine Parse.Leaves.ite (fun _ => ?_) fun _ => leaves_readPackages hT f classname ept
    exact leaves_noExtra (fun extra => extra = true) _ _

theorem leaves_readLocal (ept : Cfent) :
    Parse.Leaves (RestOf T) (readLocal lineReaders ept) (AfterField T) :=
  (leaves_strField _ _ _ _).mapError (fun e => { e with ept := ept }) fun _ _ h => h

theorem leaves_readEntry (hT : OneLine T) (f : Nat) (classname : Str) (c : Char) (ept : Cfent) :
    Parse.Leaves (RestOf T) (readEntry lineReaders f classname false c ept) fun _ q => q =
      none := by
  refine leaves_field (leaves_readLocal _) (fun ept => ?_) fun _ => rfl
  exact leaves_field (leaves_readType _) (leaves_readFields hT f classname) fun _ => rfl

end Leaves

section Fuel
variable {T : Str} {f f' : Nat} {classname classname' : Str}

theorem field_congr {m : Parse (Option Str) Fail Cfent}
    {g g' : Cfent → Parse (Option Str) Fail Cfent}
    (hm : Parse.Leaves (RestOf T) m (AfterField T))
    (hg : ∀ ept q, RestOf T q → g ept q = g' ept q) (hq : RestOf T q) :
    (m >>= g) q = (m >>= g') q := by
  cases h : m q with
  | none => rw [Parse.bind_none h, Parse.bind_none h]
  | some x =>
    obtain ⟨_ | ept, q'⟩ := x
    · rw [Parse.bind_error h, Parse.bind_error h]
    · rw [Parse.bind_ok h, Parse.bind_ok h]
      exact hg ept q' (hm q hq _ _ h)

theorem leaves_onlyIf {p : Prop} [Decidable p] {m : Cfent → Parse (Option Str) Fail Cfent}
    {ept : Cfent} (hm : Parse.Leaves (RestOf T) (m ept) (AfterField T)) :
    Parse.Leaves (RestOf T) (Parse.onlyIf p m ept) (AfterField T) :=
  Parse.Leaves.ite (fun _ => hm) fun _ => Parse.Leaves.ret fun _ h => h

/-- With more fuel than characters the parse of an entry depends on its line alone. -/
theorem readEntry_line (hf : T.length < f) (hf' : T.length < f') (c : Char) (ept : Cfent)
    (hq : RestOf T q) : readEntry lineReaders f classname false c ept q =
      readEntry lineReaders f' classname' false c ept q := by
  refine field_congr (leaves_onlyIf (leaves_readLocal _)) (fun ept q hq => ?_) hq
  refine field_congr (leaves_onlyIf (leaves_readType _)) (fun ept q hq => ?_) hq
  rw [readFields, readFields]
  split
  · rfl
  · refine field_congr (leaves_onlyIf (leaves_readDevice _)) (fun ept q hq => ?_) hq
    refine field_congr (leaves_onlyIf (leaves_readAttrs _)) (fun ept q hq => ?_) hq
    refine field_congr (leaves_onlyIf (leaves_readContent _)) (fun ept q hq => ?_) hq
    rw [readLast, readLast]
    split
    · rfl
    · apply readPackages_line
      intro L hL
      have := (hq L hL).length_le
      omega

end Fuel

def linePath (L : Str) : Str := L.takeWhile fun c => !isPkgPathSep c

def withPath (ept : Cfent) (L : Str) : Cfent := { ept with path := some (copyPath (linePath L)) }

/-- The parse of a line on its own. It is undefined if a field is looked for behind the end of the
line. -/
def parseLine (ept : Cfent) (L : Str) : Option (Except Fail Cfent) :=
  if L.head? = some '/' then
    match L.drop (linePath L).length with
    | [] => none
    | c :: M =>
      (readEntry lineReaders (L.length + 1) [] false c (withPath ept L) (some M)).map Prod.fst
  else
    let read : Parse (Option Str) Fail Cfent := do
      let ept ← readType lineReaders ept
      failAtEnd lineReaders "unable to read pathname field" ept
    (read (some L)).map Prod.fst

end Pkgtools
