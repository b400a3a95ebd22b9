import Pkgtools.InstallRoot

namespace Pkgtools
open CLib
set_option autoImplicit true

/-- The static variables that `set_basedirs` and `eval_path` keep. -/
structure PathState where
  root : RootState
  origBasedir : Option Str
  basedir : Option Str
  basedirExists : Bool
  baseSepr : Nat
  relocatable : Bool
  evalValid : Bool
  /-- `orig_offset_rel` and `client_offset`, once they are computed. -/
  offsets : Option (Nat × Nat)

/-- `set_client_basedir`: whether the base directory of the client agrees with the one in the
environment. -/
def setClientBasedir (envClBdir : Option Str) (st : PathState) : Bool :=
  let clientBasedir :=
    if st.root.installRootExists then if st.basedirExists then st.origBasedir else some ['/']
    else if st.basedirExists then st.basedir else none
  envClBdir.getD [] = [] ∨ clientBasedir = none ∨ clientBasedir = envClBdir

/-- The base directory to start from: an absolute package that has none takes `/` if there is an
install root. -/
def startBasedir (reloc : Bool) (found : Option Str) (root : RootState) : Option Str :=
  if reloc then found
  else match found with
    | some b => some b
    | none => if root.installRootExists then some ['/'] else none

/-- `set_basedirs` with the base directory that was found in the admin file, the environment, the
parameters of the package or by asking. It is undefined where a null pointer is read. -/
def setBasedirs (reloc : Bool) (found envClBdir : Option Str) (st : PathState) :
    Option (Nat × PathState) :=
  let st := { st with relocatable := reloc }
  match startBasedir reloc found st.root with
  | none => if reloc then some (1, st) else some (0, { st with evalValid := true })
  | some b =>
    let (basedir, root) := fixpath b st.root
    match basedir with
    | none => none
    | some d =>
      let st := { st with
        root, origBasedir := some b, basedirExists := true, basedir := some d
        baseSepr := if d = ['/'] then 0 else st.baseSepr }
      if setClientBasedir envClBdir st then some (0, { st with evalValid := true })
      else some (1, st)

/-- `fixpath_dup`: the memory of `pathalloc` has been used before, and for the path `/` the root is
copied without the byte that ends it. -/
def fixpathDup (mem path : Str) (st : RootState) : Option Str × RootState :=
  if path = [] then
    if st.installRootExists then (st.installRoot, { st with irAccessed := true }) else (none, st)
  else if st.installRootExists then
    let root := st.installRoot.getD []
    let npath := if path = ['/'] then root ++ (mem.drop root.length).takeWhile (· ≠ nul)
      else trimRoot root ++ path
    (some npath, { st with irAccessed := true })
  else (some path, st)

/-- What the output pointers of `eval_path` point to, if they are set. -/
structure EvalOut where
  server : Option Str
  client : Option Str
  map : Option Str

def noOut : EvalOut := ⟨none, none, none⟩

/-- The offsets of the relative path and of the client's path. -/
def pathOffsets (st : PathState) : Nat × Nat :=
  (if st.basedirExists then (st.basedir.getD []).length + st.baseSepr else 0,
    if st.root.installRootExists then st.root.installRootLen else 0)

/-- `rel_fmt` -/
def relFmt (baseSepr : Nat) (basedir path : Str) : Str :=
  if baseSepr = 0 then basedir ++ path else basedir ++ '/' :: path

/-- `eval_path`, where the caller asks for the map path or not. -/
def evalPath (mem : Str) (wantMap : Bool) (path : Str) (st : PathState) :
    Nat × EvalOut × PathState :=
  let (origOffsetRel, clientOffset) := st.offsets.getD (pathOffsets st)
  let st := { st with offsets := some (origOffsetRel, clientOffset) }
  if st.evalValid then
    if path.head? ≠ some '/' then
      if st.relocatable then
        let server := (relFmt st.baseSepr (st.basedir.getD []) path).take
          (origOffsetRel + path.length)
        (1, ⟨some server, some (server.drop clientOffset),
          if wantMap then some (server.drop origOffsetRel) else none⟩, st)
      -- the return code 0 is overwritten
      else (1, noOut, st)
    else
      let (server, root) := fixpathDup mem path st.root
      -- the pointer to the client's path is never null
      let client := server.map (·.drop clientOffset)
      (1, ⟨server, client, if wantMap then client else none⟩, { st with root })
  else (0, noOut, st)

/-- The root that is in force: none, or one that `set_inst_root` has accepted. -/
def InForce (st : RootState) : Option Str → Prop
  | none => st.installRootExists = false
  | some r => st.Rooted r

/-- The environment stands: a root or none is in force, the base directory is
what `set_basedirs` has made of `base`, and offsets that are cached are its own. -/
structure Established (st : PathState) (root base : Option Str) : Prop where
  inForce : InForce st.root root
  based : st.evalValid → ∀ b, base = some b → st.basedirExists ∧
    ∃ d, (fixpath b st.root).1 = some d ∧ st.basedir = some d ∧
      st.baseSepr = if d = ['/'] then 0 else 1
  baseless : st.evalValid → base = none → st.relocatable = false
  offsets : st.offsets = none ∨ st.offsets = some (pathOffsets st)

def served (root : Option Str) (client : Str) : Str :=
  match root with
  | none => client
  | some r => if r = ['/'] then client else if client = ['/'] then r else r ++ client

/-- The outputs are set and fit each other and the path that was given. -/
def Usable (root : Option Str) (wantMap : Bool) (path : Str) (out : EvalOut) : Prop :=
  ∃ client, out.client = some client ∧ out.server = some (served root client) ∧
    client.head? = some '/' ∧
    (wantMap → ∃ map, out.map = some map ∧ (path.head? ≠ some '/' → map = path))

/-- A root other than `/` that ends in a slash. -/
def Trailing (root : Str) : Prop := root ≠ ['/'] ∧ root.getLast? = some '/'

def GoodBase (root : Option Str) (base : Str) : Prop :=
  base = [] ∨ base = ['/'] ∨ base.head? = some '/' ∧
    ∀ r, root = some r → Trailing r → base[1]? = some '/'

/-- The old contents of the memory behind the root look like an absolute path. -/
def Leftover (mem root : Str) : Prop :=
  let old := (mem.drop root.length).takeWhile (· ≠ nul)
  old.head? = some '/' ∧ old ≠ ['/']

def GoodPath (mem : Str) (root : Option Str) (path : Str) : Prop :=
  ∀ r, root = some r → r ≠ ['/'] →
    if path = ['/'] then Leftover mem r else r.getLast? ≠ some '/'

section Eval
variable {st st' : PathState} {root base : Option Str} {r b d path : Str}

theorem fixpath_irAccessed (path : Str) (st : RootState) (acc : Bool) :
    (fixpath path { st with irAccessed := acc }).1 = (fixpath path st).1 := by
  rw [fixpath, fixpath]
  dsimp only
  split
  · split <;> rfl
  · split <;> rfl

theorem fixpath_root (path : Str) (st : RootState) :
    ∃ acc, (fixpath path st).2 = { st with irAccessed := acc } := by
  rw [fixpath]
  split
  · split
    · exact ⟨true, rfl⟩
    · exact ⟨st.irAccessed, rfl⟩
  · split
    · exact ⟨true, rfl⟩
    · exact ⟨st.irAccessed, rfl⟩

theorem Established.offset (h : Established st root base) :
    st.offsets.getD (pathOffsets st) = pathOffsets st := by
  obtain ho | ho := h.offsets
  · rw [ho]; rfl
  · rw [ho]; rfl

theorem Trailing.eq_concat (h : Trailing r) : r = trimRoot r ++ ['/'] := by
  obtain ⟨s, rfl⟩ := List.getLast?_eq_some_iff.mp h.2
  rw [trimRoot, if_pos h.2, List.dropLast_concat]

theorem length_relFmt (h : sepr = 0 ∨ sepr = 1) (d path : Str) :
    (relFmt sepr d path).length = d.length + sepr + path.length := by
  obtain rfl | rfl := h
  · simp [relFmt]
  · simp [relFmt]
    omega

theorem drop_relFmt (h : sepr = 0 ∨ sepr = 1) (d path : Str) :
    (relFmt sepr d path).drop (d.length + sepr) = path := by
  obtain rfl | rfl := h
  · simp [relFmt]
  · simp [relFmt, List.drop_append]

theorem based_cases (h : st.root.Rooted r) (hd : (fixpath b st.root).1 = some d) :
    (b = [] ∨ b = ['/']) ∧ d = r ∨ b ≠ [] ∧ b ≠ ['/'] ∧ d = trimRoot r ++ b := by
  by_cases hb : b = []
  · subst hb
    rw [fixpath, if_pos rfl, if_pos h.set, h.installed] at hd
    exact .inl ⟨.inl rfl, (Option.some.inj hd).symm⟩
  · rw [fixpath_rooted h hb] at hd
    have hd := Option.some.inj hd
    split at hd
    · rename_i hs
      exact .inl ⟨.inr hs, hd.symm⟩
    · rename_i hs
      exact .inr ⟨hb, hs, hd.symm⟩

theorem head?_relFmt (hd : d ≠ []) (sepr : Nat) (path : Str) :
    (relFmt sepr d path).head? = d.head? := by
  obtain ⟨c, d, rfl⟩ := List.exists_cons_of_ne_nil hd
  rw [relFmt]
  split <;> rfl

/-- Without a root, or under `/`, the base directory has to be absolute. -/
theorem relative_plain (hd : d ≠ []) (hroot : root = none ∨ root = some ['/'])
    (hb : b = [] ∧ d = ['/'] ∨ d = b) (sepr : Nat) (path : Str) :
    (relFmt sepr d path).head? = some '/' ↔ GoodBase root b := by
  rw [head?_relFmt hd, GoodBase]
  obtain ⟨rfl, rfl⟩ | rfl := hb
  · exact iff_of_true rfl (.inl rfl)
  · rw [or_iff_right hd]
    constructor
    · intro h
      refine .inr ⟨h, fun r hr ht => ?_⟩
      obtain hroot | hroot := hroot
      · rw [hroot] at hr
        cases hr
      · rw [hroot] at hr
        exact absurd (Option.some.inj hr).symm ht.1
    · rintro (rfl | h)
      · rfl
      · exact h.1

/-- Under another root the client's path is what is behind the root. -/
theorem relative_rooted (hne : r ≠ ['/']) (hp : path ≠ [])
    (hb : (b = [] ∨ b = ['/']) ∧ d = r ∨ b ≠ [] ∧ b ≠ ['/'] ∧ d = trimRoot r ++ b) :
    (((relFmt 1 d path).drop r.length).head? = some '/' ∧
        served (some r) ((relFmt 1 d path).drop r.length) = relFmt 1 d path) ↔
      GoodBase (some r) b := by
  have hserved {client : Str} (h : client ≠ ['/']) : served (some r) client = r ++ client := by
    rw [served, if_neg hne, if_neg h]
  have hlong (s : Str) : s ++ '/' :: path ≠ ['/'] := by
    intro h
    have hl := congrArg List.length h
    have hpos := List.length_pos_iff.mpr hp
    rw [List.length_append, List.length_cons, List.length_singleton] at hl
    omega
  have hfmt : relFmt 1 d path = d ++ '/' :: path := if_neg (by decide)
  rw [hfmt]
  obtain ⟨hroot, rfl⟩ | ⟨hb₁, hb₂, rfl⟩ := hb
  · have hdrop : (d ++ '/' :: path).drop d.length = '/' :: path := List.drop_left
    rw [hdrop, hserved (show '/' :: path ≠ ['/'] from hlong [])]
    refine iff_of_true ⟨rfl, rfl⟩ ?_
    obtain rfl | rfl := hroot
    · exact .inl rfl
    · exact .inr (.inl rfl)
  · rw [GoodBase, or_iff_right hb₁, or_iff_right hb₂]
    obtain ⟨c, b, rfl⟩ := List.exists_cons_of_ne_nil hb₁
    by_cases ht : Trailing r
    · have hr := ht.eq_concat
      have hdrop : (trimRoot r ++ c :: b ++ '/' :: path).drop r.length = b ++ '/' :: path := by
        have hlen : r.length = (trimRoot r ++ [c]).length := by
          conv_lhs => rw [hr]
          rw [List.length_append, List.length_append]
          rfl
        have hsplit : trimRoot r ++ c :: b ++ '/' :: path =
            (trimRoot r ++ [c]) ++ (b ++ '/' :: path) := by simp
        rw [hlen, hsplit, List.drop_left]
      rw [hdrop, hserved (hlong b)]
      have heq : r ++ (b ++ '/' :: path) = trimRoot r ++ c :: b ++ '/' :: path ↔ c = '/' := by
        conv_lhs => lhs; rw [hr]
        simp [eq_comm]
      rw [heq]
      constructor
      · rintro ⟨hhead, rfl⟩
        refine ⟨rfl, fun r' hr' _ => ?_⟩
        cases b with
        | nil => exact absurd rfl hb₂
        | cons e b => exact hhead
      · rintro ⟨hc, hall⟩
        obtain rfl := Option.some.inj hc
        have hsecond := hall r rfl ht
        cases b with
        | nil => cases hsecond
        | cons e b => exact ⟨hsecond, rfl⟩
    · have htrim : trimRoot r = r := by rw [trimRoot, if_neg fun hl => ht ⟨hne, hl⟩]
      have hdrop : (r ++ c :: b ++ '/' :: path).drop r.length = c :: b ++ '/' :: path := by
        rw [List.append_assoc, List.drop_left]
      rw [htrim, hdrop, hserved (hlong (c :: b)), List.append_assoc]
      constructor
      · rintro ⟨hc, -⟩
        exact ⟨hc, fun r' hr' h => absurd (Option.some.inj hr' ▸ h) ht⟩
      · rintro ⟨hc, -⟩
        exact ⟨hc, rfl⟩

theorem length_trimRoot (h : 1 < r.length) : 0 < (trimRoot r).length := by
  rw [trimRoot]
  split
  · rw [List.length_dropLast]
    omega
  · omega

theorem evalPath_relative (h : Established st root (some b)) (hv : st.evalValid)
    (hr : st.relocatable) (hrel : path.head? ≠ some '/') (hp : path ≠ []) (mem : Str)
    (wantMap : Bool) :
    Usable root wantMap path (evalPath mem wantMap path st).2.1 ↔ GoodBase root b := by
  obtain ⟨hexists, d, hfix, hd, hsepr⟩ := h.based hv b rfl
  have hbit : st.baseSepr = 0 ∨ st.baseSepr = 1 := by
    rw [hsepr]
    split
    · exact .inl rfl
    · exact .inr rfl
  have hbase : (pathOffsets st).1 = d.length + st.baseSepr := by
    rw [pathOffsets, if_pos hexists, hd]
    rfl
  have htake : (relFmt st.baseSepr d path).take (d.length + st.baseSepr + path.length) =
      relFmt st.baseSepr d path := List.take_of_length_le (length_relFmt hbit d path).le
  have hout : (evalPath mem wantMap path st).2.1 = ⟨some (relFmt st.baseSepr d path),
      some ((relFmt st.baseSepr d path).drop (pathOffsets st).2),
      if wantMap then some path else none⟩ := by
    rw [evalPath, h.offset]
    dsimp only
    rw [if_pos hv, if_pos hrel, if_pos hr, hd, hbase, Option.getD_some, htake, drop_relFmt hbit]
  have husable : Usable root wantMap path (evalPath mem wantMap path st).2.1 ↔
      ((relFmt st.baseSepr d path).drop (pathOffsets st).2).head? = some '/' ∧
        served root ((relFmt st.baseSepr d path).drop (pathOffsets st).2) =
          relFmt st.baseSepr d path := by
    rw [hout]
    constructor
    · rintro ⟨client, hclient, hserver, hhead, -⟩
      obtain rfl := Option.some.inj hclient
      exact ⟨hhead, (Option.some.inj hserver).symm⟩
    · rintro ⟨hhead, hserved⟩
      refine ⟨_, rfl, by rw [hserved], hhead, fun hw => ⟨path, ?_, fun _ => rfl⟩⟩
      dsimp only
      rw [if_pos hw]
  rw [husable]
  have hzero (hoff : (pathOffsets st).2 = 0) (hroot : root = none ∨ root = some ['/'])
      (hdn : d ≠ []) (hb : b = [] ∧ d = ['/'] ∨ d = b) :
      (((relFmt st.baseSepr d path).drop (pathOffsets st).2).head? = some '/' ∧
        served root ((relFmt st.baseSepr d path).drop (pathOffsets st).2) =
          relFmt st.baseSepr d path) ↔ GoodBase root b := by
    rw [hoff, List.drop_zero, ← relative_plain hdn hroot hb st.baseSepr path]
    refine and_iff_left ?_
    obtain rfl | rfl := hroot
    · rfl
    · rw [served, if_pos rfl]
  cases root with
  | none =>
    have hno : st.root.installRootExists = false := h.inForce
    have hoff : (pathOffsets st).2 = 0 := by simp [pathOffsets, hno]
    by_cases hb : b = []
    · rw [fixpath, if_pos hb, hno] at hfix
      cases hfix
    · rw [fixpath, if_neg hb, hno] at hfix
      obtain rfl : d = b := (Option.some.inj hfix).symm
      exact hzero hoff (.inl rfl) hb (.inr rfl)
  | some r =>
    have hroot : st.root.Rooted r := h.inForce
    have hoff : (pathOffsets st).2 = st.root.installRootLen := by simp [pathOffsets, hroot.set]
    obtain ⟨rfl, hlen⟩ | ⟨hlen, hlen'⟩ := hroot.cases
    · rw [hlen] at hoff
      obtain ⟨hb, rfl⟩ | ⟨hb, -, rfl⟩ := based_cases hroot hfix
      · refine hzero hoff (.inr rfl) (List.cons_ne_nil _ _) ?_
        exact hb.imp (fun h => ⟨h, rfl⟩) Eq.symm
      · exact hzero hoff (.inr rfl) hb (.inr rfl)
    · have hne : r ≠ ['/'] := by
        rintro rfl
        exact absurd hlen (by decide)
      have hcases := based_cases hroot hfix
      have hone : st.baseSepr = 1 := by
        rw [hsepr, if_neg]
        rintro rfl
        obtain ⟨-, hdr⟩ | ⟨hb, -, hdr⟩ := hcases
        · exact hne hdr.symm
        · have hl := congrArg List.length hdr
          have hpos := List.length_pos_iff.mpr hb
          have htrim := length_trimRoot hlen
          rw [List.length_append, List.length_singleton] at hl
          omega
      rw [hoff, hlen', hone]
      exact relative_rooted hne hp hcases

theorem evalPath_absolute (h : Established st root base) (hv : st.evalValid)
    (hc : Canonical path) (mem : Str) (wantMap : Bool) :
    Usable root wantMap path (evalPath mem wantMap path st).2.1 ↔ GoodPath mem root path := by
  obtain ⟨s, rfl⟩ := hc.exists_cons
  have hout (server : Str) (hs : (fixpathDup mem ('/' :: s) st.root).1 = some server) :
      Usable root wantMap ('/' :: s) (evalPath mem wantMap ('/' :: s) st).2.1 ↔
        (server.drop (pathOffsets st).2).head? = some '/' ∧
          served root (server.drop (pathOffsets st).2) = server := by
    rw [evalPath, h.offset]
    dsimp only
    rw [if_pos hv, if_neg (fun h => h rfl), hs]
    constructor
    · rintro ⟨client, hclient, hserver, hhead, -⟩
      obtain rfl := Option.some.inj hclient
      exact ⟨hhead, (Option.some.inj hserver).symm⟩
    · rintro ⟨hhead, hserved⟩
      refine ⟨_, rfl, by rw [hserved], hhead, fun hw =>
        ⟨server.drop (pathOffsets st).2, ?_, fun h => absurd rfl h⟩⟩
      dsimp only
      rw [if_pos hw]
      rfl
  cases root with
  | none =>
    have hno : st.root.installRootExists = false := h.inForce
    have hoff : (pathOffsets st).2 = 0 := by simp [pathOffsets, hno]
    have hs : (fixpathDup mem ('/' :: s) st.root).1 = some ('/' :: s) := by
      rw [fixpathDup, if_neg (List.cons_ne_nil _ _), hno]
      rfl
    rw [hout _ hs, hoff, List.drop_zero]
    exact iff_of_true ⟨rfl, rfl⟩ fun r hr => absurd hr nofun
  | some r =>
    have hroot : st.root.Rooted r := h.inForce
    have hoff : (pathOffsets st).2 = st.root.installRootLen := by simp [pathOffsets, hroot.set]
    have hs : (fixpathDup mem ('/' :: s) st.root).1 = some (if '/' :: s = ['/'] then
        r ++ (mem.drop r.length).takeWhile (· ≠ nul) else trimRoot r ++ '/' :: s) := by
      rw [fixpathDup, if_neg (List.cons_ne_nil _ _), if_pos hroot.set, hroot.installed]
      rfl
    rw [hout _ hs]
    obtain ⟨rfl, hlen⟩ | ⟨hlen, hlen'⟩ := hroot.cases
    · rw [hoff, hlen, List.drop_zero, served, if_pos rfl]
      refine iff_of_true ⟨?_, rfl⟩ fun r hr hne => absurd (Option.some.inj hr).symm hne
      split
      · rfl
      · rfl
    · have hne : r ≠ ['/'] := by
        rintro rfl
        exact absurd hlen (by decide)
      have hgood : GoodPath mem (some r) ('/' :: s) ↔
          if '/' :: s = ['/'] then Leftover mem r else r.getLast? ≠ some '/' := by
        constructor
        · exact fun hall => hall r rfl hne
        · rintro hcond r' hr' -
          obtain rfl := Option.some.inj hr'
          exact hcond
      rw [hgood, hoff, hlen']
      by_cases hslash : '/' :: s = ['/']
      · rw [if_pos hslash, if_pos hslash, List.drop_left, Leftover]
        refine and_congr_right fun hhead => ?_
        rw [served, if_neg hne]
        split
        · rename_i hold
          rw [hold]
          exact iff_of_false (fun h => by simpa using congrArg List.length h) (fun h => h rfl)
        · rename_i hold
          exact iff_of_true rfl hold
      · rw [if_neg hslash, if_neg hslash]
        by_cases ht : r.getLast? = some '/'
        · have hr := Trailing.eq_concat ⟨hne, ht⟩
          have hdrop : (trimRoot r ++ '/' :: s).drop r.length = s := by
            have hlen : r.length = (trimRoot r ++ ['/']).length := congrArg List.length hr
            rw [hlen, List.append_cons (trimRoot r) '/' s, List.drop_left]
          rw [hdrop]
          refine iff_of_false (fun h => ?_) (fun h => h ht)
          cases s with
          | nil => exact hslash rfl
          | cons c s => exact hc.single_slash (Option.some.inj h.1)
        · have htrim : trimRoot r = r := by rw [trimRoot, if_neg ht]
          rw [htrim, List.drop_left, served, if_neg hne, if_neg hslash]
          exact iff_of_true ⟨rfl, rfl⟩ ht

/-- What `eval_path` returns can be used unless a relative path meets an absolute package, the path
is the root directory under another root, or the root or the base directory is odd. -/
theorem evalPath_usable_iff (h : Established st root base) (hp : path ≠ [])
    (hc : canonize path = path) (mem : Str) (wantMap : Bool) :
    ((evalPath mem wantMap path st).1 = 1 →
        Usable root wantMap path (evalPath mem wantMap path st).2.1) ↔
      (st.evalValid → if path.head? = some '/' then GoodPath mem root path
        else st.relocatable ∧ ∀ b, base = some b → GoodBase root b) := by
  by_cases hv : st.evalValid
  · have hone : (evalPath mem wantMap path st).1 = 1 := by
      rw [evalPath]
      dsimp only
      rw [if_pos hv]
      split
      · split <;> rfl
      · rfl
    rw [imp_iff_right hone, imp_iff_right hv]
    by_cases habs : path.head? = some '/'
    · rw [if_pos habs, evalPath_absolute h hv ⟨habs, hc⟩]
    · rw [if_neg habs]
      by_cases hr : st.relocatable
      · cases base with
        | none => exact absurd hr (by simp [h.baseless hv rfl])
        | some b =>
          rw [evalPath_relative h hv hr habs hp]
          constructor
          · rintro hgood
            exact ⟨hr, fun b' hb' => Option.some.inj hb' ▸ hgood⟩
          · exact fun hall => hall.2 b rfl
      · refine iff_of_false ?_ fun hall => hr hall.1
        rintro ⟨client, hclient, -⟩
        rw [evalPath] at hclient
        dsimp only at hclient
        rw [if_pos hv, if_pos habs, if_neg hr] at hclient
        cases hclient
  · refine iff_of_true (fun hone => ?_) fun hv' => absurd hv' hv
    rw [evalPath] at hone
    dsimp only at hone
    rw [if_neg hv] at hone
    cases hone

theorem InForce.accessed {st : RootState} (h : InForce st root) (acc : Bool) :
    InForce { st with irAccessed := acc } root := by
  cases root with
  | none => exact h
  | some r =>
    have h : st.Rooted r := h
    exact ⟨h.installed, h.set, h.len, h.absolute⟩

theorem established_base (hroot : InForce st.root root) (hfix : fixpath b st.root = (some d, rs))
    (hsepr : st.baseSepr = 1) (hoffsets : st.offsets = none) (valid : Bool) :
    Established { st with
      root := rs, origBasedir := some b, basedirExists := true, basedir := some d
      baseSepr := if d = ['/'] then 0 else st.baseSepr, evalValid := valid } root (some b) := by
  obtain ⟨acc, hacc⟩ := fixpath_root b st.root
  rw [hfix] at hacc
  refine ⟨?_, fun _ b' hb' => ⟨rfl, d, ?_, rfl, ?_⟩, fun _ h => absurd h nofun, .inl hoffsets⟩
  · rw [show rs = _ from hacc]
    exact hroot.accessed acc
  · obtain rfl := Option.some.inj hb'
    rw [show rs = _ from hacc, fixpath_irAccessed, hfix]
  · rw [hsepr]

/-- What `set_basedirs` leaves is an established environment. -/
theorem setBasedirs_established (hroot : InForce st.root root) (hsepr : st.baseSepr = 1)
    (hvalid : st.evalValid = false) (hoffsets : st.offsets = none)
    (h : setBasedirs reloc found envClBdir st = some (n, st')) :
    Established st' root (startBasedir reloc found st.root) := by
  unfold setBasedirs at h
  dsimp only at h
  generalize startBasedir reloc found st.root = base at h ⊢
  cases base with
  | none =>
    dsimp only at h
    split at h
    · obtain ⟨-, rfl⟩ := Prod.mk.inj (Option.some.inj h)
      exact ⟨hroot, fun hv => absurd hv (by simp [hvalid]), fun hv => absurd hv (by simp [hvalid]),
        .inl hoffsets⟩
    · rename_i hreloc
      obtain ⟨-, rfl⟩ := Prod.mk.inj (Option.some.inj h)
      exact ⟨hroot, fun _ _ => nofun, fun _ _ => Bool.eq_false_iff.mpr hreloc, .inl hoffsets⟩
  | some b =>
    dsimp only at h
    rcases hfix : fixpath b st.root with ⟨_ | d, rs⟩
    · rw [hfix] at h
      cases h
    · have hbase := @established_base { st with relocatable := reloc } root b d rs hroot hfix hsepr
        hoffsets
      rw [hfix] at h
      dsimp only at h hbase
      generalize (if d = ['/'] then 0 else st.baseSepr) = sepr at h hbase
      split at h
      · obtain ⟨-, rfl⟩ := Prod.mk.inj (Option.some.inj h)
        exact hbase true
      · obtain ⟨-, rfl⟩ := Prod.mk.inj (Option.some.inj h)
        exact hbase st.evalValid

end Eval

/-- A package that is installed below `/a`, with the base directory `/opt`. -/
def clientState : PathState :=
  ⟨sampleInstRoot, some "/opt".toList, some "/a/opt".toList, true, 1, true, true, none⟩

theorem clientState_established :
    Established clientState (some "/a".toList) (some "/opt".toList) where
  inForce := ⟨rfl, rfl, rfl, rfl⟩
  based _ b hb := by
    obtain rfl := Option.some.inj hb
    exact ⟨rfl, "/a/opt".toList, by decide, rfl, by decide⟩
  baseless _ h := by cases h
  offsets := .inl rfl

theorem evalPath_usable_iff_client :
    Usable (some "/a".toList) true "bin/ls".toList
      (evalPath [] true "bin/ls".toList clientState).2.1 := by
  refine (evalPath_usable_iff clientState_established (by decide) (by decide) [] true).mpr
    (fun _ => ?_) (by decide)
  rw [if_neg (by decide)]
  refine ⟨rfl, fun b hb => ?_⟩
  obtain rfl := Option.some.inj hb
  refine .inr (.inr ⟨rfl, fun r hr ht => ?_⟩)
  obtain rfl := Option.some.inj hr
  exact absurd ht.2 (by decide)

/-- A relative path in an absolute package: the function returns 1 and sets nothing. -/
theorem evalPath_sets_nothing :
    ¬ ∀ (st : PathState) (root base : Option Str) (path mem : Str) (wantMap : Bool),
      Established st root base → path ≠ [] → canonize path = path →
        (evalPath mem wantMap path st).1 = 1 →
          Usable root wantMap path (evalPath mem wantMap path st).2.1 := by
  intro h
  obtain ⟨client, hclient, -⟩ := h ⟨freshRoot, none, none, false, 1, false, true, none⟩ none none
    "x".toList [] false
    ⟨rfl, fun _ _ => nofun, fun _ _ => rfl, .inl rfl⟩ (by decide) (by decide)
    (by decide)
  cases hclient

end Pkgtools
