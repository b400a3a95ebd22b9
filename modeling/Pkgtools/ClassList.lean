import Pkgtools.CLib.ArrayShift
import Pkgtools.CLib.Words
import Pkgtools.Entry

namespace Pkgtools
open CLib
set_option autoImplicit true

/-- The levels of verification and the type of path that a class can have. -/
def defaultLevel : Nat := 0
def noVerify : Nat := 1
def quickVerify : Nat := 2
def rel2Cas : Nat := 1

/-- `struct cl_attr`, without the scripts of the class. -/
structure ClAttr where
  name : Str
  srcVerify : Nat
  dstVerify : Nat
  relpath2CAS : Nat
  deriving DecidableEq, Repr

/-- The static variables of one of the scanners of the environment. -/
structure EnvScan where
  noentry : Bool
  paramvalue : Option Str
  deriving DecidableEq, Repr

/-- The loop of `is_in_env`: every occurrence of the name is tried, up to one that white space or
the end of the value follows. -/
def scanClass (name : Str) : Nat → Str → Bool
  | 0, _ => false
  | fuel + 1, s =>
    match strstr s name with
    | none => false
    | some t =>
      if ((t.drop name.length).head?.all isspace) then true
      else if t.tail = [] then false
      else scanClass name fuel t.tail

/-- `is_in_env`; the value is read once. -/
def isInEnv (getenv : Str → Option Str) (name paramname : Str) (sc : EnvScan) : Bool × EnvScan :=
  if name = [] then (false, sc)
  else
    let sc : EnvScan := if sc.noentry = false ∧ sc.paramvalue = none then
        match getenv paramname with
        | none => { sc with noentry := true }
        | some v => { sc with paramvalue := some v }
      else sc
    (!sc.noentry && sc.paramvalue.any fun v => scanClass name (v.length + 1) v, sc)

/-- The level of a class whose name is in the value of the parameter. -/
def envLevel (paramname : String) (level : Nat) (getenv : Str → Option Str) (name : Str)
    (sc : EnvScan) : Nat × EnvScan :=
  let (found, sc) := isInEnv getenv name paramname.toList sc
  (if found then level else defaultLevel, sc)

/-- `s_verify`. -/
def sVerify := envLevel "PKG_SRC_NOVERIFY" noVerify

/-- `d_verify`. -/
def dVerify := envLevel "PKG_DST_QKVERIFY" quickVerify

/-- `s_pathtype`. -/
def sPathtype := envLevel "PKG_CAS_PASSRELATIVE" rel2Cas

structure Scanners where
  src : EnvScan
  dst : EnvScan
  cas : EnvScan
  deriving DecidableEq, Repr

/-- A call of each scanner with `NULL`. -/
def initScanners : Scanners := ⟨⟨false, none⟩, ⟨false, none⟩, ⟨false, none⟩⟩

/-- `new_cl_attr`; undefined if the name does not fit its field. -/
def newClAttr (getenv : Str → Option Str) (name : Str) (sc : Scanners) :
    Option (ClAttr × Scanners) :=
  if clssiz < name.length then none
  else
    let (srcVerify, src) := sVerify getenv name sc.src
    let (dstVerify, dst) := dVerify getenv name sc.dst
    let (relpath2CAS, cas) := sPathtype getenv name sc.cas
    some (⟨name, srcVerify, dstVerify, relpath2CAS⟩, ⟨src, dst, cas⟩)

def newClAttrs (getenv : Str → Option Str) : List Str → Scanners → Option (List ClAttr × Scanners)
  | [], sc => some ([], sc)
  | name :: names, sc => do
    let (cl, sc) ← newClAttr getenv name sc
    let (cls, sc) ← newClAttrs getenv names sc
    some (cl :: cls, sc)

def noneClass : Str := "none".toList

def isDelim (c : Char) : Bool := c == ' ' || c == '\t' || c == '\n'

/-- The variables of `setlist`; `sn` is the index of the first class `none`. -/
structure SetList where
  list : List ClAttr
  n : Nat
  sn : Option Nat
  sc : Scanners

def SetList.add (getenv : Str → Option Str) (pt : Str) (st : SetList) : Option SetList := do
  let sn := if st.sn = none ∧ pt = noneClass then some st.n else st.sn
  let (cl, sc) ← newClAttr getenv pt st.sc
  some ⟨st.list ++ [cl], st.n + 1, sn, sc⟩

/-- The loop of `setlist` over the tokens. Behind a class that was added, one token `none` is passed
over if there was one already; the token behind it is not looked at. -/
def setlistLoop (getenv : Str → Option Str) : List Str → SetList → Option SetList
  | [], st => some st
  | [pt], st => st.add getenv pt
  | pt :: pt' :: pts, st =>
    (st.add getenv pt).bind fun st =>
      if st.sn ≠ none ∧ pt' = noneClass then setlistLoop getenv pts st
      else setlistLoop getenv (pt' :: pts) st

/-- The first class `none` is put in front of the others. -/
def noneToFront (sn : Option Nat) (list : List ClAttr) : List ClAttr :=
  match sn with
  | none => list
  | some sn => if 0 < sn then moveBack list sn 0 else list

/-- `setlist`: the number of classes that is returned, and the list. -/
def setlist (getenv : Str → Option Str) (slist : Str) : Option (Nat × List ClAttr) :=
  (setlistLoop getenv (words isDelim slist) ⟨[], 0, none, initScanners⟩).map fun st =>
    (st.n, noneToFront st.sn st.list)

/-- The second loop of `cl_setl`, with the rounds that are left. -/
def clSetlLoop (nclasses : Nat) : (rounds : Nat) → (i : Nat) → List ClAttr → List ClAttr
  | 0, _, l => l
  | k + 1, i, l =>
    clSetlLoop nclasses k (i + 1)
      (if l[i]?.map ClAttr.name = some noneClass then shiftDown (nclasses - 1 - i) i l else l)

/-- `cl_setl`, for an array: `cl_NClasses` and `cl_Classes`. -/
def clSetl (clLst : List ClAttr) : Nat × List ClAttr :=
  (clLst.length, clSetlLoop clLst.length (clLst.length - 1) 1
    (noneToFront (clLst.findIdx? (·.name = noneClass)) clLst))

section Options

def EndsWord (name s : Str) : Prop :=
  name ≠ [] ∧ ∃ a b, s = a ++ (name ++ b) ∧ AtBreak isspace b

theorem head_all_of_atBreak (h : AtBreak isspace b) : b.head?.all isspace := by
  cases b with
  | nil => rfl
  | cons c b => exact atBreak_cons.mp h

theorem scanClass_ends (h : scanClass name fuel s) : ∃ a b, s = a ++ (name ++ b) ∧
    AtBreak isspace b := by
  induction fuel generalizing s with
  | zero => cases h
  | succ fuel ih =>
    rw [scanClass] at h
    split at h
    · cases h
    · rename_i t ht
      obtain ⟨⟨b, rfl⟩, a, rfl, -⟩ := strstr_eq_some ht
      split at h
      · rename_i hb
        rw [List.drop_left] at hb
        refine ⟨a, b, rfl, ?_⟩
        cases b with
        | nil => exact atBreak_nil _
        | cons c b => exact atBreak_cons.mpr hb
      · split at h
        · cases h
        · obtain ⟨a', b', ht, hb'⟩ := ih h
          refine ⟨a ++ (name ++ b).take 1 ++ a', b', ?_, hb'⟩
          rw [List.append_assoc, List.append_assoc, ← ht, List.append_cancel_left_eq,
            ← List.drop_one, List.take_append_drop]

theorem scanClass_of_ends (hne : name ≠ []) (hfuel : s.length < fuel) (hs : s = a ++ (name ++ b))
    (hb : AtBreak isspace b) : scanClass name fuel s := by
  induction fuel generalizing s a with
  | zero => exact absurd hfuel (Nat.not_lt_zero _)
  | succ fuel ih =>
    rw [scanClass]
    cases ht : strstr s name with
    | none => exact absurd ⟨a, b, by rw [hs, List.append_assoc]⟩ (strstr_eq_none ht)
    | some t =>
      obtain ⟨⟨b', rfl⟩, a', rfl, hfirst⟩ := strstr_eq_some ht
      dsimp only
      split
      · rfl
      · rename_i hnb
        -- the occurrence that counts starts behind this one
        have hlen := hfirst a (name ++ b) hs (List.prefix_append _ _)
        have ha : a'.length ≤ a.length := by
          have := congrArg List.length hs
          simp only [List.length_append] at this hlen
          omega
        obtain ⟨x, rfl⟩ := List.prefix_of_prefix_length_le (List.prefix_append a' (name ++ b'))
          (hs ▸ List.prefix_append a (name ++ b)) ha
        rw [List.append_assoc, List.append_cancel_left_eq] at hs
        cases x with
        | nil =>
          rw [List.nil_append, List.append_cancel_left_eq] at hs
          subst hs
          exact absurd (head_all_of_atBreak (List.drop_left ▸ hb)) hnb
        | cons d x =>
          have htail : (name ++ b').tail = x ++ (name ++ b) := by rw [hs]; rfl
          rw [htail, if_neg (by simp [hne])]
          refine ih ?_ rfl
          have := congrArg List.length hs
          simp only [List.length_append, List.length_cons] at this hfuel ⊢
          omega

theorem scanClass_iff (hne : name ≠ []) (v : Str) :
    scanClass name (v.length + 1) v ↔ EndsWord name v := by
  constructor
  · intro h
    exact ⟨hne, scanClass_ends h⟩
  · rintro ⟨-, a, b, hv, hb⟩
    exact scanClass_of_ends hne (Nat.lt_succ_self _) hv hb

/-- A scanner that has read nothing, or what the environment holds. -/
def EnvScan.Follows (getenv : Str → Option Str) (paramname : Str) (sc : EnvScan) : Prop :=
  sc = ⟨false, none⟩ ∨ sc = ⟨(getenv paramname).isNone, getenv paramname⟩

theorem isInEnv_spec (h : sc.Follows getenv paramname) (name : Str) :
    ((isInEnv getenv name paramname sc).1 ↔ EndsWord name ((getenv paramname).getD [])) ∧
      (isInEnv getenv name paramname sc).2.Follows getenv paramname := by
  rw [isInEnv]
  by_cases hne : name = []
  · rw [if_pos hne]
    exact ⟨⟨nofun, fun he => absurd hne he.1⟩, h⟩
  · rw [if_neg hne]
    have hread : (if sc.noentry = false ∧ sc.paramvalue = none then
        match getenv paramname with
        | none => { sc with noentry := true }
        | some v => { sc with paramvalue := some v }
        else sc) = (⟨(getenv paramname).isNone, getenv paramname⟩ : EnvScan) := by
      rcases h with rfl | rfl <;> cases getenv paramname <;> rfl
    dsimp only
    rw [hread]
    refine ⟨?_, .inr rfl⟩
    cases getenv paramname with
    | none =>
      refine ⟨nofun, ?_⟩
      rintro ⟨-, a, b, hs, -⟩
      rw [Option.getD_none, eq_comm, List.append_eq_nil_iff, List.append_eq_nil_iff] at hs
      exact absurd hs.2.1 hne
    | some v =>
      simp only [Option.isNone_some, Bool.not_false, Bool.true_and, Option.any_some,
        Option.getD_some, scanClass_iff hne]

inductive ClassOption where
  | srcNoverify
  | dstQkverify
  | casPassrelative
  deriving DecidableEq, Repr

def ClassOption.paramname : ClassOption → Str
  | .srcNoverify => "PKG_SRC_NOVERIFY".toList
  | .dstQkverify => "PKG_DST_QKVERIFY".toList
  | .casPassrelative => "PKG_CAS_PASSRELATIVE".toList

def ClassOption.attr (cl : ClAttr) : ClassOption → Nat
  | .srcNoverify => cl.srcVerify
  | .dstQkverify => cl.dstVerify
  | .casPassrelative => cl.relpath2CAS

/-- The value of the option in the environment; it has no words if it is not set. -/
def ClassOption.value (getenv : Str → Option Str) (o : ClassOption) : Str :=
  (getenv o.paramname).getD []

def Scanners.Follows (getenv : Str → Option Str) (sc : Scanners) : Prop :=
  sc.src.Follows getenv ClassOption.srcNoverify.paramname ∧
    sc.dst.Follows getenv ClassOption.dstQkverify.paramname ∧
    sc.cas.Follows getenv ClassOption.casPassrelative.paramname

theorem initScanners_follows (getenv : Str → Option Str) : initScanners.Follows getenv :=
  ⟨.inl rfl, .inl rfl, .inl rfl⟩

theorem envLevel_spec (h : sc.Follows getenv paramname.toList) (hlevel : level ≠ defaultLevel)
    (name : Str) :
    ((envLevel paramname level getenv name sc).1 ≠ defaultLevel ↔
      EndsWord name ((getenv paramname.toList).getD [])) ∧
      (envLevel paramname level getenv name sc).2.Follows getenv paramname.toList := by
  obtain ⟨hfound, hnext⟩ := isInEnv_spec h name
  refine ⟨?_, hnext⟩
  rw [← hfound, envLevel]
  dsimp only
  split
  · rename_i hyes
    exact ⟨fun _ => hyes, fun _ => hlevel⟩
  · rename_i hno
    exact ⟨fun hne => absurd rfl hne, fun hyes => absurd hyes hno⟩

theorem newClAttr_spec (h : sc.Follows getenv) (hnew : newClAttr getenv name sc = some (cl, sc')) :
    cl.name = name ∧ sc'.Follows getenv ∧
      ∀ o : ClassOption, o.attr cl ≠ defaultLevel ↔ EndsWord name (o.value getenv) := by
  rw [newClAttr] at hnew
  split at hnew
  · cases hnew
  · obtain ⟨rfl, rfl⟩ := Prod.mk.inj (Option.some.inj hnew)
    obtain ⟨hsrc, hsrc'⟩ := envLevel_spec h.1 (show noVerify ≠ defaultLevel by decide) name
    obtain ⟨hdst, hdst'⟩ := envLevel_spec h.2.1 (show quickVerify ≠ defaultLevel by decide) name
    obtain ⟨hcas, hcas'⟩ := envLevel_spec h.2.2 (show rel2Cas ≠ defaultLevel by decide) name
    refine ⟨rfl, ⟨hsrc', hdst', hcas'⟩, fun o => ?_⟩
    cases o with
    | srcNoverify => exact hsrc
    | dstQkverify => exact hdst
    | casPassrelative => exact hcas

theorem newClAttrs_spec (h : sc.Follows getenv)
    (hnew : newClAttrs getenv names sc = some (cls, sc')) :
    cls.map ClAttr.name = names ∧ sc'.Follows getenv := by
  induction names generalizing sc cls with
  | nil =>
    obtain ⟨rfl, rfl⟩ := Prod.mk.inj (Option.some.inj hnew)
    exact ⟨rfl, h⟩
  | cons name names ih =>
    rw [newClAttrs, Option.bind_eq_bind, Option.bind_eq_some_iff] at hnew
    obtain ⟨⟨cl, sc₁⟩, hone, hnew⟩ := hnew
    rw [Option.bind_eq_bind, Option.bind_eq_some_iff] at hnew
    obtain ⟨⟨cls', sc₂⟩, hmore, hnew⟩ := hnew
    obtain ⟨rfl, rfl⟩ := Prod.mk.inj (Option.some.inj hnew)
    obtain ⟨hname, h₁, -⟩ := newClAttr_spec h hone
    obtain ⟨hnames, h₂⟩ := ih h₁ hmore
    exact ⟨by rw [List.map_cons, hname, hnames], h₂⟩

/-- An option applies to the classes that are words of its value and to no others, if every class
whose name ends a word of the value is one of its words. -/
theorem newClAttr_option_iff (o : ClassOption)
    (hmade : newClAttrs getenv names initScanners = some (cls, sc))
    (hnew : newClAttr getenv name sc = some (cl, sc')) :
    (o.attr cl ≠ defaultLevel ↔ name ∈ words isspace (o.value getenv)) ↔
      (EndsWord name (o.value getenv) → name ∈ words isspace (o.value getenv)) := by
  obtain ⟨-, hfollows⟩ := newClAttrs_spec (initScanners_follows getenv) hmade
  obtain ⟨-, -, hattr⟩ := newClAttr_spec hfollows hnew
  rw [hattr]
  have hends (h : name ∈ words isspace (o.value getenv)) : EndsWord name (o.value getenv) := by
    obtain ⟨hne, -, a, b, hs, -, hb⟩ := mem_words.mp h
    exact ⟨hne, a, b, by rw [hs, List.append_assoc], hb⟩
  exact ⟨Iff.mp, fun h => ⟨h, hends⟩⟩

def sampleClassEnv (paramname value : String) (name : Str) : Option Str :=
  if name = paramname.toList then some value.toList else none

def sampleScanners : Scanners := ⟨⟨false, some "none build".toList⟩, ⟨true, none⟩, ⟨true, none⟩⟩

/-- The second of two classes that are listed is not verified. -/
theorem newClAttr_option_iff_listed :
    newClAttrs (sampleClassEnv "PKG_SRC_NOVERIFY" "none build") ["none".toList] initScanners =
      some ([⟨"none".toList, noVerify, 0, 0⟩], sampleScanners) ∧
    newClAttr (sampleClassEnv "PKG_SRC_NOVERIFY" "none build") "build".toList sampleScanners =
      some (⟨"build".toList, noVerify, 0, 0⟩, sampleScanners) ∧
    (noVerify ≠ defaultLevel ↔ "build".toList ∈ words isspace "none build".toList) := by
  have hmade : newClAttrs (sampleClassEnv "PKG_SRC_NOVERIFY" "none build") ["none".toList]
    initScanners =
      some ([⟨"none".toList, noVerify, 0, 0⟩], sampleScanners) := by decide +kernel
  have hnew : newClAttr (sampleClassEnv "PKG_SRC_NOVERIFY" "none build") "build".toList
    sampleScanners =
      some (⟨"build".toList, noVerify, 0, 0⟩, sampleScanners) := by decide +kernel
  exact ⟨hmade, hnew, (newClAttr_option_iff .srcNoverify hmade hnew).mpr fun _ => by decide +kernel⟩

/-- A class whose name is the end of a listed one is not verified either. -/
theorem newClAttr_suffix :
    ¬ ∀ (getenv : Str → Option Str) (name : Str) (o : ClassOption) (cl : ClAttr) (sc : Scanners),
      newClAttr getenv name initScanners = some (cl, sc) →
        (o.attr cl ≠ defaultLevel ↔ name ∈ words isspace (o.value getenv)) := by
  intro h
  have hsuffix := h (sampleClassEnv "PKG_SRC_NOVERIFY" "rebuild") "build".toList .srcNoverify
    _ _ rfl
  exact absurd (hsuffix.mp (by decide +kernel)) (by decide +kernel)

end Options

section Order

/-- What the list of classes is to be: `none` once and first, and the others as they were. -/
structure NoneFirst (input out : List Str) (n : Nat) : Prop where
  once : out.count noneClass ≤ 1
  first : noneClass ∈ input ∨ noneClass ∈ out → out.head? = some noneClass
  others : out.filter (· ≠ noneClass) = input.filter (· ≠ noneClass)
  counted : n = out.length

/-- The tokens that `setlist` adds behind a class, when there was a `none`. -/
def keptAfter : List Str → List Str
  | [] => []
  | [p] => if p = noneClass then [] else [p]
  | p :: q :: ps => if p = noneClass then q :: keptAfter ps else p :: keptAfter (q :: ps)

theorem keptAfter_cons (hp : p ≠ noneClass) (ps : List Str) :
    keptAfter (p :: ps) = p :: keptAfter ps := by
  cases ps with
  | nil => simp [keptAfter, hp]
  | cons q ps => rw [keptAfter, if_neg hp]

theorem filter_keptAfter (ps : List Str) :
    (keptAfter ps).filter (· ≠ noneClass) = ps.filter (· ≠ noneClass) := by
  fun_induction keptAfter ps with
  | case1 => rfl
  | case2 => simp
  | case3 p hp => rfl
  | case4 q ps ih => rw [List.filter_cons, ih, List.filter_cons, List.filter_cons]; simp
  | case5 p q ps hp ih => simp only [List.filter_cons (x := p), ih]

theorem pair_infix_cons (hp : p ≠ noneClass) (ps : List Str) :
    [noneClass, noneClass] <:+: p :: ps ↔ [noneClass, noneClass] <:+: ps := by
  rw [List.infix_cons_iff, List.cons_prefix_cons]
  simp [hp.symm]

theorem none_mem_keptAfter (ps : List Str) :
    noneClass ∈ keptAfter ps ↔ [noneClass, noneClass] <:+: ps := by
  fun_induction keptAfter ps with
  | case1 => simp
  | case2 => simp [List.infix_cons_iff]
  | case3 p hp => simp [List.infix_cons_iff, Ne.symm hp]
  | case4 q ps ih =>
    rw [List.mem_cons, ih, List.infix_cons_iff, List.cons_prefix_cons, List.cons_prefix_cons]
    by_cases hq : q = noneClass
    · simp [hq]
    · rw [pair_infix_cons hq]
      simp [Ne.symm hq]
  | case5 p q ps hp ih => rw [List.mem_cons, ih, pair_infix_cons hp]; simp [Ne.symm hp]

theorem newClAttr_eq_none_iff : newClAttr getenv name sc = none ↔ clssiz < name.length := by
  rw [newClAttr]
  split <;> simp_all

theorem newClAttr_fits (h : newClAttr getenv name sc = some (cl, sc')) :
    cl.name = name ∧ name.length ≤ clssiz := by
  rw [newClAttr] at h
  split at h
  · cases h
  · rename_i hlen
    obtain ⟨rfl, -⟩ := Prod.mk.inj (Option.some.inj h)
    exact ⟨rfl, Nat.le_of_not_lt hlen⟩

structure SetList.Adds (st : SetList) (names : List Str) (sn : Option Nat) (st' : SetList) :
    Prop where
  classes : ∃ cls : List ClAttr, st'.list = st.list ++ cls ∧ cls.map ClAttr.name = names
  counted : st'.n = st.n + names.length
  first : st'.sn = sn
  fits : ∀ w ∈ names, w.length ≤ clssiz

variable {st st' st₁ st₂ : SetList}

theorem SetList.Adds.trans (h : st.Adds names i st₁) (h' : st₁.Adds names' j st₂) :
    st.Adds (names ++ names') j st₂ := by
  obtain ⟨cls, hlist, hnames⟩ := h.classes
  obtain ⟨cls', hlist', hnames'⟩ := h'.classes
  refine ⟨⟨cls ++ cls', ?_, ?_⟩, ?_, h'.first, ?_⟩
  · rw [hlist', hlist, List.append_assoc]
  · rw [List.map_append, hnames, hnames']
  · rw [h'.counted, h.counted, List.length_append, Nat.add_assoc]
  · intro w hw
    exact (List.mem_append.mp hw).elim (h.fits w) (h'.fits w)

theorem SetList.add_adds (h : st.add getenv pt = some st') :
    st.Adds [pt] (if st.sn = none ∧ pt = noneClass then some st.n else st.sn) st' := by
  rw [SetList.add, Option.bind_eq_bind, Option.bind_eq_some_iff] at h
  obtain ⟨⟨cl, sc⟩, hnew, h⟩ := h
  obtain rfl := Option.some.inj h
  obtain ⟨hname, hlen⟩ := newClAttr_fits hnew
  exact ⟨⟨[cl], rfl, by rw [List.map_singleton, hname]⟩, rfl, rfl,
    fun w hw => List.mem_singleton.mp hw ▸ hlen⟩

theorem SetList.add_isSome (hpt : pt.length ≤ clssiz) (st : SetList) :
    ∃ st', st.add getenv pt = some st' := by
  cases h : newClAttr getenv pt st.sc with
  | none => exact absurd (newClAttr_eq_none_iff.mp h) (Nat.not_lt.mpr hpt)
  | some r => exact ⟨_, by rw [SetList.add, h]; rfl⟩

/-- With a `none` in the list or in hand, the token in hand is added and then what is kept of the
others. -/
theorem setlistLoop_seen
    (hsn : (if st.sn = none ∧ pt = noneClass then some st.n else st.sn) = some k)
    (h : setlistLoop getenv (pt :: pts) st = some st') :
    st.Adds (pt :: keptAfter pts) (some k) st' := by
  induction hlen : pts.length using Nat.strong_induction_on generalizing pt pts st with
  | h m ih =>
    cases pts with
    | nil =>
      have hadd := SetList.add_adds h
      rw [hsn] at hadd
      exact hadd
    | cons pt' pts =>
      rw [setlistLoop, Option.bind_eq_some_iff] at h
      obtain ⟨st₁, hadd, h⟩ := h
      have hadd := SetList.add_adds hadd
      rw [hsn] at hadd
      have hnext (pt : Str) :
          (if st₁.sn = none ∧ pt = noneClass then some st₁.n else st₁.sn) = some k := by
        rw [hadd.first, if_neg (fun h => nomatch h.1)]
      rw [List.length_cons] at hlen
      split at h
      · rename_i hskip
        cases pts with
        | nil =>
          obtain rfl := Option.some.inj h
          rw [keptAfter, if_pos hskip.2]
          exact hadd
        | cons pt'' pts =>
          rw [keptAfter, if_pos hskip.2]
          rw [List.length_cons] at hlen
          exact hadd.trans (ih pts.length (by omega) (hnext pt'') h rfl)
      · rename_i hskip
        have hpt' : pt' ≠ noneClass := fun he => hskip ⟨by rw [hadd.first]; exact nofun, he⟩
        rw [keptAfter_cons hpt']
        exact hadd.trans (ih pts.length (by omega) (hnext pt') h rfl)

/-- The tokens that `setlist` adds. -/
def keptNames (ts : List Str) : List Str :=
  ts.takeWhile (· ≠ noneClass) ++
    match ts.dropWhile (· ≠ noneClass) with
    | [] => []
    | p :: ps => p :: keptAfter ps

theorem keptNames_cons (hp : p ≠ noneClass) (ps : List Str) :
    keptNames (p :: ps) = p :: keptNames ps := by
  simp [keptNames, hp]

theorem keptNames_none (ps : List Str) :
    keptNames (noneClass :: ps) = noneClass :: keptAfter ps := by
  simp [keptNames]

theorem filter_keptNames (ts : List Str) :
    (keptNames ts).filter (· ≠ noneClass) = ts.filter (· ≠ noneClass) := by
  induction ts with
  | nil => rfl
  | cons p ts ih =>
    by_cases hp : p = noneClass
    · rw [hp, keptNames_none, List.filter_cons, List.filter_cons, filter_keptAfter]
    · rw [keptNames_cons hp, List.filter_cons, List.filter_cons, ih]

theorem setlistLoop_adds (hsn : st.sn = none) (h : setlistLoop getenv ts st = some st') :
    st.Adds (keptNames ts) ((ts.findIdx? (· = noneClass)).map (st.n + ·)) st' := by
  induction ts generalizing st with
  | nil =>
    obtain rfl := Option.some.inj h
    exact ⟨⟨[], by rw [List.append_nil], rfl⟩, rfl, hsn, nofun⟩
  | cons pt ts ih =>
    by_cases hpt : pt = noneClass
    · subst hpt
      rw [keptNames_none, List.findIdx?_cons]
      exact setlistLoop_seen (if_pos ⟨hsn, rfl⟩) h
    · rw [keptNames_cons hpt, List.findIdx?_cons, decide_eq_false hpt, if_neg Bool.false_ne_true]
      obtain ⟨st₁, hadd, h⟩ : ∃ st₁, st.add getenv pt = some st₁ ∧
          setlistLoop getenv ts st₁ = some st' := by
        cases ts with
        | nil => exact ⟨st', h, rfl⟩
        | cons pt' ts =>
          rw [setlistLoop, Option.bind_eq_some_iff] at h
          obtain ⟨st₁, hadd, h⟩ := h
          have hfirst := (SetList.add_adds hadd).first
          rw [if_neg (fun h => hpt h.2), hsn] at hfirst
          rw [if_neg (fun h => h.1 hfirst)] at h
          exact ⟨st₁, hadd, h⟩
      have hadd := SetList.add_adds hadd
      rw [if_neg (fun h => hpt h.2), hsn] at hadd
      have hall := hadd.trans (ih hadd.first h)
      rw [hadd.counted] at hall
      have hshift : ((ts.findIdx? (· = noneClass)).map (· + 1)).map (st.n + ·) =
          (ts.findIdx? (· = noneClass)).map (st.n + [pt].length + ·) := by
        rw [Option.map_map]
        congr 1
        funext i
        simp only [Function.comp_apply, List.length_singleton]
        omega
      rw [hshift]
      exact hall

theorem setlistLoop_isSome (hts : ∀ w ∈ ts, w.length ≤ clssiz) (st : SetList) :
    ∃ st', setlistLoop getenv ts st = some st' := by
  induction hlen : ts.length using Nat.strong_induction_on generalizing ts st with
  | h m ih =>
    match ts, hts, hlen with
    | [], _, _ => exact ⟨st, rfl⟩
    | [pt], hts, _ => exact SetList.add_isSome (hts pt List.mem_cons_self) st
    | pt :: pt' :: pts, hts, hlen =>
      obtain ⟨st₁, hadd⟩ : ∃ st₁, st.add getenv pt = some st₁ :=
        SetList.add_isSome (hts pt List.mem_cons_self) st
      have hmore : ∀ w ∈ pt' :: pts, w.length ≤ clssiz :=
        fun w hw => hts w (List.mem_cons_of_mem _ hw)
      rw [List.length_cons, List.length_cons] at hlen
      rw [setlistLoop, hadd, Option.bind_some]
      split
      · exact ih pts.length (by omega) (fun w hw => hmore w (List.mem_cons_of_mem _ hw)) st₁ rfl
      · exact ih (pt' :: pts).length (by rw [List.length_cons]; omega) hmore st₁ rfl

theorem exists_first_none (h : noneClass ∈ ts) :
    ∃ pre post, ts = pre ++ noneClass :: post ∧ noneClass ∉ pre := by
  obtain ⟨pre, post, rfl, hpre⟩ := List.eq_append_cons_of_mem h
  exact ⟨pre, post, rfl, hpre⟩

/-- What follows the first `none`. -/
def afterNone (ts : List Str) : List Str := (ts.dropWhile (· ≠ noneClass)).tail

theorem takeWhile_ne_none (hpre : noneClass ∉ pre) (post : List Str) :
    (pre ++ noneClass :: post).takeWhile (· ≠ noneClass) = pre ∧
      (pre ++ noneClass :: post).dropWhile (· ≠ noneClass) = noneClass :: post := by
  have hall : ∀ w ∈ pre, decide (w ≠ noneClass) = true := fun w hw =>
    decide_eq_true fun he => hpre (he ▸ hw)
  constructor
  · rw [List.takeWhile_append_of_pos hall]
    simp
  · rw [List.dropWhile_append_of_pos hall]
    simp

theorem findIdx_first {p : α → Bool} {a : List α} (ha : ∀ y ∈ a, p y = false) (hx : p x)
    (b : List α) :
    (a ++ x :: b).findIdx? p = some a.length := by
  induction a with
  | nil => rw [List.nil_append, List.findIdx?_cons, if_pos hx, List.length_nil]
  | cons y a ih =>
    rw [List.cons_append, List.findIdx?_cons, ha y List.mem_cons_self, if_neg Bool.false_ne_true,
      ih fun z hz => ha z (List.mem_cons_of_mem _ hz), Option.map_some, List.length_cons]

theorem findIdx_split {p : α → Bool} {l : List α} (h : l.findIdx? p = some k) :
    ∃ a x b, l = a ++ x :: b ∧ a.length = k ∧ p x ∧ ∀ y ∈ a, p y = false := by
  obtain ⟨hk, hx, ha⟩ := List.findIdx?_eq_some_iff_getElem.mp h
  refine ⟨l.take k, l[k], l.drop (k + 1), ?_, ?_, hx, fun y hy => ?_⟩
  · rw [List.getElem_cons_drop, List.take_append_drop]
  · exact List.length_take_of_le (Nat.le_of_lt hk)
  · obtain ⟨j, hj, rfl⟩ := List.mem_take_iff_getElem.mp hy
    exact Bool.eq_false_iff.mpr (ha j (by omega))

theorem noneToFront_eq (a : List ClAttr) (x : ClAttr) (b : List ClAttr) :
    noneToFront (some a.length) (a ++ x :: b) = x :: (a ++ b) := by
  rw [noneToFront]
  split
  · have h := moveBack_eq [] a x b
    rw [List.nil_append, List.length_nil, Nat.zero_add] at h
    exact h
  · rename_i ha
    rw [List.eq_nil_of_length_eq_zero (Nat.eq_zero_of_not_pos ha)]
    rfl

theorem setlist_names (h : setlist getenv slist = some (n, out)) :
    (∀ w ∈ keptNames (words isDelim slist), w.length ≤ clssiz) ∧ n = out.length ∧
      ((noneClass ∉ words isDelim slist ∧ out.map ClAttr.name = words isDelim slist) ∨
        ∃ pre post, words isDelim slist = pre ++ noneClass :: post ∧ noneClass ∉ pre ∧
          out.map ClAttr.name = noneClass :: (pre ++ keptAfter post)) := by
  obtain ⟨st, hloop, hst⟩ := Option.map_eq_some_iff.mp h
  obtain ⟨rfl, rfl⟩ := Prod.mk.inj hst
  have hadds := setlistLoop_adds rfl hloop
  obtain ⟨cls, hlist, hnames⟩ := hadds.classes
  rw [List.nil_append] at hlist
  subst hlist
  have hcount : st.n = st.list.length := by
    rw [hadds.counted, ← hnames, List.length_map, Nat.zero_add]
  by_cases hnone : noneClass ∈ words isDelim slist
  · obtain ⟨pre, post, hts, hpre⟩ := exists_first_none hnone
    have hkept : keptNames (words isDelim slist) = pre ++ noneClass :: keptAfter post := by
      rw [keptNames, hts, (takeWhile_ne_none hpre post).1, (takeWhile_ne_none hpre post).2]
    have hfirst : st.sn = some pre.length := by
      rw [hadds.first, hts, findIdx_first (fun y hy => decide_eq_false fun he : y =
        noneClass => hpre (he ▸ hy))
        (decide_eq_true rfl), Option.map_some, Nat.zero_add]
    obtain ⟨a, c, hac, rfl, hc⟩ := List.map_eq_append_iff.mp (hnames.trans hkept)
    obtain ⟨x, b, rfl, hx, hb⟩ := List.map_eq_cons_iff.mp hc
    rw [List.length_map] at hfirst
    rw [hfirst, hac, noneToFront_eq]
    refine ⟨hadds.fits, ?_, .inr ⟨a.map ClAttr.name, post, hts, hpre, ?_⟩⟩
    · rw [hcount, hac]
      simp only [List.length_append, List.length_cons]
      omega
    · rw [List.map_cons, List.map_append, hx, hb]
  · have hall : ∀ w ∈ words isDelim slist, decide (w ≠ noneClass) = true := fun w hw =>
      decide_eq_true fun he => hnone (he ▸ hw)
    have hkept : keptNames (words isDelim slist) = words isDelim slist := by
      rw [keptNames, List.takeWhile_eq_self_iff.mpr hall, List.dropWhile_eq_nil_iff.mpr hall,
        List.append_nil]
    have hfirst : st.sn = none := by
      rw [hadds.first, List.findIdx?_eq_none_iff.mpr fun w hw =>
        decide_eq_false (of_decide_eq_true (hall w hw)), Option.map_none]
    rw [hfirst, noneToFront]
    exact ⟨hadds.fits, hcount, .inl ⟨hnone, hnames.trans hkept⟩⟩

theorem setlist_noneFirst_iff (getenv : Str → Option Str) (slist : Str) :
    (∃ n out, setlist getenv slist = some (n, out) ∧
      NoneFirst (words isDelim slist) (out.map ClAttr.name) n) ↔
    (∀ w ∈ words isDelim slist, w.length ≤ clssiz) ∧
      ¬ [noneClass, noneClass] <:+: afterNone (words isDelim slist) := by
  constructor
  · rintro ⟨n, out, h, hn⟩
    obtain ⟨hfits, -, hout⟩ := setlist_names h
    constructor
    · intro w hw
      by_cases he : w = noneClass
      · rw [he]
        decide
      · have hkept : w ∈ (keptNames (words isDelim slist)).filter (· ≠ noneClass) := by
          rw [filter_keptNames]
          exact List.mem_filter.mpr ⟨hw, decide_eq_true he⟩
        exact hfits w (List.mem_of_mem_filter hkept)
    · rcases hout with ⟨hnone, -⟩ | ⟨pre, post, hts, hpre, hout⟩
      · have hall : ∀ w ∈ words isDelim slist, decide (w ≠ noneClass) = true := fun w hw =>
          decide_eq_true fun he => hnone (he ▸ hw)
        rw [afterNone, List.dropWhile_eq_nil_iff.mpr hall]
        simp
      · rw [afterNone, hts, (takeWhile_ne_none hpre post).2, List.tail_cons, ← none_mem_keptAfter]
        intro hmem
        have hcount := hn.once
        rw [hout, List.count_cons_self, List.count_append] at hcount
        have := List.count_pos_iff.mpr hmem
        omega
  · rintro ⟨hfits, hpair⟩
    obtain ⟨st, hloop⟩ : ∃ st,
      setlistLoop getenv (words isDelim slist) ⟨[], 0, none, initScanners⟩ =
        some st := setlistLoop_isSome hfits _
    have h : setlist getenv slist = some (st.n, noneToFront st.sn st.list) := by
      rw [setlist, hloop, Option.map_some]
    refine ⟨_, _, h, ?_⟩
    obtain ⟨-, hlen, hout⟩ := setlist_names h
    rw [← List.length_map (f := ClAttr.name)] at hlen
    rcases hout with ⟨hnone, hout⟩ | ⟨pre, post, hts, hpre, hout⟩
    · rw [hout] at hlen ⊢
      exact ⟨by rw [List.count_eq_zero.mpr hnone]; exact Nat.zero_le _,
        fun hm => absurd (hm.elim id id) hnone, rfl, hlen⟩
    · rw [afterNone, hts, (takeWhile_ne_none hpre post).2, List.tail_cons, ← none_mem_keptAfter]
        at hpair
      rw [hout] at hlen ⊢
      refine ⟨?_, fun _ => rfl, ?_, hlen⟩
      · rw [List.count_cons_self, List.count_append, List.count_eq_zero.mpr hpre,
          List.count_eq_zero.mpr hpair]
      · rw [hts, List.filter_cons, List.filter_append, List.filter_append, List.filter_cons,
          filter_keptAfter]
        simp

theorem clSetlLoop_eq_self {l : List ClAttr} (h : ∀ cl ∈ l.drop i, cl.name ≠ noneClass) :
    clSetlLoop nclasses k i l = l := by
  induction k generalizing i with
  | zero => rfl
  | succ k ih =>
    have hi : ¬ l[i]?.map ClAttr.name = some noneClass := by
      intro he
      obtain ⟨cl, hcl, hname⟩ := Option.map_eq_some_iff.mp he
      refine h cl (List.mem_iff_getElem?.mpr ⟨0, ?_⟩) hname
      rw [List.getElem?_drop, Nat.add_zero, hcl]
    rw [clSetlLoop, if_neg hi]
    refine ih fun cl hcl => h cl ?_
    rw [← List.drop_drop] at hcl
    exact List.mem_of_mem_drop hcl

theorem length_clSetlLoop (nclasses k i : Nat) (l : List ClAttr) :
    (clSetlLoop nclasses k i l).length = l.length := by
  induction k generalizing i l with
  | zero => rfl
  | succ k ih =>
    rw [clSetlLoop, ih]
    split
    · exact length_shiftDown _ _ _
    · rfl

theorem noneToFront_cases (clLst : List ClAttr) :
    (∀ cl ∈ clLst, cl.name ≠ noneClass) ∧
        noneToFront (clLst.findIdx? (·.name = noneClass)) clLst = clLst ∨
      ∃ a x b, clLst = a ++ x :: b ∧ x.name = noneClass ∧
        noneToFront (clLst.findIdx? (·.name = noneClass)) clLst = x :: (a ++ b) := by
  cases h : clLst.findIdx? (·.name = noneClass) with
  | none =>
    exact .inl ⟨fun cl hcl => of_decide_eq_false (List.findIdx?_eq_none_iff.mp h cl hcl), rfl⟩
  | some k =>
    obtain ⟨a, x, b, rfl, rfl, hx, -⟩ := findIdx_split h
    exact .inr ⟨a, x, b, rfl, of_decide_eq_true hx, noneToFront_eq a x b⟩

theorem length_clSetl (clLst : List ClAttr) : (clSetl clLst).2.length = clLst.length := by
  rw [clSetl, length_clSetlLoop]
  obtain ⟨-, h⟩ | ⟨a, x, b, rfl, -, h⟩ := noneToFront_cases clLst
  · rw [h]
  · rw [h]
    simp only [List.length_append, List.length_cons]
    omega

theorem length_filter_ne_none (ws : List Str) :
    ws.count noneClass + (ws.filter (· ≠ noneClass)).length = ws.length := by
  induction ws with
  | nil => rfl
  | cons w ws ih =>
    rw [List.count_cons, List.filter_cons]
    by_cases h : w = noneClass
    · simp [h, ← ih]
      omega
    · simp [h, ← ih]
      omega

/-- The count of classes is not reduced, so only an array with one `none` at most is right. -/
theorem clSetl_noneFirst_iff (clLst : List ClAttr) :
    NoneFirst (clLst.map ClAttr.name) ((clSetl clLst).2.map ClAttr.name) (clSetl clLst).1 ↔
      (clLst.map ClAttr.name).count noneClass ≤ 1 := by
  constructor
  · intro h
    have hout := length_filter_ne_none ((clSetl clLst).2.map ClAttr.name)
    have hin := length_filter_ne_none (clLst.map ClAttr.name)
    rw [h.others, List.length_map, length_clSetl] at hout
    rw [List.length_map] at hin
    have := h.once
    omega
  · intro hone
    have hlen := length_clSetl clLst
    rw [clSetl] at hlen ⊢
    obtain ⟨hno, h⟩ | ⟨a, x, b, rfl, hx, h⟩ := noneToFront_cases clLst
    · have hnone : noneClass ∉ clLst.map ClAttr.name := by
        intro hm
        obtain ⟨cl, hcl, hname⟩ := List.mem_map.mp hm
        exact hno cl hcl hname
      rw [h, clSetlLoop_eq_self fun cl hcl => hno cl (List.mem_of_mem_drop hcl)]
      exact ⟨hone, fun hm => absurd (hm.elim id id) hnone, rfl, (List.length_map _).symm⟩
    · rw [List.map_append, List.map_cons, List.count_append, hx, List.count_cons_self] at hone
      have hab : noneClass ∉ (a ++ b).map ClAttr.name := by
        rw [List.map_append, ← List.count_eq_zero, List.count_append]
        omega
      have hrest : ∀ cl ∈ (x :: (a ++ b)).drop 1, cl.name ≠ noneClass := fun cl hcl hname =>
        hab (List.mem_map.mpr ⟨cl, hcl, hname⟩)
      rw [h, clSetlLoop_eq_self hrest] at hlen ⊢
      rw [List.map_cons, hx]
      refine ⟨?_, fun _ => rfl, ?_, ?_⟩
      · rw [List.count_cons_self, List.count_eq_zero.mpr hab]
      · simp [hx]
      · rw [← hlen, List.length_cons, List.length_cons, List.length_map]

/-- The order of the classes, for a class string and for an array of classes. In the string, two
`none` in a row behind the first one let the second through; in the array, any second one stays or
doubles the last class. -/
theorem class_order_iff (getenv : Str → Option Str) (slist : Str) (clLst : List ClAttr) :
    ((∃ n out, setlist getenv slist = some (n, out) ∧
        NoneFirst (words isDelim slist) (out.map ClAttr.name) n) ↔
      (∀ w ∈ words isDelim slist, w.length ≤ clssiz) ∧
        ¬ [noneClass, noneClass] <:+: afterNone (words isDelim slist)) ∧
    (NoneFirst (clLst.map ClAttr.name) ((clSetl clLst).2.map ClAttr.name) (clSetl clLst).1 ↔
      (clLst.map ClAttr.name).count noneClass ≤ 1) :=
  ⟨setlist_noneFirst_iff getenv slist, clSetl_noneFirst_iff clLst⟩

/-- Three `none` in the string leave two, and two in the array leave two. -/
theorem class_order_repeated :
    (¬ ∃ n out, setlist (fun _ => none) "none none none".toList = some (n, out) ∧
      NoneFirst (words isDelim "none none none".toList) (out.map ClAttr.name) n) ∧
    ¬ NoneFirst ["none".toList, "none".toList]
      ((clSetl [⟨"none".toList, 0, 0, 0⟩, ⟨"none".toList, 0, 0, 0⟩]).2.map ClAttr.name)
      (clSetl [⟨"none".toList, 0, 0, 0⟩, ⟨"none".toList, 0, 0, 0⟩]).1 := by
  constructor
  · rintro ⟨n, out, h, hn⟩
    have htwo : (setlist (fun _ => none) "none none none".toList).all fun r =>
        (r.2.map ClAttr.name).count noneClass = 2 := by decide +kernel
    rw [h, Option.all_some] at htwo
    have hone := hn.once
    rw [of_decide_eq_true htwo] at hone
    exact absurd hone (by decide)
  · intro hn
    exact absurd hn.once (by decide +kernel)

end Order

end Pkgtools
