import Pkgtools.CLib.Logged
import Pkgtools.EntryLine

namespace Pkgtools
open CLib
set_option autoImplicit true

/-- `UCHAR_MAX`. -/
def ucharMax : Int := 255

/-- `(int)*p`: a `char` is signed. -/
def tableIndex (c : Char) : Int := wrap 8 c.toNat

/-- The entry for a character in a table of `UCHAR_MAX + 1` entries; there is none outside. -/
def tableEntry (sep : Char → Bool) (c : Char) : Option Bool :=
  if 0 ≤ tableIndex c ∧ tableIndex c ≤ ucharMax then some (sep c) else none

/-- `while (table[(int)*p] == 0) p++;` on the text at `p`: how far it gets. -/
def tableScan (sep : Char → Bool) : Str → Option Nat
  | [] => some 0
  | c :: s => (tableEntry sep c).bind fun stop =>
    if stop then some 0 else (tableScan sep s).map (· + 1)

def tokenAt (sep : Char → Bool) (s : Str) : Str := s.takeWhile fun c => !sep c

/-- No byte is above 127; a character stands for its low byte. -/
def SevenBit (s : Str) : Prop := ∀ c ∈ s, c.toNat % 256 < 128

instance : DecidablePred SevenBit := fun s =>
  inferInstanceAs (Decidable (∀ c ∈ s, c.toNat % 256 < 128))

/-- `getstr`, with its separators in a table. -/
def getstrT (n : Nat) (sep : Char → Bool) (p : Ptr) : Option ((Int × Option Str) × Ptr) :=
  if p.rest = [] then some ((1, none), p)
  else
    let q := p.add (spaceLen p)
    if q.rest = [] then some ((1, none), p.add (spaceLen p - 1))
    else (tableScan sep q.rest).map fun len =>
      if len < n then ((0, some (q.rest.take len)), q.add len)
      else ((-1, some (q.rest.take (n - 1))), q.add n)

/-- The readers of `srchcfile.c` with a `getstr` of their own. -/
def readersWith (g : Nat → (Char → Bool) → Ptr → Option ((Int × Option Str) × Ptr)) :
    FieldReaders Ptr :=
  { bufferReaders with getstr := g }

/-- The readers of `srchcfile.c`, with tables. -/
def tableReaders : FieldReaders Ptr := readersWith getstrT

/-- The readers of `srchcfile.c` with a log of the text that `getstr` scans. -/
def scanReaders : FieldReaders (Ptr × List Str) where
  getc := Parse.beside bufferReaders.getc
  getcNonspace := Parse.beside bufferReaders.getcNonspace
  ungetc := Parse.beside bufferReaders.ungetc
  getnum base bad := Parse.beside (bufferReaders.getnum base bad)
  getstr n sep s :=
    let (x, p) := getstr n sep s.1
    some (x, (p, s.2 ++ [tokenAt sep (s.1.add (spaceLen s.1)).rest]))
  getend := Parse.beside bufferReaders.getend
  findend := Parse.beside bufferReaders.findend

/-- `comparePath`, with the table. -/
def comparePathT (mem path : Str) (pm : Nat) : Option (Option Int) :=
  (tableScan isPkgPathSep (mem.drop pm)).map fun plen =>
    let n := strncmp path (mem.drop pm) plen
    if n = 0 then if path.length = plen then none else some path.length
    else some n

def bisectT (mem path : Str) : Nat → Nat → Nat → Option (Option Nat)
  | 0, _, _ => some none
  | f + 1, plow, phigh =>
    let pm := backUp mem plow (plow + (phigh - plow) / 2)
    if pm ≤ plow then some (some plow)
    else (comparePathT mem path pm).bind fun
      | none => some (some pm)
      | some n => if n > 0 then bisectT mem path f pm phigh else bisectT mem path f plow pm

/-- `narrowSearch`, with the table. -/
def narrowSearchT (v : Vfp) (path : Str) : Option (Option Nat) :=
  let plast := v.highWater.toNat
  if path = [] ∨ vfpGetBytesRemaining v ≤ 1 then some none
  else if v.ptr.deref ≠ '/' then some none
  else (comparePathT v.mem path v.curr).bind fun
    | none => some (some v.curr)
    | some n =>
      if n ≤ 0 then some (some v.curr)
      else
        let pm := backUp v.mem v.curr plast
        if pm > v.curr ∧ v.mem.getD pm nul = '/' then
          (comparePathT v.mem path pm).bind fun
          | none => some (some pm)
          | some n =>
            if n ≥ 0 then some (some pm) else bisectT v.mem path (v.mem.length + 1) v.curr plast
        else bisectT v.mem path (v.mem.length + 1) v.curr plast

/-- The paths that the binary search scans. -/
def bisectPaths (mem path : Str) : Nat → Nat → Nat → List Str
  | 0, _, _ => []
  | f + 1, plow, phigh =>
    let pm := backUp mem plow (plow + (phigh - plow) / 2)
    if pm ≤ plow then []
    else tokenAt isPkgPathSep (mem.drop pm) :: match comparePath mem path pm with
      | none => []
      | some n => if n > 0 then bisectPaths mem path f pm phigh else bisectPaths mem path f plow pm

/-- The paths that `narrowSearch` scans. -/
def narrowPaths (v : Vfp) (path : Str) : List Str :=
  let plast := v.highWater.toNat
  if path = [] ∨ vfpGetBytesRemaining v ≤ 1 then []
  else if v.ptr.deref ≠ '/' then []
  else tokenAt isPkgPathSep (v.mem.drop v.curr) :: match comparePath v.mem path v.curr with
    | none => []
    | some n =>
      if n ≤ 0 then []
      else
        let pm := backUp v.mem v.curr plast
        if pm > v.curr ∧ v.mem.getD pm nul = '/' then
          tokenAt isPkgPathSep (v.mem.drop pm) :: match comparePath v.mem path pm with
            | none => []
            | some n =>
              if n ≥ 0 then [] else bisectPaths v.mem path (v.mem.length + 1) v.curr plast
        else bisectPaths v.mem path (v.mem.length + 1) v.curr plast

/-- The search from the point that `narrowSearch` returned. -/
def searchStart (ept : Cfent) (cf : Vfp) (tmp : Option Vfp) (np : Option Nat) : Search :=
  match np with
  | some np => ⟨vfpSetCurrCharPtr cf np, tmp, ept, cf.curr, np, true⟩
  | none => ⟨cf, tmp, ept, cf.curr, 0, false⟩

/-- `Search.atPath`, with the tables: they are used for an entry that matches. -/
def Search.atPathT (s : Search) (stack : Str) (target : Option Str) (rdpath : Bool)
    (pos start : Nat) (cpath : Str) : Option (Found ⊕ Search) :=
  if compareEntry target s.cf.mem cpath start = 0 then
    let c := s.cf.ptr.deref
    let s := { s with cf := s.cf.moveTo (s.cf.curr + 1) }
    let ept := { s.ept with path := some (copyPath cpath) }
    (readEntry tableReaders (s.cf.mem.length + 1) stack rdpath c ept s.cf.ptr).map fun x =>
      .inl (s.finish (some x))
  else some (s.atPath stack target rdpath pos start cpath)

/-- `Search.step`, with the tables. -/
def Search.stepT (s : Search) (stack : Str) (target : Option Str) : Option (Found ⊕ Search) :=
  let c := if vfpGetBytesRemaining s.cf = 0 then nul else s.cf.ptr.deref
  if c = '/' then
    match tableScan isPkgPathSep s.cf.ptr.rest with
    | none => none
    | some len =>
      let cpath := s.cf.ptr.rest.take len
      let pos := s.cf.curr
      let s := { s with cf := vfpIncCurrPtrBy s.cf cpath.length }
      if s.cf.ptr.deref = nul then some (.inl (s.fail "incomplete entry"))
      else { s with ept := { s.ept with path := some [] } }.atPathT stack target false pos pos cpath
  else if c = nul ∨ isspace c ∨ c = '#' ∨ c = ':' then some (s.step stack target)
  else match readType tableReaders s.ept s.cf.ptr with
    | none => none
    | some (.error e, p) => some (.inl (s.finish (some (.error e, p))))
    | some (.ok ept, p) =>
      match tableScan isPkgPathSep p.rest with
      | none => none
      | some len =>
        let cpath := p.rest.take len
        let s' := { s with cf := s.cf.moveTo p.pos, ept := ept }
        if cpath = [] then some (.inl (s'.fail "unable to read pathname field"))
        else
          { s' with
            cf := vfpIncCurrPtrBy s'.cf cpath.length
            ept := { ept with path := some [] } }.atPathT stack target true s.cf.curr p.pos cpath

def Search.runT (stack : Str) (target : Option Str) : Nat → Search → Option Found
  | 0, s => some ⟨0, none, s.ept, s.cf, s.tmp⟩
  | f + 1, s =>
    match s.stepT stack target with
    | none => none
    | some (.inl r) => some r
    | some (.inr s) => s.runT stack target f

/-- `srchcfile`, with the tables. -/
def srchcfileT (stack : Str) (ept : Cfent) (path : Option Str) (cf : Vfp) (tmp : Option Vfp) :
    Option Found :=
  if vfpGetBytesRemaining cf ≤ 1 then some (srchcfile stack ept path cf tmp)
  else match path with
    | none => some (srchcfile stack ept none cf tmp)
    | some path =>
      if path.head? = some '/' then
        (narrowSearchT cf path).bind fun np =>
          (searchStart (initEntry ept) cf tmp np).runT stack (some path) (cf.mem.length + 2)
      else if path = ['*'] then
        (searchStart (initEntry ept) cf tmp none).runT stack none (cf.mem.length + 2)
      else some (srchcfile stack ept (some path) cf tmp)

def scannedBy (x : Option (α × (Ptr × List Str))) : List Str := x.elim [] fun x => x.2.2

/-- What `Search.atPath` scans. -/
def Search.atPathScans (s : Search) (stack : Str) (target : Option Str) (rdpath : Bool)
    (start : Nat) (cpath : Str) : List Str :=
  if compareEntry target s.cf.mem cpath start = 0 then
    let cf := s.cf.moveTo (s.cf.curr + 1)
    scannedBy (readEntry scanReaders (s.cf.mem.length + 1) stack rdpath s.cf.ptr.deref
      { s.ept with path := some (copyPath cpath) } (cf.ptr, []))
  else []

/-- What one round of the main loop scans: paths, and the tokens that `getstr` reads. -/
def Search.scans (s : Search) (stack : Str) (target : Option Str) : List Str :=
  let c := if vfpGetBytesRemaining s.cf = 0 then nul else s.cf.ptr.deref
  if c = '/' then
    let cpath := tokenAt isPkgPathSep s.cf.ptr.rest
    let s' := { s with cf := vfpIncCurrPtrBy s.cf cpath.length }
    cpath :: if s'.cf.ptr.deref = nul then []
      else { s' with ept := { s.ept with path := some [] } }.atPathScans stack target false
        s.cf.curr cpath
  else if c = nul ∨ isspace c ∨ c = '#' ∨ c = ':' then []
  else
    scannedBy (readType scanReaders s.ept (s.cf.ptr, [])) ++
      match readType bufferReaders s.ept s.cf.ptr with
      | some (.ok ept, p) =>
        let cpath := tokenAt isPkgPathSep p.rest
        cpath :: if cpath = [] then []
          else
            { s with
              cf := vfpIncCurrPtrBy (s.cf.moveTo p.pos) cpath.length
              ept := { ept with path := some [] } }.atPathScans stack target true p.pos cpath
      | _ => []

def Search.runScans (stack : Str) (target : Option Str) : Nat → Search → List Str
  | 0, _ => []
  | f + 1, s =>
    s.scans stack target ++ match s.step stack target with
      | .inl _ => []
      | .inr s => s.runScans stack target f

/-- What `srchcfile` scans. -/
def srchcfileScans (stack : Str) (ept : Cfent) (path : Option Str) (cf : Vfp) (tmp : Option Vfp) :
    List Str :=
  if vfpGetBytesRemaining cf ≤ 1 then []
  else match path with
    | none => []
    | some path =>
      if path.head? = some '/' then
        narrowPaths cf path ++ (searchStart (initEntry ept) cf tmp (narrowSearch cf path)).runScans
          stack (some path) (cf.mem.length + 2)
      else if path = ['*'] then
        (searchStart (initEntry ept) cf tmp none).runScans stack none (cf.mem.length + 2)
      else []

section Tables
variable {sep : Char → Bool}

theorem tableIndex_inRange (c : Char) :
    (0 ≤ tableIndex c ∧ tableIndex c ≤ ucharMax) ↔ c.toNat % 256 < 128 := by
  rw [tableIndex, wrap, ucharMax, Int.bmod_def]
  split <;> omega

def IsTable (sep : Char → Bool) : Prop := ∀ c, sep c → c.toNat % 256 < 128

theorem isPkgPathSep_isTable : IsTable isPkgPathSep := by
  intro c hc
  simp only [isPkgPathSep, Bool.or_eq_true, beq_iff_eq] at hc
  rcases hc with (((rfl | rfl) | rfl) | rfl) | rfl <;> decide

theorem isWordSep_isTable : IsTable isWordSep := by
  intro c hc
  simp only [isWordSep, Bool.or_eq_true, beq_iff_eq] at hc
  rcases hc with ((rfl | rfl) | rfl) | rfl <;> decide

theorem isPkgNameSep_isTable : IsTable isPkgNameSep := by
  intro c hc
  simp only [isPkgNameSep, Bool.or_eq_true, beq_iff_eq] at hc
  rcases hc with ((((rfl | rfl) | rfl) | rfl) | rfl) | rfl <;> decide

theorem sevenBit_nil : SevenBit [] := fun _ hc => by cases hc

theorem sevenBit_cons (c : Char) (s : Str) :
    SevenBit (c :: s) ↔ c.toNat % 256 < 128 ∧ SevenBit s :=
  List.forall_mem_cons

/-- A scan is defined just if all bytes up to the separator are below 128, and then it stops at the
first separator. -/
theorem tableScan_eq (hsep : IsTable sep) (s : Str) : tableScan sep s =
    if SevenBit (tokenAt sep s) then some (tokenAt sep s).length else none := by
  induction s with
  | nil =>
    have hnil : tokenAt sep [] = [] := rfl
    rw [hnil, if_pos sevenBit_nil, tableScan, List.length_nil]
  | cons c s ih =>
    rw [tableScan, tableEntry]
    by_cases hc : c.toNat % 256 < 128
    · rw [if_pos ((tableIndex_inRange c).mpr hc)]
      cases hs : sep c with
      | true =>
        rw [tokenAt, List.takeWhile_cons_of_neg (by simp [hs]), if_pos sevenBit_nil]
        rfl
      | false =>
        rw [tokenAt, List.takeWhile_cons_of_pos (by simp [hs]), ← tokenAt]
        rw [Option.bind_some, if_neg Bool.false_ne_true, ih, List.length_cons]
        by_cases h : SevenBit (tokenAt sep s)
        · rw [if_pos h, if_pos ((sevenBit_cons _ _).mpr ⟨hc, h⟩)]
          rfl
        · rw [if_neg h, if_neg fun hcons => h ((sevenBit_cons _ _).mp hcons).2]
          rfl
    · have hs : sep c = false := by
        cases hs : sep c with
        | true => exact absurd (hsep c hs) hc
        | false => rfl
      rw [if_neg fun h => hc ((tableIndex_inRange c).mp h), tokenAt,
        List.takeWhile_cons_of_pos (by simp [hs]), ← tokenAt,
        if_neg fun hcons => hc ((sevenBit_cons _ _).mp hcons).1]
      rfl

theorem take_tokenAt (sep : Char → Bool) (s : Str) :
    s.take (tokenAt sep s).length = tokenAt sep s :=
  List.prefix_iff_eq_take.mp (List.takeWhile_prefix _) |>.symm

theorem getstrT_eq (hsep : IsTable sep) (n : Nat) (p : Ptr) : getstrT n sep p =
    if SevenBit (tokenAt sep (p.add (spaceLen p)).rest) then some (getstr n sep p) else none := by
  rw [getstrT, getstr]
  by_cases hp : p.rest = []
  · have hrest : (p.add (spaceLen p)).rest = [] := by rw [Ptr.add_rest, hp, List.drop_nil]
    rw [if_pos hp, if_pos hp, hrest, if_pos]
    exact sevenBit_nil
  · rw [if_neg hp, if_neg hp]
    dsimp only
    by_cases hq : (p.add (spaceLen p)).rest = []
    · rw [if_pos hq, if_pos hq, hq, if_pos]
      exact sevenBit_nil
    · rw [if_neg hq, if_neg hq, tableScan_eq hsep]
      generalize hr : (p.add (spaceLen p)).rest = r
      by_cases h : SevenBit (tokenAt sep r)
      · rw [if_pos h, if_pos h, Option.map_some, take_tokenAt]
        change some (if (tokenAt sep r).length < n then _ else _) =
          some (if (tokenAt sep r).length < n then _ else _)
        by_cases hlen : (tokenAt sep r).length < n
        · rw [if_pos hlen, if_pos hlen]
          rfl
        · rw [if_neg hlen, if_neg hlen, ← tokenAt, ← take_tokenAt sep r, List.take_take,
            Nat.min_eq_left (by omega)]
      · rw [if_neg h, if_neg h]
        rfl

theorem scans_nil (a : α) : some a = if ∀ t ∈ ([] : List Str), SevenBit t then some a else none :=
  (if_pos fun _ ht => (List.not_mem_nil ht).elim).symm

theorem sevenBit_cons_list {t : Str} {l : List Str} {x : Option α} {a : α}
    (hx : x = if ∀ t ∈ l, SevenBit t then some a else none) :
    (if SevenBit t then x else none) = if ∀ u ∈ t :: l, SevenBit u then some a else none := by
  rw [hx]
  by_cases ht : SevenBit t
  · rw [if_pos ht]
    simp only [List.forall_mem_cons, eq_true ht, true_and]
  · rw [if_neg ht, if_neg fun h => ht (List.forall_mem_cons.mp h).1]

end Tables

/-- A reader is defined just if all that the one with the log scans is good. -/
abbrev Scans (good : Str → Prop) [DecidablePred good] (m : Parse Ptr Fail α)
    (l : Parse (Ptr × List Str) Fail α) : Prop :=
  Parse.Logged good (fun _ => True) m l

namespace Scans
open Parse.Logged

section Fields
variable {good : Str → Prop} [DecidablePred good]
  {g : Nat → (Char → Bool) → Ptr → Option ((Int × Option Str) × Ptr)} (ept : Cfent)

theorem failAtEnd (errstr : String) :
    Scans (α := α) good (Pkgtools.failAtEnd (readersWith g) errstr ept)
      (Pkgtools.failAtEnd scanReaders errstr ept) :=
  bind (beside _) fun _ => raise _

theorem numField (base bad : Int) (store : Int → Cfent → Cfent) (errstr : String) :
    Scans good (Pkgtools.numField (readersWith g) base bad store errstr ept)
      (Pkgtools.numField scanReaders base bad store errstr ept) :=
  bind (beside _) fun _ => ite (failAtEnd _ _) (ret _)

theorem readDevice : Scans good (Pkgtools.readDevice (readersWith g) ept)
    (Pkgtools.readDevice scanReaders ept) :=
  bind (numField _ _ _ _ _) fun _ => numField _ _ _ _ _

theorem readContent : Scans good (Pkgtools.readContent (readersWith g) ept)
    (Pkgtools.readContent scanReaders ept) :=
  bind (numField _ _ _ _ _) fun _ => bind (numField _ _ _ _ _) fun _ => numField _ _ _ _ _

variable
  (hg : ∀ n {sep : Char → Bool}, IsTable sep → ∀ p, g n sep p =
    if good (tokenAt sep (p.add (spaceLen p)).rest) then some (Pkgtools.getstr n sep p) else none)
include hg

theorem getstr (n : Nat) {sep : Char → Bool} (hsep : IsTable sep) :
    Scans good (Parse.prim ((readersWith g).getstr n sep))
      (Parse.prim (scanReaders.getstr n sep)) := by
  refine Parse.Logged.prim fun p log => ⟨(Pkgtools.getstr n sep p).1, (Pkgtools.getstr n sep p).2,
    [tokenAt sep (p.add (spaceLen p)).rest], rfl, fun _ _ => trivial, ?_⟩
  exact (hg n hsep p).trans (if_congr List.forall_mem_singleton.symm rfl rfl)

theorem strField (n : Nat) (store : Str → Cfent → Cfent) (errstr : String) :
    Scans good (Pkgtools.strField (readersWith g) n store errstr ept)
      (Pkgtools.strField scanReaders n store errstr ept) :=
  bind (getstr hg n isWordSep_isTable) fun _ => ite (failAtEnd _ _) (ret _)

theorem readType : Scans good (Pkgtools.readType (readersWith g) ept)
    (Pkgtools.readType scanReaders ept) := by
  refine bind (beside _) fun c => ite (strField _ hg _ _ _) (ite ?_ (ite ?_ (ite ?_ ?_)))
  · exact bind (beside _) fun _ => raise _
  · exact failAtEnd _ _
  · exact failAtEnd _ _
  · exact failAtEnd _ _

theorem readAttrs : Scans good (Pkgtools.readAttrs (readersWith g) ept)
    (Pkgtools.readAttrs scanReaders ept) :=
  bind (numField _ _ _ _ _) fun _ => bind (strField _ hg _ _ _) fun _ => strField _ hg _ _ _

theorem readPkgSuffix (pinfo : Pinfo) (classname : Str) :
    Scans good (Pkgtools.readPkgSuffix (readersWith g) pinfo classname)
      (Pkgtools.readPkgSuffix scanReaders pinfo classname) := by
  refine bind (beside _) fun c => bind (onlyIf ?_) fun _ => onlyIf ?_
  · exact bind (beside _) fun _ => ret _
  · exact bind (getstr hg _ isWordSep_isTable) fun _ => bind (beside _) fun _ => ret _

theorem readPackages (f : Nat) (classname : Str) :
    Scans good (Pkgtools.readPackages (readersWith g) f classname ept)
      (Pkgtools.readPackages scanReaders f classname ept) := by
  induction f generalizing classname ept with
  | zero => exact undefined
  | succ f ih =>
    refine bind (getstr hg _ isPkgNameSep_isTable) fun x => ite (failAtEnd _ _) (ite ?_ ?_)
    · exact bind (beside _) fun _ => ite (raise _) (ret _)
    · exact bind (readPkgSuffix hg _ _) fun _ => ite (ret _) (ite (failAtEnd _ _) (ih _ _))

theorem readFields (f : Nat) (classname : Str) :
    Scans good (Pkgtools.readFields (readersWith g) f classname ept)
      (Pkgtools.readFields scanReaders f classname ept) := by
  refine ite (failAtEnd _ _) (bind (onlyIf (readDevice _)) fun _ => ?_)
  refine bind (onlyIf (readAttrs _ hg)) fun _ => bind (onlyIf (readContent _)) fun _ => ite ?_ ?_
  · exact bind (beside _) fun _ => ite (raise _) (ret _)
  · exact readPackages _ hg _ _

theorem readEntry (f : Nat) (classname : Str) (rdpath : Bool) (c : Char) :
    Scans good (Pkgtools.readEntry (readersWith g) f classname rdpath c ept)
      (Pkgtools.readEntry scanReaders f classname rdpath c ept) :=
  bind (onlyIf ((strField _ hg _ _ _).mapError _)) fun _ => bind (onlyIf (readType _ hg)) fun _ =>
    readFields _ hg _ _

end Fields

end Scans

/-- The reader with the tables, and the one that goes by the separators. -/
theorem Scans.tables {m m' : Parse Ptr Fail α} {l : Parse (Ptr × List Str) Fail α}
    (hm : Scans SevenBit m l) (hm' : Scans (fun _ => True) m' l) (p : Ptr) :
    m p = if ∀ t ∈ scannedBy (l (p, [])), SevenBit t then m' p else none := by
  obtain ⟨hnone, hsome⟩ := hm p []
  obtain ⟨hnone', hsome'⟩ := hm' p []
  match hl : l (p, []) with
  | none => rw [hnone hl, hnone' hl, ite_self]
  | some (r, (p', log)) =>
    obtain ⟨new, hlog, -, hrun⟩ := hsome r p' log hl
    obtain ⟨new', -, -, hrun'⟩ := hsome' r p' log hl
    obtain rfl : log = new := hlog
    rw [hrun, hrun', if_pos fun _ _ => trivial]
    rfl

theorem bufferReaders_getstr (n : Nat) {sep : Char → Bool} (_ : IsTable sep) (p : Ptr) :
    bufferReaders.getstr n sep p =
      if True then some (Pkgtools.getstr n sep p) else none :=
  (if_pos trivial).symm

theorem readType_tables (ept : Cfent) (p : Ptr) : readType tableReaders ept p =
    if ∀ t ∈ scannedBy (readType scanReaders ept (p, [])), SevenBit t then
      readType bufferReaders ept p else none :=
  Scans.tables (Scans.readType ept fun n _ h p => getstrT_eq h n p)
    (Scans.readType ept bufferReaders_getstr) p

theorem readEntry_tables {f : Nat} {p : Ptr} (hf : p.rest.length < f) (classname : Str)
    (rdpath : Bool) (c : Char) (ept : Cfent) (k : Option (Except Fail Cfent × Ptr) → α) :
    (readEntry tableReaders f classname rdpath c ept p).map (fun x => k (some x)) =
      if ∀ t ∈ scannedBy (readEntry scanReaders f classname rdpath c ept (p, [])), SevenBit t then
        some (k (readEntry bufferReaders f classname rdpath c ept p)) else none := by
  obtain ⟨r, p', hr, -⟩ := keeps_readEntry 0 f classname rdpath c ept p ⟨Nat.zero_le _, hf⟩
  have htables := Scans.tables (Scans.readEntry ept (fun n _ h p => getstrT_eq h n p) f classname
    rdpath c) (Scans.readEntry ept bufferReaders_getstr f classname rdpath c) p
  have hbuffer : readEntry (readersWith bufferReaders.getstr) f classname rdpath c ept p =
      some (r, p') := hr
  rw [tableReaders, htables, hbuffer, hr]
  split <;> rfl

section Search
variable (stack : Str) (target : Option Str)

theorem Search.atPathT_eq (s : Search) (rdpath : Bool) (pos start : Nat) (cpath : Str) :
    s.atPathT stack target rdpath pos start cpath =
      if ∀ t ∈ s.atPathScans stack target rdpath start cpath, SevenBit t then
        some (s.atPath stack target rdpath pos start cpath) else none := by
  rw [Search.atPathT, Search.atPathScans, Search.atPath]
  by_cases hn : compareEntry target s.cf.mem cpath start = 0
  · have hrest : (s.cf.moveTo (s.cf.curr + 1)).ptr.rest.length < s.cf.mem.length + 1 := by
      refine Nat.lt_succ_of_le (Nat.le_trans (List.takeWhile_sublist _).length_le ?_)
      exact (List.drop_sublist _ _).length_le
    simp only [hn, if_true]
    exact readEntry_tables hrest stack rdpath _ _ fun r =>
      Sum.inl (({ s with cf := s.cf.moveTo (s.cf.curr + 1) } : Search).finish r)
  · simp only [hn, if_false]
    rw [if_pos fun t ht => by cases ht]

theorem scanPath_eq {rest : Str} {k : Str → Option α} {l : List Str} {a : α}
    (hk : k (tokenAt isPkgPathSep rest) = if ∀ t ∈ l, SevenBit t then some a else none) :
    (match tableScan isPkgPathSep rest with
      | none => none
      | some len => k (rest.take len)) =
      if ∀ t ∈ tokenAt isPkgPathSep rest :: l, SevenBit t then some a else none := by
  rw [← sevenBit_cons_list hk, tableScan_eq isPkgPathSep_isTable]
  by_cases h : SevenBit (tokenAt isPkgPathSep rest)
  · rw [if_pos h, if_pos h]
    dsimp only
    rw [take_tokenAt]
  · rw [if_neg h, if_neg h]

theorem ite_scans_eq {p : Prop} [Decidable p] {x : Option α} {l : List Str} {a b : α}
    (hx : ¬ p → x = if ∀ t ∈ l, SevenBit t then some b else none) :
    (if p then some a else x) =
      if ∀ t ∈ if p then [] else l, SevenBit t then some (if p then a else b) else none := by
  by_cases h : p
  · simp only [h, if_true]
    exact (if_pos fun t ht => by cases ht).symm
  · simp only [h, if_false]
    exact hx h

theorem Search.stepT_eq (s : Search) : s.stepT stack target =
    if ∀ t ∈ s.scans stack target, SevenBit t then some (s.step stack target) else none := by
  rw [Search.stepT, Search.scans, Search.step]
  dsimp only
  generalize (if vfpGetBytesRemaining s.cf = 0 then nul else s.cf.ptr.deref) = c
  by_cases hslash : c = '/'
  · simp only [if_pos hslash]
    refine scanPath_eq (k := fun cpath =>
      if (vfpIncCurrPtrBy s.cf cpath.length).ptr.deref = nul then
        some (.inl (({ s with cf := vfpIncCurrPtrBy s.cf cpath.length } : Search).fail
          "incomplete entry"))
      else ({ s with
        cf := vfpIncCurrPtrBy s.cf cpath.length
        ept := { s.ept with path := some [] } } : Search).atPathT stack target false s.cf.curr
          s.cf.curr cpath) ?_
    exact ite_scans_eq fun _ => Search.atPathT_eq stack target _ false _ _ _
  · simp only [if_neg hslash]
    by_cases hskip : c = nul ∨ isspace c ∨ c = '#' ∨ c = ':'
    · simp only [if_pos hskip]
      exact scans_nil _
    · simp only [if_neg hskip]
      rw [if_neg fun h => hskip (.inl h), if_neg fun h => hskip (.inr h), readType_tables]
      by_cases htype : ∀ t ∈ scannedBy (readType scanReaders s.ept (s.cf.ptr, [])), SevenBit t
      · rw [if_pos htype]
        simp only [List.forall_mem_append, eq_true htype, true_and]
        obtain ⟨r, p, hr, -⟩ := keeps_readType 0 (s.cf.ptr.rest.length + 1) s.ept s.cf.ptr
          ⟨Nat.zero_le _, Nat.lt_succ_self _⟩
        rw [hr]
        cases r with
        | error e => exact scans_nil _
        | ok ept =>
          refine scanPath_eq (k := fun cpath =>
            if cpath = [] then
              some (.inl (({ s with cf := s.cf.moveTo p.pos, ept := ept } : Search).fail
                "unable to read pathname field"))
            else ({ s with
              cf := vfpIncCurrPtrBy (s.cf.moveTo p.pos) cpath.length
              ept := { ept with path := some [] } } : Search).atPathT stack target true s.cf.curr
                p.pos cpath) ?_
          exact ite_scans_eq fun _ => Search.atPathT_eq stack target _ true _ _ _
      · rw [if_neg htype, if_neg fun h => htype (List.forall_mem_append.mp h).1]

theorem Search.runT_eq (f : Nat) (s : Search) : s.runT stack target f =
    if ∀ t ∈ s.runScans stack target f, SevenBit t then some (s.run stack target f) else none := by
  induction f generalizing s with
  | zero => exact scans_nil _
  | succ f ih =>
    rw [Search.runT, Search.runScans, Search.run, Search.stepT_eq]
    by_cases hs : ∀ t ∈ s.scans stack target, SevenBit t
    · rw [if_pos hs]
      simp only [List.forall_mem_append, eq_true hs, true_and]
      cases s.step stack target with
      | inl r => exact scans_nil _
      | inr s => exact ih s
    · rw [if_neg hs, if_neg fun h => hs (List.forall_mem_append.mp h).1]

end Search

section Narrow
variable (mem path : Str)

theorem comparePathT_eq (pm : Nat) : comparePathT mem path pm =
    if SevenBit (tokenAt isPkgPathSep (mem.drop pm)) then some (comparePath mem path pm)
    else none := by
  rw [comparePathT, tableScan_eq isPkgPathSep_isTable]
  split <;> rfl

theorem compareScan_eq (pm : Nat) {k : Option Int → Option α} {l : List Str} {a : α}
    (hk : k (comparePath mem path pm) = if ∀ t ∈ l, SevenBit t then some a else none) :
    (comparePathT mem path pm).bind k =
      if ∀ t ∈ tokenAt isPkgPathSep (mem.drop pm) :: l, SevenBit t then some a else none := by
  rw [← sevenBit_cons_list hk, comparePathT_eq]
  by_cases h : SevenBit (tokenAt isPkgPathSep (mem.drop pm))
  · rw [if_pos h, if_pos h]
    rfl
  · rw [if_neg h, if_neg h]
    rfl

theorem bisectT_eq (f plow phigh : Nat) : bisectT mem path f plow phigh =
    if ∀ t ∈ bisectPaths mem path f plow phigh, SevenBit t then
      some (bisect mem path f plow phigh) else none := by
  induction f generalizing plow phigh with
  | zero => exact scans_nil _
  | succ f ih =>
    rw [bisectT, bisectPaths, bisect]
    refine ite_scans_eq fun _ => ?_
    generalize backUp mem plow (plow + (phigh - plow) / 2) = pm
    refine compareScan_eq mem path pm ?_
    cases comparePath mem path pm with
    | none => exact scans_nil _
    | some n =>
      dsimp only
      split
      · exact ih _ _
      · exact ih _ _

theorem narrowSearchT_eq (v : Vfp) : narrowSearchT v path =
    if ∀ t ∈ narrowPaths v path, SevenBit t then some (narrowSearch v path) else none := by
  rw [narrowSearchT, narrowPaths, narrowSearch]
  dsimp only
  refine ite_scans_eq fun _ => ite_scans_eq fun _ => compareScan_eq _ path v.curr ?_
  cases comparePath v.mem path v.curr with
  | none => exact scans_nil _
  | some n =>
    refine ite_scans_eq fun _ => ?_
    generalize backUp v.mem v.curr v.highWater.toNat = pm
    by_cases hlast : pm > v.curr ∧ v.mem.getD pm nul = '/'
    · simp only [if_pos hlast]
      refine compareScan_eq _ path pm ?_
      cases comparePath v.mem path pm with
      | none => exact scans_nil _
      | some n => exact ite_scans_eq fun _ => bisectT_eq _ path _ _ _
    · simp only [if_neg hlast]
      exact bisectT_eq _ path _ _ _

end Narrow

/-- `srchcfile` with its tables is `srchcfile` just if all that it scans is below 128. -/
theorem srchcfileT_eq (stack : Str) (ept : Cfent) (path : Option Str) (cf : Vfp)
    (tmp : Option Vfp) : srchcfileT stack ept path cf tmp =
      if ∀ t ∈ srchcfileScans stack ept path cf tmp, SevenBit t then
        some (srchcfile stack ept path cf tmp) else none := by
  rw [srchcfileT.eq_def, srchcfileScans.eq_def]
  by_cases hempty : vfpGetBytesRemaining cf ≤ 1
  · simp only [if_pos hempty]
    exact scans_nil _
  simp only [if_neg hempty]
  match path with
  | none => exact scans_nil _
  | some [] => exact scans_nil _
  | some (c :: path) =>
    by_cases hslash : c = '/'
    · have hhead : (c :: path).head? = some '/' := congrArg some hslash
      have hsearch : srchcfile stack ept (some (c :: path)) cf tmp =
          (searchStart (initEntry ept) cf tmp (narrowSearch cf (c :: path))).run stack
            (some (c :: path)) (cf.mem.length + 2) := by
        rw [srchcfile, if_neg hempty]
        exact if_pos hslash
      simp only [if_pos hhead]
      rw [hsearch, narrowSearchT_eq]
      by_cases hnarrow : ∀ t ∈ narrowPaths cf (c :: path), SevenBit t
      · rw [if_pos hnarrow, Option.bind_some, Search.runT_eq]
        simp only [List.forall_mem_append, eq_true hnarrow, true_and]
      · rw [if_neg hnarrow, if_neg fun h => hnarrow (List.forall_mem_append.mp h).1]
        rfl
    · have hhead : (c :: path).head? ≠ some '/' := fun h => hslash (Option.some_inj.mp h)
      simp only [if_neg hhead]
      by_cases hany : c :: path = ['*']
      · have hsearch : srchcfile stack ept (some (c :: path)) cf tmp =
            (searchStart (initEntry ept) cf tmp none).run stack none (cf.mem.length + 2) := by
          rw [srchcfile, if_neg hempty]
          exact (if_neg hslash).trans (if_pos hany)
        simp only [if_pos hany]
        rw [hsearch, Search.runT_eq]
      · simp only [if_neg hany]
        exact scans_nil _

/-- Where every index into `ISPKGPATHSEP`, `ISWORDSEP` and `ISPKGNAMESEP` is in range, and each scan
stops at the first separator: in a search, in its narrowing, and in a call of `getstr`. -/
theorem separatorTables_iff (stack : Str) (ept : Cfent) (path : Option Str) (cf : Vfp)
    (tmp : Option Vfp) (name : Str) (n : Nat) (p : Ptr) (c : Char) :
    ((0 ≤ tableIndex c ∧ tableIndex c ≤ ucharMax) ↔ c.toNat % 256 < 128) ∧
    (srchcfileT stack ept path cf tmp =
      if ∀ t ∈ srchcfileScans stack ept path cf tmp, SevenBit t then
        some (srchcfile stack ept path cf tmp) else none) ∧
    (narrowSearchT cf name =
      if ∀ t ∈ narrowPaths cf name, SevenBit t then some (narrowSearch cf name) else none) ∧
    ∀ sep ∈ [isPkgPathSep, isWordSep, isPkgNameSep], getstrT n sep p =
      if SevenBit (tokenAt sep (p.add (spaceLen p)).rest) then some (getstr n sep p) else none := by
  refine ⟨tableIndex_inRange c, srchcfileT_eq stack ept path cf tmp, narrowSearchT_eq name cf, ?_⟩
  intro sep hsep
  simp only [List.mem_cons, List.not_mem_nil, or_false] at hsep
  rcases hsep with rfl | rfl | rfl
  · exact getstrT_eq isPkgPathSep_isTable n p
  · exact getstrT_eq isWordSep_isTable n p
  · exact getstrT_eq isPkgNameSep_isTable n p

/-- An image whose first path has a byte above 127, an accented letter in ISO 8859-1. -/
def latinImage : Str := '/' :: Char.ofNat 0xE9 :: " f none 0644 root sys 1 2 3 pkg\n".toList

theorem separatorTables_negative : tableIndex (Char.ofNat 0xE9) = -23 ∧
    narrowSearchT (vfpOpen latinImage) "/usr".toList = none ∧
    srchcfileT [] zeroEntry (some "/usr".toList) (vfpOpen latinImage) none = none ∧
    getstrT (pkgsiz + 1) isPkgNameSep ⟨1, latinImage.tail⟩ = none := by
  refine ⟨by decide, by decide +kernel, by decide +kernel, by decide⟩

end Pkgtools
