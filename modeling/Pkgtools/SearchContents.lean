import Pkgtools.CLib.Parse
import Pkgtools.Entry

namespace Pkgtools
open CLib
set_option autoImplicit true

/-- `ISPKGPATHSEP`. -/
def isPkgPathSep (c : Char) : Bool :=
  c == '=' || c == ' ' || c == '\t' || c == '\n' || c == nul

/-- `ISWORDSEP`. -/
def isWordSep (c : Char) : Bool := c == ' ' || c == '\t' || c == '\n' || c == nul

/-- `ISPKGNAMESEP`. -/
def isPkgNameSep (c : Char) : Bool :=
  c == ' ' || c == '\t' || c == '\n' || c == ':' || c == '\\' || c == nul

def spaceLen (p : Ptr) : Nat := (p.rest.takeWhile isspace).length

/-- `getnum`: whether it failed, and what it stored. -/
def getnum (base bad : Int) (p : Ptr) : (Bool × Option Int) × Ptr :=
  if p.rest = [] then ((false, none), p)
  else
    let q := p.add (spaceLen p)
    match q.rest with
    | [] => ((true, none), p.add (spaceLen p - 1))
    | c :: _ =>
      if c = '?' then ((false, some bad), q.add 1)
      else if c.isDigit = false then ((true, none), q)
      else
        let ds := q.rest.takeWhile Char.isDigit
        ((false, some (digitsValue base ds)), q.add ds.length)

/-- `getstr`: its return code, and what it stored. -/
def getstr (n : Nat) (sep : Char → Bool) (p : Ptr) : (Int × Option Str) × Ptr :=
  if p.rest = [] then ((1, none), p)
  else
    let q := p.add (spaceLen p)
    if q.rest = [] then ((1, none), p.add (spaceLen p - 1))
    else
      let tok := q.rest.takeWhile fun c => !sep c
      if tok.length < n then ((0, some tok), q.add tok.length)
      else ((-1, some (tok.take (n - 1))), q.add n)

/-- `getend`: whether there was more than white space on the line. -/
def getend (p : Ptr) : Bool × Ptr :=
  if p.rest = [] then (false, p)
  else
    let line := p.rest.takeWhile (· != '\n')
    (line.any fun c => !isspace c, p.add (line.length + 1))

def findend (p : Ptr) : Ptr :=
  if p.rest = [] then p
  else match p.findNewline with
    | some i => p.add (i + 1)
    | none => p.add p.rest.length

/-- `while (isspace ((c = vfpGetc (v)))) ;` -/
def getcNonspace (p : Ptr) : Char × Ptr :=
  ((p.add (spaceLen p)).deref, p.add (spaceLen p + 1))

/-- The calls that the parsing of an entry makes on its input. -/
structure FieldReaders (σ : Type) where
  getc : σ → Option (Char × σ)
  getcNonspace : σ → Option (Char × σ)
  ungetc : σ → Option (Unit × σ)
  getnum : Int → Int → σ → Option ((Bool × Option Int) × σ)
  getstr : Nat → (Char → Bool) → σ → Option ((Int × Option Str) × σ)
  getend : σ → Option (Bool × σ)
  findend : σ → Option (Unit × σ)

/-- The readers of `srchcfile.c`, on a pointer into the contents file. -/
def bufferReaders : FieldReaders Ptr where
  getc p := some (p.deref, p.add 1)
  getcNonspace p := some (getcNonspace p)
  ungetc p := some ((), ⟨p.pos - 1, p.rest⟩)
  getnum base bad p := some (getnum base bad p)
  getstr n sep p := some (getstr n sep p)
  getend p := some (getend p)
  findend p := some ((), findend p)

/-- What a failed call leaves behind: the text for `getErrstr` and the entry filled so far. -/
structure Fail where
  errstr : Str
  ept : Cfent
  deriving DecidableEq, Repr

section Fields
variable (R : FieldReaders σ)

/-- `setErrstr (..); findend (..); return (-1);` -/
def failAtEnd (errstr : String) (ept : Cfent) : Parse σ Fail α := do
  let _ ← Parse.prim R.findend
  Parse.raise ⟨errstr.toList, ept⟩

def numField (base bad : Int) (store : Int → Cfent → Cfent) (errstr : String) (ept : Cfent) :
    Parse σ Fail Cfent := do
  let (failed, v) ← Parse.prim (R.getnum base bad)
  let ept := v.elim ept fun v => store v ept
  if failed then failAtEnd R errstr ept else pure ept

def strField (n : Nat) (store : Str → Cfent → Cfent) (errstr : String) (ept : Cfent) :
    Parse σ Fail Cfent := do
  let (c, v) ← Parse.prim (R.getstr n isWordSep)
  let ept := v.elim ept fun v => store v ept
  if c ≠ 0 then failAtEnd R errstr ept else pure ept

def readType (ept : Cfent) : Parse σ Fail Cfent := do
  let c ← Parse.prim R.getcNonspace
  if isFtype c then
    strField R clssiz (fun s e => { e with pkgClass := s }) "unable to read class token"
      { ept with ftype := c }
  else if c = nul then do
    let _ ← Parse.prim R.ungetc
    Parse.raise ⟨"incomplete entry".toList, ept⟩
  else if c.isDigit then failAtEnd R "volume number not expected" ept
  else if c = 'i' then failAtEnd R "ftype <i> not expected" ept
  else failAtEnd R "unknown ftype" ept

/-- A `long` stored at `&ept->ainfo.major`, which is only 32 bits wide, also fills the minor. -/
def storeMajor (v : Int) (e : Cfent) : Cfent :=
  { e with ainfo := { e.ainfo with major := wrap 32 v, minor := wrap 32 (v / 2 ^ 32) } }

def storeMinor (v : Int) (e : Cfent) : Cfent :=
  { e with ainfo := { e.ainfo with minor := wrap 32 v } }

/-- A `long` stored at `&ept->ainfo.mode`, which is only 16 bits wide, also fills the first bytes of
the owner, low byte first. -/
def storeMode (v : Int) (e : Cfent) : Cfent :=
  let byte (i : Nat) := Char.ofNat (v / 2 ^ (16 + 8 * i) % 2 ^ 8).toNat
  let owner := ((List.range 6).map byte).takeWhile (· != nul)
  { e with ainfo := { e.ainfo with mode := (v % 2 ^ 16).toNat, owner := owner } }

def storeOwner (s : Str) (e : Cfent) : Cfent := { e with ainfo := { e.ainfo with owner := s } }

def storeGroup (s : Str) (e : Cfent) : Cfent := { e with ainfo := { e.ainfo with group := s } }

def storeSize (v : Int) (e : Cfent) : Cfent := { e with cinfo := { e.cinfo with size := v } }

def storeCksum (v : Int) (e : Cfent) : Cfent := { e with cinfo := { e.cinfo with cksum := v } }

def storeModtime (v : Int) (e : Cfent) : Cfent := { e with cinfo := { e.cinfo with modtime := v } }

def readDevice (ept : Cfent) : Parse σ Fail Cfent := do
  let errstr := "unable to read major/minor device numbers"
  let ept := storeMinor badMinor (storeMajor badMajor ept)
  let ept ← numField R 10 badMajor storeMajor errstr ept
  numField R 10 badMinor storeMinor errstr ept

def readAttrs (ept : Cfent) : Parse σ Fail Cfent := do
  let errstr := "unable to read mode/owner/group"
  let ept ← numField R 8 badMode storeMode errstr ept
  let ept ← strField R (atrsiz + 1) storeOwner errstr ept
  strField R (atrsiz + 1) storeGroup errstr ept

def readContent (ept : Cfent) : Parse σ Fail Cfent := do
  let errstr := "unable to read content info"
  let ept ← numField R 10 badCont storeSize errstr ept
  let ept ← numField R 10 badCont storeCksum errstr ept
  numField R 10 badCont storeModtime errstr ept

/-- The characters `srchcfile` takes off the front of a package name as its status. -/
def isStatus (c : Char) : Bool := c ∈ "-+*~!%".toList

def newPinfo (pkgname : Str) : Pinfo :=
  match pkgname with
  | c :: name => if isStatus c then ⟨c, name, 0, []⟩ else ⟨nul, pkgname, 0, []⟩
  | [] => ⟨nul, [], 0, []⟩

/-- The backslash behind the name of a package whose file is editable. -/
def readEditflag (x : Char × Pinfo) : Parse σ Fail (Char × Pinfo) := do
  let c ← Parse.prim R.getc
  pure (c, { x.2 with editflag := 1 })

/-- The class behind a package name. The buffer `classname` keeps its old contents when there is no
class to read. -/
def readAclass (x : Char × Pinfo × Str) : Parse σ Fail (Char × Pinfo × Str) := do
  let (_, v) ← Parse.prim (R.getstr (clssiz + 1) isWordSep)
  let classname := v.getD x.2.2
  let c ← Parse.prim R.getc
  pure (c, { x.2.1 with aclass := strlcpy (atrsiz + 1) classname }, classname)

/-- What follows a package name, and the character behind it. -/
def readPkgSuffix (pinfo : Pinfo) (classname : Str) : Parse σ Fail (Char × Pinfo × Str) := do
  let c ← Parse.prim R.getc
  let (c, pinfo) ← Parse.onlyIf (c = '\\') (readEditflag R) (c, pinfo)
  Parse.onlyIf (c = ':') (readAclass R) (c, pinfo, classname)

/-- One round of the loop over the packages, after `getstr` was called for a package name. -/
def readPackage (next : Str → Cfent → Parse σ Fail Cfent) (classname : Str) (ept : Cfent)
    (x : Int × Option Str) : Parse σ Fail Cfent :=
  if x.1 < 0 then failAtEnd R "package name too long" ept
  else if x.1 > 0 then do
    let extra ← Parse.prim R.getend
    if extra ∧ ept.pinfo ≠ [] then Parse.raise ⟨"extra token(s) on input line".toList, ept⟩
    else pure ept
  else do
    let (c, pinfo, classname) ← readPkgSuffix R (newPinfo (x.2.getD [])) classname
    let ept := { ept with npkgs := wrap 16 (ept.npkgs + 1), pinfo := ept.pinfo ++ [pinfo] }
    if c = '\n' ∨ c = nul then pure ept
    else if isspace c = false then failAtEnd R "bad end of entry" ept
    else next classname ept

def readPackages : Nat → Str → Cfent → Parse σ Fail Cfent
  | 0, _, _ => fun _ => none
  | f + 1, classname, ept => do
    let x ← Parse.prim (R.getstr (pkgsiz + 1) isPkgNameSep)
    readPackage R (readPackages f) classname ept x

/-- The end of an entry: an `i` entry has no packages. -/
def readLast (fuel : Nat) (classname : Str) (ept : Cfent) : Parse σ Fail Cfent :=
  if ept.ftype = 'i' then do
    let extra ← Parse.prim R.getend
    if extra then Parse.raise ⟨"extra token(s) on input line".toList, ept⟩ else pure ept
  else readPackages R fuel classname ept

/-- What follows the type, class and path of an entry. -/
def readFields (fuel : Nat) (classname : Str) (ept : Cfent) : Parse σ Fail Cfent := do
  if isLink ept.ftype ∧ ept.ainfo.localPath = none then failAtEnd R "no link source specified" ept
  else do
    let ept ← Parse.onlyIf (isDevice ept.ftype) (readDevice R) ept
    let ept ← Parse.onlyIf (hasAttrs ept.ftype) (readAttrs R) ept
    let ept ← Parse.onlyIf (hasContent ept.ftype ∨ ept.ftype = 'i') (readContent R) ept
    readLast R fuel classname ept

/-- The target of a link. One that is too long is not stored. -/
def readLocal (ept : Cfent) : Parse σ Fail Cfent :=
  (strField R pathMax (fun s e => { e with ainfo := { e.ainfo with localPath := some s } })
    "unable to read local/link path" ept).mapError fun e => { e with ept := ept }

/-- The rest of an entry whose path was read, from the character `c` behind the path on. -/
def readEntry (fuel : Nat) (classname : Str) (rdpath : Bool) (c : Char) (ept : Cfent) :
    Parse σ Fail Cfent := do
  let ept ← Parse.onlyIf (c = '=') (readLocal R) ept
  let ept ← Parse.onlyIf (rdpath = false) (readType R) ept
  readFields R fuel classname ept

end Fields

/-- `COPYPATH`. -/
def copyPath (s : Str) : Str := if s.length > pathMax then s.take (pathMax - 1) else s

/-- The values `srchcfile` starts an entry with; the device numbers are left alone. -/
def initEntry (ept : Cfent) : Cfent where
  volno := 0
  ftype := '?'
  pkgClass := badClass
  pkgClassIdx := -1
  path := none
  ainfo :=
    { ept.ainfo with localPath := none, mode := badMode, owner := badOwner, group := badGroup }
  cinfo := ⟨badCont, badCont, badCont⟩
  npkgs := 0
  pinfo := []

/-- The comparison of `narrowSearch` with the path at `pm`; `none` for an exact match. -/
def comparePath (mem path : Str) (pm : Nat) : Option Int :=
  let plen := ((mem.drop pm).takeWhile fun c => !isPkgPathSep c).length
  let n := strncmp path (mem.drop pm) plen
  if n = 0 then if path.length = plen then none else some path.length
  else some n

/-- The start of a line with an absolute path, found by its bytes. -/
def isPathStart (mem : Str) (p : Nat) : Bool :=
  mem.getD p nul == '/' && mem.getD (p - 1) nul == '\n'

/-- Back up to the start of such a line, or to `plow`. -/
def backUp (mem : Str) (plow : Nat) : Nat → Nat
  | 0 => 0
  | p + 1 => if plow < p + 1 ∧ isPathStart mem (p + 1) = false then backUp mem plow p else p + 1

/-- The binary search of `narrowSearch`. -/
def bisect (mem path : Str) : Nat → Nat → Nat → Option Nat
  | 0, _, _ => none
  | f + 1, plow, phigh =>
    let pm := backUp mem plow (plow + (phigh - plow) / 2)
    if pm ≤ plow then some plow
    else match comparePath mem path pm with
      | none => some pm
      | some n => if n > 0 then bisect mem path f pm phigh else bisect mem path f plow pm

def narrowSearch (v : Vfp) (path : Str) : Option Nat :=
  let plast := v.highWater.toNat
  if path = [] ∨ vfpGetBytesRemaining v ≤ 1 then none
  else if v.ptr.deref ≠ '/' then none
  else match comparePath v.mem path v.curr with
    | none => some v.curr
    | some n =>
      if n ≤ 0 then some v.curr
      else
        let pm := backUp v.mem v.curr plast
        if pm > v.curr ∧ v.mem.getD pm nul = '/' then
          match comparePath v.mem path pm with
          | none => some pm
          | some n =>
            if n ≥ 0 then some pm else bisect v.mem path (v.mem.length + 1) v.curr plast
        else bisect v.mem path (v.mem.length + 1) v.curr plast

/-- What `srchcfile` returns and leaves behind. -/
structure Found where
  ret : Int
  errstr : Option Str
  ept : Cfent
  cf : Vfp
  tmp : Option Vfp

/-- The variables of the main loop of `srchcfile`. -/
structure Search where
  cf : Vfp
  tmp : Option Vfp
  ept : Cfent
  firstPos : Nat
  lastPos : Nat
  dataSkipped : Bool

/-- `WRITEDATA`. -/
def writeData (tmp : Vfp) (mem : Str) (firstPos lastPos : Nat) : Vfp :=
  vfpPutBytes tmp ((mem.drop firstPos).take (lastPos - firstPos))

/-- The temporary file after any skipped data is written out. -/
def Search.flushed (s : Search) : Option Vfp :=
  if s.dataSkipped then s.tmp.map fun t => writeData t s.cf.mem s.firstPos s.lastPos else s.tmp

def Vfp.moveTo (v : Vfp) (p : Nat) : Vfp := { v with curr := p }

/-- The result of parsing an entry, as `srchcfile` returns it. -/
def Search.finish (s : Search) (r : Option (Except Fail Cfent × Ptr)) : Found :=
  match r with
  | some (.ok ept, p) => ⟨1, none, ept, s.cf.moveTo p.pos, s.flushed⟩
  | some (.error e, p) => ⟨-1, some e.errstr, e.ept, s.cf.moveTo p.pos, s.tmp⟩
  | none => ⟨-1, none, s.ept, s.cf, s.tmp⟩

def Search.fail (s : Search) (errstr : String) : Found :=
  ⟨-1, some errstr.toList, s.ept, s.cf.moveTo (findend s.cf.ptr).pos, s.tmp⟩

/-- Skip an old-style entry that is less than the path: its line is rewritten in the new style. -/
def Search.rewrite (s : Search) (t : Vfp) (cpath : Str) (c : Char) : Search :=
  let t := if s.dataSkipped then writeData t s.cf.mem s.firstPos s.lastPos else t
  let t := vfpPuts (vfpPutc (vfpPutc (vfpPutc (vfpPutBytes t cpath) c) s.ept.ftype) ' ')
    s.ept.pkgClass
  let (t, cf) := match s.cf.ptr.findNewline with
    | none =>
      (vfpPutc (vfpPutBytes t ((s.cf.mem.drop s.cf.curr).take (vfpGetBytesRemaining s.cf))) '\n',
        vfpSeekToEnd s.cf)
    | some len =>
      (vfpPutBytes t ((s.cf.mem.drop s.cf.curr).take len), vfpIncCurrPtrBy s.cf len)
  if s.dataSkipped then
    { s with cf := cf, tmp := some t, dataSkipped := false, lastPos := 0, firstPos := cf.curr }
  else { s with cf := cf, tmp := some t }

/-- Skip a new-style entry that is less than the path. -/
def Search.skip (s : Search) : Search :=
  let cf := match s.cf.ptr.findNewline with
    | none => vfpSeekToEnd s.cf
    | some len => vfpIncCurrPtrBy s.cf (len + 1)
  { s with cf := cf, dataSkipped := true, lastPos := cf.curr }

/-- The comparison of the path searched for, if it is not `*`, with the one found. -/
def compareEntry (target : Option Str) (mem cpath : Str) (start : Nat) : Int :=
  match target with
  | none => 0
  | some path =>
    let n := strncmp path (mem.drop start) cpath.length
    if n = 0 ∧ cpath.length ≠ path.length then cpath.length else n

/-- The loop body from the end of the path on, for an entry that starts at `pos`. -/
def Search.atPath (s : Search) (stack : Str) (target : Option Str) (rdpath : Bool) (pos start : Nat)
    (cpath : Str) : Found ⊕ Search :=
  let n := compareEntry target s.cf.mem cpath start
  let c := s.cf.ptr.deref
  let s := { s with cf := s.cf.moveTo (s.cf.curr + 1) }
  let ept := { s.ept with path := some (copyPath cpath) }
  if n = 0 then
    .inl (s.finish (readEntry bufferReaders (s.cf.mem.length + 1) stack rdpath c ept s.cf.ptr))
  else if n < 0 then .inl ⟨2, none, ept, vfpSetCurrCharPtr s.cf pos, s.flushed⟩
  else match s.tmp with
    | some t => .inr (if rdpath then s.rewrite t cpath c else s.skip)
    | none => match s.cf.ptr.findNewline with
      | none => .inl ({ s with ept := ept, cf := vfpSeekToEnd s.cf }.fail
          "missing newline at end of entry")
      | some len => .inr { s with cf := vfpIncCurrPtrBy s.cf (len + 1) }

/-- One round of the main loop of `srchcfile`. -/
def Search.step (s : Search) (stack : Str) (target : Option Str) : Found ⊕ Search :=
  let c := if vfpGetBytesRemaining s.cf = 0 then nul else s.cf.ptr.deref
  if c = '/' then
    let cpath := s.cf.ptr.rest.takeWhile fun c => !isPkgPathSep c
    let pos := s.cf.curr
    let s := { s with cf := vfpIncCurrPtrBy s.cf cpath.length }
    if s.cf.ptr.deref = nul then .inl (s.fail "incomplete entry")
    else { s with ept := { s.ept with path := some [] } }.atPath stack target false pos pos cpath
  else if c = nul then
    .inl ⟨0, none, s.ept, s.cf,
      if s.dataSkipped then s.flushed.map vfpTerminate else s.tmp⟩
  else if isspace c ∨ c = '#' ∨ c = ':' then
    .inr { s with cf := s.cf.moveTo (findend s.cf.ptr).pos }
  else match readType bufferReaders s.ept s.cf.ptr with
    | some (.ok ept, p) =>
      let cpath := p.rest.takeWhile fun c => !isPkgPathSep c
      let s' := { s with cf := s.cf.moveTo p.pos, ept := ept }
      if cpath = [] then .inl (s'.fail "unable to read pathname field")
      else
        { s' with
          cf := vfpIncCurrPtrBy s'.cf cpath.length
          ept := { ept with path := some [] } }.atPath stack target true s.cf.curr p.pos cpath
    | r => .inl (s.finish r)

/-- The main loop of `srchcfile`; every round moves the current character on. -/
def Search.run (stack : Str) (target : Option Str) : Nat → Search → Found
  | 0, s => ⟨0, none, s.ept, s.cf, s.tmp⟩
  | f + 1, s =>
    match s.step stack target with
    | .inl r => r
    | .inr s => s.run stack target f

/-- `srchcfile` from the point where the search is narrowed to `np`. -/
def searchFrom (stack : Str) (ept : Cfent) (target : Option Str) (cf : Vfp) (tmp : Option Vfp)
    (np : Option Nat) : Found :=
  let s : Search := match np with
    | some np => ⟨vfpSetCurrCharPtr cf np, tmp, ept, cf.curr, np, true⟩
    | none => ⟨cf, tmp, ept, cf.curr, 0, false⟩
  s.run stack target (cf.mem.length + 2)

/-- The request to copy all that remains, made with no path. -/
def copyRemaining (ept : Cfent) (cf : Vfp) (tmp : Option Vfp) : Found :=
  let tmp := tmp.map fun t =>
    vfpTerminate (if vfpGetBytesRemaining cf > 0 then
      writeData t cf.mem cf.curr (cf.highWater + 1).toNat else t)
  ⟨0, none, ept, vfpSeekToEnd cf, tmp⟩

/-- `srchcfile`. `stack` is what its uninitialised buffer `classname` holds. -/
def srchcfile (stack : Str) (ept : Cfent) (path : Option Str) (cf : Vfp) (tmp : Option Vfp) :
    Found :=
  let ept := initEntry ept
  if vfpGetBytesRemaining cf ≤ 1 then ⟨0, none, ept, cf, tmp⟩
  else match path with
    | none => copyRemaining ept cf tmp
    | some [] => copyRemaining ept cf tmp
    | some (c :: path) =>
      if c = '/' then
        searchFrom stack ept (some (c :: path)) cf tmp (narrowSearch cf (c :: path))
      else if c :: path = ['*'] then searchFrom stack ept none cf tmp none
      else ⟨-1, some "illegal search path specified".toList, ept, cf, tmp⟩

end Pkgtools
