import Pkgtools.CLib.Scanf
import Pkgtools.SearchContents
import Pkgtools.Verify

namespace Pkgtools
open CLib
set_option autoImplicit true

/-- Modes of `setmapmode`; `MAPALL` is 0. -/
def mapBuild : Int := 1
def mapInstall : Int := 2
def mapNone : Int := 3

/-- The static variables of `gpkgmap.c`, with the environment. -/
structure MapConfig where
  mapmode : Int
  dMode : Nat
  dOwner : Str
  dGroup : Str
  getenv : Str → Option Str

/-- The configuration at the start of a program: no variables are resolved and no default attributes
were set by `attrpreset`. -/
def MapConfig.initial (getenv : Str → Option Str) : MapConfig :=
  ⟨mapNone, badMode, badOwner, badGroup, getenv⟩

def MapConfig.maptype (cfg : MapConfig) : Str :=
  if cfg.mapmode = mapBuild then " build".toList
  else if cfg.mapmode = mapInstall then " install".toList
  else []

/-- The text of `ERR_NOVAR`. -/
def MapConfig.novar (cfg : MapConfig) (name : Str) : Str :=
  "no value defined for".toList ++ cfg.maptype ++ " variable <".toList ++ name ++ ">.".toList

/-- `mode (flag, pt)`: whether this is the time to resolve the variable. -/
def isBindTime (flag : Int) (s : Str) : Bool :=
  flag = 0 ∨ flag = 1 ∧ (s.getD 1 nul).isLower ∨ flag = 2 ∧ (s.getD 1 nul).isUpper

/-- `mapvar` on a buffer of `size` bytes: whether the variable has no value, and what the buffer
holds. It is undefined if the value does not fit. -/
def mapvar (cfg : MapConfig) (size : Nat) (s : Str) : Option (Bool × Str) :=
  let flag := cfg.mapmode
  if s.head? = some '$' ∧ (s.getD 1 nul).isAlpha then
    if isBindTime flag s then
      match cfg.getenv s.tail with
      | some (c :: token) => if token.length + 1 < size then some (false, c :: token) else none
      | _ => some (true, s)
    else some (flag = 2 ∨ flag = 1 ∧ (s.getD 1 nul).isLower, s)
  else some (false, s)

/-- `strtol` to base 8, as a 16-bit `mode_t`. -/
def strtolMode (s : Str) : Nat :=
  let (sign, s) := scanSign (skipSpace s)
  let ds := s.takeWhile fun c => c.isDigit && c.toNat < 56
  let x := sign * Nat.ofDigitChars 8 ds 0
  (max (-2 ^ 63) (min x (2 ^ 63 - 1)) % 2 ^ 16).toNat

/-- The loop of `getvalmode` over the digits of a mode. -/
def checkDigits : Str → Option String
  | [] => none
  | c :: s =>
    if isspace c then none
    else if c.isDigit = false then some "mode is not numeric."
    else if c ∈ "89abcdefABCDEF".toList then some "invalid base for mode."
    else checkDigits s

/-- The end of `getvalmode`, for a mode string without `?`. -/
def modeDigits (cfg : MapConfig) (tempmode : Str) : Except Str Nat :=
  if tempmode.head? = some '$' then .ok badMode
  else match checkDigits tempmode with
    | some errstr => .error errstr.toList
    | none =>
      if strtolMode tempmode > 0o7777 then
        if cfg.mapmode ≠ mapBuild then .ok badMode else .error "invalid bits set in mode.".toList
      else .ok (strtolMode tempmode)

/-- `getvalmode` once the mode string was read into a buffer of `size` bytes. -/
def modeValue (cfg : MapConfig) (size : Nat) (tempmode : Str) : Option (Except Str Nat) :=
  if tempmode.head? = some '?' then some (.ok wildcard)
  -- a mode may not be an install parameter
  else if tempmode.head? = some '$' ∧
      ((tempmode.getD 1 nul).isUpper ∨ (tempmode.getD 1 nul).isLower = false) then
    some (.error "mode must not be parametric at install time.".toList)
  else if cfg.mapmode ≠ mapNone then
    (mapvar cfg size tempmode).map fun (unset, tempmode) =>
      if unset then .error (cfg.novar tempmode) else modeDigits cfg tempmode
  else some (modeDigits cfg tempmode)

/-- The calls that the two versions of `gpkgmap` make on their input. The end of the input is
`none`. -/
structure MapReaders (σ : Type) where
  /-- The first character of the next token, at the label `readline`. -/
  first : σ → Option (Option Char × σ)
  getc : σ → Option (Option Char × σ)
  /-- The next character that is not white space, behind the type `i`. -/
  eatwhite : σ → Option (Option Char × σ)
  ungetc : Option Char → σ → Option (Unit × σ)
  getnum : Int → Int → σ → Option ((Bool × Option Int) × σ)
  /-- The separators besides white space, the longest string and the size of the buffer. -/
  getstr : Str → Nat → Nat → σ → Option ((Int × Option Str) × σ)
  getend : σ → Option (Bool × σ)
  findend : σ → Option (Unit × σ)
  /-- The longest mode string and the size of its buffer. -/
  modeLimit : Nat
  modeSize : Nat

/-- The values an entry starts with; the packages are left alone. -/
def mapInit (cfg : MapConfig) (ept : Cfent) : Cfent where
  volno := 0
  ftype := '?'
  pkgClass := badClass
  pkgClassIdx := -1
  path := none
  ainfo := ⟨none, cfg.dMode, cfg.dOwner, cfg.dGroup, badMajor, badMinor⟩
  cinfo := ⟨badCont, badCont, badCont⟩
  npkgs := 0
  pinfo := ept.pinfo

section Entry
variable (R : MapReaders σ) (cfg : MapConfig)

/-- `setErrstr (..); goto error;` -/
def mapError (errstr : Str) (ept : Cfent) : Parse σ Fail α := do
  let _ ← Parse.prim R.findend
  Parse.raise ⟨errstr, ept⟩

def mapNum (bad : Int) (store : Int → Cfent → Cfent) (errstr : String) (ept : Cfent) :
    Parse σ Fail Cfent := do
  let (failed, v) ← Parse.prim (R.getnum 10 bad)
  let ept := v.elim ept fun v => store v ept
  if failed then mapError R errstr.toList ept else pure ept

def mapStr (sep : Str) (n size : Nat) (store : Str → Cfent → Cfent) (errstr : String)
    (ept : Cfent) : Parse σ Fail Cfent := do
  let (c, v) ← Parse.prim (R.getstr sep n size)
  let ept := v.elim ept fun v => store v ept
  if c ≠ 0 then mapError R errstr.toList ept else pure ept

def storeClass (s : Str) (e : Cfent) : Cfent := { e with pkgClass := s }

def storePath (s : Str) (e : Cfent) : Cfent := { e with path := some s }

def storeLocal (s : Str) (e : Cfent) : Cfent :=
  { e with ainfo := { e.ainfo with localPath := some s } }

def storeModeT (m : Nat) (e : Cfent) : Cfent := { e with ainfo := { e.ainfo with mode := m } }

/-- The path, up to the character behind it. -/
def mapPath (ept : Cfent) : Parse σ Fail Cfent :=
  mapStr R ['='] pathMax pathMax storePath "unable to read pathname field" ept

/-- The content info: nothing, or all three numbers. -/
def mapContent (ept : Cfent) : Parse σ Fail Cfent := do
  let errstr := "unable to read content info"
  let (failed, v) ← Parse.prim (R.getnum 10 badCont)
  let ept := v.elim ept fun v => storeSize v ept
  if failed then pure ept
  else do
    let ept ← mapNum R badCont storeCksum errstr ept
    mapNum R badCont storeModtime errstr ept

/-- No local path: the character behind the path is put back. -/
def mapNoLocal (c : Option Char) (ept : Cfent) : Parse σ Fail Cfent := do
  let _ ← Parse.prim (R.ungetc c)
  pure ept

/-- The local path behind `=`, if there is one. -/
def mapPathLocal (ept : Cfent) : Parse σ Fail Cfent := do
  let c ← Parse.prim R.getc
  if c = some '=' then
    mapStr R [] pathMax pathMax storeLocal "unable to read local pathname" ept
  else mapNoLocal R c ept

/-- The end of an entry of type `i`, or of one with a path only. -/
def mapPathEnd (ept : Cfent) : Parse σ Fail (Int × Cfent) := do
  let ept ← Parse.onlyIf (ept.ftype = 'i') (mapContent R) ept
  let extra ← Parse.prim R.getend
  if extra then Parse.raise ⟨"extra tokens on input line".toList, ept⟩ else pure (1, ept)

/-- An entry of type `i`, or one with a path only. -/
def mapPathOnly (ept : Cfent) : Parse σ Fail (Int × Cfent) := do
  let ept ← mapPath R ept
  let ept ← mapPathLocal R ept
  mapPathEnd R ept

/-- What follows the path of an entry with a type: a link needs its source. -/
def mapLocal (ept : Cfent) : Parse σ Fail Cfent := do
  let c ← Parse.prim R.getc
  if c = some '=' then
    mapStr R [] pathMax pathMax storeLocal
      (if isLink ept.ftype then "unable to read link specification."
        else "unable to read local pathname") ept
  else if isLink ept.ftype then do
    let err : Fail := ⟨"missing or invalid link specification".toList, ept⟩
    if c ≠ none ∧ c ≠ some '\n' then do
      let _ ← Parse.prim R.findend
      Parse.raise err
    else Parse.raise err
  else mapNoLocal R c ept

def mapDevice (ept : Cfent) : Parse σ Fail Cfent := do
  let errstr := "unable to read major/minor device numbers"
  let ept := storeMinor badMinor (storeMajor badMajor ept)
  let ept ← mapNum R badMajor storeMajor errstr ept
  mapNum R badMinor storeMinor errstr ept

/-- `mapvar` on the owner or the group. -/
def mapName (name : Str) (store : Str → Cfent → Cfent) (ept : Cfent) : Parse σ Fail Cfent :=
  match mapvar cfg (atrsiz + 1) name with
  | none => fun _ => none
  | some (unset, s) =>
    if unset then mapError R (cfg.novar name) (store s ept) else pure (store s ept)

def mapNames (ept : Cfent) : Parse σ Fail Cfent := do
  let ept ← mapName R cfg ept.ainfo.owner storeOwner ept
  mapName R cfg ept.ainfo.group storeGroup ept

/-- `getvalmode`: whether there is a mode on the line. -/
def mapMode (ept : Cfent) : Parse σ Fail (Bool × Cfent) := do
  let (retval, v) ← Parse.prim (R.getstr [] R.modeLimit R.modeSize)
  if retval = 1 then pure (false, ept)
  else if retval = -1 then mapError R "mode string is too long.".toList ept
  else match modeValue cfg R.modeSize (v.getD []) with
    | none => fun _ => none
    | some (.error errstr) => mapError R errstr ept
    | some (.ok mode) => pure (true, storeModeT mode ept)

/-- The owner or the group: whether it is on the line. -/
def mapAttr (store : Str → Cfent → Cfent) (errstr : String) (ept : Cfent) :
    Parse σ Fail (Bool × Cfent) := do
  let (retval, v) ← Parse.prim (R.getstr [] atrsiz (atrsiz + 1))
  if retval = 1 then pure (false, ept)
  else
    let ept := v.elim ept fun v => store v ept
    if retval = -1 then mapError R errstr.toList ept else pure (true, ept)

/-- Mode, owner and group. The line may end in front of each of them; whether it did not. -/
def mapAttrs (ept : Cfent) : Parse σ Fail (Bool × Cfent) := do
  let (more, ept) ← mapMode R cfg ept
  if more = false then pure (false, ept)
  else do
    let (more, ept) ← mapAttr R storeOwner "owner string is too long." ept
    if more = false then pure (false, ept)
    else do
      let (more, ept) ← mapAttr R storeGroup "group string is too long." ept
      if more = false then pure (false, ept)
      else do
        let ept ← Parse.onlyIf (cfg.mapmode ≠ mapNone) (mapNames R cfg) ept
        pure (true, ept)

/-- The attributes of an entry that can have them. -/
def mapTypedAttrs (ept : Cfent) : Parse σ Fail (Bool × Cfent) :=
  if hasAttrs ept.ftype then mapAttrs R cfg ept else pure (true, ept)

/-- The content description, unless the line ended before it. -/
def mapTypedContent (more : Bool) (ept : Cfent) : Parse σ Fail Cfent :=
  if more then Parse.onlyIf (hasContent ept.ftype ∨ ept.ftype = 'i') (mapContent R) ept
  else pure ept

/-- The label `end`: more text is an error only if the caller's entry has packages. -/
def mapEnd (ept : Cfent) : Parse σ Fail (Int × Cfent) := do
  let extra ← Parse.prim R.getend
  if extra ∧ ept.pinfo ≠ [] then Parse.raise ⟨"extra tokens on input line".toList, ept⟩
  else pure (1, ept)

/-- What follows the path of an entry with a type. -/
def mapFields (ept : Cfent) : Parse σ Fail (Int × Cfent) :=
  if isLink ept.ftype ∧ ept.ainfo.localPath = none then
    mapError R "no link source specified".toList ept
  else do
    let ept ← Parse.onlyIf (isDevice ept.ftype) (mapDevice R) ept
    let (more, ept) ← mapTypedAttrs R cfg ept
    let ept ← mapTypedContent R more ept
    mapEnd R ept

def mapTyped (c : Char) (ept : Cfent) : Parse σ Fail (Int × Cfent) := do
  let ept ← mapStr R [] clssiz (clssiz + 1) storeClass "unable to read class token"
    { ept with ftype := c }
  let ept ← mapPath R ept
  let ept ← mapLocal R ept
  mapFields R cfg ept

/-- The volume number, a `short`, from its first digit on. The character behind it is dropped. -/
def readVolno : Nat → Char → Int → Parse σ Fail Int
  | 0, _, _ => fun _ => none
  | f + 1, c, volno => do
    let volno := wrap 16 (volno * 10 + c.toNat - '0'.toNat)
    match ← Parse.prim R.getc with
    | some c => if c.isDigit then readVolno f c volno else pure volno
    | none => pure volno

/-- One line of the switch on the first character: the entry, or how it looks at the next
`readline`. -/
def mapSwitch (fuel : Nat) (c : Char) (ept : Cfent) : Parse σ Fail ((Int × Cfent) ⊕ Cfent) :=
  if c.isDigit then
    if ept.volno ≠ 0 then mapError R "bad volume number".toList ept
    else do
      let volno ← readVolno R fuel c ept.volno
      pure (.inr { ept with volno := if volno = 0 then 1 else volno })
  else if c = ':' ∨ c = '#' then do
    let _ ← Parse.prim R.findend
    pure (.inr ept)
  else if c = '\n' then pure (.inr ept)
  else if c = 'i' then do
    let d ← Parse.prim R.eatwhite
    let _ ← Parse.prim (R.ungetc d)
    let r ← mapPathOnly R { ept with ftype := 'i' }
    pure (.inl r)
  else if c = '.' ∨ c = '/' then do
    let _ ← Parse.prim (R.ungetc (some c))
    let r ← mapPathOnly R ept
    pure (.inl r)
  else if isFtype c then do
    let r ← mapTyped R cfg c ept
    pure (.inl r)
  else mapError R "unknown ftype".toList ept

/-- The label `readline`. -/
def readline (fuel : Nat) : Nat → Cfent → Parse σ Fail (Int × Cfent)
  | 0, _ => fun _ => none
  | f + 1, ept => do
    match ← Parse.prim R.first with
    | none => pure (0, ept)
    | some c =>
      match ← mapSwitch R cfg fuel c ept with
      | .inl r => pure r
      | .inr ept => readline fuel f ept

end Entry

namespace Gpkgmap

def isblank (c : Char) : Bool := c == ' ' || c == '\t'

/-- `eatwhite`. A `FILE` is the bytes that are left of it. -/
def eatwhite (fp : Str) : Option Char × Str :=
  let fp := fp.dropWhile isblank
  (fp.head?, fp.tail)

def ungetc (c : Option Char) (fp : Str) : Str := c.toList ++ fp

/-- `getnum`: whether it failed, and what it stored. -/
def getnum (base bad : Int) (fp : Str) : (Bool × Option Int) × Str :=
  match fp.dropWhile isblank with
  | [] => ((true, none), [])
  | c :: s =>
    if c = '?' then ((false, some bad), s)
    else if c.isDigit = false then ((true, none), c :: s)
    else
      ((false, some (digitsValue base ((c :: s).takeWhile Char.isDigit))),
        (c :: s).dropWhile Char.isDigit)

/-- The end of a string; `strchr` finds a NUL in any list of separators. -/
def endsStr (sep : Str) (c : Char) : Bool := isblank c || c == '\n' || c == nul || c ∈ sep

/-- `getstr` into a buffer of `size` bytes: its return code, and what it stored. It is undefined if
the string with its NUL does not fit. -/
def getstr (sep : Str) (n size : Nat) (fp : Str) : Option ((Int × Option Str) × Str) :=
  let s := fp.dropWhile isblank
  if s = [] ∨ s.head? = some '\n' then some ((1, none), s)
  else
    let tok := s.takeWhile fun c => !endsStr sep c
    if size ≤ min tok.length n then none
    else if n < tok.length then some ((-1, some (tok.take n)), s.drop (n + 1))
    else some ((0, some tok), s.drop tok.length)

def getend (fp : Str) : Bool × Str :=
  ((fp.takeWhile (· != '\n')).any fun c => !isspace c, (fp.dropWhile (· != '\n')).tail)

/-- The readers on a `FILE`. -/
def readers : MapReaders Str where
  first fp := some (eatwhite fp)
  getc fp := some (fp.head?, fp.tail)
  eatwhite fp := some (eatwhite fp)
  ungetc c fp := some ((), ungetc c fp)
  getnum base bad fp := some (getnum base bad fp)
  getstr := getstr
  getend fp := some (getend fp)
  findend fp := some ((), (getend fp).2)
  modeLimit := atrsiz
  modeSize := 20

end Gpkgmap

/-- `gpkgmap`: the code 1 with an entry, 0 at the end of the file, or an error. -/
def gpkgmap (cfg : MapConfig) (ept : Cfent) (fp : Str) : Option (Except Fail (Int × Cfent) × Str) :=
  readline Gpkgmap.readers cfg (fp.length + 1) (fp.length + 1) (mapInit cfg ept) fp

namespace Gpkgmapvfp

/-- `getnumvfp` and `getstrvfp` have the bodies of `getnum` and `getstr` of `srchcfile.c`. -/
def getnumvfp (base bad : Int) (p : Ptr) : (Bool × Option Int) × Ptr := getnum base bad p

/-- The string ends at a delimiter or at the NUL. -/
def getstrvfp (sep : Str) (n : Nat) (p : Ptr) : (Int × Option Str) × Ptr :=
  getstr n (fun c => c == ' ' || c == '\t' || c == '\n' || c ∈ sep || c == nul) p

def getendvfp (p : Ptr) : Bool × Ptr :=
  let line := p.rest.takeWhile (· != '\n')
  (line.any fun c => !isspace c, p.add (min (line.length + 1) p.rest.length))

def findendvfp (p : Ptr) : Ptr := findend p

/-- `while (((c = vfpGetcNoInc (vfp)) != '\0') && isspace (vfpGetc (vfp))) ;` -/
def skipWhite (vfp : Vfp) : Option Char × Vfp :=
  let p := vfp.ptr.add (spaceLen vfp.ptr)
  match p.rest with
  | [] => (none, vfp.moveTo p.pos)
  | c :: _ => (some c, vfp.moveTo (p.pos + 1))

/-- The test for the end of the file is made once the first character was read. -/
def first (vfp : Vfp) : Option Char × Vfp :=
  let (c, vfp) := skipWhite vfp
  if vfp.last < vfp.curr then (none, vfp) else (c, vfp)

/-- A reader on a pointer, run on the current character of a virtual file. -/
def onPtr (f : Ptr → α × Ptr) (vfp : Vfp) : Option (α × Vfp) :=
  let (a, p) := f vfp.ptr
  some (a, vfp.moveTo p.pos)

def readers : MapReaders Vfp where
  first vfp := some (first vfp)
  getc vfp := some (vfp.ptr.rest.head?, vfp.moveTo (vfp.curr + 1))
  eatwhite vfp := some (skipWhite vfp)
  ungetc _ vfp := some ((), vfp.moveTo (vfp.curr - 1))
  getnum base bad := onPtr (getnumvfp base bad)
  getstr sep n _ := onPtr (getstrvfp sep n)
  getend := onPtr getendvfp
  findend := onPtr fun p => ((), findendvfp p)
  modeLimit := atrsiz + 1
  modeSize := atrsiz + 1

end Gpkgmapvfp

/-- `gpkgmapvfp`. -/
def gpkgmapvfp (cfg : MapConfig) (ept : Cfent) (vfp : Vfp) :
    Option (Except Fail (Int × Cfent) × Vfp) :=
  readline Gpkgmapvfp.readers cfg (vfp.mem.length + 1) (vfp.mem.length + 2) (mapInit cfg ept) vfp

end Pkgtools
