import Pkgtools.CLib.Escape
import Pkgtools.CLib.RecordReader

namespace Pkgtools
open CLib
set_option autoImplicit true

structure AttrVal where
  attr : Str
  val : Str
  deriving DecidableEq, Repr

/-- A data record of the device table; absent fields are NULL pointers in the source. -/
structure DevData where
  aliasName : Option Str
  cdevice : Option Str
  bdevice : Option Str
  pathname : Option Str
  attrlist : List AttrVal
  deriving DecidableEq, Repr

inductive DevRec where
  | comment (attrstr : Str)
  | data (d : DevData)
  deriving DecidableEq, Repr

/-- `struct devtabent`. -/
structure Devtabent where
  entryno : Nat
  body : DevRec
  deriving DecidableEq, Repr

/-- `DTAB_ESCS`. -/
def dtabEscs : List Char := [':', '\\', '"', '\n']

def strcatesc (q : Str) : Str := escape dtabEscs q

/-- `DTAB_BUFSIZ`, `DTAB_BUFINC` and `XTND_MAXCNT`. -/
def devtabGrowth : Growth := ⟨512, 512, 16, by decide, by decide⟩

/-- A complete record ends in a newline that has no backslash before it. -/
def devtabComplete (rec : Str) : Bool :=
  rec.getLast? == some '\n' && (rec.length == 1 || rec.dropLast.getLast? != some '\\')

/-- The open device table with the static data of the reader. -/
structure DevTabFile where
  rest : Str
  recbuf : RecBuf
  dtabrecnum : Nat
  deriving DecidableEq, Repr

/-- A field that was cut out of a record: NULL when empty, else without its escapes. -/
def devField (p : Str) : Option Str := if p = [] then none else some (unescape p)

def getquoted : Str → Option (Str × Str)
  | '"' :: p => (splitField ['"'] p).map fun q => (unescape q.1, q.2)
  | _ => none

/-- `getattrval` at `leftoff`. -/
def getattrval (leftoff : Str) : Option (AttrVal × Str) :=
  match leftoff.dropWhile isspace with
  | [] => none
  | c :: p =>
    match splitField ['='] (c :: p) with
    | none => none
    | some (attr, q) =>
      match getquoted q with
      | none => none
      | some (val, q) => some (⟨unescape attr, val⟩, q)

/-- The loop that builds the attribute list; each pair takes at least one character. -/
def getattrvals : (fuel : Nat) → Str → List AttrVal
  | 0, _ => []
  | fuel + 1, p =>
    match getattrval p with
    | none => []
    | some (a, p) => a :: getattrvals fuel p

/-- `Record is a data record. Parse it.` -/
def parseDevData (record : Str) : Option DevData :=
  match splitField [':'] record with
  | none => none
  | some (name, p) =>
    match splitField [':'] p with
    | none => none
    | some (cdevice, p) =>
      match splitField [':'] p with
      | none => none
      | some (bdevice, p) =>
        match splitField [':', '\n'] p with
        | none => none
        | some (pathname, p) =>
          some ⟨devField name, devField cdevice, devField bdevice, devField pathname,
            getattrvals (p.length + 1) p⟩

def isDevComment (record : Str) : Bool :=
  match record with
  | [] => true
  | c :: _ => c == '#' || c == '\n' || isspace c

def parseDevRec (record : Str) : Option DevRec :=
  if isDevComment record then some (.comment (unescape record))
  else (parseDevData record).map .data

/-- The loop of `_getdevtabent`: a data record that lacks a field is counted and skipped. -/
def getdevtabentLoop : (fuel : Nat) → DevTabFile → Option Devtabent × DevTabFile
  | 0, st => (none, st)
  | fuel + 1, st =>
    match devtabGrowth.getRecord devtabComplete st.recbuf st.rest with
    | (none, b, rest) => (none, ⟨rest, b, st.dtabrecnum⟩)
    | (some record, b, rest) =>
      match parseDevRec record with
      | some body => (some ⟨st.dtabrecnum, body⟩, ⟨rest, b, st.dtabrecnum + 1⟩)
      | none => getdevtabentLoop fuel ⟨rest, b, st.dtabrecnum + 1⟩

def getdevtabent (st : DevTabFile) : Option Devtabent × DevTabFile :=
  getdevtabentLoop (st.rest.length + 1) st

def fieldText (f : Option Str) : Str := strcatesc (f.getD [])

def pairText (a : AttrVal) : Str := strcatesc a.attr ++ '=' :: '"' :: strcatesc a.val ++ ['"']

def attrsText : List AttrVal → Str
  | [] => []
  | [a] => pairText a
  | a :: as => pairText a ++ ' ' :: attrsText as

/-- `_putdevtabrec`, with an output buffer that is large enough. `none` is an access outside it:
a comment without text, or a NULL alias. -/
def putdevtabrec : DevRec → Option Str
  | .comment attrstr =>
    let p := strcatesc attrstr
    if p.length < 2 then none else some (p.take (p.length - 2) ++ ['\n'])
  | .data d =>
    d.aliasName.map fun name =>
      strcatesc name ++ ':' :: (fieldText d.cdevice ++ ':' :: (fieldText d.bdevice ++
        ':' :: (fieldText d.pathname ++ ':' :: (attrsText d.attrlist ++ ['\n']))))

/-- Successive `_putdevtabrec` calls. -/
def putdevtabrecs : List DevRec → Option Str
  | [] => some []
  | r :: rs =>
    match putdevtabrec r, putdevtabrecs rs with
    | some s, some t => some (s ++ t)
    | _, _ => none

/-- `isalnum` in the C locale. -/
def isalnum (c : Char) : Bool := c.isAlphanum

def validalias (name : Str) : Bool :=
  match name with
  | [] => false
  | c :: s => decide (name.length ≤ 14) && (isalnum c || "@$_.".toList.contains c) &&
      s.all fun c => isalnum c || "@#$_-+.".toList.contains c

/-- Successive `_getdevtabent` calls return these entries. -/
def ReadsDevtab : DevTabFile → List Devtabent → DevTabFile → Prop
  | st, [], st' => st = st'
  | st, e :: es, st' => ∃ st₁, getdevtabent st = (some e, st₁) ∧ ReadsDevtab st₁ es st'

/-- The records as they are numbered from `n` on. -/
def numbered (n : Nat) : List DevRec → List Devtabent
  | [] => []
  | r :: rs => ⟨n, r⟩ :: numbered (n + 1) rs

def DevField (f : Option Str) : Prop := ∀ s, f = some s → s ≠ [] ∧ NulFree s

/-- The white space that the reader skips before a name; a newline is written with an escape. -/
def strippable (c : Char) : Bool := isspace c && c != '\n'

/-- The pair as it is read back: white space before the name is lost. -/
def AttrVal.stripped (a : AttrVal) : AttrVal := ⟨a.attr.dropWhile strippable, a.val⟩

structure AttrVal.Plain (a : AttrVal) : Prop where
  attr_eq : '=' ∉ a.attr
  attr_nul : NulFree a.attr
  val_nul : NulFree a.val

def AttrVal.Named (a : AttrVal) : Prop := ∀ c, a.attr.head? = some c → strippable c = false

/-- A record with a valid alias, fields that have a text and attributes that can be told apart. -/
structure DevData.Plain (d : DevData) : Prop where
  aliasName : ∃ name, d.aliasName = some name ∧ validalias name = true
  cdevice : DevField d.cdevice
  bdevice : DevField d.bdevice
  pathname : DevField d.pathname
  attrlist : ∀ a ∈ d.attrlist, a.Plain

structure DevData.Wf (d : DevData) : Prop extends d.Plain where
  named : ∀ a ∈ d.attrlist, a.Named

/-- A data record with a valid alias and attributes that can be named, or a comment that
`_getdevtabent` has returned. -/
def DevRec.Wf : DevRec → Prop
  | .data d => d.Wf
  | .comment t => ∃ st e st', getdevtabent st = (some e, st') ∧ e.body = .comment t

/-- What `_putdevtabrec` writes for the record is not too long for the reader. -/
def DevRec.Short (r : DevRec) : Prop := ∀ s, putdevtabrec r = some s → s.length ≤ devtabGrowth.limit

end Pkgtools
