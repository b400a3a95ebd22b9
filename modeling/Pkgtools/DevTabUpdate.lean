import Pkgtools.DevTabRoundTrip
import Pkgtools.TableInstall

namespace Pkgtools
open CLib
set_option autoImplicit true

/-- The fields of `struct stat64` that `samedev` compares; the device number in two parts. -/
structure Stat64 where
  stMode : Nat
  stDev : Nat
  stIno : Nat
  rdevMajor : Nat
  rdevMinor : Nat
  deriving DecidableEq, Repr

def Stat64.kind (x : Stat64) : Nat := x.stMode &&& 0o170000

def samedev (x y : Stat64) : Bool :=
  x.kind == y.kind &&
    (x.stDev == y.stDev && x.stIno == y.stIno ||
      (x.kind == 0o020000 || x.kind == 0o060000) &&
        x.rdevMajor == y.rdevMajor && x.rdevMinor == y.rdevMinor)

def readDevtabLoop : (fuel : Nat) → DevTabFile → List Devtabent
  | 0, _ => []
  | fuel + 1, st =>
    match getdevtabent st with
    | (none, _) => []
    | (some e, st) => e :: readDevtabLoop fuel st

/-- `_setdevtab` and then `_getdevtabent` until it returns NULL. -/
def readDevtab (b : RecBuf) (contents : Str) : List Devtabent :=
  readDevtabLoop (contents.length + 1) ⟨contents, b, 0⟩

def Devtabent.names (device : Str) (e : Devtabent) : Bool :=
  match e.body with
  | .comment _ => false
  | .data d => d.cdevice == some device || d.bdevice == some device || d.pathname == some device

/-- The record has a file of the same kind as the device that is the same device. -/
def Devtabent.sameAs (stat : Str → Option Stat64) (x : Stat64) (e : Devtabent) : Bool :=
  match e.body with
  | .comment _ => false
  | .data d =>
    let field := if x.kind = 0o020000 then d.cdevice
      else if x.kind = 0o060000 then d.bdevice else d.pathname
    match field.bind stat with
    | none => false
    | some y => samedev y x

/-- The search for an alias. `none` is the comparison with a NULL alias. -/
def findAlias (device : Str) : List Devtabent → Option (Option Devtabent)
  | [] => some none
  | e :: es =>
    match e.body with
    | .comment _ => findAlias device es
    | .data d =>
      match d.aliasName with
      | none => none
      | some name => if device = name then some (some e) else findAlias device es

def getdevrec (stat : Str → Option Stat64) (ents : List Devtabent) (device : Str) :
    Option (Option Devtabent) :=
  if validalias device then findAlias device ents
  else match ents.find? (Devtabent.names device) with
    | some e => some (some e)
    | none =>
      match stat device with
      | none => some none
      | some x => some (ents.find? (Devtabent.sameAs stat x))

/-- The name and the value of an `attr=value` text; others are ignored. -/
def splitPair (p : Str) : Option AttrVal :=
  match p.dropWhile (· != '=') with
  | [] => none
  | _ :: val => if p.takeWhile (· != '=') = [] then none else some ⟨p.takeWhile (· != '='), val⟩

def DTAB_ALIAS : Str := "alias".toList
def DTAB_CDEVICE : Str := "cdevice".toList
def DTAB_BDEVICE : Str := "bdevice".toList
def DTAB_PATHNAME : Str := "pathname".toList

/-- A path of the request: given once, and absolute. -/
def newPath (old : Option Str) (val : Str) : Option (Option Str) :=
  if old = none ∧ val.head? = some '/' then some (some val) else none

/-- One turn of the loop of `mkdevtabent`; `none` is an error. -/
def addPair (ent : DevData) (p : Str) : Option DevData :=
  match splitPair p with
  | none => some ent
  | some a =>
    if a.attr = DTAB_ALIAS then none
    else if a.attr = DTAB_CDEVICE then
      (newPath ent.cdevice a.val).map fun f => { ent with cdevice := f }
    else if a.attr = DTAB_BDEVICE then
      (newPath ent.bdevice a.val).map fun f => { ent with bdevice := f }
    else if a.attr = DTAB_PATHNAME then
      (newPath ent.pathname a.val).map fun f => { ent with pathname := f }
    else if ent.attrlist.any fun x => x.attr == a.attr then none
    else some { ent with attrlist := ent.attrlist ++ [a] }

def mkdevtabentLoop : DevData → List Str → Option DevData
  | ent, [] => some ent
  | ent, p :: pp =>
    match addPair ent p with
    | none => none
    | some ent => mkdevtabentLoop ent pp

def mkdevtabent (device : Str) (attrlist : List Str) : Option DevData :=
  mkdevtabentLoop ⟨some device, none, none, none, []⟩ attrlist

def setVal (a : AttrVal) : List AttrVal → List AttrVal
  | [] => []
  | x :: l => if x.attr = a.attr then ⟨x.attr, a.val⟩ :: l else x :: setVal a l

/-- An attribute that the device has is changed; another one is put in front. -/
def setAttr (l : List AttrVal) (a : AttrVal) : List AttrVal :=
  if l.any fun x => x.attr == a.attr then setVal a l else a :: l

/-- The record with the changes of `_moddevtabrec`. -/
def applyChg (ent chg : DevData) : DevData where
  aliasName := ent.aliasName
  cdevice := chg.cdevice.or ent.cdevice
  bdevice := chg.bdevice.or ent.bdevice
  pathname := chg.pathname.or ent.pathname
  attrlist := if ent.attrlist = [] then chg.attrlist else chg.attrlist.foldl setAttr ent.attrlist

/-- One turn of the loop of `_rmdevtabattrs`: the record, and whether the attribute was found. -/
def rmAttr (d : DevData) (name : Str) : DevData × Bool :=
  if name = DTAB_CDEVICE then ({ d with cdevice := none }, true)
  else if name = DTAB_BDEVICE then ({ d with bdevice := none }, true)
  else if name = DTAB_PATHNAME then ({ d with pathname := none }, true)
  else ({ d with attrlist := d.attrlist.eraseP fun x => x.attr == name },
    d.attrlist.any fun x => x.attr == name)

def rmAttrs : DevData → List Str → DevData × List Str
  | d, [] => (d, [])
  | d, name :: names =>
    let (d, found) := rmAttr d name
    let (d, notfounds) := rmAttrs d names
    (d, if found then notfounds else name :: notfounds)

def putRecs : List DevRec → Option (List Str)
  | [] => some []
  | r :: rs =>
    match putdevtabrec r, putRecs rs with
    | some s, some ts => some (s :: ts)
    | _, _ => none

/-- The records of the new table, from the entries of the old one. -/
def devPlan (f : Devtabent → Option DevRec) (ents : List Devtabent) (noerr : Bool) : TabPlan :=
  match putRecs (ents.filterMap f) with
  | none => .crash
  | some texts => .write texts noerr

section Ops
-- The static record buffer when the device is searched and when the table is copied.
variable (stat : Str → Option Stat64) (b b' : RecBuf)

/-- `_moddevtabrec`. -/
def moddevtabrec (device : Str) (attrval : List Str) (contents : Str) : TabPlan :=
  match getdevrec stat (readDevtab b contents) device with
  | none => .crash
  | some none => .refuse
  | some (some ent) =>
    match ent.body, mkdevtabent device attrval with
    | .data d, some chg =>
      devPlan (fun e => some (if e.entryno ≠ ent.entryno then e.body else .data (applyChg d chg)))
        (readDevtab b' contents) true
    | _, _ => .refuse

/-- `_rmdevtabrec`. -/
def rmdevtabrec (device : Str) (contents : Str) : TabPlan :=
  match getdevrec stat (readDevtab b contents) device with
  | none => .crash
  | some none => .refuse
  | some (some ent) =>
    devPlan (fun e => if e.entryno ≠ ent.entryno then some e.body else none)
      (readDevtab b' contents) true

/-- `_rmdevtabattrs`. An attribute that is not found is an error, and the table is written
without the others. -/
def rmdevtabattrs (device : Str) (attributes : List Str) (contents : Str) : TabPlan :=
  if DTAB_ALIAS ∈ attributes then .refuse
  else match getdevrec stat (readDevtab b contents) device with
    | none => .crash
    | some none => .refuse
    | some (some ent) =>
      match ent.body with
      | .comment _ => .refuse
      | .data d =>
        devPlan (fun e => some (if e.entryno ≠ ent.entryno then e.body
          else .data (rmAttrs d attributes).1)) (readDevtab b' contents)
            (rmAttrs d attributes).2.isEmpty

end Ops

end Pkgtools
