import Pkgtools.CLib.RecordReader
import Pkgtools.TableInstall

namespace Pkgtools
open CLib
set_option autoImplicit true

/-- A comment of the device-group table, or a group with its members. -/
inductive DgrpRec where
  | comment (dataspace : Str)
  | group (name : Str) (membership : List Str)
  deriving DecidableEq, Repr

/-- `struct dgrptabent`. -/
structure Dgrptabent where
  entryno : Nat
  body : DgrpRec
  deriving DecidableEq, Repr

theorem two_le_dgrpBufsiz : 2 ≤ 512 := by decide
theorem dgrpBufinc_pos : 0 < 512 := by decide

/-- `DGRP_BUFSIZ`, `DGRP_BUFINC` and `XTND_MAXCNT`. -/
def dgrpGrowth : Growth := ⟨512, 512, 16, two_le_dgrpBufsiz, dgrpBufinc_pos⟩

/-- A complete record is one which is terminated by a new-line character. -/
def dgrpComplete (rec : Str) : Bool := rec.getLast? == some '\n'

/-- `getfld` at a place in the record, which is NULL once the record is used up. -/
def getfld (delims : List Char) : Option Str → Option (Str × Option Str)
  | none => none
  | some p =>
    match p.dropWhile isspace with
    | [] => none
    | c :: p =>
      match (c :: p).dropWhile (· ∉ delims) with
      | [] => some ((c :: p).takeWhile (· ∉ delims), none)
      | _ :: q => some ((c :: p).takeWhile (· ∉ delims), some q)

/-- The membership list. Empty fields are skipped; each field takes at least one character. -/
def getmembers : (fuel : Nat) → Option Str → List Str
  | 0, _ => []
  | fuel + 1, leftoff =>
    match getfld [',', '\n'] leftoff with
    | none => []
    | some (p, leftoff) => if p = [] then getmembers fuel leftoff else p :: getmembers fuel leftoff

def isDgrpComment (record : Str) : Bool :=
  match record with
  | [] => true
  | c :: _ => c == '#' || c == '\n' || isspace c

def parseDgrpRec (record : Str) : Option DgrpRec :=
  if isDgrpComment record then some (.comment record)
  else match getfld [':'] (some record) with
    | none => none
    | some (name, leftoff) => some (.group name (getmembers (record.length + 1) leftoff))

structure DgrpTabFile where
  rest : Str
  recbuf : RecBuf
  recnum : Nat
  deriving DecidableEq, Repr

/-- The loop of `_getdgrptabent`: a record without a group name is skipped and not counted. -/
def getdgrptabentLoop : (fuel : Nat) → DgrpTabFile → Option Dgrptabent × DgrpTabFile
  | 0, st => (none, st)
  | fuel + 1, st =>
    match dgrpGrowth.getRecord dgrpComplete st.recbuf st.rest with
    | (none, b, rest) => (none, ⟨rest, b, st.recnum⟩)
    | (some record, b, rest) =>
      match parseDgrpRec record with
      | some body => (some ⟨st.recnum, body⟩, ⟨rest, b, st.recnum + 1⟩)
      | none => getdgrptabentLoop fuel ⟨rest, b, st.recnum⟩

def getdgrptabent (st : DgrpTabFile) : Option Dgrptabent × DgrpTabFile :=
  getdgrptabentLoop (st.rest.length + 1) st

def readDgrptabLoop : (fuel : Nat) → DgrpTabFile → List Dgrptabent
  | 0, _ => []
  | fuel + 1, st =>
    match getdgrptabent st with
    | (none, _) => []
    | (some e, st) => e :: readDgrptabLoop fuel st

/-- `_setdgrptab` and then `_getdgrptabent` until it returns NULL. -/
def readDgrptab (b : RecBuf) (contents : Str) : List Dgrptabent :=
  readDgrptabLoop (contents.length + 1) ⟨contents, b, 0⟩

def DgrpRec.isGroup (dgroup : Str) : DgrpRec → Bool
  | .comment _ => false
  | .group name _ => dgroup == name

def getdgrprec (ents : List Dgrptabent) (dgroup : Str) : Option Dgrptabent :=
  ents.find? fun e => e.body.isGroup dgroup

def membersText : List Str → Str
  | [] => []
  | [m] => m
  | m :: ms => m ++ ',' :: membersText ms

/-- What `_putdgrptabrec` writes. -/
def putdgrptabrec : DgrpRec → Str
  | .comment dataspace => dataspace
  | .group name membership => name ++ ':' :: (membersText membership ++ ['\n'])

/-- `Remove any duplicates`: each member removes its later copies. -/
def removeDuplicates : (fuel : Nat) → List Str → List Str
  | 0, ms => ms
  | _ + 1, [] => []
  | fuel + 1, pm :: ms => pm :: removeDuplicates fuel (ms.filter (· ≠ pm))

/-- The membership of a group that is in the table after an addition. -/
def addMembers (membership new : List Str) : List Str :=
  if membership = [] then new
  else removeDuplicates (membership ++ new).length (membership ++ new)

/-- The texts of the new table with one entry replaced or left out. -/
def dgrpTexts (f : Dgrptabent → Option DgrpRec) (ents : List Dgrptabent) : List Str :=
  (ents.filterMap f).map putdgrptabrec

/-- One turn of the loop of `_rmdgrpmems` for each member: those that are left, and those that
were not found. -/
def rmMembers : List Str → List Str → List Str × List Str
  | membership, [] => (membership, [])
  | membership, m :: mems =>
    let (left, notfounds) := rmMembers (membership.erase m) mems
    (left, if m ∈ membership then notfounds else m :: notfounds)

/-- What the append to the table does: the seek to its end, the write, how much of a failing
write reaches the file, and how much has reached it when `fclose` cannot write the rest. -/
structure AppendOutcomes where
  seek : Bool
  put : Bool
  part : Nat
  flush : Option Nat

section Ops
-- The static record buffer when the group is searched and when the table is copied.
variable (b b' : RecBuf)

/-- `_rmdgrptabrec`. -/
def rmdgrptabrec (dgrp : Str) (contents : Str) : TabPlan :=
  match getdgrprec (readDgrptab b contents) dgrp with
  | none => .refuse
  | some ent =>
    .write (dgrpTexts (fun e => if e.entryno ≠ ent.entryno then some e.body else none)
      (readDgrptab b' contents)) true

/-- `_rmdgrpmems`. A member that is not found is an error, and the table is written without the
others. -/
def rmdgrpmems (dgrp : Str) (mems : List Str) (contents : Str) : TabPlan :=
  match getdgrprec (readDgrptab b contents) dgrp with
  | none => .refuse
  | some ent =>
    match ent.body with
    | .comment _ => .refuse
    | .group name membership =>
      .write (dgrpTexts (fun e => some (if e.entryno ≠ ent.entryno then e.body
        else .group name (rmMembers membership mems).1)) (readDgrptab b' contents))
          (rmMembers membership mems).2.isEmpty

/-- The records that `_adddgrptabrec` writes for a group that is in the table. -/
def addTexts (ent : Dgrptabent) (members : List Str) (contents : Str) : List Str :=
  dgrpTexts (fun e => some (if e.entryno ≠ ent.entryno then e.body
    else match ent.body with
      | .comment t => .comment t
      | .group name membership => .group name (addMembers membership members)))
    (readDgrptab b' contents)

/-- `_adddgrptabrec`. The lock opens the table for appending, which creates it. When the
temporary file cannot be opened, the end of the table not be reached or `fclose` not write what is
left, the value returned is still TRUE. -/
def adddgrptabrec (o : TabOutcomes) (a : AppendOutcomes) (dgrp : Str) (members : List Str)
    (d : Directory TabName) : TabResult :=
  if o.lock then
    let d := if (d.entry .table).isSome then d else d.create .table []
    let contents := (d.read .table).getD []
    match getdgrprec (readDgrptab b contents) dgrp with
    | some ent =>
      if members = [] then ⟨true, false, d⟩
      else match opennewtab o d with
        | none => ⟨true, false, d⟩
        | some d => installTable mknewdgrptab o d (addTexts b' ent members contents) true
    | none =>
      let text := putdgrptabrec (.group dgrp members)
      if a.seek then
        if a.put then ⟨true, false, d.create .table (contents ++ flushed a.flush text)⟩
        else ⟨false, true, d.create .table (contents ++ text.take a.part)⟩
      else ⟨true, false, d⟩
  else ⟨false, false, d⟩

end Ops

structure MemberOk (m : Str) : Prop where
  ne_nil : m ≠ []
  starts : ∀ c, m.head? = some c → isspace c = false
  comma : ',' ∉ m
  newline : '\n' ∉ m

structure GroupName (name : Str) : Prop where
  ne_nil : name ≠ []
  starts : ∀ c, name.head? = some c → c ≠ '#' ∧ isspace c = false
  colon : ':' ∉ name
  newline : '\n' ∉ name
  nulFree : NulFree name

/-- Records that are written so that they are read back. -/
def DgrpRec.Wf : DgrpRec → Prop
  | .comment t => IsRecord dgrpComplete t ∧ isDgrpComment t = true
  | .group name membership => GroupName name ∧ ∀ m ∈ membership, MemberOk m ∧ NulFree m

def DgrpRec.Short (r : DgrpRec) : Prop := (putdgrptabrec r).length ≤ dgrpGrowth.limit

/-- The table reads as these records, whatever the reader's buffer is. -/
def ReadsGroups (contents : Str) (rs : List DgrpRec) : Prop :=
  ∀ b, dgrpGrowth.BufOk b → (readDgrptab b contents).map Dgrptabent.body = rs

/-- A table of whole lines within the reader's limits, each of which is a record. -/
def DgrpTable (contents : Str) (rs : List DgrpRec) : Prop :=
  ∃ ls : List Str, contents = ls.flatten ∧ List.Forall₂ (fun l r => IsRecord dgrpComplete l ∧
    l.length ≤ dgrpGrowth.limit ∧ parseDgrpRec l = some r) ls rs

/-- The table with the members added to the first record of the group, or with a new group. -/
def unionTable (dgrp : Str) (members : List Str) : List DgrpRec → List DgrpRec
  | [] => [.group dgrp members.eraseDups]
  | .comment t :: rs => .comment t :: unionTable dgrp members rs
  | .group name membership :: rs =>
    if dgrp = name then .group name (membership ++ members).eraseDups :: rs
    else .group name membership :: unionTable dgrp members rs

end Pkgtools
