import Pkgtools.SearchContents
import Pkgtools.Verify

namespace Pkgtools
open CLib
set_option autoImplicit true

/-- The flags of `struct mergstat` that the merge reads or sets. -/
structure Mergstat where
  setuid : Bool
  setgid : Bool
  contchg : Bool
  attrchg : Bool
  shared : Bool
  osetuid : Bool
  osetgid : Bool
  rogue : Bool
  dir2nondir : Bool
  replace : Bool
  preloaded : Bool
  parentsyml2dir : Bool
  deriving DecidableEq, Repr

/-- `struct cfextra`, an element of the extlist. -/
structure Cfextra where
  cfEnt : Cfent
  mstat : Mergstat
  clientPath : Str
  serverPath : Str
  clientLocal : Option Str
  deriving DecidableEq, Repr

/-- The status characters of a package. -/
def instRdy : Char := '+'
def rmRdy : Char := '-'
def servedFile : Char := '%'
def statNext : Char := '@'
def dupEntry : Char := '#'
def confirmCont : Char := '*'
def confirmAttr : Char := '~'
def entryOk : Char := nul

/-- `QKVERIFY`. -/
def qkVerify : Int := 2

/-- The settings of the installation that the merge looks at. -/
structure Install where
  dbst : Char
  pkginst : Str
  nosetuid : Bool
  nocnflct : Bool
  deriving DecidableEq, Repr

/-- The position of the last package of a list with the given name. -/
def findPinfo (pkg : Str) : List Pinfo → Option Nat
  | [] => none
  | p :: ps => match findPinfo pkg ps with
    | some i => some (i + 1)
    | none => if p.pkg = pkg then some 0 else none

/-- How `eptstat` leaves the record of the package, at the end of the list. -/
def markPinfo (pkg : Str) (c : Char) (p : Pinfo) : Pinfo :=
  { p with
    pkg := pkg.take pkgsiz
    status := if p.status ≠ servedFile then if c = dupEntry then nul else c else p.status }

/-- `eptstat`: the entry, and the position in its list of the record that is returned. -/
def eptstat (entry : Cfent) (pkg : Str) (c : Char) : Cfent × Option Nat :=
  if c = nul then (entry, findPinfo pkg entry.pinfo)
  else match findPinfo pkg entry.pinfo with
    | some i =>
      let rest := entry.pinfo.eraseIdx i
      let me := entry.pinfo.getD i ⟨nul, [], 0, []⟩
      let npkgs := wrap 16 (entry.npkgs - 1)
      if c = statNext then ({ entry with npkgs := npkgs, pinfo := rest }, none)
      else
        let npkgs := wrap 16 (npkgs + 1)
        let pkgClass := if npkgs = 1 ∧ me.aclass ≠ [] then me.aclass else entry.pkgClass
        ({ entry with npkgs := npkgs, pkgClass := pkgClass, pinfo := rest ++ [markPinfo pkg c me] },
          some rest.length)
    | none =>
      if c = statNext ∨ c = rmRdy then (entry, none)
      else
        ({ entry with
            npkgs := wrap 16 (entry.npkgs + 1)
            pinfo := entry.pinfo ++ [markPinfo pkg c ⟨nul, [], 0, []⟩] },
          some entry.pinfo.length)

/-- `otherstoo` after `eptstat`. -/
def othersToo (entry : Cfent) (pkg : Str) : Bool := entry.pinfo.any fun p => p.pkg != pkg

def Cfent.modifyPinfo (e : Cfent) (i : Nat) (f : Pinfo → Pinfo) : Cfent :=
  { e with pinfo := e.pinfo.modify i f }

def isSetuid (ent : Cfent) : Bool :=
  hasContent ent.ftype && ent.ainfo.mode ≠ badMode && ent.ainfo.mode ≠ wildcard &&
    ent.ainfo.mode &&& 0o4000 ≠ 0

def isSetgid (ent : Cfent) : Bool :=
  hasContent ent.ftype && ent.ainfo.mode ≠ badMode && ent.ainfo.mode ≠ wildcard &&
    ent.ainfo.mode &&& 0o2000 ≠ 0 && ent.ainfo.mode &&& 0o101 ≠ 0

def Cfextra.averify (sys : System) (el : Cfextra) : Int × Cfextra :=
  let (n, ftype, ainfo) := Pkgtools.averify sys el.cfEnt.ftype el.serverPath el.cfEnt.ainfo
  (n, { el with cfEnt := { el.cfEnt with ftype := ftype, ainfo := ainfo } })

def Cfextra.cverify (sys : System) (el : Cfextra) : Int × Cfextra :=
  let (n, cinfo) := Pkgtools.cverify sys el.cfEnt.ftype el.serverPath el.cfEnt.cinfo
  (n, { el with cfEnt := { el.cfEnt with cinfo := cinfo } })

def Cfextra.setContchg (el : Cfextra) : Cfextra :=
  { el with mstat := { el.mstat with contchg := true } }

def Cfextra.setAttrchg (el : Cfextra) : Cfextra :=
  { el with mstat := { el.mstat with attrchg := true } }

/-- `set_change`: compare the object on the disk with the one to be laid down. -/
def setChange (sys : System) (el : Cfextra) : Cfextra :=
  if hasContent el.cfEnt.ftype then
    let (n, el) := el.cverify sys
    if n ≠ 0 then el.setContchg
    else if el.mstat.contchg = false ∧ el.mstat.attrchg = false then
      let (n, el) := el.averify sys
      if n ≠ 0 then el.setAttrchg else el
    else el
  else if el.mstat.attrchg = false ∧ el.cfEnt.ftype ∈ "dxcbp".toList then
    let (n, el) := el.averify sys
    if n = veAttr then el.setAttrchg
    else if n ≠ 0 ∧ n ≠ veExist then el.setContchg
    else el
  else if el.mstat.attrchg = false ∧ isLink el.cfEnt.ftype then
    let (n, el) := el.averify sys
    if n = veAttr then el.setAttrchg
    else if n = veExist then el.setContchg
    else el
  else el

inductive TypeChange where
  | ok
  | warning
  | ignored
  | replace
  deriving DecidableEq, Repr

/-- The position in `types`, from 1 on, of the group of types that `ftype` belongs to. -/
def objectType (ftype : Char) : Nat :=
  match ["fev", "s", "l", "dx", "c", "b", "p"].findIdx? fun t => ftype ∈ nul :: t.toList with
  | some i => i + 1
  | none => 0

/-- `typechg`; it can also set the type of the database entry and the flag `dir2nondir`. -/
def typechg (el cf : Cfent) (mstat : Mergstat) : TypeChange × Cfent × Mergstat :=
  if cf.ftype = el.ftype then (.ok, cf, mstat)
  else if cf.ftype = '?' then (.ok, { cf with ftype := el.ftype }, mstat)
  else if el.ftype = '?' then (.ok, cf, mstat)
  else if el.ftype = 'x' ∧ cf.ftype = 'd' then (.ignored, cf, mstat)
  else
    let etype := objectType el.ftype
    let itype := objectType cf.ftype
    if itype = etype then (.ok, cf, mstat)
    else if etype ≠ 4 ∧ itype = 4 then (.replace, cf, { mstat with dir2nondir := true })
    else (.warning, cf, mstat)

/-- `cp_cfent`: the entry of the database over the new one. -/
def cpCfent (cf : Cfent) (el : Cfextra) : Cfextra :=
  let cfEnt := { cf with
    volno := el.cfEnt.volno
    pkgClass := strlcpy (clssiz + 1) el.cfEnt.pkgClass
    pkgClassIdx := el.cfEnt.pkgClassIdx
    path := some el.clientPath }
  match el.cfEnt.ainfo.localPath with
  | some _ =>
    { el with cfEnt := { cfEnt with ainfo := { cfEnt.ainfo with localPath := el.clientLocal } } }
  | none => { el with cfEnt := cfEnt, clientLocal := none }

/-- `chgclass`, for the record at `i`. -/
def chgclass (ent : Cfent) (i : Nat) : Cfent :=
  let newclass := strlcpy (clssiz + 1) (ent.pinfo.getD i ⟨nul, [], 0, []⟩).aclass
  let oldclass := ent.pkgClass
  let newcnt := 1 + ent.pinfo.countP fun p => p.aclass ≠ [] ∧ p.aclass = newclass
  let oldcnt := ent.pinfo.countP fun p =>
    p.aclass ≠ [] ∧ p.aclass ≠ newclass ∧ p.aclass = oldclass
  if newcnt > oldcnt then
    { ent with
      pkgClass := newclass
      pinfo := ent.pinfo.map fun p =>
        if p.aclass = [] then { p with aclass := oldclass }
        else if p.aclass = newclass then { p with aclass := [] } else p }
  else ent

/-- Merge the class; the new class becomes one of the package at `i`. -/
def mergClass (el : Cfextra) (cf : Cfent) (i : Nat) : Bool × Cfextra :=
  if cf.pkgClass = el.cfEnt.pkgClass then (false, el)
  else if cf.pkgClass = "?".toList then (true, el)
  else
    let cfEnt := el.cfEnt.modifyPinfo i fun p => { p with aclass := el.cfEnt.pkgClass }
    (true, { el with cfEnt := chgclass { cfEnt with pkgClass := cf.pkgClass } i })

def mergLink (el : Cfextra) (cf : Cfent) : Bool × Cfextra :=
  match cf.ainfo.localPath, el.cfEnt.ainfo.localPath with
  | some old, some new =>
    if old = new then (false, el)
    else if new = "?".toList then
      let ainfo := { el.cfEnt.ainfo with localPath := some (strlcpy pathMax old) }
      (true, { el with cfEnt := { el.cfEnt with ainfo := ainfo } })
    else (true, el.setContchg)
  | _, _ => (false, el)

def mergContent (sys : System) (el : Cfextra) (cf : Cfent) : Bool × Cfextra :=
  if el.cfEnt.ftype = 'e' then (true, el.setContchg)
  else if el.cfEnt.ftype = 'f' ∨ el.cfEnt.ftype = 'v' then
    if sys.pathIsInherited (el.cfEnt.path.getD []) el.cfEnt.ftype ∨ cf.cinfo = el.cfEnt.cinfo then
      (false, el)
    else (true, el.setContchg)
  else (false, el)

/-- The rule for a number: inherit it if it is not given, else keep the new one. -/
def mergDevice (el : Cfextra) (cf : Cfent) : Bool × Cfextra :=
  if isDevice el.cfEnt.ftype then
    let old := cf.ainfo
    let new := el.cfEnt.ainfo
    let major := if new.major = badMajor then old.major else new.major
    let minor := if new.minor = badMinor then old.minor else new.minor
    let contchg := old.major ≠ new.major ∧ new.major ≠ badMajor ∨
      old.minor ≠ new.minor ∧ new.minor ≠ badMinor
    let ainfo := { new with major := major, minor := minor }
    (old.major ≠ new.major ∨ old.minor ≠ new.minor,
      { el with
        cfEnt := { el.cfEnt with ainfo := ainfo }
        mstat := { el.mstat with contchg := el.mstat.contchg || contchg } })
  else (false, el)

def mergMode (el : Cfextra) (cf : Cfent) : Bool × Cfextra :=
  let new := el.cfEnt.ainfo
  let inherited := { el.cfEnt with ainfo := { new with mode := cf.ainfo.mode } }
  if cf.ainfo.mode = new.mode then (false, el)
  else if new.mode = badMode then (true, { el with cfEnt := inherited })
  else if new.mode = wildcard then
    (true, { el with cfEnt := inherited, mstat := { el.mstat with attrchg := false } })
  else (true, el.setAttrchg)

def mergOwner (el : Cfextra) (cf : Cfent) : Bool × Cfextra :=
  let new := el.cfEnt.ainfo
  if cf.ainfo.owner = new.owner then (false, el)
  else if new.owner = badOwner then
    (true, { el with cfEnt := { el.cfEnt with ainfo := { new with owner := cf.ainfo.owner } } })
  else (true, el.setAttrchg)

def mergGroup (el : Cfextra) (cf : Cfent) : Bool × Cfextra :=
  let new := el.cfEnt.ainfo
  if cf.ainfo.group = new.group then (false, el)
  else if new.group = badGroup then
    (true, { el with cfEnt := { el.cfEnt with ainfo := { new with group := cf.ainfo.group } } })
  else (true, el.setAttrchg)

inductive MergResult where
  | same
  | different
  | replace
  deriving DecidableEq, Repr

/-- The steps of a merge one after the other, with whether any of them made a change. -/
def mergSteps (changed : Bool) (el : Cfextra) : List (Cfextra → Bool × Cfextra) →
    MergResult × Cfextra
  | [] => (if changed then .different else .same, el)
  | f :: fs => mergSteps (changed || (f el).1) (f el).2 fs

/-- `merg`, given the position of the record of the package. The two entries share the list of
packages from here on. -/
def merg (sys : System) (inst : Install) (el : Cfextra) (cf : Cfent) (i : Nat) :
    MergResult × Cfextra :=
  let el := { el with cfEnt := { el.cfEnt with pinfo := cf.pinfo } }
  let el := if inst.dbst = instRdy ∧ el.cfEnt.ftype = '?' then
    { el with cfEnt := { el.cfEnt with ftype := cf.ftype } } else el
  let (n, cf', mstat) := typechg el.cfEnt cf el.mstat
  match n with
  | .ignored => (.same, cpCfent cf el)
  | .replace => (.replace, { el with mstat := { mstat with replace := true } })
  | n =>
    let el' := { el with mstat := { mstat with contchg := mstat.contchg || n == .warning } }
    let steps := if isLink el.cfEnt.ftype then [(mergLink · cf')]
      else [(mergContent sys · cf'), (mergDevice · cf'), (mergMode · cf'), (mergOwner · cf'),
        (mergGroup · cf')]
    mergSteps (cf.ftype != el.cfEnt.ftype) el' ((mergClass · cf' i) :: steps)

/-- The record at `i`. -/
def Cfent.pinfoAt (e : Cfent) (i : Nat) : Pinfo := e.pinfo.getD i ⟨nul, [], 0, []⟩

/-- The entry as `output` writes it: without volume information and, unless it is a link, without
the local path. -/
def outputEntry (ent : Cfent) (i : Nat) : Cfent :=
  { ent.modifyPinfo i fun p => { p with editflag := 0 } with
    volno := 0
    ainfo := { ent.ainfo with
      localPath := if isLink ent.ftype then ent.ainfo.localPath else none } }

/-- `output`: write an entry whose package has its record at `i`. It fails where the process
quits. -/
def output (vfpo : Vfp) (ent : Cfent) (i : Nat) : Option Vfp :=
  let (r, vfpo) := putcvfpfile (outputEntry ent i) vfpo
  if r ≠ 0 then none else some vfpo

/-- What `do_like_ent` and `do_new_ent` leave behind. -/
structure EntResult where
  changed : Bool
  el : Cfextra
  tmp : Vfp
  installed : Bool

/-- `do_like_ent` for an entry marked for erasure. -/
def eraseEnt (inst : Install) (vfpo : Vfp) (el : Cfextra) (cf : Cfent) : Option EntResult := do
  let (cf, me) := eptstat cf inst.pkginst rmRdy
  let i ← me
  let stflag := (cf.pinfoAt i).status
  let (r, vfpo) := putcvfpfile (cf.modifyPinfo i fun p => { p with status := rmRdy }) vfpo
  if r ≠ 0 then none
  else
    let el := if stflag = servedFile then
      { el with cfEnt := { el.cfEnt with pinfo := [⟨servedFile, [], 0, []⟩] } } else el
    some ⟨true, el, vfpo, false⟩

/-- The status of the package in the merged entry: whether that is a change, and the position of its
record. -/
def likeStatus (sys : System) (inst : Install) (ctrl ignore : Bool) (stflag : Char) (i : Nat)
    (el : Cfextra) : Option (Bool × Cfextra × Nat) := do
  let stat (c : Char) (changed : Bool) : Option (Bool × Cfextra × Nat) :=
    let (cfEnt, me) := eptstat el.cfEnt inst.pkginst c
    me.map fun i => (changed, { el with cfEnt := cfEnt }, i)
  if ctrl then
    let (changed, el, i) ← stat entryOk (stflag != dupEntry)
    if sys.isServed el.serverPath then
      some (changed, { el with
        cfEnt := el.cfEnt.modifyPinfo i fun p => { p with status := servedFile } }, i)
    else some (changed, el, i)
  else if ignore = false ∧ el.mstat.contchg then
    stat (if inst.dbst ≠ nul then inst.dbst else confirmCont) false
  else if ignore = false ∧ el.mstat.attrchg then
    stat (if inst.dbst ≠ nul then inst.dbst else confirmAttr) false
  else if ignore = false ∧ el.mstat.shared then stat inst.dbst true
  else if stflag ≠ dupEntry then stat nul (stflag != entryOk)
  else some (false, el, i)

/-- The merge that `do_like_ent` makes: its result, whether the new entry is ignored, and the
element with the flags for what changes. -/
def likeMerg (sys : System) (inst : Install) (el : Cfextra) (cf : Cfent) (i : Nat) :
    MergResult × Bool × Cfextra :=
  if inst.nocnflct ∧ el.mstat.shared ∧ el.cfEnt.ftype ≠ 'e' then
    (.same, true, cpCfent cf (setChange sys el))
  else match merg sys inst el cf i with
    | (.replace, el) => (.replace, true, el.setContchg)
    | (res, el) => (res, false, if el.mstat.contchg = false then setChange sys el else el)

/-- `do_like_ent` for an entry that stays; the record of the package is at `i`. -/
def mergeLike (sys : System) (inst : Install) (vfpo : Vfp) (el : Cfextra) (cf : Cfent) (i : Nat)
    (ctrl : Bool) : Option EntResult := do
  let (res, ignore, el) := likeMerg sys inst el cf i
  let (changed, el, i) ← likeStatus sys inst ctrl ignore (cf.pinfoAt i).status i el
  -- the entry of the database and the merged one share their packages
  let vfpo ← output vfpo (if res = .replace then { cf with pinfo := el.cfEnt.pinfo }
    else el.cfEnt) i
  let p := el.cfEnt.pinfoAt i
  let pkgClass := if p.aclass ≠ [] then p.aclass else el.cfEnt.pkgClass
  let pinfo := if el.mstat.preloaded then
    (el.cfEnt.modifyPinfo i fun p => { p with editflag := 0 }).pinfo else []
  let el := { el with cfEnt := { el.cfEnt with pkgClass := pkgClass, pinfo := pinfo } }
  some ⟨changed || res == .different || el.mstat.contchg && p.status == instRdy, el, vfpo,
    !el.mstat.attrchg && !el.mstat.contchg && !el.mstat.replace⟩

/-- `do_like_ent`: merge a new entry with the one of the same path in the database. -/
def doLikeEnt (sys : System) (inst : Install) (vfpo : Vfp) (el : Cfextra) (cf : Cfent)
    (ctrl : Bool) : Option EntResult := do
  let cf := if el.mstat.preloaded then { cf with pinfo := el.cfEnt.pinfo } else cf
  let others := othersToo cf inst.pkginst
  let (cf, me) := eptstat cf inst.pkginst dupEntry
  let i ← me
  let el := { el with mstat := { el.mstat with shared := el.mstat.shared || others } }
  if el.cfEnt.ftype = rmRdy then eraseEnt inst vfpo el cf
  else mergeLike sys inst vfpo el cf i ctrl

def newDefaults (e : Cfent) : Cfent :=
  let mode := if e.ainfo.mode = wildcard then if e.ftype = 'd' then 0o755 else 0o644
    else e.ainfo.mode
  let owner := if e.ainfo.owner = "?".toList then "root".toList else e.ainfo.owner
  let group := if e.ainfo.group = "?".toList then "other".toList else e.ainfo.group
  { e with ainfo := { e.ainfo with mode := mode, owner := owner, group := group } }

/-- `do_new_ent`: insert an entirely new entry. -/
def doNewEnt (sys : System) (inst : Install) (vfpo : Vfp) (el : Cfextra) (ctrl : Bool) :
    Option EntResult := do
  if el.cfEnt.ftype = rmRdy then some ⟨false, el, vfpo, false⟩
  else
    let el := if el.mstat.parentsyml2dir = false ∧ sys.access el.serverPath then
      setChange sys { el with mstat := { el.mstat with shared := true, rogue := true } }
      else { el with mstat := { el.mstat with rogue := false, contchg := true, attrchg := true } }
    let el := { el with cfEnt := newDefaults el.cfEnt }
    if inst.nocnflct ∧ el.mstat.shared then some ⟨false, el, vfpo, false⟩
    else
      let (cfEnt, me) := if el.mstat.preloaded then eptstat el.cfEnt inst.pkginst dupEntry
        else ({ el.cfEnt with npkgs := 1, pinfo := [⟨nul, inst.pkginst, 0, []⟩] }, some 0)
      let i ← me
      let status := if ctrl ∧ sys.isServed el.serverPath then servedFile
        else if inst.dbst ≠ nul then inst.dbst
        else if ctrl then entryOk else confirmCont
      let vfpo ← output vfpo (cfEnt.modifyPinfo i fun p => { p with status := status }) i
      some ⟨true, { el with cfEnt := { cfEnt with pinfo := [] } }, vfpo,
        !el.mstat.attrchg && !el.mstat.contchg⟩

/-- The variables of `pkgdbmerg`; the extlist is what is done and what is still to do. -/
structure Merge where
  map : Vfp
  tmp : Vfp
  cfEnt : Cfent
  done : List Cfextra
  todo : List Cfextra
  eocontents : Bool
  assumeOk : Bool
  changed : Nat
  installed : Nat

def Cfextra.path (el : Cfextra) : Str := el.cfEnt.path.getD []

def Cfextra.isMetafile (el : Cfextra) : Bool := el.cfEnt.ftype = 'i' ∨ el.cfEnt.ftype = 'n'

/-- Mark the elements inside of a directory that was a symbolic link. -/
def markInside (path : Str) (todo : List Cfextra) : List Cfextra :=
  let inside (el : Cfextra) : Bool := strncmp path el.path path.length = 0
  (todo.takeWhile inside).map (fun el =>
    { el with mstat := { el.mstat with parentsyml2dir := true } }) ++ todo.dropWhile inside

def adminSetuid (inst : Install) (el : Cfextra) : Cfextra :=
  let mstat := { el.mstat with
    setuid := el.mstat.setuid || isSetuid el.cfEnt
    setgid := el.mstat.setgid || isSetgid el.cfEnt }
  let mode := if inst.nosetuid && (mstat.setgid || mstat.setuid) then
    el.cfEnt.ainfo.mode &&& 0o171777 else el.cfEnt.ainfo.mode
  { el with
    cfEnt := { el.cfEnt with ainfo := { el.cfEnt.ainfo with mode := mode } }
    mstat := mstat }

def Merge.record (m : Merge) (r : EntResult) : Merge :=
  { m with
    tmp := r.tmp
    done := m.done ++ [r.el]
    changed := if r.changed then m.changed + 1 else m.changed
    installed := if r.installed then m.installed + 1 else m.installed }

/-- The loop of `pkgdbmerg` for an element that is merged; it ends with the first bad entry that is
read. -/
def Merge.mergeEnt (sys : System) (inst : Install) (stack : Str) (m : Merge) (el : Cfextra) :
    Option (Except Merge Merge) := do
  let m := { m with
    assumeOk := m.assumeOk || inst.dbst == nul && sys.clDvfy el.cfEnt.pkgClassIdx == qkVerify }
  let el := adminSetuid inst el
  if m.eocontents then
    let r ← doNewEnt sys inst m.tmp el m.assumeOk
    some (.ok (m.record r))
  else
    let found := srchcfile stack m.cfEnt el.cfEnt.path m.map (some m.tmp)
    let m := { m with map := found.cf, tmp := found.tmp.getD m.tmp, cfEnt := found.ept }
    if found.ret < 0 then some (.error { m with done := m.done ++ [el] })
    else if found.ret = 1 then
      let mstat := { el.mstat with
        osetuid := el.mstat.osetuid || isSetuid m.cfEnt
        osetgid := el.mstat.osetgid || isSetgid m.cfEnt }
      let todo := if m.cfEnt.ftype = 's' ∧ el.cfEnt.ftype = 'd' then markInside el.path m.todo
        else m.todo
      let m := { m with todo := todo }
      let r ← doLikeEnt sys inst m.tmp { el with mstat := mstat } m.cfEnt m.assumeOk
      some (.ok (m.record r))
    else
      let m := { m with eocontents := found.ret = 0 }
      let r ← doNewEnt sys inst m.tmp el m.assumeOk
      some (.ok (m.record r))

def Merge.step (sys : System) (inst : Install) (stack : Str) (m : Merge) (el : Cfextra)
    (todo : List Cfextra) : Option (Except Merge Merge) :=
  let m := { m with todo := todo }
  if el.isMetafile ∨ (todo.head?.any fun next => next.path = el.path) then
    some (.ok { m with done := m.done ++ [el] })
  else m.mergeEnt sys inst stack el

/-- The last round, when the extlist is at its end: what is left of the contents file is copied. -/
def Merge.finish (stack : Str) (m : Merge) : Int × Merge :=
  if m.eocontents then (m.changed, m)
  else
    let found := srchcfile stack m.cfEnt none m.map (some m.tmp)
    let m := { m with map := found.cf, tmp := found.tmp.getD m.tmp, cfEnt := found.ept }
    (m.changed, m)

/-- The loop over the extlist; the counter is the number of elements to do. -/
def Merge.run (sys : System) (inst : Install) (stack : Nat → Str) : Nat → Merge →
    Option (Int × Merge)
  | 0, m => some (m.finish (stack 0))
  | n + 1, m => match m.todo with
    | [] => some (m.finish (stack 0))
    | el :: todo => do
      match ← m.step sys inst (stack (n + 1)) el todo with
      | .error m => some (-1, m)
      | .ok m => m.run sys inst stack n

/-- `pkgdbmerg`: the value returned, and the variables at the end. It is undefined where the process
quits. `cfEnt` is what the last call left in the static entry, and `stack` the uninitialised buffer
in each call of `srchcfile`. -/
def pkgdbmerg (sys : System) (inst : Install) (stack : Nat → Str) (cfEnt : Cfent) (map tmp : Vfp)
    (extlist : List Cfextra) : Option (Int × Merge) :=
  Merge.run sys inst stack extlist.length
    ⟨vfpRewind map, vfpRewind tmp, { cfEnt with pinfo := [] }, [], extlist, false, false, 0, 0⟩

/-- What `typechg` can do: the types are the same or one is not known; or the new directory is
exclusive, takes the place of a directory, or is another change. -/
theorem typechg_cases (el cf : Cfent) (mstat : Mergstat) :
    (∃ ftype, (ftype = el.ftype ∨ ftype = cf.ftype) ∧
      typechg el cf mstat = (.ok, { cf with ftype := ftype }, mstat)) ∨
    cf.ftype = 'd' ∧ typechg el cf mstat = (.ignored, cf, mstat) ∨
    typechg el cf mstat = (.replace, cf, { mstat with dir2nondir := true }) ∨
    typechg el cf mstat = (.warning, cf, mstat) := by
  unfold typechg
  dsimp only
  split
  · exact .inl ⟨cf.ftype, .inr rfl, rfl⟩
  · split
    · exact .inl ⟨el.ftype, .inl rfl, rfl⟩
    · split
      · exact .inl ⟨cf.ftype, .inr rfl, rfl⟩
      · split
        · rename_i hx
          exact .inr (.inl ⟨hx.2, rfl⟩)
        · split
          · exact .inl ⟨cf.ftype, .inr rfl, rfl⟩
          · split
            · exact .inr (.inr (.inl rfl))
            · exact .inr (.inr (.inr rfl))

/-- What holds of an element through the calls that `set_change` makes. Objects of unknown type are
not compared. -/
theorem setChange_induct {P : Cfextra → Prop} (hel : P el) (hcv : P (el.cverify sys).2)
    (hav : el.cfEnt.ftype ≠ '?' → ∀ x, x.cfEnt.ftype = el.cfEnt.ftype → P x → P (x.averify sys).2)
    (hcont : ∀ x, P x → P x.setContchg) (hattr : ∀ x, P x → P x.setAttrchg) :
    P (setChange sys el) := by
  have hne (p : Char → Bool) (hp : p el.cfEnt.ftype) (hq : p '?' = false) :
      el.cfEnt.ftype ≠ '?' := by
    intro he
    rw [he, hq] at hp
    cases hp
  unfold setChange
  split
  · rename_i hc
    have hnext : P ((el.cverify sys).2.averify sys).2 := hav (hne hasContent hc rfl) _ rfl hcv
    dsimp only
    split
    · exact hcont _ hcv
    · split
      · split
        · exact hattr _ hnext
        · exact hnext
      · exact hcv
  · split
    · rename_i hc
      have hnext := hav (hne (fun c => c ∈ "dxcbp".toList) (by simpa using hc.2) rfl) el rfl hel
      dsimp only
      split
      · exact hattr _ hnext
      · split
        · exact hcont _ hnext
        · exact hnext
    · split
      · rename_i hc
        have hnext := hav (hne isLink hc.2 rfl) el rfl hel
        dsimp only
        split
        · exact hattr _ hnext
        · split
          · exact hcont _ hnext
          · exact hnext
      · exact hel

theorem likeStatus_induct {P : Cfextra → Prop} (hel : P el)
    (hset : ∀ c i, c ∈ [entryOk, nul, confirmCont, confirmAttr, inst.dbst] →
      (eptstat el.cfEnt inst.pkginst c).2 = some i →
      P { el with cfEnt := (eptstat el.cfEnt inst.pkginst c).1 })
    (hserved : ∀ x i, P x →
      P { x with cfEnt := x.cfEnt.modifyPinfo i fun p => { p with status := servedFile } })
    (hr : likeStatus sys inst ctrl ignore stflag i el = some (changed, el', i')) : P el' := by
  have hstat {c : Char} (hc : c ∈ [entryOk, nul, confirmCont, confirmAttr, inst.dbst]) {b : Bool}
      {x : Bool × Cfextra × Nat}
      (hx : ((eptstat el.cfEnt inst.pkginst c).2.map fun i =>
        (b, { el with cfEnt := (eptstat el.cfEnt inst.pkginst c).1 }, i)) = some x) : P x.2.1 := by
    obtain ⟨j, hj, rfl⟩ := Option.map_eq_some_iff.mp hx
    exact hset c j hc hj
  have hdbst {c : Char} (hc : c ∈ [entryOk, nul, confirmCont, confirmAttr, inst.dbst]) :
      (if inst.dbst ≠ nul then inst.dbst else c) ∈
        [entryOk, nul, confirmCont, confirmAttr, inst.dbst] := by
    split
    · simp
    · exact hc
  unfold likeStatus at hr
  dsimp only at hr
  split at hr
  · obtain ⟨x, hx, hr⟩ := Option.bind_eq_some_iff.mp hr
    have hm := hstat (by simp) hx
    split at hr
    · obtain ⟨-, rfl, -⟩ := Prod.mk.inj (Option.some.inj hr) |>.imp_right Prod.mk.inj
      exact hserved _ _ hm
    · obtain ⟨-, rfl, -⟩ := Prod.mk.inj (Option.some.inj hr) |>.imp_right Prod.mk.inj
      exact hm
  · split at hr
    · exact hstat (hdbst (by simp)) hr
    · split at hr
      · exact hstat (hdbst (by simp)) hr
      · split at hr
        · exact hstat (by simp) hr
        · split at hr
          · exact hstat (by simp) hr
          · obtain ⟨-, rfl, -⟩ := Prod.mk.inj (Option.some.inj hr) |>.imp_right Prod.mk.inj
            exact hel

theorem mergSteps_keeps (part : Cfextra → α) (fs : List (Cfextra → Bool × Cfextra))
    (hfs : ∀ f ∈ fs, ∀ el, part (f el).2 = part el) (changed : Bool) (el : Cfextra) :
    part (mergSteps changed el fs).2 = part el := by
  induction fs generalizing changed el with
  | nil => rfl
  | cons f fs ih =>
    have hnext := ih (fun g hg => hfs g (List.mem_cons_of_mem _ hg)) (changed || (f el).1) (f el).2
    exact hnext.trans (hfs f List.mem_cons_self el)

end Pkgtools
