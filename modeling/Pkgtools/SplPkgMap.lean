import Pkgtools.CLib.Numeral
import Pkgtools.CLib.StepRun
import Pkgtools.DockSpace
import Mathlib.Data.List.Sort

namespace Pkgtools
open CLib
set_option autoImplicit true

/-- `struct cfent`, as far as the volumes are concerned. The part is a `short`, the size is of the
unsigned type `fsblkcnt_t`. -/
structure PartEnt where
  ftype : Char
  path : Str
  pkgClass : Str
  volno : Int
  size : Nat
  deriving DecidableEq, Repr

/-- `struct data`: an object and its blocks. -/
structure PartData where
  blks : Nat
  ept : PartEnt
  deriving DecidableEq, Repr

def PartData.setVol (d : PartData) (v : Int) : PartData :=
  { d with ept := { d.ept with volno := v } }

/-- `struct class_type`: the first and the last part with an object of a class. -/
structure ClassType where
  name : Str
  first : Int
  last : Int
  deriving DecidableEq, Repr

/-- The arguments of `splpkgmap`, with `order` empty for `NULL`. -/
structure SplArgs where
  eptlist : List PartEnt
  order : List Str
  bsize : Nat
  frsize : Nat
  plimit : Nat
  pilimit : Nat
  pllimit : Nat
  mount : Bool

/-- What does not change while the volumes are filled: `DIRSIZE`, the blocks of the `pkginfo` file,
the limits and the order by size. -/
structure SplEnv where
  dirSize : Nat
  bpkginfo : Nat
  limit : Nat
  ilimit : Nat
  sf : List Nat

/-- The static variables and the objects. The log is what is written to `stderr` of each part. -/
structure Packing where
  volno : Int
  btotal : Nat
  ftotal : Nat
  bmax : Nat
  fmax : Nat
  dirlist : List Str
  cl : List ClassType
  f : List PartData
  log : List (Int × Nat × Nat)
  deriving DecidableEq, Repr

/-- Why `splpkgmap` quits: a check of its own, or `newvolume`. -/
inductive SplQuit where
  | free | parts | infoFirst | infoSpace | tooBig
  | volblks (volno : Int) (blocks : Nat)
  | volfiles (volno : Int) (files : Nat)
  | running
  deriving DecidableEq, Repr

def SplQuit.IsCheck : SplQuit → Prop
  | .free | .parts | .infoFirst | .infoSpace | .tooBig => True
  | .volblks .. | .volfiles .. | .running => False

/-- `strchr(set, c) != NULL`; the terminating NUL is found too. -/
def strchr (set : Str) (c : Char) : Bool := set.contains c || c == Char.ofNat 0

/-- An object without contents. -/
def isVirtual (ftype : Char) : Bool := strchr "dxslcbp".toList ftype

/-- What is left of a path when it is cut at each `/` behind the characters `done`. -/
def cutsFrom (done : Str) : Str → List Str
  | [] => []
  | c :: rest =>
    if c = '/' then done :: cutsFrom (done ++ [c]) rest else cutsFrom (done ++ [c]) rest

/-- The directories that `allocnode` and `nodecount` see in a path, without a leading `/`. -/
def dirCuts : Str → List Str
  | '/' :: rest => cutsFrom ['/'] rest
  | path => cutsFrom [] path

/-- `allocnode` with a path. -/
def allocnode (dirlist : List Str) (path : Str) : List Str :=
  (dirCuts path).foldl (fun dirlist dir => if dir ∈ dirlist then dirlist else dirlist ++ [dir])
    dirlist

/-- `nodecount`: a directory counts as found when some entry of the list differs from it. -/
def nodecount (dirlist : List Str) (path : Str) : Nat :=
  (dirCuts path).countP fun dir => !dirlist.any fun entry => entry != dir

/-- `addclass`. -/
def addclass (aclass : Str) (vol : Int) : List ClassType → List ClassType
  | [] => [⟨aclass, vol, vol⟩]
  | c :: cl =>
    if c.name = aclass then
      if vol ≤ 0 then c :: cl
      else ⟨c.name, if c.first = 0 ∨ vol < c.first then vol else c.first,
        if c.last < vol then vol else c.last⟩ :: cl
    else c :: addclass aclass vol cl

/-- `sortsize`: each object is put in front of the first one with fewer blocks. -/
def sortsize (f : List PartData) : List Nat :=
  (f.zipIdx.foldl (fun sf d => sf.orderedInsert (fun d e => e.1.blks < d.1.blks) d) []).map Prod.snd

/-- The objects in the order of `sf`, with their places in the list. -/
def SplEnv.sorted (env : SplEnv) (f : List PartData) : List (Nat × PartData) :=
  env.sf.filterMap fun i => f[i]?.map fun d => (i, d)

/-- The loop of `newvolume` over the objects that have been assigned to the volume. -/
def force (env : SplEnv) (v : Int) : List (Nat × PartData) → (btotal ftotal : Nat) →
    Except SplQuit (Nat × Nat)
  | [], btotal, ftotal => .ok (btotal, ftotal)
  | (_, d) :: ds, btotal, ftotal =>
    if d.ept.volno = v then
      let newnodes := nodecount [] d.ept.path
      let ftotal := ftotal + (newnodes + 1)
      let btotal := btotal + (d.blks + newnodes * env.dirSize)
      if env.limit < btotal then .error (.volblks v btotal)
      else if env.ilimit = 0 ∧ env.ilimit < ftotal + 1 then .error (.volfiles v (ftotal + 1))
      else force env v ds btotal ftotal
    else force env v ds btotal ftotal

/-- `newvolume`. -/
def newvolume (env : SplEnv) (s : Packing) : Except SplQuit Packing :=
  let v := wrap 16 (s.volno + 1)
  if s.volno ≠ 0 then do
    let (btotal, ftotal) ← force env v (env.sorted s.f) (env.bpkginfo + 2) 2
    .ok { s with
      volno := v, btotal, ftotal, dirlist := []
      bmax := max s.bmax s.btotal, fmax := max s.fmax s.ftotal
      log := s.log ++ [(s.volno, s.btotal, s.ftotal)] }
  else do
    let (btotal, ftotal) ← force env v (env.sorted s.f) 2 1
    .ok { s with volno := v, btotal, ftotal, dirlist := [] }

/-- An object that `store` has to place, for a class or for all of them. -/
def waits (aclass : Option Str) (d : PartData) : Bool :=
  d.ept.volno == 0 && !isVirtual d.ept.ftype && aclass.all (· == d.ept.pkgClass)

/-- An object that fits on the current volume. -/
def Packing.fits (s : Packing) (env : SplEnv) (d : PartData) : Bool :=
  let ftemp := nodecount s.dirlist d.ept.path
  let btemp := d.blks + ftemp * env.dirSize
  (env.limit == 0 || decide (s.btotal + btemp ≤ env.limit)) &&
    (env.ilimit == 0 || decide (s.ftotal + ftemp < env.ilimit))

def Packing.waiting (s : Packing) (env : SplEnv) (aclass : Option Str) : List (Nat × PartData) :=
  (env.sorted s.f).filter fun d => waits aclass d.2

/-- The largest object which fits on this volume. -/
def Packing.choice (s : Packing) (env : SplEnv) (aclass : Option Str) : Option (Nat × PartData) :=
  (s.waiting env aclass).find? fun d => s.fits env d.2

/-- The part of `store` behind its loop, for the object that was chosen. The part number is
converted to `char`. -/
def Packing.place (s : Packing) (env : SplEnv) (i : Nat) (d : PartData) : Packing :=
  let svnodes := nodecount s.dirlist d.ept.path
  { s with
    f := s.f.set i (d.setVol (wrap 8 s.volno))
    ftotal := s.ftotal + (svnodes + 1)
    btotal := s.btotal + (d.blks + svnodes * env.dirSize)
    dirlist := allocnode s.dirlist d.ept.path
    cl := addclass d.ept.pkgClass s.volno s.cl }

/-- The classes that are still to be placed, and the state. -/
abbrev Packer := List (Option Str) × Packing

/-- One step of the loops over `store`: a class is complete, an object is placed, or `store` opens a
new volume and starts again. -/
def packStep (env : SplEnv) : Packer → Except SplQuit (Option Packer)
  | ([], _) => .ok none
  | (aclass :: todo, s) =>
    if s.waiting env aclass = [] then .ok (some (todo, s))
    else
      match s.choice env aclass with
      | none => do
        let s ← newvolume env s
        .ok (some (aclass :: todo, s))
      | some (i, d) => .ok (some (aclass :: todo, s.place env i d))

section Start
variable (a : SplArgs)

/-- `DIRSIZE`: a logical block, or a fragment. -/
def SplArgs.dirSize : Nat :=
  if 0 < a.frsize then howmany a.frsize 512 else howmany a.bsize 512

/-- The limit, with the `-l` option applied. -/
def SplArgs.limit : Nat := if a.pllimit ≠ 0 then a.pllimit else a.plimit

/-- The room for the `pkgmap` file, with `EFACTOR` bytes for an object. -/
def SplArgs.mapBlocks : Nat := nblk (blkcnt (a.eptlist.length * 128)) a.bsize a.frsize

/-- The sum of a package that is made in a directory; it is an `int`, and compared as an
`unsigned int`. -/
def freeLoop : List PartEnt → List Str → (total : Nat) → Bool
  | [], _, _ => true
  | e :: es, dirlist, total =>
    if isVirtual e.ftype then freeLoop es dirlist total
    else
      let total := blkcnt (total + nodecount dirlist e.path * a.dirSize)
      let total := blkcnt (total + nblk e.size a.bsize a.frsize)
      if a.plimit < total then false else freeLoop es (allocnode dirlist e.path) total

def SplArgs.isFree : Bool :=
  a.mount || !(decide (0 < a.pilimit) && decide (a.pilimit < a.eptlist.length + 1)) &&
    freeLoop a a.eptlist [] 0

/-- The objects with the physical blocks that each of them uses. -/
def SplArgs.data : List PartData :=
  a.eptlist.map fun e => ⟨if isVirtual e.ftype then 0 else nblk e.size a.bsize a.frsize, e⟩

def SplArgs.nparts : Int := a.eptlist.foldl (fun n e => if n < e.volno then e.volno else n) (-1)

def SplArgs.classes : List ClassType := a.eptlist.foldl (fun cl e => addclass e.pkgClass 0 cl) []

def SplArgs.bpkginfo : Nat :=
  a.data.foldl (fun b d => if b = 0 ∧ d.ept.path = "pkginfo".toList then d.blks else b) 0

/-- An object that is counted for part `i` in front. -/
def countedOn (i : Int) (d : PartData) : Bool :=
  if i = 1 ∧ d.ept.ftype = 'i' ∧
      (d.ept.path = "pkginfo".toList ∨ d.ept.path = "pkgmap".toList) then false
  else d.ept.volno == i || d.ept.ftype == 'i' && i == 1

/-- The loop over the objects slated for a part: entries, blocks and directories so far. -/
def partLoop (i : Int) (t : Nat × Nat × List Str) (d : PartData) : Nat × Nat × List Str :=
  if countedOn i d then
    (t.1 + nodecount t.2.2 d.ept.path, t.2.1 + d.blks, allocnode t.2.2 d.ept.path)
  else t

/-- The blocks and the entries that are checked for a part in front. -/
def SplArgs.partTotals (i : Int) : Nat × Nat :=
  let btemp := a.bpkginfo + 2 + if i = 1 then a.mapBlocks + 2 else 0
  let t := a.data.foldl (partLoop i) (if i = 1 then 4 else 2, btemp, [])
  (t.2.1 + t.1 * a.dirSize, t.1)

def SplArgs.partFits (i : Int) : Bool :=
  decide ((a.partTotals i).1 ≤ a.limit) &&
    (a.pilimit == 0 || decide ((a.partTotals i).2 + 1 ≤ a.pilimit))

def SplArgs.env : SplEnv := ⟨a.dirSize, a.bpkginfo, a.limit, a.pilimit, sortsize a.data⟩

/-- The variables of the loop over the installation files. -/
structure Installing where
  flag : Bool
  errflg : Bool
  btotal : Nat
  ftotal : Nat

/-- The loop over the installation files, as far as it counts. -/
def installStep (r : Installing) (d : PartData) : Installing :=
  if d.ept.ftype ≠ 'i' then r
  else
    -- save room for install directory
    let r := if r.flag then r
      else { r with flag := true, ftotal := r.ftotal + 1, btotal := r.btotal + 2 }
    if d.ept.volno = 0 then { r with ftotal := r.ftotal + 1, btotal := r.btotal + d.blks }
    else if d.ept.volno ≠ 1 then { r with errflg := true }
    else r

def installFile (d : PartData) : PartData :=
  if d.ept.ftype = 'i' ∧ d.ept.volno = 0 then d.setVol 1 else d

/-- The object does not fit on a volume of its own. -/
def tooBig (env : SplEnv) (dirlist : List Str) (d : PartData) : Bool :=
  decide (env.limit < d.blks + (nodecount dirlist d.ept.path * env.dirSize + (env.bpkginfo + 2)))

/-- `splpkgmap` in front of the first call of `store`. -/
def splStart : Except SplQuit Packing :=
  if !a.isFree then .error .free
  else if !(List.range a.nparts.toNat).all (fun k => a.partFits (k + 1)) then .error .parts
  else do
    let s ← newvolume a.env ⟨0, 0, 0, 0, 0, [], a.classes, a.data, []⟩
    let r := s.f.foldl installStep ⟨false, false, s.btotal + a.mapBlocks, s.ftotal + 1⟩
    let s := { s with
      btotal := r.btotal, ftotal := r.ftotal, dirlist := [], f := s.f.map installFile }
    if r.errflg then .error .infoFirst
    else if a.env.limit < s.btotal then .error .infoSpace
    else if s.f.any (tooBig a.env s.dirlist) then .error .tooBig
    else .ok s

end Start

/-- The first part of a class; one without a part takes the last part of the class in front. -/
def ClassType.firstFor (c : ClassType) (before : Int) : Int := if c.first = 0 then before
    else c.first

def ClassType.lastFor (c : ClassType) (before : Int) : Int := if c.first = 0 then before else c.last

/-- The loop that places the virtual objects, class by class. -/
def placeVirtual : (before : Int) → List ClassType → List PartData → List PartData
  | _, [], f => f
  | before, c :: cl, f =>
    placeVirtual (c.lastFor before) cl (f.map fun d =>
      if d.ept.volno = 0 ∧ d.ept.pkgClass = c.name then
        d.setVol (if strchr "sl".toList d.ept.ftype then c.lastFor before else c.firstFor before)
      else d)

/-- The loop that closes the gaps in the part numbers from `i` on; the new number is a `short`. -/
def renumber : Nat → (i newVol : Int) → List PartData → Int × List PartData
  | 0, _, newVol, f => (newVol, f)
  | n + 1, i, newVol, f =>
    renumber n (i + 1) (if f.any (fun d => d.ept.volno == i) then wrap 16 (newVol + 1) else newVol)
      (f.map fun d => if d.ept.volno = i then d.setVol newVol else d)

/-- What `splpkgmap` returns and leaves behind, with the part that was opened last and
its totals. -/
structure SplResult where
  nparts : Int
  f : List PartData
  plimit : Nat
  pilimit : Nat
  log : List (Int × Nat × Nat)
  last : Int × Nat × Nat
  deriving DecidableEq, Repr

/-- `splpkgmap` behind the last call of `store`. -/
def splFinish (env : SplEnv) (nparts : Int) (s : Packing) : Except SplQuit SplResult := do
  let s := { s with f := placeVirtual 1 s.cl s.f }
  let s ← if s.btotal ≠ 0 then newvolume env s else .ok s
  if s.volno - 1 < nparts then
    let (newVol, f) := renumber (nparts + 1 - s.volno).toNat s.volno s.volno s.f
    .ok ⟨newVol - 1, f, s.bmax, s.fmax, s.log, (s.volno, s.btotal, s.ftotal)⟩
  else .ok ⟨s.volno - 1, s.f, s.bmax, s.fmax, s.log, (s.volno, s.btotal, s.ftotal)⟩

/-- The loops over `store` begin with the classes of the command line. -/
def SplArgs.todo (a : SplArgs) : List (Option Str) := a.order.map some ++ [none]

/-- `splpkgmap`, with at most so many calls of `store`. -/
def splpkgmap (fuel : Nat) (a : SplArgs) : Except SplQuit SplResult := do
  let s ← splStart a
  let (_, s) ← runSteps (packStep a.env) .running fuel (a.todo, s)
  splFinish a.env a.nparts s

end Pkgtools
