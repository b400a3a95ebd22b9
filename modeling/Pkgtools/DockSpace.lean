import Pkgtools.CLib.Text
import Mathlib.Data.Nat.Notation
import Mathlib.Algebra.GroupWithZero.Nat
import Mathlib.Algebra.Group.Int.Defs

namespace Pkgtools
open CLib
set_option autoImplicit true

/-- An entry of the table of `getmntinfo`. -/
structure Statfs where
  mntonname : Str
  fstypename : Str
  bsize : UInt32
  blocks : UInt64
  bfree : UInt64
  bavail : UInt64
  files : UInt64
  ffree : UInt64
  rdonly : Bool
  bsize_ne : bsize ≠ 0

/-- The mount table. Its indices are of type `short`. -/
structure MountTable where
  mnts : List Statfs
  count : mnts.length ≤ 32767

/-- `struct fstable`, as far as the check uses it; counts are of the unsigned type `fsblkcnt_t`. -/
structure Fstable where
  name : Str
  bsize : Nat
  frsize : Nat
  bfree : Nat
  bused : Nat
  ffree : Nat
  fused : Nat
  writeable : Bool
  remote : Bool
  deriving DecidableEq, Repr

/-- The conversion to `fsblkcnt_t`. -/
def blkcnt (n : Nat) : Nat := n % 2 ^ 32

def isRemoteType (fstype : Str) : Bool :=
  "nfs".toList.isPrefixOf fstype || "smbfs".toList.isPrefixOf fstype ||
    "afpfs".toList.isPrefixOf fstype || "webdav".toList.isPrefixOf fstype

/-- The entry that `ensure_fs_tab` makes. -/
def fsEntry (m : Statfs) : Fstable where
  name := m.mntonname
  bsize := m.bsize.toNat
  frsize := m.bsize.toNat
  bfree := blkcnt m.bavail.toNat
  bused := blkcnt (m.blocks - m.bfree).toNat
  ffree := blkcnt m.ffree.toNat
  fused := blkcnt (m.files - m.ffree).toNat
  writeable := !m.rdonly
  remote := isRemoteType m.fstypename

def ensureFsTab (t : MountTable) : List Fstable := t.mnts.map fsEntry

/-- The mount point is the path, a directory above it, or a single character. -/
def mountMatches (name path : Str) : Bool :=
  decide (name.length ≤ path.length) && path.take name.length == name &&
    (path[name.length]?.isNone || path[name.length]? == some '/' || name.length == 1)

/-- The loop of `find_fs_for_path`, with the best match so far and its length. -/
def findFsLoop (path : Str) : List Str → (i : Nat) → (best : Option Nat) → (bestLen : Nat) →
    Option Nat
  | [], _, best, _ => best
  | name :: names, i, best, bestLen =>
    if mountMatches name path ∧ bestLen < name.length then
      findFsLoop path names (i + 1) (some i) name.length
    else findFsLoop path names (i + 1) best bestLen

/-- `find_fs_for_path`, by the names of the table. -/
def findFsForPath (names : List Str) (path : Str) : Option Nat := findFsLoop path names 0 none 0

def howmany (x y : Nat) : Nat := if x % y = 0 then x / y else x / y + 1

def sub32 (x y : Nat) : Nat := blkcnt (x + 2 ^ 32 - y)

/-- `nblk`, with unsigned arithmetic. -/
def nblk (size bsize frsize : Nat) : Nat :=
  if size = 0 ∨ bsize = 0 then 1
  else
    let ind := howmany bsize 4
    let dIndirect := blkcnt (ind + 12)
    let tIndirect := blkcnt (ind * (ind + 1) + 12)
    let tot := howmany size bsize
    if tIndirect < tot then
      let count1 := sub32 (sub32 tot (blkcnt (ind * ind))) 13 / ind
      let count := blkcnt (count1 + count1 / ind + ind + 3)
      blkcnt (blkcnt (tot + count) * howmany bsize 512)
    else if dIndirect < tot then
      blkcnt (blkcnt (tot + (sub32 tot 13 / ind + 2)) * howmany bsize 512)
    else if 12 < tot then blkcnt (blkcnt (tot + 1) * howmany bsize 512)
    else
      let frags := if 0 < frsize then blkcnt (howmany size frsize * frsize)
        else blkcnt (howmany size bsize * bsize)
      if frags = 0 then blkcnt (tot * howmany bsize 512) else howmany frags 512

/-- A package object of `extlist`. -/
structure SpaceObj where
  ftype : Char
  path : Str
  size : Int
  preloaded : Bool
  deriving DecidableEq, Repr

/-- `struct statvfs`, as far as `fsys_stat` uses it. -/
structure Statvfs where
  bsize : Nat
  frsize : Nat
  bavail : Nat
  files : Nat
  favail : Nat
  ffree : Nat

/-- `statvfs`, the size that `stat` reports, and `pkgloc`. -/
structure SpaceEnv where
  statvfs : Str → Option Statvfs
  stat : Str → Option Int
  pkgloc : Str

def BADCONT : Int := -1

/-- The argument of `nblk` for a size of type `long`. -/
def sizeArg (size : Int) : Nat := (size % 2 ^ 32).toNat

/-- `fsys_stat`; `none` is an error. -/
def fsysStat (env : SpaceEnv) (tab : List Fstable) (n : Nat) : Option (List Fstable) :=
  match tab[n]? with
  | none => none
  | some e =>
    if e.bsize ≠ 0 then some tab
    else match env.statvfs e.name with
      | none => none
      | some s => some (tab.set n { e with
          bsize := blkcnt s.bsize
          frsize := blkcnt s.frsize
          bfree := blkcnt ((if 0 < s.frsize ∧ s.frsize < 2 ^ 63 then howmany s.frsize 512
            else howmany s.bsize 512) * s.bavail)
          ffree := if 0 < s.files then blkcnt (if 0 < s.favail then s.favail else s.ffree)
            else blkcnt (2 ^ 63 - 1) })

def Fstable.counted (e : Fstable) : Bool := !(e.remote && !e.writeable)

def Fstable.add (e : Fstable) (blk num : Nat) : Fstable :=
  { e with bused := blkcnt (e.bused + blk), fused := blkcnt (e.fused + num) }

def installPath (pkgloc path : Str) : Str :=
  if path = "pkginfo".toList then pkgloc ++ '/' :: path else pkgloc ++ "/install/".toList ++ path

def contentBlocks (e : Fstable) (size : Int) : Nat :=
  if size ≠ BADCONT then nblk (sizeArg size) e.bsize e.frsize else 0

def needsDirBlock (ftype : Char) : Bool := ftype == 'd' || ftype == 'x' || ftype == 's'

/-- The file nodes and blocks of an object that is not an installation file. -/
def objectUse (env : SpaceEnv) (e : Fstable) (o : SpaceObj) : Nat × Nat :=
  match env.stat o.path with
  | none => (1, if needsDirBlock o.ftype then nblk e.bsize e.bsize e.frsize
      else contentBlocks e o.size)
  | some stSize =>
    (0, if needsDirBlock o.ftype then 0
      else if o.size ≠ BADCONT then nblk (sizeArg o.size) e.bsize e.frsize -
        nblk (sizeArg stSize) e.bsize e.frsize
      else 0)

/-- One turn of the first loop of `readmap`: the table and the errors. -/
def readInstall (env : SpaceEnv) (st : List Fstable × Nat) (o : SpaceObj) : List Fstable × Nat :=
  if o.ftype ≠ 'i' then st
  else match findFsForPath (st.1.map Fstable.name) (installPath env.pkgloc o.path) with
    | none => (st.1, st.2 + 1)
    | some n =>
      match fsysStat env st.1 n with
      | none => (st.1, st.2 + 1)
      | some tab =>
        (tab.modify n fun e => if e.counted then e.add (contentBlocks e o.size) 1 else e, st.2)

/-- One turn of the second loop. -/
def readObject (env : SpaceEnv) (st : List Fstable × Nat) (o : SpaceObj) : List Fstable × Nat :=
  if o.ftype = 'i' ∨ o.preloaded then st
  else match findFsForPath (st.1.map Fstable.name) o.path with
    | none => (st.1, st.2 + 1)
    | some n =>
      if (st.1[n]?.map Fstable.counted).getD true then
        match fsysStat env st.1 n with
        | none => (st.1, st.2 + 1)
        | some tab =>
          (tab.modify n fun e => e.add (objectUse env e o).2 (objectUse env e o).1, st.2)
      else st

def readmap (env : SpaceEnv) (tab : List Fstable) (extlist : List SpaceObj) : List Fstable × Nat :=
  extlist.foldl (readObject env) (extlist.foldl (readInstall env) (tab, 0))

inductive WarnType where
  | blck
  | node
  deriving DecidableEq, Repr

/-- A call of `warn`. -/
structure SpaceWarning where
  type : WarnType
  fs : Nat
  need : Nat
  avail : Nat
  deriving DecidableEq, Repr

def LIM_BFREE : Nat := 150
def LIM_FFREE : Nat := 25

/-- One turn of the loop of `dockspace`. -/
def checkFs (i : Nat) (e : Fstable) : List SpaceWarning :=
  if e.fused = 0 ∧ e.bused = 0 then []
  else
    (if e.bfree < LIM_BFREE + e.bused then [⟨.blck, i, e.bused, e.bfree⟩] else []) ++
      (if (e.ffree : Int) = -1 then []
        else if e.ffree < LIM_FFREE + e.fused then [⟨.node, i, e.fused, e.ffree⟩] else [])

def checkTab : Nat → List Fstable → List SpaceWarning
  | _, [] => []
  | i, e :: es => checkFs i e ++ checkTab (i + 1) es

/-- `dockspace` without a space file: the number of errors and the warnings. -/
def dockspace (env : SpaceEnv) (t : MountTable) (extlist : List SpaceObj) :
    Nat × List SpaceWarning :=
  let (tab, error) := readmap env (ensureFsTab t) extlist
  let warnings := checkTab 0 tab
  (error + warnings.length, warnings)

def targetPath (env : SpaceEnv) (o : SpaceObj) : Str :=
  if o.ftype = 'i' then installPath env.pkgloc o.path else o.path

/-- The objects that `find_fs_for_path` places on a filesystem. -/
def objectsOn (env : SpaceEnv) (t : MountTable) (extlist : List SpaceObj) (i : Nat) :
    List SpaceObj :=
  extlist.filter fun o =>
    findFsForPath (t.mnts.map Statfs.mntonname) (targetPath env o) == some i

def newBlocks (m : Statfs) (o : SpaceObj) : Nat :=
  if o.ftype ≠ 'i' ∧ needsDirBlock o.ftype then nblk m.bsize.toNat m.bsize.toNat m.bsize.toNat
  else if o.size ≠ BADCONT then nblk (sizeArg o.size) m.bsize.toNat m.bsize.toNat else 0

end Pkgtools
