import Pkgtools.CLib.Scanf
import Pkgtools.DataStream

namespace Pkgtools
open CLib
set_option autoImplicit true

def ENTRY_MAX : Nat := 256

def MAP_STAT_SIZE : Nat := 60

/-- Why a function has no result: it reported an error, C leaves its behaviour undefined, or the
passes counted out for a loop were not enough. -/
inductive Abort where
  | refused
  | undefined
  | running
  deriving DecidableEq, Repr

theorem exists_of_toOption_any {x : Except ε α} {p : α → Bool} (h : x.toOption.any p) :
    ∃ a, x = .ok a ∧ p a := by
  cases x with
  | error e => cases h
  | ok a => exact ⟨a, rfl, h⟩

theorem bind_eq_ok_iff {x : Except ε α} {f : α → Except ε β} :
    (x >>= f) = .ok b ↔ ∃ a, x = .ok a ∧ f a = .ok b := by
  cases x with
  | error e =>
    constructor
    · intro h
      cases h
    · rintro ⟨a, ha, -⟩
      cases ha
  | ok a =>
    constructor
    · intro h
      exact ⟨a, rfl, h⟩
    · rintro ⟨a', ha, h⟩
      cases ha
      exact h

/-- The value of an `int` expression. -/
def int (x : Int) : Except Abort Int :=
  if -2 ^ 31 ≤ x ∧ x < 2 ^ 31 then .ok x else .error .undefined

/-- `struct dm_buf`: the text written so far; the rest of the allocation is cleared. -/
structure DmBuf where
  text : Str
  allocation : Nat
  deriving DecidableEq, Repr

def DmBuf.bytes (b : DmBuf) : Str := b.text ++ List.replicate (b.allocation - b.text.length) nul

/-- The loop that enlarges the buffer until `need` bytes and a terminator fit. -/
def growTo (need : Nat) : Nat → Nat → Nat
  | 0, allocation => allocation
  | passes + 1, allocation =>
    if need ≥ allocation then growTo need passes (allocation + BLK_SIZE) else allocation

def catAndCount (b : DmBuf) (append : Str) : DmBuf :=
  let need := b.text.length + append.length
  ⟨b.text ++ append, growTo need (need + 1) b.allocation⟩

/-- What the first line of a `pkgmap` says: the number of parts, the maximum part size and, for a
compressed package, the compressed size. -/
structure MapSize where
  nparts : Int
  maxpsize : Int
  cmpsize : Option Int
  deriving DecidableEq, Repr

/-- `rd_map_size`: `fgets` of the first line, then `sscanf (": %d %d %d")`. -/
def rdMapSize (pkgmap : Str) : Option MapSize :=
  let line := ((pkgmap.take (MAP_STAT_SIZE - 1)).takeWhile (· != '\n'))
  match line with
  | ':' :: s => do
    let (npts, s) ← scanInt 32 s
    let (maxpsz, s) ← scanInt 32 s
    some ⟨npts, maxpsz, (scanInt 32 s).map Prod.fst⟩
  | _ => none

/-- A package that is to be transferred: its name, the size of its `pkginfo` file and its `pkgmap`
file; a file that cannot be opened is `none`. -/
structure SrcPkg where
  name : Str
  pkginfo : Option Nat
  pkgmap : Option Str
  deriving DecidableEq, Repr

/-- What a line of the header says of a package. -/
structure TocEntry where
  pkg : Str
  nparts : Int
  maxsiz : Int
  /-- The parts per volume, empty if the package is not split. -/
  volnos : List Int
  deriving DecidableEq, Repr

/-- The state of `genheader`: the header, the running total, the number of volumes; and the entries
that have been written to the header. -/
structure GenState where
  hdrbuf : DmBuf
  totsize : Int
  volcnt : Nat
  toc : List TocEntry
  deriving DecidableEq, Repr

/-- `while (totsize <= dstdev.capacity && partcnt <= nparts)`, where the second test holds for so
many more passes. -/
def fillVolume (capacity maxpsize : Int) : Nat → Int → Int → Except Abort (Int × Int)
  | 0, totsize, partcnt => .ok (totsize, partcnt)
  | todo + 1, totsize, partcnt =>
    if totsize ≤ capacity then do
      let totsize ← int (totsize + maxpsize)
      let partcnt ← int (partcnt + 1)
      fillVolume capacity maxpsize todo totsize partcnt
    else .ok (totsize, partcnt)

/-- `while (partcnt < nparts)`: each pass fills a volume and writes the number of parts on it. -/
def splitParts (capacity nparts maxpsize : Int) :
    Nat → GenState → Int → Int → List Int → Except Abort (GenState × List Int)
  | 0, _, _, _, _ => .error .running
  | passes + 1, g, partcnt, lastpartcnt, counts =>
    if partcnt < nparts then do
      let (_, partcnt) ← fillVolume capacity maxpsize (nparts + 1 - partcnt).toNat g.totsize partcnt
      -- partcnt == 0 means skip to next volume
      let partcnt := if partcnt ≠ 0 then partcnt - 1 else partcnt
      let count := partcnt - lastpartcnt
      let hdrbuf := catAndCount g.hdrbuf (' ' :: fmtD count)
      splitParts capacity nparts maxpsize passes
        { g with hdrbuf := hdrbuf, volcnt := g.volcnt + 1, totsize := 0 }
        partcnt partcnt (counts ++ [count])
    else .ok (g, counts)

/-- The header text of a package in front of its parts per volume. -/
def entryHead (name : Str) (nparts maxpsize : Int) : Str :=
  name ++ ' ' :: fmtD nparts ++ ' ' :: fmtD maxpsize

/-- The body of `genheader`'s second loop over the packages. -/
def genEntry (capacity : Int) (g : GenState) (p : SrcPkg) : Except Abort GenState :=
  match p.pkgmap.bind rdMapSize with
  | none => .error .refused
  | some m =>
    let nparts := m.nparts
    -- the header needs the real size
    let maxpsize := m.cmpsize.getD m.maxpsize
    if capacity ≠ 0 ∧ maxpsize > capacity then .error .refused
    else if (entryHead p.name nparts maxpsize).length ≥ ENTRY_MAX then .error .refused
    else do
      let g := { g with hdrbuf := catAndCount g.hdrbuf (entryHead p.name nparts maxpsize) }
      let size ← int (nparts * maxpsize)
      let totsize ← int (g.totsize + size)
      let (g, counts) ← if capacity ≠ 0 ∧ capacity < totsize then do
          let totsize ← if totsize ≠ 0 then int (totsize - size) else .ok totsize
          -- every pass but the first takes at least one part
          let (g, counts) ← splitParts capacity nparts maxpsize (nparts.toNat + 2)
            { g with totsize := totsize } 0 0 []
          -- first parts/volume number does not count
          .ok ({ g with volcnt := g.volcnt - 1 }, counts)
        else .ok ({ g with totsize := totsize }, [])
      .ok { g with hdrbuf := catAndCount g.hdrbuf ['\n'],
                   toc := g.toc ++ [⟨p.name, nparts, maxpsize, counts⟩] }

def genEntries (capacity : Int) : GenState → List SrcPkg → Except Abort GenState
  | g, [] => .ok g
  | g, p :: ps => do
    let g ← genEntry capacity g p
    genEntries capacity g ps

/-- The first loop over the packages: the blocks of the `pkginfo` files. The sum is formed in
`off_t` and converted to `int`. -/
def pkginfoTotal : Int → List SrcPkg → Except Abort Int
  | totsize, [] => .ok totsize
  | totsize, p :: ps =>
    match p.pkginfo with
    | none => .error .refused
    | some size => pkginfoTotal (wrap 32 (totsize + (size / BLK_SIZE + 1 : Nat))) ps

def genheader (capacity : Int) (pkg : List SrcPkg) : Except Abort GenState := do
  let hdrbuf := catAndCount (catAndCount ⟨[], BLK_SIZE⟩ HDR_PREFIX) ['\n']
  let totsize ← pkginfoTotal 0 pkg
  let totsize ← int (totsize + (pkg.length / 4 + 1 : Nat))
  if capacity ≠ 0 ∧ totsize > capacity then .error .refused
  else do
    let g ← genEntries capacity ⟨hdrbuf, totsize, 1, []⟩ pkg
    .ok { g with hdrbuf := catAndCount (catAndCount g.hdrbuf HDR_SUFFIX) ['\n'] }

end Pkgtools
