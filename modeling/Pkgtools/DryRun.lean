import Pkgtools.Merge
import Pkgtools.CLib.RecordFile

namespace Pkgtools
open CLib
set_option autoImplicit true

/-- How a structure lies in memory, and in a file to which it is written as it is. What its pointers
point to is not part of it. -/
structure StructImage (α : Type) where
  size : Nat
  bytes : α → Str
  value : Str → α
  /-- The values that the fields of the structure can hold. -/
  Fits : α → Prop
  size_lt : size < 2 ^ 31
  length_bytes : ∀ a, (bytes a).length = size
  value_bytes : ∀ a, Fits a → value (bytes a) = a

/-- `sizeof (int)` and `sizeof (size_t)` of an LP64 system. -/
def sizeofInt : Nat := 4
def sizeofSizeT : Nat := 8

/-- `PKGNAMESIZE`. -/
def pkgnamesize : Nat := 32

/-- `struct drinfo`, as far as a continuation looks at it. -/
structure Drinfo where
  type : Nat
  totalExtRecs : Nat
  totalFsRecs : Nat
  totalPkgs : Nat
  deriving DecidableEq, Repr

/-- `struct fstable`, with the strings it points to. -/
structure FsRecord where
  namlen : Int
  bsize : Nat
  frsize : Nat
  bfree : Nat
  bused : Nat
  ffree : Nat
  fused : Nat
  /-- The eight one-bit fields. -/
  flags : Nat
  name : Option Str
  fstype : Option Str
  remoteName : Option Str
  deriving DecidableEq, Repr

structure DryImages where
  drinfo : StructImage Drinfo
  fstable : StructImage FsRecord
  cfextra : StructImage Cfextra
  pinfo : StructImage Pinfo

/-- What a dry run has collected. -/
structure DrySession where
  type : Nat
  /-- `this_exitcode`. -/
  exitcode : Int
  pkginst : Str
  packages : List Str
  fsTab : List FsRecord
  extlist : List Cfextra

/-- The objects that are saved: no metafiles, and those that change the system or come from an
earlier dry run. -/
def DrySession.isSaved (s : DrySession) (x : Cfextra) : Bool :=
  x.cfEnt.ftype ≠ 'i' ∧
    (x.mstat.preloaded ∨ s.exitcode = 0 ∧ (x.mstat.contchg ∨ x.mstat.attrchg))

def DrySession.saved (s : DrySession) : List Cfextra := s.extlist.filter s.isSaved

/-- `add_pkg_to_list`. -/
def addPkgToList (exitcode : Int) (packages : List Str) (pkgname : Str) : List Str :=
  packages ++ [(pkgname ++ if exitcode = 0 then [] else ['-']).take (pkgnamesize - 1)]

/-- `write_string`: the length is written as an `int`. -/
def writeString : Option Str → Str
  | none => leBytes sizeofInt 0
  | some s => leBytes sizeofInt (s.length + 1) ++ (s ++ [nul])

/-- A name in its field of an entry of the package list. -/
def nameBytes (s : Str) : Str := s ++ List.replicate (pkgnamesize - s.length) nul

section Bin
variable (im : DryImages)

def writeFs (f : FsRecord) : Str :=
  im.fstable.bytes f ++ (writeString f.name ++ (writeString f.fstype ++ writeString f.remoteName))

/-- An object with its packages, from the record that `eptstat` returns on. -/
def writeObject (pkginst : Str) (x : Cfextra) : Str :=
  let (e, me) := eptstat x.cfEnt pkginst confirmCont
  im.cfextra.bytes x ++ (writeString x.cfEnt.path ++ (writeString x.cfEnt.ainfo.localPath ++
    (e.pinfo.drop (me.getD 0)).flatMap im.pinfo.bytes))

def DrySession.info (s : DrySession) : Drinfo :=
  ⟨s.type, s.saved.length, s.fsTab.length, s.packages.length⟩

/-- `write_dryrun_bin`, with the counts of `write_dryrun_ascii`; no write fails. -/
def writeDryrunBin (s : DrySession) : Str :=
  im.drinfo.bytes s.info ++ (s.packages.flatMap nameBytes ++
    (s.fsTab.flatMap (writeFs im) ++ s.saved.flatMap (writeObject im s.pkginst)))

/-- `read` of a number of bytes that are there. A count over `INT_MAX` is an error. A read that
comes short is not noticed, but leaves a part of its buffer undefined. -/
def readBytes (n : Nat) (file : Str) : Option (Str × Str) :=
  if n < 2 ^ 31 ∧ n ≤ file.length then some (file.take n, file.drop n) else none

/-- `read_string`, into a buffer of `cap` bytes: the length is read as a `size_t`. The string is
NULL if the length is 0 or the read of it fails. -/
def readString (cap : Nat) (file : Str) : Option (Option Str × Str) := do
  let (b, file) ← readBytes sizeofSizeT file
  let stringSize := leValue b
  if stringSize = 0 ∨ 2 ^ 31 ≤ stringSize then some (none, file)
  else if cap < stringSize then none
  else
    let (s, file) ← readBytes stringSize file
    some (some (s.takeWhile (· != nul)), file)

def readPkgNames (exitcode : Int) : Nat → List Str → Str → Option (List Str × Str)
  | 0, packages, file => some (packages, file)
  | n + 1, packages, file => do
    let (b, file) ← readBytes pkgnamesize file
    readPkgNames exitcode n (addPkgToList exitcode packages (b.takeWhile (· != nul))) file

/-- `load_fsentry` fills in the entry that it is given; the table is left as it is. -/
def loadFsentry (fsTab : List FsRecord) (_ : FsRecord) (_ _ _ : Str) : List FsRecord := fsTab

def readFsRecs : Nat → List FsRecord → Str → Option (List FsRecord × Str)
  | 0, fsTab, file => some (fsTab, file)
  | n + 1, fsTab, file => do
    let (b, file) ← readBytes im.fstable.size file
    let (name, file) ← readString pathMax file
    let name ← name
    let (fstype, file) ← readString 200 file
    let fstype ← fstype
    let (remoteName, file) ← readString pathMax file
    let remoteName ← remoteName
    readFsRecs n (loadFsentry fsTab (im.fstable.value b) name fstype remoteName) file

/-- The loop over the packages of an object; it goes on while there is a record behind the one that
`eptstat` returns. -/
def readPinfos : Nat → Cfent → Str → Option (Cfent × Str)
  | 0, _, _ => none
  | n + 1, e, file => do
    let (b, file) ← readBytes im.pinfo.size file
    let (e, me) := eptstat e (im.pinfo.value b).pkg confirmCont
    let i ← me
    if i + 1 < e.pinfo.length then readPinfos n e file else some (e, file)

/-- An object as `seed_pkgobjmap` gets it. -/
def readExtRec (file : Str) : Option (Cfextra × Str) := do
  let (b, file) ← readBytes im.cfextra.size file
  let x := im.cfextra.value b
  let (path, file) ← readString pathMax file
  let path ← path
  let (localPath, file) ← readString pathMax file
  let (e, file) ← readPinfos im file.length { x.cfEnt with pinfo := [] } file
  some ({ x with
    cfEnt := { e with path := some path, ainfo := { e.ainfo with localPath := localPath } }
    mstat := { x.mstat with preloaded := true } }, file)

def readExtRecs : Nat → List Cfextra → Str → Option (List Cfextra × Str)
  | 0, objects, file => some (objects, file)
  | n + 1, objects, file => do
    let (x, file) ← readExtRec im file
    readExtRecs n (objects ++ [x]) file

structure Continued where
  packages : List Str
  fsTab : List FsRecord
  objects : List Cfextra

/-- `read_continue_bin`. There is nothing where it returns 0, or where it is undefined. -/
def readContinueBin (thisType : Nat) (exitcode : Int) (file : Str) : Option Continued := do
  let (b, file) ← readBytes im.drinfo.size file
  let info := im.drinfo.value b
  if thisType ≠ info.type then none
  else
    let (packages, file) ← readPkgNames exitcode info.totalPkgs [] file
    let (fsTab, file) ← readFsRecs im info.totalFsRecs [] file
    let (objects, _) ← readExtRecs im info.totalExtRecs [] file
    some ⟨packages, fsTab, objects⟩

end Bin

/-- What is to be restored of an object: its path and local path, its attributes, and the names,
status and classes of its packages. -/
def objectView (x : Cfextra) : Option Str × Char × Str × Ainfo × Cinfo × List (Str × Char × Str) :=
  (x.cfEnt.path, x.cfEnt.ftype, x.cfEnt.pkgClass, x.cfEnt.ainfo, x.cfEnt.cinfo,
    x.cfEnt.pinfo.map fun p => (p.pkg, p.status, p.aclass))

/-- The continuation of a dry run starts with what it has collected. -/
def Restores (im : DryImages) (s : DrySession) : Prop :=
  ∃ r, readContinueBin im s.type 0 (writeDryrunBin im s) = some r ∧ r.packages = s.packages ∧
    r.fsTab = s.fsTab ∧ r.objects.map objectView = s.saved.map objectView

/-- A name or path: a C string that is not empty. -/
def Named (s : Option Str) : Prop := ∃ t, s = some t ∧ t ≠ [] ∧ NulFree t

/-- The counts fit their fields, the package names were made by `add_pkg_to_list`, filesystems have
a mount point and objects have a path. -/
structure DrySession.Valid (im : DryImages) (s : DrySession) : Prop where
  info : im.drinfo.Fits s.info
  packages : ∀ p ∈ s.packages, p.length < pkgnamesize ∧ NulFree p
  fsTab : ∀ f ∈ s.fsTab, Named f.name
  extlist : ∀ x ∈ s.extlist, Named x.cfEnt.path

section Restore
variable {im : DryImages} {s : DrySession} {file : Str}

theorem leValue_append (a b : Str) : leValue (a ++ b) = leValue a + 256 ^ a.length * leValue b := by
  induction a with
  | nil => simp [leValue]
  | cons c a ih =>
    rw [List.cons_append, leValue, ih, leValue, List.length_cons, Nat.pow_succ, Nat.mul_add]
    ring

theorem readBytes_append (a : Str) (hlt : a.length < 2 ^ 31) (file : Str) :
    readBytes a.length (a ++ file) = some (a, file) := by
  rw [readBytes, if_pos ⟨hlt, by simp⟩, List.take_left, List.drop_left]

theorem StructImage.readBytes_bytes (im : StructImage α) (a : α) (file : Str) :
    readBytes im.size (im.bytes a ++ file) = some (im.bytes a, file) := by
  have hlen := im.length_bytes a
  have h := readBytes_append (im.bytes a) (by rw [hlen]; exact im.size_lt) file
  rwa [hlen] at h

/-- The length of a string is read together with its first bytes, so it is too large. -/
theorem readString_writeString {name : Option Str} (hname : Named name) (file : Str)
    (hfile : 2 ≤ file.length) (cap : Nat) :
    ∃ file', readString cap (writeString name ++ file) = some (none, file') := by
  obtain ⟨t, rfl, hne, hnul⟩ := hname
  obtain ⟨c, t, rfl⟩ := List.exists_cons_of_ne_nil hne
  have hsplit : writeString (some (c :: t)) ++ file =
      leBytes sizeofInt ((c :: t).length + 1) ++ c :: (t ++ nul :: file) := by
    simp [writeString]
  have hlen := length_leBytes sizeofInt ((c :: t).length + 1)
  generalize leBytes sizeofInt ((c :: t).length + 1) = b at hsplit hlen
  have hread : readBytes sizeofSizeT (b ++ c :: (t ++ nul :: file)) =
      some (b ++ c :: (t ++ nul :: file).take 3, (t ++ nul :: file).drop 3) := by
    have hsize : sizeofSizeT = b.length + 4 := by rw [hlen]; rfl
    rw [readBytes, if_pos, hsize, List.take_length_add_append, List.drop_length_add_append]
    · rfl
    · refine ⟨by decide, ?_⟩
      rw [hsize]
      simp only [List.length_append, List.length_cons]
      omega
  have hpos := toNat_pos_of_ne_nul hnul.head
  have hbig : 2 ^ 31 ≤ leValue (b ++ c :: (t ++ nul :: file).take 3) := by
    rw [leValue_append, hlen, leValue]
    have hle : 256 ^ sizeofInt * 1 ≤ 256 ^ sizeofInt *
        (c.toNat + 256 * leValue ((t ++ nul :: file).take 3)) := Nat.mul_le_mul_left _ (by omega)
    exact Nat.le_trans (by decide) (Nat.le_trans hle (Nat.le_add_left _ _))
  refine ⟨(t ++ nul :: file).drop 3, ?_⟩
  rw [hsplit, readString, hread]
  simp only [Option.bind_eq_bind, Option.bind_some]
  rw [if_pos (.inr hbig)]

theorem two_le_writeString (s : Option Str) (file : Str) : 2 ≤ (writeString s ++ file).length := by
  have hint : 2 ≤ (writeString s).length := by
    cases s with
    | none => decide
    | some s =>
      rw [writeString, List.length_append, length_leBytes]
      exact Nat.le_trans (by decide) (Nat.le_add_right _ _)
  rw [List.length_append]
  exact Nat.le_trans hint (Nat.le_add_right _ _)

theorem readPkgNames_written (hps : ∀ p ∈ ps, p.length < pkgnamesize ∧ NulFree p)
    (packages : List Str) (file : Str) :
    readPkgNames 0 ps.length packages (ps.flatMap nameBytes ++ file) =
      some (packages ++ ps, file) := by
  induction ps generalizing packages with
  | nil => rw [List.append_nil]; rfl
  | cons p ps ih =>
    obtain ⟨hlen, hnul⟩ := hps p List.mem_cons_self
    have hsize : (nameBytes p).length = pkgnamesize := by
      rw [nameBytes, List.length_append, List.length_replicate]
      omega
    have hread : readBytes pkgnamesize (nameBytes p ++ (ps.flatMap nameBytes ++ file)) =
        some (nameBytes p, ps.flatMap nameBytes ++ file) := by
      have h := readBytes_append (nameBytes p) (by rw [hsize]; decide)
        (ps.flatMap nameBytes ++ file)
      rwa [hsize] at h
    have hname : (nameBytes p).takeWhile (· != nul) = p := by
      obtain ⟨k, hk⟩ : ∃ k, pkgnamesize - p.length = k + 1 := ⟨pkgnamesize - p.length - 1, by omega⟩
      rw [nameBytes, hk, List.replicate_succ]
      refine takeWhile_append_cons (fun c hc => ?_) (by decide) _
      rw [bne_iff_ne]
      rintro rfl
      exact hnul hc
    have hadd : addPkgToList 0 packages p = packages ++ [p] := by
      rw [addPkgToList, if_pos rfl, List.append_nil, List.take_of_length_le (by omega)]
    rw [List.flatMap_cons, List.append_assoc, List.length_cons, readPkgNames, hread]
    simp only [Option.bind_eq_bind, Option.bind_some]
    rw [hname, hadd, ih fun q hq => hps q (List.mem_cons_of_mem _ hq), List.append_assoc]
    rfl

/-- A filesystem record is never read. -/
theorem readFsRecs_written (hf : Named f.name) (n : Nat) (fsTab : List FsRecord) (file : Str) :
    readFsRecs im (n + 1) fsTab (writeFs im f ++ file) = none := by
  obtain ⟨file', hread⟩ := readString_writeString hf
    (writeString f.fstype ++ (writeString f.remoteName ++ file))
    (two_le_writeString _ _) pathMax
  rw [readFsRecs, writeFs, List.append_assoc, im.fstable.readBytes_bytes]
  simp only [Option.bind_eq_bind, Option.bind_some, List.append_assoc, hread, Option.bind_none]

theorem readExtRecs_written (hx : Named x.cfEnt.path) (n : Nat) (objects : List Cfextra)
    (pkginst file : Str) :
    readExtRecs im (n + 1) objects (writeObject im pkginst x ++ file) = none := by
  obtain ⟨b, hb⟩ : ∃ b, writeObject im pkginst x ++ file =
      im.cfextra.bytes x ++
        (writeString x.cfEnt.path ++ (writeString x.cfEnt.ainfo.localPath ++ b)) :=
    ⟨_, by simp only [writeObject, List.append_assoc]; rfl⟩
  obtain ⟨file', hread⟩ := readString_writeString hx
    (writeString x.cfEnt.ainfo.localPath ++ b)
    (two_le_writeString _ _) pathMax
  rw [readExtRecs, hb, readExtRec, im.cfextra.readBytes_bytes]
  simp only [Option.bind_eq_bind, Option.bind_some, hread, Option.bind_none]

theorem readContinueBin_written (hs : s.Valid im) :
    readContinueBin im s.type 0 (writeDryrunBin im s) =
      (readFsRecs im s.fsTab.length []
        (s.fsTab.flatMap (writeFs im) ++ s.saved.flatMap (writeObject im s.pkginst))).bind
        fun (fsTab, file) => (readExtRecs im s.saved.length [] file).bind
          fun (objects, _) => some ⟨s.packages, fsTab, objects⟩ := by
  rw [readContinueBin, writeDryrunBin, im.drinfo.readBytes_bytes]
  simp only [Option.bind_eq_bind, Option.bind_some, im.drinfo.value_bytes _ hs.info]
  have hpkgs := readPkgNames_written hs.packages []
    (s.fsTab.flatMap (writeFs im) ++ s.saved.flatMap (writeObject im s.pkginst))
  have htype : ¬ s.type ≠ s.info.type := not_not.mpr rfl
  rw [if_neg htype]
  simp only [DrySession.info, hpkgs, Option.bind_some, List.nil_append]

/-- A continuation restores what the dry run has collected exactly if it has collected neither
filesystem records nor objects: the length of a string is written with four bytes and read with
eight. -/
theorem readContinueBin_restores_iff (hs : s.Valid im) :
    Restores im s ↔ s.fsTab = [] ∧ s.saved = [] := by
  rw [Restores, readContinueBin_written hs]
  cases hfs : s.fsTab with
  | cons f fs =>
    refine iff_of_false ?_ (by simp)
    rintro ⟨r, hr, -⟩
    rw [List.flatMap_cons, List.append_assoc, List.length_cons,
      readFsRecs_written (hs.fsTab f (by rw [hfs]; exact List.mem_cons_self))] at hr
    cases hr
  | nil =>
    cases hobj : s.saved with
    | cons x xs =>
      refine iff_of_false ?_ (by simp)
      rintro ⟨r, hr, -⟩
      have hmem : x ∈ s.extlist := by
        have hx : x ∈ s.saved := by rw [hobj]; exact List.mem_cons_self
        exact List.mem_of_mem_filter hx
      simp only [List.flatMap_nil, List.length_nil, readFsRecs, Option.bind_some, List.nil_append,
        List.flatMap_cons, List.length_cons, readExtRecs_written (hs.extlist x hmem)] at hr
      cases hr
    | nil => exact iff_of_true ⟨⟨s.packages, [], []⟩, rfl, rfl, rfl, rfl⟩ ⟨rfl, rfl⟩

end Restore

/-- The fields of `struct drinfo` one after the other. -/
def drinfoImage : StructImage Drinfo where
  size := 16
  bytes d := leBytes 4 d.type ++ (leBytes 4 d.totalExtRecs ++ (leBytes 4 d.totalFsRecs ++
    leBytes 4 d.totalPkgs))
  value b := ⟨leValue (b.take 4), leValue ((b.drop 4).take 4), leValue ((b.drop 8).take 4),
    leValue (b.drop 12)⟩
  Fits d := d.type < 2 ^ 32 ∧ d.totalExtRecs < 2 ^ 32 ∧ d.totalFsRecs < 2 ^ 32 ∧
    d.totalPkgs < 2 ^ 32
  size_lt := by decide
  length_bytes d := by simp [length_leBytes]
  value_bytes d h := by
    obtain ⟨h₁, h₂, h₃, h₄⟩ := h
    have value {v : Nat} (hv : v < 2 ^ 32) : leValue (leBytes 4 v) = v := leValue_leBytes hv
    have e (k v : Nat) : (leBytes 4 v).drop (k + 4) = [] :=
      List.drop_eq_nil_of_le (by rw [length_leBytes]; omega)
    have t (v : Nat) : (leBytes 4 v).take 4 = leBytes 4 v :=
      List.take_of_length_le (by rw [length_leBytes])
    have d₀ (v : Nat) : (leBytes 4 v).drop 4 = [] := e 0 v
    have d₁ (v : Nat) : (leBytes 4 v).drop 8 = [] := e 4 v
    have d₂ (v : Nat) : (leBytes 4 v).drop 12 = [] := e 8 v
    simp only [List.take_append, List.drop_append, length_leBytes, t, d₀, d₁, d₂, List.nil_append,
      Nat.sub_self, List.take_zero, List.append_nil, List.drop_zero, Nat.reduceSub]
    rw [value h₁, value h₂, value h₃, value h₄]

def blankImage (a : α) : StructImage α where
  size := 8
  bytes _ := List.replicate 8 nul
  value _ := a
  Fits x := x = a
  size_lt := by decide
  length_bytes _ := rfl
  value_bytes _ h := h.symm

def sampleRoot : FsRecord :=
  ⟨1, 4096, 4096, 1000, 0, 1000, 0, 0, some "/".toList, some "apfs".toList, some "/".toList⟩

def sampleImages : DryImages :=
  ⟨drinfoImage, blankImage sampleRoot,
    blankImage ⟨zeroEntry, ⟨false, false, false, false, false, false, false, false, false, false,
      false, false⟩, [], [], none⟩, blankImage ⟨nul, [], 0, []⟩⟩

def sampleSession (fsTab : List FsRecord) : DrySession :=
  ⟨1, 0, "SUNWa".toList, ["SUNWa".toList], fsTab, []⟩

theorem sampleSession_valid (h : fsTab = [] ∨ fsTab = [sampleRoot]) :
    (sampleSession fsTab).Valid sampleImages := by
  refine ⟨?_, ?_, ?_, fun x hx => absurd hx List.not_mem_nil⟩
  · have hlen : fsTab.length ≤ 1 := by
      rcases h with rfl | rfl <;> decide
    have hinfo : (sampleSession fsTab).info = ⟨1, 0, fsTab.length, 1⟩ := rfl
    rw [hinfo]
    change 1 < 2 ^ 32 ∧ 0 < 2 ^ 32 ∧ fsTab.length < 2 ^ 32 ∧ 1 < 2 ^ 32
    omega
  · intro p hp
    rw [List.mem_singleton.mp hp]
    exact ⟨by decide, by decide⟩
  · intro f hf
    rcases h with rfl | rfl
    · cases hf
    · rw [List.mem_singleton.mp hf]
      exact ⟨"/".toList, rfl, by decide, by decide⟩

theorem readContinueBin_restores_iff_bare : Restores sampleImages (sampleSession []) :=
  (readContinueBin_restores_iff (sampleSession_valid (.inl rfl))).mpr ⟨rfl, rfl⟩

/-- With the root filesystem alone the continuation is refused. -/
theorem readContinueBin_loses_root :
    readContinueBin sampleImages 1 0 (writeDryrunBin sampleImages (sampleSession [sampleRoot])) =
        none ∧ ¬ Restores sampleImages (sampleSession [sampleRoot]) := by
  have hnone : readContinueBin sampleImages 1 0
      (writeDryrunBin sampleImages (sampleSession [sampleRoot])) = none := by decide +kernel
  refine ⟨hnone, ?_⟩
  rintro ⟨r, hr, -⟩
  exact nomatch hnone.symm.trans hr

end Pkgtools
