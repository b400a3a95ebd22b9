import Pkgtools.PlainEntry

namespace Pkgtools
open CLib
set_option autoImplicit true

/-- The fields of `struct stat` that the verification of an object reads. -/
structure Stat where
  dev : Nat
  ino : Nat
  mode : Nat
  nlink : Nat
  uid : Int
  gid : Int
  rdev : Nat
  size : Int
  mtime : Int
  deriving DecidableEq, Repr

/-- What the calls made on the running system answer, and the switches of the verification. -/
structure System where
  stat : Str → Option Stat
  lstat : Str → Option Stat
  /-- `stat` of a path seen from a directory. -/
  statFrom : Str → Str → Option Stat
  readlink : Str → Option Str
  access : Str → Bool
  getcwd : Bool
  chdir : Str → Bool
  chdirBack : Bool
  statvfs : Str → Bool
  cgrgid : Int → Option Str
  cgrnam : Str → Option Int
  cpwuid : Int → Option Str
  cpwnam : Str → Option Int
  /-- `compute_checksum`, with its error flag. -/
  checksum : Str → Int × Bool
  enableChecksum : Bool
  disableAttributeCheck : Bool
  nonAbiSymlinks : Bool
  isServed : Str → Bool
  pathIsInherited : Str → Char → Bool
  clDvfy : Int → Int

def veExist : Int := 1
def veFtype : Int := 2
def veAttr : Int := 4
def veCont : Int := 8
def veFail : Int := 16

/-- `WILDCARD`. -/
def wildcard : Nat := badMode >>> 1

def majorOf (dev : Nat) : Int := (dev >>> 24 &&& 0xff : Nat)

def minorOf (dev : Nat) : Int := (dev &&& 0xffffff : Nat)

/-- `makedev`, of 32-bit numbers. -/
def makedev (major minor : Int) : Nat :=
  ((major % 2 ^ 32).toNat <<< 24 % 2 ^ 32) ||| (minor % 2 ^ 32).toNat

/-- The code of an earlier failure stays. -/
def orCode (retcode code : Int) : Int := if retcode = 0 then code else retcode

/-- `cverify` with `fix` 0 and checksums allowed. -/
def cverify (sys : System) (ftype : Char) (path : Str) (cinfo : Cinfo) : Int × Cinfo :=
  match sys.stat path with
  | none => (veExist, cinfo)
  | some status =>
    let setval := ftype = '?'
    let cinfo := if setval ∨ cinfo.modtime = badCont then { cinfo with modtime := status.mtime }
      else cinfo
    let retcode := if ¬ setval ∧ cinfo.size ≠ badCont ∧ status.size ≠ cinfo.size then veCont else 0
    let cinfo := if setval ∨ cinfo.size = badCont then { cinfo with size := status.size } else cinfo
    if sys.enableChecksum = false then (retcode, cinfo)
    else
      let (mycksum, cksumerr) := sys.checksum path
      if setval ∨ cinfo.cksum = badCont then (retcode, { cinfo with cksum := mycksum })
      else if mycksum ≠ cinfo.cksum ∨ cksumerr then (orCode retcode veCont, cinfo)
      else (retcode, cinfo)

/-- The type of an existing object, from the `S_IFMT` bits of its mode. -/
def fileType (status : Stat) : Option Char :=
  match status.mode &&& 0o170000 with
  | 0o120000 => some 's'
  | 0o010000 => some 'p'
  | 0o020000 => some 'c'
  | 0o040000 => some 'd'
  | 0o060000 => some 'b'
  | 0o100000 => some 'f'
  | 0 => some 'f'
  | _ => none

/-- The directory in which a hard link is made, if the path names one. -/
def dirOf (path : Str) : Option Str :=
  match path.reverse.dropWhile (· != '/') with
  | [] => none
  | [_] => some ['/']
  | _ :: dir => some dir.reverse

/-- `averify` of a hard link, with `fix` 0. -/
def averifyLink (sys : System) (path : Str) (link : Option Str) : Int :=
  if sys.getcwd = false then veFail
  else if (dirOf path).any fun dir => !sys.chdir dir then veFail
  else
    let linked := match sys.stat path, link.bind (sys.statFrom ((dirOf path).getD [])) with
      | some status, some target =>
        decide (2 ≤ status.nlink) && status.dev == target.dev && status.ino == target.ino
      | _, _ => false
    if linked && sys.chdirBack then 0 else veCont

/-- The check of the owner or the group of an object, whose actual one is `id`. -/
def verifyName (byId : Int → Option Str) (byName : Str → Option Int) (setval : Prop)
    [Decidable setval] (bad name : Str) (id retcode : Int) : Int × Str :=
  if setval ∨ name = bad then
    match byId id with
    | some name => (retcode, name)
    | none => (orCode retcode veAttr, name)
  else if byName name = some id then (retcode, name)
  else (orCode retcode veAttr, name)

def verifyAttrs (sys : System) (setval : Prop) [Decidable setval] (path : Str) (myftype : Char)
    (status : Stat) (ainfo : Ainfo) : Int × Ainfo :=
  let major := if isDevice myftype ∧ (setval ∨ ainfo.major = badMajor) then majorOf status.rdev
    else ainfo.major
  let minor := if isDevice myftype ∧ (setval ∨ ainfo.minor = badMinor) then minorOf status.rdev
    else ainfo.minor
  let retcode := if isDevice myftype ∧ status.rdev ≠ makedev major minor then veCont else 0
  let given := ¬ (setval ∨ ainfo.mode = badMode ∨ ainfo.mode = wildcard)
  let retcode := if given ∧ ainfo.mode &&& 0o6777 ≠ status.mode &&& 0o6777 then
    orCode retcode veAttr else retcode
  let mode := if given then ainfo.mode else status.mode &&& 0o7777
  let (retcode, group) :=
    verifyName sys.cgrgid sys.cgrnam setval badGroup ainfo.group status.gid retcode
  let (retcode, owner) :=
    verifyName sys.cpwuid sys.cpwnam setval badOwner ainfo.owner status.uid retcode
  (if sys.statvfs path then retcode else veFail,
    { ainfo with major := major, minor := minor, mode := mode, group := group, owner := owner })

/-- The check of the target of a symbolic link; a target that was not given is filled in. -/
def verifySymlink (sys : System) (path : Str) (ainfo : Ainfo) : Int × Ainfo :=
  match sys.readlink path, ainfo.localPath with
  | none, _ => (veCont, ainfo)
  | some buf, some target => (if buf = target then 0 else veCont, ainfo)
  | some buf, none => (0, { ainfo with localPath := some buf })

def verifyTyped (sys : System) (setval : Prop) [Decidable setval] (ftype : Char) (path : Str)
    (myftype : Char) (status : Stat) (ainfo : Ainfo) : Int × Ainfo :=
  if ftype = 's' then verifySymlink sys path ainfo
  else if ftype = 'i' then (0, ainfo)
  else verifyAttrs sys setval path myftype status ainfo

/-- `averify` with `fix` 0: the code, and the type and attributes, which are filled in where they
were not given. -/
def averify (sys : System) (ftype : Char) (path : Str) (ainfo : Ainfo) : Int × Char × Ainfo :=
  if sys.disableAttributeCheck then (0, ftype, ainfo)
  else if ftype = 'l' then (averifyLink sys path ainfo.localPath, ftype, ainfo)
  else
    match (if sys.nonAbiSymlinks ∧ ftype ≠ 's' then sys.stat path else sys.lstat path) with
    | none => (veExist, ftype, ainfo)
    | some status =>
      match fileType status with
      | none => (veFtype, ftype, ainfo)
      | some myftype =>
        let setval := ftype = '?'
        let same := ftype = myftype ∨ myftype = 'f' ∧ ftype ∈ nul :: "ilev".toList ∨
          myftype = 'd' ∧ ftype = 'x'
        let ftype := if setval then myftype else ftype
        if ¬ setval ∧ ¬ same then (veFtype, ftype, ainfo)
        else
          let (retcode, ainfo) := verifyTyped sys setval ftype path myftype status ainfo
          (retcode, ftype, ainfo)

/-- The texts that the system supplies for an entry have no newline. -/
structure System.Plain (sys : System) : Prop where
  readlink : ∀ path buf, sys.readlink path = some buf → OneLine buf
  group : ∀ id name, sys.cgrgid id = some name → OneLine name
  user : ∀ id name, sys.cpwuid id = some name → OneLine name

def bareSystem : System where
  stat _ := none
  lstat _ := none
  statFrom _ _ := none
  readlink _ := none
  access _ := false
  getcwd := true
  chdir _ := false
  chdirBack := true
  statvfs _ := true
  cgrgid _ := none
  cgrnam _ := none
  cpwuid _ := none
  cpwnam _ := none
  checksum _ := (0, true)
  enableChecksum := true
  disableAttributeCheck := false
  nonAbiSymlinks := false
  isServed _ := false
  pathIsInherited _ _ := false
  clDvfy _ := 0

theorem bareSystem_plain : bareSystem.Plain := ⟨nofun, nofun, nofun⟩

section Plain
variable {sys : System}

theorem verifyName_plain {setval : Prop} [Decidable setval]
    (hid : ∀ id name, byId id = some name → OneLine name) (hname : OneLine name)
    (byName : Str → Option Int) (bad : Str) (id retcode : Int) :
    OneLine (verifyName byId byName setval bad name id retcode).2 := by
  rw [verifyName]
  split
  · split
    · rename_i h
      exact hid _ _ h
    · exact hname
  · split
    · exact hname
    · exact hname

theorem verifyAttrs_plain (hs : sys.Plain) {setval : Prop} [Decidable setval] (ha : a.Plain)
    (path : Str) (myftype : Char) (status : Stat) :
    (verifyAttrs sys setval path myftype status a).2.Plain :=
  ⟨ha.localPath, verifyName_plain hs.user ha.owner _ _ _ _,
    verifyName_plain hs.group ha.group _ _ _ _⟩

theorem verifySymlink_plain (hs : sys.Plain) (ha : a.Plain) (path : Str) :
    (verifySymlink sys path a).2.Plain := by
  rw [verifySymlink]
  split
  · exact ha
  · exact ha
  · rename_i buf hbuf _
    exact ⟨fun l hl => hs.readlink path l (Option.some.inj hl ▸ hbuf), ha.owner, ha.group⟩

theorem verifyTyped_plain (hs : sys.Plain) {setval : Prop} [Decidable setval] (ha : a.Plain)
    (ftype : Char) (path : Str) (myftype : Char) (status : Stat) :
    (verifyTyped sys setval ftype path myftype status a).2.Plain := by
  rw [verifyTyped]
  split
  · exact verifySymlink_plain hs ha path
  · split
    · exact ha
    · exact verifyAttrs_plain hs ha path myftype status

theorem averify_plain (hs : sys.Plain) (ha : a.Plain) (ftype : Char) (path : Str) :
    (averify sys ftype path a).2.2.Plain := by
  simp only [averify]
  split
  · exact ha
  · split
    · exact ha
    · split
      · exact ha
      · split
        · exact ha
        · split
          · exact ha
          · exact verifyTyped_plain hs ha _ path _ _

theorem averify_ftype (h : ftype ≠ '?') (sys : System) (path : Str) (a : Ainfo) :
    (averify sys ftype path a).2.1 = ftype := by
  simp only [averify, if_neg h]
  split
  · rfl
  · split
    · rfl
    · split
      · rfl
      · split
        · rfl
        · split <;> rfl

end Plain

end Pkgtools
