import Pkgtools.Verify

namespace Pkgtools
open CLib
set_option autoImplicit true

/-- The platform, and the outcomes of the calls that `averify` makes to repair an object. -/
structure RepairCalls where
  /-- The program was compiled with `__sun`. -/
  sun : Bool
  /-- `vfsstatus.f_basetype` is `pcfs`. -/
  pcfs : Bool
  chmod : Bool
  chown : Bool
  /-- `isdir` of the object that a hard link is made to. -/
  linksDir : Bool
  clearTarget : Bool
  link : Bool
  /-- What `mkdir`, `symlink` or `mknod` and the `stat` behind it come to. -/
  remade : Option Stat
  /-- What the uninitialised `uid` and `gid` hold. -/
  stackUid : Int
  stackGid : Int

/-- What `averify` returns and leaves behind. -/
structure Repair where
  code : Int
  ftype : Char
  ainfo : Ainfo
  file : Option Stat

/-- The mode after a successful `chmod`. -/
def Stat.chmod (s : Stat) (mode : Nat) : Stat :=
  { s with mode := s.mode &&& 0o170000 ||| mode &&& 0o7777 }

def Stat.chown (s : Stat) (uid gid : Int) : Stat := { s with uid := uid, gid := gid }

/-- `averify` of a hard link, with `fix` set. -/
def repairLink (sys : System) (calls : RepairCalls) (path : Str) (link : Option Str) : Int :=
  if sys.getcwd = false then veFail
  else if (dirOf path).any fun dir => !sys.chdir dir then veFail
  else
    let linked := match sys.stat path, link.bind (sys.statFrom ((dirOf path).getD [])) with
      | some status, some target =>
        decide (2 ≤ status.nlink) && status.dev == target.dev && status.ino == target.ino
      | _, _ => false
    if linked = false ∧ (calls.linksDir ∨ calls.clearTarget = false ∨
      calls.link = false) then veFail
    else if sys.chdirBack then 0 else veCont

/-- The check of the owner or the group: the code, the name, the number and whether `chown` has to
set it. -/
def repairName (byId : Int → Option Str) (byName : Str → Option Int) (setval : Prop)
    [Decidable setval] (bad name : Str) (id stack retcode : Int) : Int × Str × Int × Bool :=
  if setval ∨ name = bad then
    match byId id with
    | some name => (retcode, name, id, false)
    | none => (orCode retcode veAttr, name, id, false)
  else match byName name with
    | some want => (retcode, name, want, decide (want ≠ id))
    | none => (orCode retcode veAttr, name, stack, false)

/-- The check and repair of the attributes of an object of the right type. The owner and the group
are set with `__sun` only, and not on a `pcfs`. -/
def repairAttrs (sys : System) (calls : RepairCalls) (setval : Prop) [Decidable setval]
    (ftype : Char)
    (path : Str) (myftype : Char) (status : Stat) (ainfo : Ainfo) : Repair :=
  let major := if isDevice myftype ∧ (setval ∨ ainfo.major = badMajor) then majorOf status.rdev
    else ainfo.major
  let minor := if isDevice myftype ∧ (setval ∨ ainfo.minor = badMinor) then minorOf status.rdev
    else ainfo.minor
  let retcode := if isDevice myftype ∧ status.rdev ≠ makedev major minor then veCont else 0
  let given := ¬ (setval ∨ ainfo.mode = badMode ∨ ainfo.mode = wildcard)
  let differs := given ∧ ainfo.mode &&& 0o6777 ≠ status.mode &&& 0o6777
  let retcode := if differs ∧ calls.chmod = false then veFail else retcode
  let file := if differs ∧ calls.chmod then status.chmod ainfo.mode else status
  let mode := if given then ainfo.mode else status.mode &&& 0o7777
  let (retcode, group, gid, dogroup) := repairName sys.cgrgid sys.cgrnam setval badGroup ainfo.group
    status.gid calls.stackGid retcode
  let (retcode, owner, uid, doowner) := repairName sys.cpwuid sys.cpwnam setval badOwner ainfo.owner
    status.uid calls.stackUid retcode
  let ainfo :=
    { ainfo with major := major, minor := minor, mode := mode, group := group, owner := owner }
  if sys.statvfs path = false then ⟨veFail, ftype, ainfo, some file⟩
  else if (dogroup ∨ doowner) ∧ calls.sun ∧ calls.pcfs = false then
    if calls.chown then ⟨retcode, ftype, ainfo, some (file.chown uid gid)⟩
    else ⟨veFail, ftype, ainfo, some file⟩
  else ⟨retcode, ftype, ainfo, some file⟩

/-- The numbers of a device that is made anew, where they were not given. -/
def remadeDevice (ftype : Char) (ainfo : Ainfo) : Ainfo :=
  if isDevice ftype then
    { ainfo with
      major := if ainfo.major = badMajor then 0 else ainfo.major
      minor := if ainfo.minor = badMinor then 0 else ainfo.minor }
  else ainfo

/-- An object that is missing or not what it should be is cleared away and made anew. -/
def repairObject (sys : System) (calls : RepairCalls) (setval : Prop) [Decidable setval]
    (ftype : Char)
    (path : Str) (myftype : Char) (retcode : Int) (ainfo : Ainfo) (file : Option Stat) : Repair :=
  if calls.clearTarget = false then ⟨veFail, ftype, ainfo, file⟩
  else if ftype ∉ "dxscbp".toList then ⟨retcode, ftype, ainfo, none⟩
  else
    let ainfo := remadeDevice ftype ainfo
    match calls.remade with
    | none => ⟨veFail, ftype, ainfo, none⟩
    | some status =>
      if ftype = 's' then ⟨0, ftype, ainfo, some status⟩
      else repairAttrs sys calls setval ftype path myftype status ainfo

/-- The type of an existing object; doors are known with `__sun` only. -/
def repairFileType (calls : RepairCalls) (status : Stat) : Option Char :=
  if calls.sun ∧ status.mode &&& 0o170000 = 0o150000 then some 'D' else fileType status

/-- The object at a path, behind a symbolic link if these are followed. -/
def System.object (sys : System) (ftype : Char) (path : Str) : Option Stat :=
  if sys.nonAbiSymlinks ∧ ftype ≠ 's' then sys.stat path else sys.lstat path

def sameType (ftype myftype : Char) : Prop :=
  ftype = myftype ∨ myftype = 'f' ∧ ftype ∈ nul :: "ilev".toList ∨ myftype = 'd' ∧ ftype = 'x'

instance (ftype myftype : Char) : Decidable (sameType ftype myftype) :=
  inferInstanceAs (Decidable (_ ∨ _ ∨ _))

/-- `averify` with `fix` greater than 0. -/
def averifyFix (sys : System) (calls : RepairCalls) (ftype : Char) (path : Str) (ainfo : Ainfo) :
    Repair :=
  let object := sys.object ftype path
  if sys.disableAttributeCheck then ⟨0, ftype, ainfo, object⟩
  else if ftype = 'l' then ⟨repairLink sys calls path ainfo.localPath, ftype, ainfo, object⟩
  else match object with
    | none => repairObject sys calls (ftype = '?') ftype path '?' veExist ainfo none
    | some status =>
      match repairFileType calls status with
      | none => ⟨veFtype, ftype, ainfo, object⟩
      | some myftype =>
        if ftype = '?' ∧ myftype = 'D' then ⟨veFtype, ftype, ainfo, object⟩
        else
          let setval := ftype = '?'
          let ftype := if setval then myftype else ftype
          let (retcode, ainfo) := if ¬ setval ∧ ¬ sameType ftype myftype then (veFtype, ainfo)
            else if ftype = 's' then verifySymlink sys path ainfo else (0, ainfo)
          if retcode ≠ 0 then repairObject sys calls setval ftype path myftype retcode ainfo object
          else if ftype = 's' ∨ ftype = 'i' then ⟨0, ftype, ainfo, object⟩
          else repairAttrs sys calls setval ftype path myftype status ainfo

/-- Attributes that name a mode, and an owner and a group that the system knows. -/
structure Requested (sys : System) (ainfo : Ainfo) (uid gid : Int) : Prop where
  mode : ainfo.mode ≠ badMode ∧ ainfo.mode ≠ wildcard
  owner : ainfo.owner ≠ badOwner
  group : ainfo.group ≠ badGroup
  uid : sys.cpwnam ainfo.owner = some uid
  gid : sys.cgrnam ainfo.group = some gid

structure Existing (sys : System) (ftype : Char) (path : Str) (myftype : Char) (status : Stat) :
    Prop where
  object : sys.object ftype path = some status
  actual : fileType status = some myftype
  attrs : hasAttrs ftype
  same : sameType ftype myftype

def HasAttributes (ainfo : Ainfo) (uid gid : Int) (file : Stat) : Prop :=
  file.mode &&& 0o6777 = ainfo.mode &&& 0o6777 ∧ file.uid = uid ∧ file.gid = gid

def otherDevice (myftype : Char) (status : Stat) (ainfo : Ainfo) : Prop :=
  isDevice myftype ∧ status.rdev ≠ makedev
    (if ainfo.major = badMajor then majorOf status.rdev else ainfo.major)
    (if ainfo.minor = badMinor then minorOf status.rdev else ainfo.minor)

instance (myftype : Char) (status : Stat) (ainfo : Ainfo) :
    Decidable (otherDevice myftype status ainfo) := inferInstanceAs (Decidable (_ ∧ _))

def otherMode (status : Stat) (ainfo : Ainfo) : Prop :=
  ainfo.mode &&& 0o6777 ≠ status.mode &&& 0o6777

instance (status : Stat) (ainfo : Ainfo) : Decidable (otherMode status ainfo) :=
  inferInstanceAs (Decidable (_ ≠ _))

/-- The owner and the group are set or were right, or `averify` reports a failure anyway. -/
def Repairable (sys : System) (calls : RepairCalls) (path : Str) (myftype : Char) (status : Stat)
    (ainfo : Ainfo) (uid gid : Int) : Prop :=
  calls.sun = true ∧ calls.pcfs = false ∨ status.uid = uid ∧ status.gid = gid ∨
    otherDevice myftype status ainfo ∨ otherMode status ainfo ∧ calls.chmod = false ∨
    sys.statvfs path = false

section Repair
variable {sys : System} {calls : RepairCalls} {ftype myftype : Char} {path : Str} {status : Stat}
  {ainfo : Ainfo} {uid gid : Int}

theorem Stat.chmod_mode (s : Stat) (mode : Nat) :
    (s.chmod mode).mode &&& 0o6777 = mode &&& 0o6777 := by
  have hlow : s.mode &&& 0o170000 &&& 0o6777 = 0 := by
    rw [Nat.and_assoc]
    exact Nat.and_zero _
  have hkeep : mode &&& 0o7777 &&& 0o6777 = mode &&& 0o6777 := by
    rw [Nat.and_assoc]
    rfl
  rw [Stat.chmod]
  simp only
  rw [Nat.and_or_distrib_right, hlow, hkeep, Nat.zero_or]

theorem Existing.ftype_ne (h : Existing sys ftype path myftype status) :
    ftype ≠ '?' ∧ ftype ≠ 'l' ∧ ftype ≠ 's' ∧ ftype ≠ 'i' := by
  have hall : ∀ c ∈ "dxcbpfve".toList, c ≠ '?' ∧ c ≠ 'l' ∧ c ≠ 's' ∧ c ≠ 'i' := by decide
  exact hall ftype (of_decide_eq_true h.attrs)

theorem averifyFix_existing (h : Existing sys ftype path myftype status)
    (ha : sys.disableAttributeCheck = false) :
    averifyFix sys calls ftype path ainfo =
      repairAttrs sys calls (ftype = '?') ftype path myftype status ainfo := by
  obtain ⟨hq, hl, hs, hi⟩ := h.ftype_ne
  have hdoor : ¬ (calls.sun = true ∧ status.mode &&& 0o170000 = 0o150000) := by
    rintro ⟨-, hd⟩
    have hactual := h.actual
    rw [fileType, hd] at hactual
    cases hactual
  have htype : repairFileType calls status = some myftype := by
    rw [repairFileType, if_neg hdoor, h.actual]
  simp only [averifyFix, h.object, htype, ha, Bool.false_eq_true, if_false, if_neg hl, hq, hs, hi,
    false_and, not_true_eq_false, not_false_eq_true, true_and, h.same, ne_eq, or_self]

theorem repairName_known {byName : Str → Option Int} (hq : ¬ setval) [Decidable setval]
    (hbad : name ≠ bad) (hname : byName name = some want) (byId : Int → Option Str)
    (id stack retcode : Int) :
    repairName byId byName setval bad name id stack retcode =
      (retcode, name, want, decide (want ≠ id)) := by
  rw [repairName, if_neg (not_or.mpr ⟨hq, hbad⟩), hname]

/-- The code before `chown` is called, and the object. -/
def attrCode (calls : RepairCalls) (myftype : Char) (status : Stat) (ainfo : Ainfo) : Int :=
  if otherMode status ainfo ∧ calls.chmod = false then veFail
  else if otherDevice myftype status ainfo then veCont else 0

def attrFile (calls : RepairCalls) (status : Stat) (ainfo : Ainfo) : Stat :=
  if otherMode status ainfo ∧ calls.chmod then status.chmod ainfo.mode else status

theorem repairAttrs_requested (calls : RepairCalls) (path : Str) (myftype : Char)
    (status : Stat) (hr : Requested sys ainfo uid gid) (hq : ftype ≠ '?') :
    ∃ a, repairAttrs sys calls (ftype = '?') ftype path myftype status ainfo =
      if sys.statvfs path = false then ⟨veFail, ftype, a, some (attrFile calls status ainfo)⟩
      else if (gid ≠ status.gid ∨ uid ≠ status.uid) ∧ calls.sun ∧ calls.pcfs = false then
        if calls.chown then
          ⟨attrCode calls myftype status ainfo, ftype, a,
            some ((attrFile calls status ainfo).chown uid gid)⟩
        else ⟨veFail, ftype, a, some (attrFile calls status ainfo)⟩
      else ⟨attrCode calls myftype status ainfo, ftype, a, some (attrFile calls status ainfo)⟩ := by
  have hcode : (if otherMode status ainfo ∧ calls.chmod = false then veFail
      else if isDevice myftype = true ∧ status.rdev ≠ makedev
        (if isDevice myftype = true ∧ ainfo.major = badMajor then majorOf status.rdev
          else ainfo.major)
        (if isDevice myftype = true ∧ ainfo.minor = badMinor then minorOf status.rdev
          else ainfo.minor) then veCont else 0) = attrCode calls myftype status ainfo := by
    rw [attrCode]
    by_cases hd : isDevice myftype = true
    · simp only [hd, true_and, otherDevice]
    · simp [hd, otherDevice]
  rw [← hcode]
  refine ⟨{ ainfo with
    major := if isDevice myftype = true ∧ ainfo.major = badMajor then majorOf status.rdev
      else ainfo.major
    minor := if isDevice myftype = true ∧ ainfo.minor = badMinor then minorOf status.rdev
      else ainfo.minor }, ?_⟩
  simp only [repairAttrs, hq, false_or, hr.mode.1, hr.mode.2, or_self, not_false_eq_true, true_and,
    repairName_known not_false hr.group hr.gid, repairName_known not_false hr.owner hr.uid,
    decide_eq_true_eq, if_true]
  rfl

/-- The object has the requested attributes afterwards, unless only `chown` could set them. -/
theorem attrFile_mode (h : attrCode calls myftype status ainfo = 0) :
    (attrFile calls status ainfo).mode &&& 0o6777 = ainfo.mode &&& 0o6777 := by
  rw [attrCode] at h
  rw [attrFile]
  split
  · exact Stat.chmod_mode _ _
  · rename_i hno
    by_contra hne
    have hmode : otherMode status ainfo := fun he => hne he.symm
    rw [if_pos ⟨hmode, by simpa [hmode] using hno⟩] at h
    cases h

theorem attrFile_owner (calls : RepairCalls) (status : Stat) (ainfo : Ainfo) :
    (attrFile calls status ainfo).uid = status.uid ∧
    (attrFile calls status ainfo).gid = status.gid := by
  rw [attrFile]
  split <;> exact ⟨rfl, rfl⟩

theorem attrCode_eq_zero_iff (calls : RepairCalls) (myftype : Char) (status : Stat)
    (ainfo : Ainfo) : attrCode calls myftype status ainfo = 0 ↔
    ¬ (otherMode status ainfo ∧ calls.chmod = false) ∧ ¬ otherDevice myftype status ainfo := by
  rw [attrCode]
  split
  · rename_i h
    exact iff_of_false (by decide) fun hn => hn.1 h
  · rename_i h
    split
    · rename_i hd
      exact iff_of_false (by decide) fun hn => hn.2 hd
    · rename_i hd
      exact iff_of_true rfl ⟨h, hd⟩

/-- What `averify` reports as repaired is repaired exactly if the owner and the group can be set or
were right, or it reports a failure for another reason: `chown` is called with `__sun` only. -/
theorem averifyFix_repairs_iff (ha : sys.disableAttributeCheck = false)
    (he : Existing sys ftype path myftype status) (hr : Requested sys ainfo uid gid) :
    (∃ file, (averifyFix sys calls ftype path ainfo).file = some file ∧
      ((averifyFix sys calls ftype path ainfo).code = 0 → HasAttributes ainfo uid gid file)) ↔
      Repairable sys calls path myftype status ainfo uid gid := by
  obtain ⟨a, hrepair⟩ := repairAttrs_requested calls path myftype status hr he.ftype_ne.1
  have hcode := attrCode_eq_zero_iff calls myftype status ainfo
  obtain ⟨huid, hgid⟩ := attrFile_owner calls status ainfo
  have hfail : veFail ≠ 0 := by decide
  rw [averifyFix_existing he ha, hrepair, Repairable]
  by_cases hvfs : sys.statvfs path = false
  · rw [if_pos hvfs]
    exact iff_of_true ⟨_, rfl, fun h => absurd h hfail⟩ (.inr (.inr (.inr (.inr hvfs))))
  rw [if_neg hvfs]
  by_cases hchown : (gid ≠ status.gid ∨ uid ≠ status.uid) ∧ calls.sun = true ∧ calls.pcfs = false
  · rw [if_pos hchown]
    refine iff_of_true ?_ (.inl hchown.2)
    split
    · exact ⟨_, rfl, fun h => ⟨attrFile_mode h, rfl, rfl⟩⟩
    · exact ⟨_, rfl, fun h => absurd h hfail⟩
  · rw [if_neg hchown]
    -- the owner and the group stay as they are
    by_cases hzero : attrCode calls myftype status ainfo = 0
    · have hmode := attrFile_mode hzero
      have hsame : (∃ file, some (attrFile calls status ainfo) = some file ∧
          (attrCode calls myftype status ainfo = 0 → HasAttributes ainfo uid gid file)) ↔
          status.uid = uid ∧ status.gid = gid := by
        constructor
        · rintro ⟨file, hfile, h⟩
          obtain rfl := Option.some.inj hfile
          exact ⟨huid.symm.trans (h hzero).2.1, hgid.symm.trans (h hzero).2.2⟩
        · rintro ⟨h₁, h₂⟩
          exact ⟨_, rfl, fun _ => ⟨hmode, huid.trans h₁, hgid.trans h₂⟩⟩
      rw [hsame]
      have hno := hcode.mp hzero
      constructor
      · exact fun h => .inr (.inl h)
      · rintro (hsun | h | h | h | h)
        · by_contra hne
          rcases not_and_or.mp hne with hne | hne
          · exact hchown ⟨.inr fun h => hne h.symm, hsun⟩
          · exact hchown ⟨.inl fun h => hne h.symm, hsun⟩
        · exact h
        · exact absurd h hno.2
        · exact absurd h hno.1
        · exact absurd h hvfs
    · refine iff_of_true ⟨_, rfl, fun h => absurd h hzero⟩ ?_
      by_cases hmode : otherMode status ainfo ∧ calls.chmod = false
      · exact .inr (.inr (.inr (.inl hmode)))
      · by_cases hdev : otherDevice myftype status ainfo
        · exact .inr (.inr (.inl hdev))
        · exact absurd (hcode.mpr ⟨hmode, hdev⟩) hzero

end Repair

/-- A file of another user on a system that knows `root` and `sys`. -/
def sampleStat : Stat := ⟨1, 2, 0o100644, 1, 100, 3, 0, 10, 0⟩

def sampleHost : System :=
  { bareSystem with
    lstat := fun _ => some sampleStat
    cpwnam := fun name => if name = "root".toList then some 0 else none
    cgrnam := fun name => if name = "sys".toList then some 3 else none }

def sampleWanted : Ainfo := ⟨none, 0o755, "root".toList, "sys".toList, 0, 0⟩

def sampleCalls (sun : Bool) : RepairCalls :=
  ⟨sun, false, true, true, false, true, true, none, 0, 0⟩

theorem sampleStat_existing : Existing sampleHost 'f' "/a".toList 'f' sampleStat :=
  ⟨rfl, by decide, by decide, by decide⟩

theorem sampleWanted_requested : Requested sampleHost sampleWanted 0 3 :=
  ⟨by decide, by decide, by decide, by decide, by decide⟩

/-- On Solaris the owner is set. -/
theorem averifyFix_repairs_iff_sun :
    ∃ file, (averifyFix sampleHost (sampleCalls true) 'f' "/a".toList sampleWanted).file =
      some file ∧
      ((averifyFix sampleHost (sampleCalls true) 'f' "/a".toList sampleWanted).code = 0 →
        HasAttributes sampleWanted 0 3 file) :=
  (averifyFix_repairs_iff rfl sampleStat_existing sampleWanted_requested).mpr (.inl ⟨rfl, rfl⟩)

/-- Elsewhere `averify` reports success, and the file still belongs to the other user. -/
theorem averifyFix_keeps_owner :
    sampleHost.disableAttributeCheck = false ∧
    Existing sampleHost 'f' "/a".toList 'f' sampleStat ∧ Requested sampleHost sampleWanted 0 3 ∧
    (averifyFix sampleHost (sampleCalls false) 'f' "/a".toList sampleWanted).code = 0 ∧
    ∃ file, (averifyFix sampleHost (sampleCalls false) 'f' "/a".toList sampleWanted).file =
        some file ∧ file.uid = 100 ∧ ¬ HasAttributes sampleWanted 0 3 file := by
  refine ⟨rfl, sampleStat_existing, sampleWanted_requested, by decide, _, rfl, rfl, ?_⟩
  rintro ⟨-, huid, -⟩
  revert huid
  decide

end Pkgtools
