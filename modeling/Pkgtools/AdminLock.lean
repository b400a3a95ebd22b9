import Mathlib.Data.List.Basic
import Pkgtools.CLib.Fnmatch
import Mathlib.Algebra.GroupWithZero.Nat

namespace Pkgtools
open CLib
set_option autoImplicit true

/-- The successive tokens of `strtok_r`. -/
def strtok (sep : Char) (s : Str) : List Str := (s.splitOn sep).filter (· ≠ [])

/-- `pkgstrGetToken_r` into a buffer of `MAXPATHLEN` bytes; empty when there is no such token. -/
def pkgstrGetToken (sep : Char) (s : Str) (i : Nat) : Str :=
  (((strtok sep s)[i]?).getD []).take 1023

/-- A node of a lock object has a suffix if its `.` prefix is shorter than the node. -/
def hasSuffix (node : Str) : Bool :=
  (pkgstrGetToken '.' node 0).length != node.length

def sameNode (n₁ n₂ : Str) : Bool :=
  if hasSuffix n₁ = false ∨ hasSuffix n₂ = false then n₁ == n₂
  else pkgstrGetToken '.' n₁ 0 == pkgstrGetToken '.' n₂ 0

/-- The nodes of a lock object, each as far as it fits the buffer. -/
def lockNodes (s : Str) : List Str := (strtok '/' s).map (·.take 1023)

def findAnchor (nodes₁ nodes₂ : List Str) : Option (Nat × Nat) :=
  (nodes₁.findIdx? fun n₁ => nodes₂.any (sameNode n₁)).bind fun i =>
    (nodes₁[i]?).bind fun n₁ => (nodes₂.findIdx? (sameNode n₁)).map fun j => (i, j)

/-- Advance a lock object behind its `n`-th slash. -/
def skipSlashes : Nat → Str → Str
  | 0, s => s
  | _ + 1, [] => []
  | n + 1, c :: s => if c = '/' then skipSlashes n s else skipSlashes (n + 1) s

/-- The final comparison, node by node until either lock ends. -/
def compareNodes (s₁ s₂ : Str) : Bool :=
  ((lockNodes s₁).zip (lockNodes s₂)).all fun (n₁, n₂) => fnmatch n₁ n₂ || fnmatch n₂ n₁

/-- `_lockMatch`: the two lock objects match. `s2Init` is what the uninitialised `s2Cnt` holds;
it is read when the first lock has no node. -/
def lockMatch (s2Init : Str → Str → Int) (s₁ s₂ : Str) : Bool :=
  let nodes₁ := lockNodes s₁
  let nodes₂ := lockNodes s₂
  match findAnchor nodes₁ nodes₂ with
  | none =>
    let s2Cnt : Int := if nodes₁ = [] then s2Init s₁ s₂ else nodes₂.length
    let s1Sfx := (nodes₁.getLast?.map hasSuffix).getD false
    let s2Sfx := if nodes₁ = [] then false else (nodes₂.getLast?.map hasSuffix).getD false
    !((nodes₁.length == 1 || s2Cnt == 1) && (!s1Sfx || !s2Sfx))
  | some (i, j) =>
    if i > 0 ∧ j > 0 then false
    else compareNodes (skipSlashes i s₁) (skipSlashes j s₂)

/-- `ADMINLOCK_T`, one record of the lock file. -/
structure AdminLock where
  lockRecordNum : Nat
  lockCount : Nat
  lockExclusive : Bool
  lockPid : Int
  lockZoneId : Int
  lockKey : Str
  lockObject : Str
  deriving DecidableEq, Repr

def ulongMod : Nat := 2 ^ 64

/-- `FINDLOCK_T`. -/
inductive FindLock where
  | found
  | error
  | notFound
  | keyMismatch
  | locked
  | notLocked
  | lockAcquired
  deriving DecidableEq, Repr

/-- The bytes of a lock file, as whole records. -/
abbrev LockFile := List AdminLock

/-- A record of zero bytes, which a write behind the end of the file leaves in between. -/
def zeroLock : AdminLock := ⟨0, 0, false, 0, 0, [], []⟩

def pwrite (file : LockFile) (n : Nat) (r : AdminLock) : LockFile :=
  if n < file.length then file.set n r
  else file ++ List.replicate (n - file.length) zeroLock ++ [r]

def firstMatch (m : Str → Str → Bool) (file : LockFile) (object : Str) : Option AdminLock :=
  file.find? fun r => m object r.lockObject

/-- `_findLock`, with the record it leaves in `a_theLock`. -/
def findLock (m : Str → Str → Bool) (file : LockFile) (object key : Str) :
    FindLock × Option AdminLock :=
  match firstMatch m file object with
  | some r =>
    if key = [] then (.locked, some r)
    else if r.lockKey ≠ key then (.keyMismatch, some r)
    else (.found, some r)
  | none => (if key ≠ [] then .notLocked else .notFound, none)

/-- What the operations read of the system: the zone, the live processes, and the output of
`makeuuid` or the text made of the clock when it cannot be run. -/
structure LockEnv where
  zoneid : Int
  alive : Int → Bool
  makeuuid : Option Str
  clock : Str

/-- `_getUniqueId`. -/
def getUniqueId (env : LockEnv) : Str :=
  match env.makeuuid with
  | some (c :: s) => (c :: s).takeWhile fun c => !(c == ' ' || c == '\t' || c == '\n')
  | _ => env.clock

/-- `LOCK_OBJECT_MAXLEN`. -/
def lockObjectMaxlen : Nat := 511

/-- `LOCK_KEY_MAXLEN`. -/
def lockKeyMaxlen : Nat := 37

/-- The record `_addLock` appends. -/
def newLock (file : LockFile) (object : Str) (exclusive : Bool) (pid zid : Int) (key : Str) :
    AdminLock where
  lockRecordNum := file.length
  lockCount := 1
  lockExclusive := exclusive
  lockPid := if pid > 0 then pid else 0
  lockZoneId := if zid ≥ 0 then zid else -1
  lockKey := strlcpy lockKeyMaxlen key
  lockObject := strlcpy lockObjectMaxlen object

/-- `_addLock`: the key handed out and the new lock file. -/
def addLock (env : LockEnv) (file : LockFile) (object : Str) (exclusive : Bool) (pid zid : Int) :
    Str × LockFile :=
  let key := getUniqueId env
  (key.take lockKeyMaxlen, pwrite file file.length (newLock file object exclusive pid zid key))

/-- `_incrementLockCount`. -/
def incrementLockCount (file : LockFile) (r : AdminLock) : LockFile :=
  pwrite file r.lockRecordNum { r with lockCount := r.lockCount + 1 }

/-- `_decrementLockCount`: a record without holders is replaced by the last record of the file. -/
def decrementLockCount (file : LockFile) (r : AdminLock) : LockFile :=
  let r := { r with lockCount := r.lockCount - 1 }
  if r.lockCount > 0 then pwrite file r.lockRecordNum r
  else if file.length = r.lockRecordNum + 1 then file.dropLast
  else match file.getLast? with
    | none => file
    | some tmpLock =>
      pwrite file.dropLast r.lockRecordNum { tmpLock with lockRecordNum := r.lockRecordNum }

/-- The test of `_validateLock`. -/
def lockValid (env : LockEnv) (r : AdminLock) : Bool :=
  if r.lockPid ≤ 0 then true
  else if r.lockZoneId ≠ env.zoneid then true
  else env.alive r.lockPid

/-- The loop of `_lock_acquire` that drops stale locks; each round takes a holder off
some record. -/
def findValidLock (m : Str → Str → Bool) (env : LockEnv) (object key : Str) :
    Nat → LockFile → (FindLock × Option AdminLock) × LockFile
  | 0, file => (findLock m file object key, file)
  | f + 1, file =>
    match findLock m file object key with
    | (.locked, some r) =>
      if lockValid env r then ((.locked, some r), file)
      else findValidLock m env object key f (decrementLockCount file r)
    | res => (res, file)

/-- The result of an acquire: the code, the key left in `a_theLock` and the lock file. -/
structure Acquired where
  result : FindLock
  key : Str
  file : LockFile
  deriving DecidableEq

/-- `_lock_acquire`. -/
def lockAcquire (m : Str → Str → Bool) (env : LockEnv) (file : LockFile) (key object : Str)
    (exclusive : Bool) (pid zid : Int) : Acquired :=
  let rounds := (file.map (·.lockCount)).sum + file.length
  match findValidLock m env object key rounds file with
  | ((.locked, some r), file) =>
    if r.lockExclusive ∨ exclusive then ⟨.locked, r.lockKey, file⟩
    else ⟨.lockAcquired, r.lockKey, incrementLockCount file r⟩
  | ((.notFound, _), file) =>
    let (k, file) := addLock env file object exclusive pid zid
    ⟨.lockAcquired, k, file⟩
  | ((.found, some r), file) =>
    if exclusive ≠ r.lockExclusive then ⟨.locked, r.lockKey, file⟩
    else ⟨.lockAcquired, r.lockKey, incrementLockCount file r⟩
  | ((res, r), file) => ⟨res, (r.map (·.lockKey)).getD [], file⟩

/-- `lock_release`. -/
def lockRelease (m : Str → Str → Bool) (file : LockFile) (key object : Str) :
    FindLock × LockFile :=
  match findLock m file object key with
  | (.found, some r) => (.found, decrementLockCount file r)
  | (res, _) => (res, file)

/-- What `admin_lock` accepts for `-o` and `-k`. -/
def Accepted (object key : Str) : Prop :=
  object.length ≤ lockObjectMaxlen ∧ key.length ≤ lockKeyMaxlen ∧ NulFree object ∧ NulFree key

instance (object key : Str) : Decidable (Accepted object key) :=
  inferInstanceAs (Decidable (_ ∧ _ ∧ _ ∧ _))

variable {m : Str → Str → Bool} {file : LockFile} {env : LockEnv}

theorem findLock_some (h : firstMatch m file object = some r) :
    findLock m file object key =
      (if key = [] then .locked else if r.lockKey ≠ key then .keyMismatch else .found, some r) := by
  simp only [findLock, h]
  split
  · rfl
  · split <;> rfl

theorem findLock_none (h : firstMatch m file object = none) :
    findLock m file object key = (if key ≠ [] then .notLocked else .notFound, none) := by
  simp only [findLock, h]

theorem firstMatch_mem (h : firstMatch m file object = some r) : r ∈ file :=
  List.mem_of_find?_eq_some h

theorem findValidLock_valid (hv : ∀ r ∈ file, lockValid env r) (f : Nat) :
    findValidLock m env object key f file = (findLock m file object key, file) := by
  cases f with
  | zero => rfl
  | succ f =>
    cases hf : firstMatch m file object with
    | none =>
      rw [findValidLock, findLock_none hf]
      split
      · rename_i h
        simp at h
      · rfl
    | some r =>
      rw [findValidLock, findLock_some hf]
      split
      · rename_i x h
        simp only [Prod.mk.injEq, Option.some.injEq] at h
        rw [h.1, ← h.2, if_pos (hv r (firstMatch_mem hf))]
      · rfl

/-- What an acquire can do when no lock is stale. -/
theorem lockAcquire_cases (hv : ∀ r ∈ file, lockValid env r) (object key : Str) (exclusive : Bool)
    (pid zid : Int) :
    (key = [] ∧ firstMatch m file object = none ∧
      lockAcquire m env file key object exclusive pid zid =
        ⟨.lockAcquired, (getUniqueId env).take lockKeyMaxlen,
          file ++ [newLock file object exclusive pid zid (getUniqueId env)]⟩) ∨
    (∃ r, firstMatch m file object = some r ∧ r.lockExclusive = exclusive ∧
      (key = [] ∧ exclusive = false ∨ key ≠ [] ∧ r.lockKey = key) ∧
      lockAcquire m env file key object exclusive pid zid =
        ⟨.lockAcquired, r.lockKey, incrementLockCount file r⟩) ∨
    ((lockAcquire m env file key object exclusive pid zid).result ≠ .lockAcquired ∧
      (lockAcquire m env file key object exclusive pid zid).file = file) := by
  simp only [lockAcquire, findValidLock_valid hv]
  cases hf : firstMatch m file object with
  | none =>
    rw [findLock_none hf]
    by_cases hk : key = []
    · left
      simp [hk, addLock, pwrite]
    · right
      right
      simp [hk]
  | some r =>
    right
    rw [findLock_some hf]
    by_cases hk : key = []
    · by_cases he : r.lockExclusive = true ∨ exclusive = true
      · right
        simp [hk, he]
      · left
        simp only [not_or, Bool.not_eq_true] at he
        exact ⟨r, rfl, by rw [he.1, he.2], .inl ⟨hk, he.2⟩, by simp [hk, he.1, he.2]⟩
    · by_cases hr : r.lockKey = key
      · by_cases he : exclusive = r.lockExclusive
        · left
          exact ⟨r, rfl, he.symm, .inr ⟨hk, hr⟩, by simp [hk, hr, he]⟩
        · right
          simp [hk, hr, he]
      · right
        simp [hk, hr]

theorem lockRelease_cases (m : Str → Str → Bool) (file : LockFile) (key object : Str) :
    (∃ r, firstMatch m file object = some r ∧ key ≠ [] ∧ r.lockKey = key ∧
      lockRelease m file key object = (.found, decrementLockCount file r)) ∨
    ((lockRelease m file key object).1 ≠ .found ∧ (lockRelease m file key object).2 = file) := by
  simp only [lockRelease]
  cases hf : firstMatch m file object with
  | none =>
    right
    rw [findLock_none hf]
    by_cases hk : key = [] <;> simp [hk]
  | some r =>
    rw [findLock_some hf]
    by_cases hk : key = []
    · right
      simp [hk]
    · by_cases hr : r.lockKey = key
      · left
        exact ⟨r, rfl, hk, hr, by simp [hk, hr]⟩
      · right
        simp [hk, hr]

end Pkgtools
