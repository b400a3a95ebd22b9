import Pkgtools.AdminLockRuns
import Pkgtools.CLib.RecordFile

namespace Pkgtools
open CLib
set_option autoImplicit true

/-- What a record says about its lock, apart from the number of holders. -/
structure LockId where
  object : Str
  key : Str
  pid : Int
  zone : Int
  exclusive : Bool
  deriving DecidableEq

def AdminLock.id (r : AdminLock) : LockId :=
  ⟨r.lockObject, r.lockKey, r.lockPid, r.lockZoneId, r.lockExclusive⟩

def AdminLock.entry (r : AdminLock) : LockId × Nat := (r.id, r.lockCount)

inductive RecordOp where
  | add (object : Str) (exclusive : Bool) (pid zid : Int) (env : LockEnv)
  | increment (object key : Str)
  | decrement (object key : Str)

/-- A record that was added, with the operations on it since then. -/
structure Holding where
  id : LockId
  increments : Nat
  decrements : Nat
  deriving DecidableEq

def Holding.entry (h : Holding) : LockId × Nat := (h.id, 1 + h.increments - h.decrements)

def updateHolding (e : LockId × Nat) (f : Holding → Option Holding) : List Holding → List Holding
  | [] => []
  | h :: hs => if h.entry = e then (f h).toList ++ hs else h :: updateHolding e f hs

def Holding.increment (h : Holding) : Option Holding :=
  some { h with increments := h.increments + 1 }

def Holding.decrement (h : Holding) : Option Holding :=
  if h.decrements = h.increments then none else some { h with decrements := h.decrements + 1 }

section Bytes
variable {β : Type} (L : Layout AdminLock β) (m : Str → Str → Bool)

/-- `_addLock`, on the bytes of the file. -/
def addLockAt (env : LockEnv) (file : List β) (object : Str) (exclusive : Bool) (pid zid : Int) :
    List β :=
  let pos := file.length
  let theLock := { newLock [] object exclusive pid zid (getUniqueId env) with
    lockRecordNum := if pos = 0 then 0 else pos / L.size }
  pwriteAt L.zero file pos (L.encode theLock)

/-- `_incrementLockCount`, on the bytes of the file. -/
def incrementLockCountAt (file : List β) (r : AdminLock) : List β :=
  pwriteAt L.zero file (r.lockRecordNum * L.size)
    (L.encode { r with lockCount := r.lockCount + 1 })

/-- `_decrementLockCount`, on the bytes of the file. -/
def decrementLockCountAt (file : List β) (r : AdminLock) : List β :=
  let r := { r with lockCount := r.lockCount - 1 }
  if r.lockCount > 0 then pwriteAt L.zero file (r.lockRecordNum * L.size) (L.encode r)
  else
    let lastPos := file.length
    if lastPos / L.size = r.lockRecordNum + 1 then ftruncate L.zero file (lastPos - L.size)
    else
      let tmpLock := L.decode (preadAt file ((lastPos / L.size - 1) * L.size) L.size)
      pwriteAt L.zero (ftruncate L.zero file (lastPos - L.size)) (r.lockRecordNum * L.size)
        (L.encode { tmpLock with lockRecordNum := r.lockRecordNum })

/-- The lock file and what is known of the records in it. -/
structure LedgerState (β : Type) where
  file : List β
  ledger : List Holding

/-- One operation; it is undefined when the lookup finds no record. -/
def ledgerStep (s : LedgerState β) : RecordOp → Option (LedgerState β)
  | .add object exclusive pid zid env =>
    some ⟨addLockAt L env s.file object exclusive pid zid,
      ⟨(newLock [] object exclusive pid zid (getUniqueId env)).id, 0, 0⟩ :: s.ledger⟩
  | .increment object key =>
    (findLock m (L.records s.file) object key).2.map fun r =>
      ⟨incrementLockCountAt L s.file r, updateHolding r.entry Holding.increment s.ledger⟩
  | .decrement object key =>
    (findLock m (L.records s.file) object key).2.map fun r =>
      ⟨decrementLockCountAt L s.file r, updateHolding r.entry Holding.decrement s.ledger⟩

def ledgerRun (ops : List RecordOp) : Option (LedgerState β) := ops.foldlM (ledgerStep L m) ⟨[], []⟩

end Bytes

/-- A record that operations can have made: one of them added its lock, and its numbers count no
more than the operations. -/
structure MadeBy (ops : List RecordOp) (r : AdminLock) : Prop where
  added : ∃ object exclusive pid zid env, .add object exclusive pid zid env ∈ ops ∧
    r.id = (newLock [] object exclusive pid zid (getUniqueId env)).id
  count : r.lockCount ≤ ops.length
  number : r.lockRecordNum < ops.length

/-- The records of the file, in front of their ledger. -/
structure Recorded (rs : LockFile) (ledger : List Holding) : Prop where
  numbered : Numbered rs
  positive : ∀ r ∈ rs, 1 ≤ r.lockCount
  entries : (rs.map AdminLock.entry).Perm (ledger.map Holding.entry)
  honest : ∀ h ∈ ledger, h.decrements ≤ h.increments

section Ledger
variable {rs A B : LockFile} {r x : AdminLock} {ledger : List Holding} {h : Holding}

theorem Recorded.empty : Recorded [] [] := ⟨nofun, nofun, .nil, nofun⟩

theorem exists_holding (he : e ∈ ledger.map Holding.entry) (f : Holding → Option Holding) :
    ∃ C h D, ledger = C ++ h :: D ∧ h.entry = e ∧
      updateHolding e f ledger = C ++ ((f h).toList ++ D) := by
  induction ledger with
  | nil => cases he
  | cons h hs ih =>
    by_cases hh : h.entry = e
    · exact ⟨[], h, hs, rfl, hh, if_pos hh⟩
    · have htail : e ∈ hs.map Holding.entry := by
        rcases List.mem_cons.mp he with he | he
        · exact absurd he.symm hh
        · exact he
      obtain ⟨C, k, D, hsplit, hk, hupd⟩ := ih htail
      refine ⟨h :: C, k, D, by rw [hsplit, List.cons_append], hk, ?_⟩
      rw [updateHolding, if_neg hh, hupd, List.cons_append]

/-- The ledger with one holding for the record `r`, in front of the entries of all others. -/
theorem Recorded.holding (hrec : Recorded (A ++ r :: B) ledger) (f : Holding → Option Holding) :
    ∃ C h D, ledger = C ++ h :: D ∧ h.entry = r.entry ∧
      updateHolding r.entry f ledger = C ++ ((f h).toList ++ D) ∧
      ((A ++ B).map AdminLock.entry).Perm ((C ++ D).map Holding.entry) := by
  have hmem : r.entry ∈ ledger.map Holding.entry := by
    apply hrec.entries.subset
    exact List.mem_map_of_mem (List.mem_append_right _ List.mem_cons_self)
  obtain ⟨C, h, D, hsplit, he, hupd⟩ := exists_holding hmem f
  refine ⟨C, h, D, hsplit, he, hupd, ?_⟩
  have hperm := hrec.entries
  rw [hsplit, List.map_append, List.map_append, List.map_cons, List.map_cons, he] at hperm
  rw [List.map_append, List.map_append]
  exact (List.perm_cons r.entry).mp
    ((List.perm_middle.symm.trans hperm).trans List.perm_middle)

theorem Recorded.change (hrec : Recorded (A ++ r :: B) ledger)
    (hnum : x.lockRecordNum = r.lockRecordNum) (hpos : 1 ≤ x.lockCount)
    (hf : ∀ h : Holding, h.entry = r.entry → h.decrements ≤ h.increments →
      ∃ k, f h = some k ∧ k.entry = x.entry ∧ k.decrements ≤ k.increments) :
    Recorded (A ++ x :: B) (updateHolding r.entry f ledger) := by
  obtain ⟨C, h, D, hsplit, he, hupd, hperm⟩ := hrec.holding f
  have hhonest := hrec.honest
  rw [hsplit] at hhonest
  obtain ⟨k, hk, hentry, hle⟩ := hf h he (hhonest h (by simp))
  rw [hupd, hk]
  refine ⟨hrec.numbered.replace ?_, ?_, ?_, ?_⟩
  · rw [hnum]
    exact hrec.numbered A.length r (by simp)
  · intro y hy
    rcases List.mem_append.mp hy with hy | hy
    · exact hrec.positive y (List.mem_append_left _ hy)
    · rcases List.mem_cons.mp hy with rfl | hy
      · exact hpos
      · exact hrec.positive y (List.mem_append_right _ (List.mem_cons_of_mem _ hy))
  · have hmid : ((A ++ x :: B).map AdminLock.entry).Perm
        (x.entry :: (A ++ B).map AdminLock.entry) := by
      rw [List.map_append, List.map_cons, List.map_append]
      exact List.perm_middle
    have hmid' : ((C ++ k :: D).map Holding.entry).Perm
        (k.entry :: (C ++ D).map Holding.entry) := by
      rw [List.map_append, List.map_cons, List.map_append]
      exact List.perm_middle
    rw [hentry] at hmid'
    exact (hmid.trans (hperm.cons _)).trans hmid'.symm
  · intro y hy
    rcases List.mem_append.mp hy with hy | hy
    · exact hhonest y (List.mem_append_left _ hy)
    · rcases List.mem_cons.mp hy with rfl | hy
      · exact hle
      · exact hhonest y (List.mem_append_right _ (List.mem_cons_of_mem _ hy))

theorem Recorded.remove (hrec : Recorded (A ++ r :: B) ledger)
    (hf : ∀ h : Holding, h.entry = r.entry → h.decrements ≤ h.increments → f h = none)
    (hnum : Numbered rs) (hsame : (rs.map AdminLock.entry).Perm ((A ++ B).map AdminLock.entry)) :
    Recorded rs (updateHolding r.entry f ledger) := by
  obtain ⟨C, h, D, hsplit, he, hupd, hperm⟩ := hrec.holding f
  have hhonest := hrec.honest
  rw [hsplit] at hhonest
  rw [hupd, hf h he (hhonest h (by simp))]
  refine ⟨hnum, ?_, hsame.trans hperm, ?_⟩
  · intro y hy
    obtain ⟨z, hz, hentry⟩ := List.mem_map.mp (hsame.subset (List.mem_map_of_mem hy))
    have hcount : z.lockCount = y.lockCount := congrArg Prod.snd hentry
    rw [← hcount]
    apply hrec.positive z
    rcases List.mem_append.mp hz with hz | hz
    · exact List.mem_append_left _ hz
    · exact List.mem_append_right _ (List.mem_cons_of_mem _ hz)
  · intro y hy
    apply hhonest y
    rcases List.mem_append.mp hy with hy | hy
    · exact List.mem_append_left _ hy
    · exact List.mem_append_right _ (List.mem_cons_of_mem _ hy)

end Ledger

section Made
variable {done rest : List RecordOp} {rs : LockFile} {r x y : AdminLock}

theorem MadeBy.mono (h : MadeBy done r) (rest : List RecordOp) : MadeBy (done ++ rest) r := by
  obtain ⟨object, exclusive, pid, zid, env, hop, hid⟩ := h.added
  have hlen : (done ++ rest).length = done.length + rest.length := List.length_append
  have hcount := h.count
  have hnumber := h.number
  exact ⟨⟨object, exclusive, pid, zid, env, List.mem_append_left _ hop, hid⟩, by omega, by omega⟩

/-- A record with the lock of one made record and the place of another one. -/
theorem MadeBy.of_eq (h : MadeBy done x) (hplace : MadeBy done y) (hid : r.id = x.id)
    (hcount : r.lockCount ≤ x.lockCount) (hnum : r.lockRecordNum = y.lockRecordNum) :
    MadeBy done r := by
  obtain ⟨object, exclusive, pid, zid, env, hop, hx⟩ := h.added
  exact ⟨⟨object, exclusive, pid, zid, env, hop, hid.trans hx⟩, hcount.trans h.count,
    hnum ▸ hplace.number⟩

theorem MadeBy.increment (h : MadeBy done r) (op : RecordOp) :
    MadeBy (done ++ [op]) { r with lockCount := r.lockCount + 1 } := by
  have hlen : (done ++ [op]).length = done.length + 1 := List.length_append
  have hcount := h.count
  refine ⟨(h.mono [op]).added, ?_, (h.mono [op]).number⟩
  dsimp only
  omega

/-- There are no more records than operations. -/
theorem length_le_of_madeBy (hnum : Numbered rs) (hmade : ∀ r ∈ rs, MadeBy done r) :
    rs.length ≤ done.length := by
  rcases List.eq_nil_or_concat rs with rfl | ⟨A, x, rfl⟩
  · exact Nat.zero_le _
  · have hx := (hmade x (by simp)).number
    rw [hnum A.length x (by simp)] at hx
    rw [List.length_concat]
    exact hx

theorem forall_mem_replaced {p : AdminLock → Prop} {A B : LockFile} (h : ∀ y ∈ A ++ r :: B, p y)
    (hx : p x) : ∀ y ∈ A ++ x :: B, p y := by
  intro y hy
  rcases List.mem_append.mp hy with hy | hy
  · exact h y (List.mem_append_left _ hy)
  · rcases List.mem_cons.mp hy with rfl | hy
    · exact hx
    · exact h y (List.mem_append_right _ (List.mem_cons_of_mem _ hy))

theorem madeBy_newLock (hnum : Numbered rs) (hmade : ∀ r ∈ rs, MadeBy done r) (object : Str)
    (exclusive : Bool) (pid zid : Int) (env : LockEnv) :
    MadeBy (done ++ [.add object exclusive pid zid env])
      (newLock rs object exclusive pid zid (getUniqueId env)) := by
  have hlen := length_le_of_madeBy hnum hmade
  refine ⟨⟨object, exclusive, pid, zid, env, by simp, rfl⟩, ?_, ?_⟩
  · rw [List.length_append]
    exact Nat.le_add_left 1 _
  · rw [List.length_append]
    exact Nat.lt_succ_of_le hlen

end Made

section Steps
variable {β : Type} {L : Layout AdminLock β} {m : Str → Str → Bool} {rs A B : LockFile}
  {r : AdminLock} {ledger : List Holding} {s s' : LedgerState β} {ops done : List RecordOp}

/-- The lock file is stored as whole records that agree with the ledger and were made by the
operations so far. -/
def LedgerState.Sound (L : Layout AdminLock β) (done : List RecordOp) (s : LedgerState β) : Prop :=
  ∃ rs, s.file = L.store rs ∧ Recorded rs s.ledger ∧ ∀ r ∈ rs, MadeBy done r

theorem addLockAt_store (env : LockEnv) (object : Str) (exclusive : Bool) (pid zid : Int) :
    addLockAt L env (L.store rs) object exclusive pid zid =
      L.store (rs ++ [newLock rs object exclusive pid zid (getUniqueId env)]) := by
  have hnum : (if (L.store rs).length = 0 then 0 else (L.store rs).length / L.size) =
      rs.length := by
    rw [L.length_store, Nat.mul_div_cancel _ L.size_pos]
    split
    · rename_i h
      exact ((Nat.mul_eq_zero.mp h).resolve_right L.size_pos.ne').symm
    · rfl
  unfold addLockAt
  dsimp only
  rw [hnum]
  exact L.pwrite_end _

theorem Recorded.add (hrec : Recorded rs ledger) (env : LockEnv) (object : Str) (exclusive : Bool)
    (pid zid : Int) :
    Recorded (rs ++ [newLock rs object exclusive pid zid (getUniqueId env)])
      (⟨(newLock [] object exclusive pid zid (getUniqueId env)).id, 0, 0⟩ :: ledger) := by
  refine ⟨hrec.numbered.append rfl, ?_, ?_, ?_⟩
  · intro r hr
    rcases List.mem_append.mp hr with hr | hr
    · exact hrec.positive r hr
    · rw [List.mem_singleton.mp hr]
      exact Nat.le_refl 1
  · rw [List.map_append, List.map_cons]
    exact (List.perm_append_singleton _ _).trans (hrec.entries.cons _)
  · intro h hh
    rcases List.mem_cons.mp hh with rfl | hh
    · exact Nat.le_refl 0
    · exact hrec.honest h hh

theorem Holding.count_eq {h : Holding} (he : h.entry = r.entry)
    (hle : h.decrements ≤ h.increments) :
    h.id = r.id ∧ r.lockCount = h.increments - h.decrements + 1 := by
  obtain ⟨hid, hcount⟩ := Prod.mk.inj he
  exact ⟨hid, by omega⟩

theorem Recorded.increment (hrec : Recorded (A ++ r :: B) ledger) :
    Recorded (A ++ { r with lockCount := r.lockCount + 1 } :: B)
      (updateHolding r.entry Holding.increment ledger) := by
  refine hrec.change rfl (Nat.le_add_left 1 _) fun h he hle => ⟨_, rfl, ?_, Nat.le_succ_of_le hle⟩
  obtain ⟨hid, hcount⟩ := Holding.count_eq he hle
  refine Prod.ext hid ?_
  simp only [Holding.entry, AdminLock.entry]
  omega

theorem Recorded.decrement (hrec : Recorded (A ++ r :: B) ledger) (hc : 1 < r.lockCount) :
    Recorded (A ++ { r with lockCount := r.lockCount - 1 } :: B)
      (updateHolding r.entry Holding.decrement ledger) := by
  refine hrec.change rfl (Nat.le_sub_one_of_lt hc) fun h he hle => ?_
  obtain ⟨hid, hcount⟩ := Holding.count_eq he hle
  refine ⟨{ h with decrements := h.decrements + 1 }, if_neg (by omega), Prod.ext hid ?_, ?_⟩
  · simp only [Holding.entry, AdminLock.entry]
    omega
  · dsimp only
    omega

theorem Holding.decrement_last (hc : r.lockCount ≤ 1) {h : Holding} (he : h.entry = r.entry)
    (hle : h.decrements ≤ h.increments) : h.decrement = none := by
  have hcount := (Holding.count_eq he hle).2
  exact if_pos (by omega)

theorem Recorded.dropLast (hrec : Recorded (A ++ [r]) ledger) (hc : r.lockCount ≤ 1) :
    Recorded A (updateHolding r.entry Holding.decrement ledger) := by
  refine hrec.remove (fun h => Holding.decrement_last (h := h) hc) hrec.numbered.front ?_
  rw [List.append_nil]

theorem Recorded.moveLast (hrec : Recorded (A ++ r :: (B ++ [x])) ledger) (hc : r.lockCount ≤ 1)
    (hA : A.length = r.lockRecordNum) :
    Recorded (A ++ { x with lockRecordNum := r.lockRecordNum } :: B)
      (updateHolding r.entry Holding.decrement ledger) := by
  have hfile : A ++ r :: (B ++ [x]) = (A ++ r :: B) ++ [x] := by simp
  refine hrec.remove (fun h => Holding.decrement_last (h := h) hc) ?_ ?_
  · rw [hfile] at hrec
    exact hrec.numbered.front.replace hA.symm
  · have hentry : AdminLock.entry { x with lockRecordNum := r.lockRecordNum } = x.entry := rfl
    rw [List.map_append, List.map_cons, hentry, List.map_append, List.map_append]
    exact List.Perm.append_left _ (List.perm_append_singleton _ _).symm

/-- A record goes away with its last holder, and the last one of the file takes its place. -/
theorem decrementLockCountAt_store (hrec : Recorded (A ++ r :: B) ledger)
    (hmade : ∀ y ∈ A ++ r :: B, MadeBy done y) (hfits : ∀ y ∈ A ++ r :: B, L.Fits y) :
    ∃ rs', decrementLockCountAt L (L.store (A ++ r :: B)) r = L.store rs' ∧
      Recorded rs' (updateHolding r.entry Holding.decrement ledger) ∧ ∀ y ∈ rs', MadeBy done y := by
  have hA : A.length = r.lockRecordNum := (hrec.numbered A.length r (by simp)).symm
  have hr := hmade r (by simp)
  have hcount : (L.store (A ++ r :: B)).length / L.size = A.length + (B.length + 1) := by
    rw [L.length_store, Nat.mul_div_cancel _ L.size_pos, List.length_append, List.length_cons]
  unfold decrementLockCountAt
  dsimp only
  rw [hcount]
  by_cases hc : 1 < r.lockCount
  · rw [if_pos (Nat.sub_pos_of_lt hc), L.pwrite_at hA]
    refine ⟨_, rfl, hrec.decrement hc, forall_mem_replaced hmade ?_⟩
    exact hr.of_eq hr rfl (Nat.sub_le _ 1) rfl
  · have hlast := Nat.le_of_not_lt hc
    rw [if_neg (by omega)]
    rcases List.eq_nil_or_concat B with rfl | ⟨B, x, rfl⟩
    · -- the record is the last one of the file
      rw [if_pos (by rw [hA]; rfl), L.ftruncate_last]
      exact ⟨A, rfl, hrec.dropLast hlast, fun y hy => hmade y (List.mem_append_left _ hy)⟩
    · have hne : ¬ A.length + ((B ++ [x]).length + 1) = r.lockRecordNum + 1 := by
        rw [← hA, List.length_append, List.length_singleton]
        omega
      have hfile : A ++ r :: (B ++ [x]) = (A ++ r :: B) ++ [x] := by simp
      have hpos : (A ++ r :: B).length = A.length + ((B ++ [x]).length + 1) - 1 := by
        rw [List.length_append, List.length_cons, List.length_append, List.length_singleton]
        omega
      rw [List.concat_eq_append] at hrec hmade hfits
      have hx : x ∈ A ++ r :: (B ++ [x]) := by simp
      rw [List.concat_eq_append, if_neg hne, hfile, L.pread_last hpos,
        L.decode_encode x (hfits x hx), L.ftruncate_last, L.pwrite_at hA]
      refine ⟨_, rfl, hrec.moveLast hlast hA, ?_⟩
      rw [hfile] at hmade
      refine forall_mem_replaced (fun y hy => hmade y (List.mem_append_left _ hy)) ?_
      exact (hmade x (by simp)).of_eq hr rfl (Nat.le_refl _) rfl

theorem LedgerState.Sound.found (h : s.Sound L done) (hfits : ∀ r, MadeBy done r → L.Fits r)
    (hfind : (findLock m (L.records s.file) object key).2 = some r) :
    ∃ A B, s.file = L.store (A ++ r :: B) ∧ A.length = r.lockRecordNum ∧
      Recorded (A ++ r :: B) s.ledger ∧ ∀ y ∈ A ++ r :: B, MadeBy done y := by
  obtain ⟨rs, hfile, hrec, hmade⟩ := h
  rw [hfile, L.records_store fun y hy => hfits y (hmade y hy)] at hfind
  have hfirst : firstMatch m rs object = some r := by
    cases hf : firstMatch m rs object with
    | none =>
      rw [findLock_none hf] at hfind
      cases hfind
    | some x =>
      rw [findLock_some hf] at hfind
      exact hfind
  obtain ⟨A, B, hsplit, hA⟩ := hrec.numbered.split (firstMatch_mem hfirst)
  rw [hsplit] at hfile hrec hmade
  exact ⟨A, B, hfile, hA, hrec, hmade⟩

theorem LedgerState.Sound.step (h : s.Sound L done) (hfits : ∀ r, MadeBy done r → L.Fits r)
    (hstep : ledgerStep L m s op = some s') : s'.Sound L (done ++ [op]) := by
  cases op with
  | add object exclusive pid zid env =>
    obtain ⟨rs, hfile, hrec, hmade⟩ := h
    obtain rfl := Option.some.inj hstep
    refine ⟨_, ?_, hrec.add env object exclusive pid zid, fun r hr => ?_⟩
    · rw [hfile]
      exact addLockAt_store env object exclusive pid zid
    · rcases List.mem_append.mp hr with hr | hr
      · exact (hmade r hr).mono _
      · rw [List.mem_singleton.mp hr]
        exact madeBy_newLock hrec.numbered hmade object exclusive pid zid env
  | increment object key =>
    obtain ⟨r, hfind, rfl⟩ := Option.map_eq_some_iff.mp hstep
    obtain ⟨A, B, hfile, hA, hrec, hmade⟩ := h.found hfits hfind
    refine ⟨_, ?_, hrec.increment, ?_⟩
    · dsimp only
      rw [hfile, incrementLockCountAt, L.pwrite_at hA]
    · exact forall_mem_replaced (fun y hy => (hmade y hy).mono _) ((hmade r (by simp)).increment _)
  | decrement object key =>
    obtain ⟨r, hfind, rfl⟩ := Option.map_eq_some_iff.mp hstep
    obtain ⟨A, B, hfile, hA, hrec, hmade⟩ := h.found hfits hfind
    obtain ⟨rs, hstore, hrec', hmade'⟩ :=
      decrementLockCountAt_store (L := L) hrec hmade fun y hy => hfits y (hmade y hy)
    refine ⟨rs, ?_, hrec', fun y hy => (hmade' y hy).mono _⟩
    dsimp only
    rw [hfile, hstore]

theorem LedgerState.Sound.run (h : s.Sound L done)
    (hfits : ∀ r, MadeBy (done ++ ops) r → L.Fits r)
    (hrun : ops.foldlM (ledgerStep L m) s = some s') : s'.Sound L (done ++ ops) := by
  induction ops generalizing s done with
  | nil =>
    obtain rfl := Option.some.inj hrun
    rwa [List.append_nil]
  | cons op ops ih =>
    rw [List.foldlM_cons] at hrun
    obtain ⟨t, hstep, hrun⟩ := Option.bind_eq_some_iff.mp hrun
    rw [List.append_cons] at hfits ⊢
    exact ih (h.step (fun r hr => hfits r ((hr.mono [op]).mono ops)) hstep) hfits hrun

/-- The lock file after any operations: whole records that are numbered by their place, each with a
holder, and they are those that were added and still have one. -/
theorem ledgerRun_records {L : Layout AdminLock β} (hfits : ∀ r, MadeBy ops r → L.Fits r)
    (hrun : ledgerRun L m ops = some s) :
    s.file.length = (L.records s.file).length * L.size ∧
    (∀ (i : Nat) (r : AdminLock), (L.records s.file)[i]? = some r → r.lockRecordNum = i) ∧
    (∀ r ∈ L.records s.file, 1 ≤ r.lockCount) ∧
    ((L.records s.file).map AdminLock.entry).Perm (s.ledger.map Holding.entry) ∧
    ∀ h ∈ s.ledger, h.decrements ≤ h.increments := by
  have hempty : LedgerState.Sound L [] ⟨[], []⟩ := ⟨[], rfl, Recorded.empty, nofun⟩
  obtain ⟨rs, hfile, hrec, hmade⟩ := hempty.run hfits hrun
  rw [hfile, L.records_store fun r hr => hfits r (hmade r hr)]
  exact ⟨L.length_store rs, hrec.numbered, hrec.positive, hrec.entries, hrec.honest⟩

end Steps

/-- `struct _adminLock` on an LP64 system. -/
def adminLockLayout : Layout AdminLock Char :=
  ((unsignedLayout 8 (by decide)).pair <| (unsignedLayout 8 (by decide)).pair <|
    (unsignedLayout 8 (by decide)).pair <| intLayout.pair <| intLayout.pair <|
    (textLayout lockKeyMaxlen).pair <| (textLayout lockObjectMaxlen).pair <|
    gapLayout 2 (by decide)).map
  (fun r => (r.lockRecordNum, r.lockCount, r.lockExclusive.toNat, r.lockPid, r.lockZoneId,
    r.lockKey, r.lockObject, ()))
  (fun (num, count, exclusive, pid, zone, key, object, _) =>
    ⟨num, count, exclusive != 0, pid, zone, key, object⟩)
  fun r => by cases r with | mk num count exclusive => cases exclusive <;> rfl

def sampleOps : List RecordOp :=
  [.add "a".toList true 0 (-1) (sampleEnv sampleUuid₁),
    .add "b".toList false 70 1 (sampleEnv sampleUuid₂),
    .add "c".toList false 0 (-1) (sampleEnv sampleUuid₃),
    .increment "b".toList [], .decrement "a".toList sampleUuid₁.toList]

theorem adminLockLayout_fits {k : LockId} (hid : r.id = k) (hnum : r.lockRecordNum < 256 ^ 8)
    (hcount : r.lockCount < 256 ^ 8) (hpid : intLayout.Fits k.pid) (hzone : intLayout.Fits k.zone)
    (hkey : (textLayout lockKeyMaxlen).Fits k.key)
    (hobject : (textLayout lockObjectMaxlen).Fits k.object) : adminLockLayout.Fits r := by
  subst hid
  have hexcl : r.lockExclusive.toNat < 256 ^ 8 := Nat.lt_of_le_of_lt (Bool.toNat_le _) (by decide)
  exact ⟨hnum, hcount, hexcl, hpid, hzone, hkey, hobject, trivial⟩

theorem sampleOps_fits (h : MadeBy sampleOps r) : adminLockLayout.Fits r := by
  have hnum : r.lockRecordNum < 256 ^ 8 := h.number.trans (by decide)
  have hcount : r.lockCount < 256 ^ 8 := h.count.trans_lt (by decide)
  obtain ⟨object, exclusive, pid, zid, env, hop, hid⟩ := h.added
  simp only [sampleOps, List.mem_cons, RecordOp.add.injEq, reduceCtorEq, List.not_mem_nil, or_false]
    at hop
  rcases hop with ⟨rfl, rfl, rfl, rfl, rfl⟩ | ⟨rfl, rfl, rfl, rfl, rfl⟩ | ⟨rfl, rfl, rfl, rfl, rfl⟩
  all_goals
    refine adminLockLayout_fits hid hnum hcount ?_ ?_ ?_ ?_ <;>
      exact ⟨by decide +kernel, by decide +kernel⟩

/-- The first of three records goes away, after the second one was joined. -/
theorem ledgerRun_records_moved :
    ∃ s, ledgerRun adminLockLayout (lockMatch sampleInit) sampleOps = some s ∧
      s.file.length = 2 * 584 ∧ s.ledger.map (fun h => (h.id.object, h.entry.2)) =
        [("c".toList, 1), ("b".toList, 2)] ∧
      ((adminLockLayout.records s.file).map AdminLock.entry).Perm
        (s.ledger.map Holding.entry) := by
  have hrun : (ledgerRun adminLockLayout (lockMatch sampleInit) sampleOps).any
      (fun s => s.file.length = 2 * 584 ∧ s.ledger.map (fun h => (h.id.object, h.entry.2)) =
        [("c".toList, 1), ("b".toList, 2)]) := by
    decide +kernel
  rw [Option.any_eq_true] at hrun
  obtain ⟨s, hsome, hs⟩ := hrun
  obtain ⟨hlen, hledger⟩ := of_decide_eq_true hs
  exact ⟨s, hsome, hlen, hledger,
    (ledgerRun_records (fun _ => sampleOps_fits) hsome).2.2.2.1⟩

end Pkgtools
