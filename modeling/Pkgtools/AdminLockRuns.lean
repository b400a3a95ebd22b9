import Mathlib.Data.List.Nodup
import Mathlib.Data.List.Perm.Basic
import Pkgtools.AdminLock

namespace Pkgtools
open CLib
set_option autoImplicit true

/-- A granted and not yet released lock, as its holder knows it. -/
structure Grant where
  object : Str
  key : Str
  exclusive : Bool
  deriving DecidableEq

/-- The lock file together with the grants its clients hold. -/
structure LockState where
  file : LockFile
  grants : List Grant
  deriving DecidableEq

/-- One invocation of the command: an attempt to acquire, or a release. -/
inductive LockOp where
  | acquire (object key : Str) (exclusive : Bool) (pid zid : Int) (env : LockEnv)
  | release (object key : Str)

/-- A new key that is stored whole and that no record carries. The text of the clock that stands in
for `makeuuid` is the same for a whole second. -/
structure UniqueKey (env : LockEnv) (file : LockFile) : Prop where
  nonempty : getUniqueId env ≠ []
  fits : (getUniqueId env).length < lockKeyMaxlen
  fresh : ∀ r ∈ file, r.lockKey ≠ getUniqueId env

/-- The circumstances of an operation: accepted arguments and no stale lock. -/
def Ordinary (file : LockFile) : LockOp → Prop
  | .acquire object key _ _ _ env => Accepted object key ∧ ∀ r ∈ file, lockValid env r
  | .release object key => Accepted object key

def DrawsKey (m : Str → Str → Bool) (file : LockFile) : LockOp → Prop
  | .acquire object key _ _ _ env =>
    firstMatch m file object = none → key = [] → UniqueKey env file
  | .release _ _ => True

/-- A successful release under a key ends the grant it names; when no grant is named exactly, it
ends some grant under that key. -/
def Released (grants : List Grant) (object key : Str) (grants' : List Grant) : Prop :=
  (∃ g ∈ grants, g.key = key ∧
    ((∃ h ∈ grants, h.key = key ∧ h.object = object) → g.object = object) ∧
    grants' = grants.erase g) ∨
  (∀ g ∈ grants, g.key ≠ key) ∧ grants' = grants

/-- The operations run to completion one after the other. -/
inductive LockStep (m : Str → Str → Bool) : LockState → LockOp → LockState → Prop
  | granted : lockAcquire m env s.file key object exclusive pid zid = ⟨.lockAcquired, k, file⟩ →
      LockStep m s (.acquire object key exclusive pid zid env)
        ⟨file, ⟨object, k, exclusive⟩ :: s.grants⟩
  | refused : (lockAcquire m env s.file key object exclusive pid zid).result ≠ .lockAcquired →
      LockStep m s (.acquire object key exclusive pid zid env)
        ⟨(lockAcquire m env s.file key object exclusive pid zid).file, s.grants⟩
  | released : lockRelease m s.file key object = (.found, file) →
      Released s.grants object key grants → LockStep m s (.release object key) ⟨file, grants⟩
  | kept : (lockRelease m s.file key object).1 ≠ .found →
      LockStep m s (.release object key) ⟨(lockRelease m s.file key object).2, s.grants⟩

/-- The states reached from an empty lock file by ordinary operations that all meet `ok`. -/
inductive LockReach (m : Str → Str → Bool) (ok : LockState → LockOp → Prop) : LockState → Prop
  | empty : LockReach m ok ⟨[], []⟩
  | step (op : LockOp) : LockReach m ok s → Ordinary s.file op → ok s op → LockStep m s op s' →
      LockReach m ok s'

def Numbered (file : LockFile) : Prop := ∀ i (r : AdminLock), file[i]? = some r →
    r.lockRecordNum = i

def holders (grants : List Grant) (key : Str) : Nat := grants.countP (·.key == key)

structure Accounts (file : LockFile) (grants : List Grant) : Prop where
  keys : (file.map (·.lockKey)).Nodup
  keyed : ∀ r ∈ file, r.lockKey ≠ []
  counts : ∀ r ∈ file, r.lockCount = holders grants r.lockKey
  positive : ∀ r ∈ file, 0 < r.lockCount
  held : ∀ g ∈ grants, ∃ r ∈ file, r.lockKey = g.key ∧ r.lockExclusive = g.exclusive

def unnumbered (r : AdminLock) : AdminLock := { r with lockRecordNum := 0 }

def SameRecords (file file' : LockFile) : Prop :=
  (file.map unnumbered).Perm (file'.map unnumbered)

section Records
variable {file file' A B : LockFile} {r L : AdminLock}

theorem unnumbered_inj {r x : AdminLock} (h : unnumbered r = unnumbered x) :
    r.lockKey = x.lockKey ∧ r.lockExclusive = x.lockExclusive ∧ r.lockObject = x.lockObject ∧
      r.lockCount = x.lockCount := by
  simp only [unnumbered, AdminLock.mk.injEq] at h
  exact ⟨h.2.2.2.2.2.1, h.2.2.1, h.2.2.2.2.2.2, h.2.1⟩

theorem SameRecords.exists_mem (h : SameRecords file file') (hr : r ∈ file) :
    ∃ x ∈ file', unnumbered x = unnumbered r := by
  obtain ⟨x, hx, he⟩ := List.mem_map.mp (h.subset (List.mem_map_of_mem hr))
  exact ⟨x, hx, he⟩

theorem SameRecords.symm (h : SameRecords file file') : SameRecords file' file := List.Perm.symm h

theorem SameRecords.keys_perm (h : SameRecords file file') :
    (file.map (·.lockKey)).Perm (file'.map (·.lockKey)) := by
  have := List.Perm.map (·.lockKey) h
  simpa only [List.map_map, Function.comp_def, unnumbered] using this

theorem Accounts.of_same (ha : Accounts file grants) (h : SameRecords file file') :
    Accounts file' grants where
  keys := h.keys_perm.nodup_iff.mp ha.keys
  keyed r hr := by
    obtain ⟨x, hx, he⟩ := h.symm.exists_mem hr
    exact (unnumbered_inj he).1 ▸ ha.keyed x hx
  counts r hr := by
    obtain ⟨x, hx, he⟩ := h.symm.exists_mem hr
    obtain ⟨hk, -, -, hc⟩ := unnumbered_inj he
    rw [← hc, ← hk]
    exact ha.counts x hx
  positive r hr := by
    obtain ⟨x, hx, he⟩ := h.symm.exists_mem hr
    exact (unnumbered_inj he).2.2.2 ▸ ha.positive x hx
  held g hg := by
    obtain ⟨r, hr, hk, hx⟩ := ha.held g hg
    obtain ⟨x, hxm, he⟩ := h.exists_mem hr
    obtain ⟨hk', hx', -, -⟩ := unnumbered_inj he
    exact ⟨x, hxm, hk'.trans hk, hx'.trans hx⟩

theorem Accounts.eq_of_key (ha : Accounts file grants) (hr : r ∈ file) (hL : L ∈ file)
    (hk : r.lockKey = L.lockKey) : r = L :=
  List.inj_on_of_nodup_map ha.keys hr hL hk

theorem Numbered.split (hn : Numbered file) (hr : r ∈ file) :
    ∃ A B, file = A ++ r :: B ∧ A.length = r.lockRecordNum := by
  obtain ⟨A, B, rfl⟩ := List.append_of_mem hr
  exact ⟨A, B, rfl, (hn A.length r (by simp)).symm⟩

theorem Numbered.append (hn : Numbered file) (hr : r.lockRecordNum = file.length) :
    Numbered (file ++ [r]) := by
  intro i x hx
  rcases Nat.lt_trichotomy i file.length with h | h | h
  · rw [List.getElem?_append_left h] at hx
    exact hn i x hx
  · subst h
    simp only [List.getElem?_append_right (Nat.le_refl _), Nat.sub_self, List.getElem?_cons_zero,
      Option.some.injEq] at hx
    rw [← hx, hr]
  · rw [List.getElem?_eq_none (by simp; omega)] at hx
    cases hx

theorem Numbered.front (hn : Numbered (A ++ B)) : Numbered A := by
  intro i x hx
  have hi : i < A.length := (List.getElem?_eq_some_iff.mp hx).1
  exact hn i x (by rw [List.getElem?_append_left hi, hx])

theorem Numbered.replace (hn : Numbered (A ++ r :: B)) (hL : L.lockRecordNum = A.length) :
    Numbered (A ++ L :: B) := by
  intro i x hx
  by_cases h : i = A.length
  · subst h
    have hx' : L = x := by simpa using hx
    rw [← hx', hL]
  · refine hn i x ?_
    rw [← hx]
    rcases Nat.lt_or_gt_of_ne h with hlt | hgt
    · rw [List.getElem?_append_left hlt, List.getElem?_append_left hlt]
    · obtain ⟨k, rfl⟩ : ∃ k, i = A.length + (k + 1) := ⟨i - A.length - 1, by omega⟩
      simp [List.getElem?_append_right]

theorem pwrite_split (hA : A.length = n) (L : AdminLock) :
    pwrite (A ++ r :: B) n L = A ++ L :: B := by
  subst hA
  simp [pwrite]

theorem incrementLockCount_split (hA : A.length = r.lockRecordNum) :
    incrementLockCount (A ++ r :: B) r = A ++ { r with lockCount := r.lockCount + 1 } :: B :=
  pwrite_split hA _

theorem decrementLockCount_shared (hA : A.length = r.lockRecordNum) (hc : 1 < r.lockCount) :
    decrementLockCount (A ++ r :: B) r = A ++ { r with lockCount := r.lockCount - 1 } :: B := by
  rw [decrementLockCount, if_pos (by simp only; omega)]
  exact pwrite_split hA _

theorem decrementLockCount_last (hA : A.length = r.lockRecordNum) (hc : r.lockCount ≤ 1) :
    decrementLockCount (A ++ [r]) r = A := by
  rw [decrementLockCount, if_neg (by simp only; omega), if_pos (by simp [hA])]
  exact List.dropLast_concat

theorem decrementLockCount_moves (hA : A.length = r.lockRecordNum) (hc : r.lockCount ≤ 1) :
    decrementLockCount (A ++ r :: (B ++ [L])) r =
      A ++ { L with lockRecordNum := r.lockRecordNum } :: B := by
  have hs : A ++ r :: (B ++ [L]) = (A ++ r :: B) ++ [L] := by simp
  have hl : (A ++ r :: (B ++ [L])).length ≠ r.lockRecordNum + 1 := by
    simp [hA]
  rw [decrementLockCount, if_neg (by simp only; omega), if_neg hl]
  simp only [hs, List.getLast?_concat, List.dropLast_concat]
  exact pwrite_split hA _

theorem sameRecords_moves :
    SameRecords (A ++ (B ++ [L])) (A ++ { L with lockRecordNum := n } :: B) := by
  simp only [SameRecords, List.map_append, List.map_cons, List.map_nil]
  rw [show unnumbered { L with lockRecordNum := n } = unnumbered L from rfl]
  exact List.Perm.append_left _ (List.perm_append_singleton _ _)

end Records

/-- Everything a step can do to a lock file that accounts for the grants. -/
inductive LockEffect (m : Str → Str → Bool) : LockState → LockOp → LockState → Prop
  | adds : firstMatch m file object = none → UniqueKey env file →
      LockEffect m ⟨file, grants⟩ (.acquire object [] exclusive pid zid env)
        ⟨file ++ [newLock file object exclusive pid zid (getUniqueId env)],
          ⟨object, getUniqueId env, exclusive⟩ :: grants⟩
  | joins : firstMatch m (A ++ r :: B) object = some r →
      (key = [] ∧ r.lockExclusive = false ∨ key = r.lockKey) →
      LockEffect m ⟨A ++ r :: B, grants⟩ (.acquire object key r.lockExclusive pid zid env)
        ⟨A ++ { r with lockCount := r.lockCount + 1 } :: B,
          ⟨object, r.lockKey, r.lockExclusive⟩ :: grants⟩
  | leaves : firstMatch m (A ++ r :: B) object = some r → 1 < r.lockCount → g ∈ grants →
      g.key = r.lockKey →
      LockEffect m ⟨A ++ r :: B, grants⟩ (.release object r.lockKey)
        ⟨A ++ { r with lockCount := r.lockCount - 1 } :: B, grants.erase g⟩
  | removesLast : firstMatch m (A ++ [r]) object = some r → r.lockCount = 1 → g ∈ grants →
      g.key = r.lockKey →
      LockEffect m ⟨A ++ [r], grants⟩ (.release object r.lockKey) ⟨A, grants.erase g⟩
  | moves : firstMatch m (A ++ r :: (B ++ [L])) object = some r → A.length = r.lockRecordNum →
      r.lockCount = 1 → g ∈ grants → g.key = r.lockKey →
      LockEffect m ⟨A ++ r :: (B ++ [L]), grants⟩ (.release object r.lockKey)
        ⟨A ++ { L with lockRecordNum := r.lockRecordNum } :: B, grants.erase g⟩
  | nothing : LockEffect m s op s

theorem Accounts.exists_holder (ha : Accounts file grants) (hr : r ∈ file) :
    ∃ g ∈ grants, g.key = r.lockKey := by
  have hp := ha.positive r hr
  rw [ha.counts r hr, holders, List.countP_pos_iff] at hp
  obtain ⟨g, hg, hk⟩ := hp
  exact ⟨g, hg, by simpa using hk⟩

theorem Released.exists_grant (h : Released grants object key grants')
    (hk : ∃ g ∈ grants, g.key = key) : ∃ g ∈ grants, g.key = key ∧ grants' = grants.erase g := by
  rcases h with ⟨g, hg, hgk, -, he⟩ | ⟨hno, -⟩
  · exact ⟨g, hg, hgk, he⟩
  · obtain ⟨g, hg, hgk⟩ := hk
    exact absurd hgk (hno g hg)

theorem LockStep.acquire_effect (hn : Numbered file) (hv : ∀ r ∈ file, lockValid env r)
    (hu : firstMatch m file object = none → key = [] → UniqueKey env file)
    (h : LockStep m ⟨file, grants⟩ (.acquire object key exclusive pid zid env) s') :
    LockEffect m ⟨file, grants⟩ (.acquire object key exclusive pid zid env) s' := by
  rcases lockAcquire_cases hv object key exclusive pid zid with
    ⟨rfl, hf, he⟩ | ⟨r, hf, hx, hk, he⟩ | ⟨hres, hfile⟩
  · cases h with
    | granted h =>
      have hu := hu hf rfl
      rw [he, Acquired.mk.injEq] at h
      obtain ⟨-, hk, rfl⟩ := h
      rw [List.take_of_length_le (Nat.le_of_lt hu.fits)] at hk
      rw [← hk]
      exact .adds hf hu
    | refused h => exact absurd (congrArg Acquired.result he) h
  · obtain ⟨A, B, rfl, hA⟩ := hn.split (firstMatch_mem hf)
    rw [incrementLockCount_split hA] at he
    subst hx
    have hk' : key = [] ∧ r.lockExclusive = false ∨ key = r.lockKey := by
      rcases hk with hk | ⟨-, hk⟩
      · exact .inl hk
      · exact .inr hk.symm
    cases h with
    | granted h =>
      rw [he, Acquired.mk.injEq] at h
      obtain ⟨-, rfl, rfl⟩ := h
      exact .joins hf hk'
    | refused h => exact absurd (congrArg Acquired.result he) h
  · cases h with
    | granted h => exact absurd (congrArg Acquired.result h) hres
    | refused =>
      simp only at hfile ⊢
      rw [hfile]
      exact .nothing

theorem LockStep.release_effect (hn : Numbered file) (ha : Accounts file grants)
    (h : LockStep m ⟨file, grants⟩ (.release object key) s') :
    LockEffect m ⟨file, grants⟩ (.release object key) s' := by
  rcases lockRelease_cases m file key object with ⟨r, hf, -, rfl, he⟩ | ⟨hres, hfile⟩
  · have hr := firstMatch_mem hf
    cases h with
    | kept h => exact absurd (congrArg Prod.fst he) h
    | released h hrel =>
      obtain ⟨g, hg, hgk, rfl⟩ := hrel.exists_grant (ha.exists_holder hr)
      rw [he, Prod.mk.injEq] at h
      obtain ⟨-, rfl⟩ := h
      have hp := ha.positive r hr
      obtain ⟨A, B, rfl, hA⟩ := hn.split hr
      by_cases hc : 1 < r.lockCount
      · rw [decrementLockCount_shared hA hc]
        exact .leaves hf hc hg hgk
      · have hc' : r.lockCount = 1 := by omega
        rcases List.eq_nil_or_concat B with rfl | ⟨B, L, rfl⟩
        · rw [decrementLockCount_last hA (by omega)]
          exact .removesLast hf hc' hg hgk
        · rw [List.concat_eq_append] at *
          rw [decrementLockCount_moves hA (by omega)]
          exact .moves hf hA hc' hg hgk
  · cases h with
    | released h => exact absurd (congrArg Prod.fst h) hres
    | kept =>
      simp only at hfile ⊢
      rw [hfile]
      exact .nothing

theorem LockStep.effect (hn : Numbered s.file) (ha : Accounts s.file s.grants)
    (ho : Ordinary s.file op) (hk : DrawsKey m s.file op) (h : LockStep m s op s') :
    LockEffect m s op s' := by
  obtain ⟨file, grants⟩ := s
  cases op with
  | acquire => exact LockStep.acquire_effect hn ho.2 hk h
  | release => exact LockStep.release_effect hn ha h

theorem holders_cons_same (grants : List Grant) (object : Str) (exclusive : Bool) (key : Str) :
    holders (⟨object, key, exclusive⟩ :: grants) key = holders grants key + 1 := by
  simp [holders]

theorem holders_cons_ne {g : Grant} (h : g.key ≠ key) (grants : List Grant) :
    holders (g :: grants) key = holders grants key := by
  simp [holders, h]

theorem holders_erase {g : Grant} (hg : g ∈ grants) (key : Str) :
    holders grants key = holders (grants.erase g) key + if g.key = key then 1 else 0 := by
  rw [holders, (List.perm_cons_erase hg).countP_eq, List.countP_cons, holders]
  simp

theorem Accounts.add {r : AdminLock} (ha : Accounts file grants) (object : Str)
    (hk : ∀ x ∈ file, x.lockKey ≠ r.lockKey) (hne : r.lockKey ≠ []) (hc : r.lockCount = 1) :
    Accounts (file ++ [r]) (⟨object, r.lockKey, r.lockExclusive⟩ :: grants) where
  keys := by
    rw [List.map_append, List.map_singleton, List.nodup_append]
    refine ⟨ha.keys, List.nodup_singleton _, ?_⟩
    intro k hk' k' hk'' he
    obtain ⟨x, hx, rfl⟩ := List.mem_map.mp hk'
    exact hk x hx (he.trans (List.mem_singleton.mp hk''))
  keyed x hx := by
    rcases List.mem_append.mp hx with hx | hx
    · exact ha.keyed x hx
    · exact (List.mem_singleton.mp hx) ▸ hne
  counts x hx := by
    rcases List.mem_append.mp hx with hx | hx
    · rw [holders_cons_ne (hk x hx).symm]
      exact ha.counts x hx
    · obtain rfl := List.mem_singleton.mp hx
      -- nobody held the new key before
      have h0 : holders grants x.lockKey = 0 := by
        rw [holders, List.countP_eq_zero]
        intro g hg hgk
        obtain ⟨y, hy, hyk, -⟩ := ha.held g hg
        exact hk y hy (hyk.trans (by simpa using hgk))
      rw [holders_cons_same, h0, hc]
  positive x hx := by
    rcases List.mem_append.mp hx with hx | hx
    · exact ha.positive x hx
    · rw [List.mem_singleton.mp hx, hc]
      exact Nat.zero_lt_one
  held g hg := by
    rcases List.mem_cons.mp hg with rfl | hg
    · exact ⟨r, List.mem_append_right _ (List.mem_singleton.mpr rfl), rfl, rfl⟩
    · obtain ⟨x, hx, h⟩ := ha.held g hg
      exact ⟨x, List.mem_append_left _ hx, h⟩

theorem Accounts.recount {A B : LockFile} (ha : Accounts (A ++ r :: B) grants) (hn : 0 < n)
    (hc : n = holders grants' r.lockKey)
    (hother : ∀ x ∈ A ++ B, holders grants' x.lockKey = holders grants x.lockKey)
    (hheld : ∀ g ∈ grants', g ∈ grants ∨ g.key = r.lockKey ∧ g.exclusive = r.lockExclusive) :
    Accounts (A ++ { r with lockCount := n } :: B) grants' := by
  have hmem {x : AdminLock} (hx : x ∈ A ++ { r with lockCount := n } :: B) :
      x = { r with lockCount := n } ∨ x ∈ A ++ B := by
    simpa [or_left_comm] using hx
  have hsub {x : AdminLock} (hx : x ∈ A ++ B) : x ∈ A ++ r :: B := by
    rcases List.mem_append.mp hx with hx | hx
    · exact List.mem_append_left _ hx
    · exact List.mem_append_right _ (List.mem_cons_of_mem _ hx)
  have hr : r ∈ A ++ r :: B := by simp
  constructor
  · simpa using ha.keys
  · intro x hx
    rcases hmem hx with rfl | hx
    · exact ha.keyed r hr
    · exact ha.keyed x (hsub hx)
  · intro x hx
    rcases hmem hx with rfl | hx
    · exact hc
    · rw [hother x hx]
      exact ha.counts x (hsub hx)
  · intro x hx
    rcases hmem hx with rfl | hx
    · exact hn
    · exact ha.positive x (hsub hx)
  · have hin (g : Grant) (h : g.key = r.lockKey ∧ g.exclusive = r.lockExclusive) :
        ∃ x ∈ A ++ { r with lockCount := n } :: B, x.lockKey = g.key ∧
          x.lockExclusive = g.exclusive :=
      ⟨{ r with lockCount := n }, by simp, h.1.symm, h.2.symm⟩
    intro g hg
    rcases hheld g hg with hg | hg
    · obtain ⟨x, hx, hk, he⟩ := ha.held g hg
      rcases List.mem_append.mp hx with hx | hx
      · exact ⟨x, List.mem_append_left _ hx, hk, he⟩
      · rcases List.mem_cons.mp hx with rfl | hx
        · exact hin g ⟨hk.symm, he.symm⟩
        · exact ⟨x, List.mem_append_right _ (List.mem_cons_of_mem _ hx), hk, he⟩
    · exact hin g hg

theorem Accounts.other_keys {A B : LockFile} (ha : Accounts (A ++ r :: B) grants) :
    ∀ x ∈ A ++ B, r.lockKey ≠ x.lockKey := by
  intro x hx he
  have hperm : (A ++ r :: B).Perm (r :: (A ++ B)) := List.perm_middle
  have hk := (hperm.map (·.lockKey)).nodup_iff.mp ha.keys
  rw [List.map_cons, List.nodup_cons] at hk
  exact hk.1 (he ▸ List.mem_map_of_mem hx)

theorem Accounts.no_holder_left (ha : Accounts file grants) (hr : r ∈ file)
    (hc : r.lockCount = 1) (hg : g ∈ grants) (hk : g.key = r.lockKey) :
    ∀ h ∈ grants.erase g, h.key ≠ r.lockKey := by
  have h₁ := holders_erase hg r.lockKey
  have h₂ := ha.counts r hr
  rw [if_pos hk] at h₁
  have h0 : holders (grants.erase g) r.lockKey = 0 := by omega
  intro h hh
  simpa using List.countP_eq_zero.mp h0 h hh

theorem Accounts.remove {A B : LockFile} (ha : Accounts (A ++ r :: B) grants)
    (hc : r.lockCount = 1) (hg : g ∈ grants) (hk : g.key = r.lockKey) :
    Accounts (A ++ B) (grants.erase g) := by
  have hsub {x : AdminLock} (hx : x ∈ A ++ B) : x ∈ A ++ r :: B := by
    rcases List.mem_append.mp hx with hx | hx
    · exact List.mem_append_left _ hx
    · exact List.mem_append_right _ (List.mem_cons_of_mem _ hx)
  constructor
  · refine (List.Sublist.map _ ?_).nodup ha.keys
    exact List.Sublist.append_left (List.sublist_cons_self _ _) _
  · exact fun x hx => ha.keyed x (hsub hx)
  · intro x hx
    have h₁ := holders_erase hg x.lockKey
    rw [if_neg (hk ▸ ha.other_keys x hx), Nat.add_zero] at h₁
    rw [← h₁]
    exact ha.counts x (hsub hx)
  · exact fun x hx => ha.positive x (hsub hx)
  · intro h hh
    have hne : h.key ≠ r.lockKey := ha.no_holder_left (by simp) hc hg hk h hh
    obtain ⟨x, hx, hk', he⟩ := ha.held h (List.mem_of_mem_erase hh)
    have hx' : x ∈ A ++ B := by
      rcases List.mem_append.mp hx with hx | hx
      · exact List.mem_append_left _ hx
      · rcases List.mem_cons.mp hx with rfl | hx
        · exact absurd hk'.symm hne
        · exact List.mem_append_right _ hx
    exact ⟨x, hx', hk', he⟩

theorem newLock_key (hu : UniqueKey env file) (object : Str) (exclusive : Bool) (pid zid : Int) :
    (newLock file object exclusive pid zid (getUniqueId env)).lockKey = getUniqueId env := by
  have := hu.fits
  simp only [newLock, strlcpy]
  exact List.take_of_length_le (by omega)

/-- The lock file accounts for the grants after every step. -/
theorem LockEffect.accounts (h : LockEffect m s op s') (hn : Numbered s.file)
    (ha : Accounts s.file s.grants) : Numbered s'.file ∧ Accounts s'.file s'.grants := by
  cases h with
  | @adds file object env grants exclusive pid zid hf hu =>
    have hkey := newLock_key hu object exclusive pid zid
    refine ⟨hn.append rfl, ?_⟩
    have := ha.add (r := newLock file object exclusive pid zid (getUniqueId env)) object
      (by rw [hkey]; exact hu.fresh) (by rw [hkey]; exact hu.nonempty) rfl
    rw [hkey] at this
    exact this
  | @joins A r B object key grants pid zid env hf hk =>
    refine ⟨hn.replace (hn A.length r (by simp)), ha.recount (by omega) ?_ ?_ ?_⟩
    · rw [holders_cons_same, ha.counts r (by simp)]
    · intro x hx
      exact holders_cons_ne (ha.other_keys x hx) grants
    · intro g hg
      rcases List.mem_cons.mp hg with rfl | hg
      · exact .inr ⟨rfl, rfl⟩
      · exact .inl hg
  | @leaves A r B object grants g hf hc hg hk =>
    refine ⟨hn.replace (hn A.length r (by simp)), ha.recount (by omega) ?_ ?_ ?_⟩
    · have h₁ := holders_erase hg r.lockKey
      have h₂ : r.lockCount = holders grants r.lockKey := ha.counts r (by simp)
      rw [if_pos hk] at h₁
      change r.lockCount - 1 = holders (grants.erase g) r.lockKey
      omega
    · intro x hx
      have h₁ := holders_erase hg x.lockKey
      rw [if_neg (hk ▸ ha.other_keys x hx), Nat.add_zero] at h₁
      exact h₁.symm
    · exact fun h hh => .inl (List.mem_of_mem_erase hh)
  | removesLast hf hc hg hk =>
    have := ha.remove hc hg hk
    rw [List.append_nil] at this
    exact ⟨hn.front, this⟩
  | @moves A r B L object grants g hf hA hc hg hk =>
    have hn' : Numbered (A ++ r :: B) := by
      have hs : A ++ r :: (B ++ [L]) = (A ++ r :: B) ++ [L] := by simp
      exact Numbered.front (hs ▸ hn)
    exact ⟨hn'.replace hA.symm, (ha.remove hc hg hk).of_same sameRecords_moves⟩
  | nothing => exact ⟨hn, ha⟩

/-- A system where no process has ended and `makeuuid` returns the given text. -/
def sampleEnv (uuid : String) : LockEnv := ⟨0, fun _ => true, some uuid.toList, []⟩

/-- What the uninitialised `s2Cnt` holds; no sample object is without nodes. -/
def sampleInit : Str → Str → Int := fun _ _ => 0

def sampleUuid₁ : String := "7814e3c1-1dd2-11b2-9fe8-000d560ddc82"

def sampleUuid₂ : String := "afdb66cf-1dd1-11b2-a049-000d560ddc3e"

def sampleUuid₃ : String := "0a51f6be-1dd2-11b2-8f23-000d560ddc82"

def sampleRecord (n count : Nat) (exclusive : Bool) (uuid object : String) : AdminLock :=
  ⟨n, count, exclusive, 0, -1, uuid.toList, object.toList⟩

def sampleGrant (object uuid : String) (exclusive : Bool) : Grant :=
  ⟨object.toList, uuid.toList, exclusive⟩

def sampleAcquire (object uuid : String) (exclusive : Bool) : LockOp :=
  .acquire object.toList [] exclusive 0 (-1) (sampleEnv uuid)

end Pkgtools
