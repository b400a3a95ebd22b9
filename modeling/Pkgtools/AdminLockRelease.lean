import Pkgtools.AdminLockRuns
import Mathlib.Algebra.GroupWithZero.Nat

namespace Pkgtools
open CLib
set_option autoImplicit true

/-- The number of holders the lock file records under a key. -/
def recordedCount (file : LockFile) (key : Str) : Nat :=
  ((file.filter (·.lockKey == key)).map (·.lockCount)).sum

/-- The holder of every grant can release it: the release is reported as found, and takes one
holder off the record with the grant's key and off no other record. -/
def Releasable (m : Str → Str → Bool) (s : LockState) : Prop :=
  ∀ g ∈ s.grants, ∃ r ∈ s.file, r.lockKey = g.key ∧
    lockRelease m s.file g.key g.object = (.found, decrementLockCount s.file r) ∧
    recordedCount (decrementLockCount s.file r) g.key + 1 = recordedCount s.file g.key ∧
    ∀ key, key ≠ g.key →
      recordedCount (decrementLockCount s.file r) key = recordedCount s.file key

/-- The step lets every grant keep its record as the first one its object matches: a new record
has a key of its own and is matched by the object it was made for, a record that is joined can count
one holder more, and a record that moves into the place of a removed one is not matched by a grant
whose record lies between the two places. -/
def StaysFirst (m : Str → Str → Bool) (s : LockState) : LockOp → Prop
  | .acquire object key _ _ _ env =>
    (firstMatch m s.file object = none → key = [] →
      UniqueKey env s.file ∧ m object (strlcpy lockObjectMaxlen object)) ∧
    ∀ r, firstMatch m s.file object = some r → r.lockCount + 1 < ulongMod
  | .release object key => ∀ r L, firstMatch m s.file object = some r → r.lockKey = key →
      r.lockCount = 1 → s.file.getLast? = some L → ∀ g ∈ s.grants,
        ∀ x ∈ (s.file.drop (r.lockRecordNum + 1)).dropLast, x.lockKey = g.key →
          ¬ m g.object L.lockObject

theorem StaysFirst.drawsKey (h : StaysFirst m s op) : DrawsKey m s.file op := by
  cases op with
  | acquire => exact fun hf hk => (h.1 hf hk).1
  | release => trivial

def firstKey (m : Str → Str → Bool) (file : LockFile) (object : Str) : Option Str :=
  (firstMatch m file object).map (·.lockKey)

section FirstKey
variable {m : Str → Str → Bool} {A B : LockFile} {r L : AdminLock} {object : Str}

theorem firstKey_append : firstKey m (A ++ B) object =
    (firstKey m A object).or (firstKey m B object) := by
  simp only [firstKey, firstMatch, List.find?_append]
  cases A.find? _ <;> rfl

theorem firstKey_cons : firstKey m (r :: B) object =
    if m object r.lockObject then some r.lockKey else firstKey m B object := by
  simp only [firstKey, firstMatch, List.find?_cons]
  cases m object r.lockObject <;> rfl

theorem firstKey_recount : firstKey m (A ++ { r with lockCount := n } :: B) object =
    firstKey m (A ++ r :: B) object := by
  simp only [firstKey_append, firstKey_cons]

theorem exists_key_of_firstKey (h : firstKey m B object = some key) :
    ∃ x ∈ B, x.lockKey = key := by
  obtain ⟨x, hx, hk⟩ := Option.map_eq_some_iff.mp h
  exact ⟨x, firstMatch_mem hx, hk⟩

theorem firstKey_removesLast (h : firstKey m (A ++ [r]) object = some key)
    (hk : key ≠ r.lockKey) : firstKey m A object = some key := by
  rw [firstKey_append, firstKey_cons] at h
  cases hA : firstKey m A object with
  | some k => simpa [hA] using h
  | none =>
    rw [hA, Option.none_or] at h
    split at h
    · exact absurd (Option.some.inj h).symm hk
    · cases h

/-- The first match outlives the removal of another record unless the moved record overtakes it. -/
theorem firstKey_moves (h : firstKey m (A ++ r :: (B ++ [L])) object = some key)
    (hk : key ≠ r.lockKey) (hL : ∀ x ∈ B, x.lockKey = key → ¬ m object L.lockObject) :
    firstKey m (A ++ { L with lockRecordNum := n } :: B) object = some key := by
  simp only [firstKey_append, firstKey_cons] at h ⊢
  cases hA : firstKey m A object with
  | some k => simpa [hA] using h
  | none =>
    simp only [hA, Option.none_or] at h ⊢
    split at h
    · exact absurd (Option.some.inj h).symm hk
    · cases hB : firstKey m B object with
      | some k =>
        rw [hB, Option.some_or, Option.some.injEq] at h
        obtain ⟨x, hx, hxk⟩ := exists_key_of_firstKey hB
        rw [if_neg (hL x hx (hxk.trans h)), h]
      | none =>
        rw [hB, Option.none_or] at h
        split at h
        · rename_i hm
          rw [if_pos hm]
          exact h
        · cases h

end FirstKey

/-- The invariant: the first record that a grant's object matches carries the grant's key. -/
structure ReleaseInv (m : Str → Str → Bool) (s : LockState) : Prop where
  numbered : Numbered s.file
  accounts : Accounts s.file s.grants
  first : ∀ g ∈ s.grants, firstKey m s.file g.object = some g.key

/-- What one step preserves if it keeps the first matches in front. -/
theorem LockEffect.releaseInv (h : LockEffect m s op s') (hi : ReleaseInv m s)
    (hok : StaysFirst m s op) : ReleaseInv m s' := by
  have hna := h.accounts hi.numbered hi.accounts
  refine ⟨hna.1, hna.2, ?_⟩
  cases h with
  | @adds file object env grants exclusive pid zid hf hu =>
    intro g hg
    rw [firstKey_append]
    rcases List.mem_cons.mp hg with rfl | hg
    · have hnone : firstKey m file object = none := by rw [firstKey, hf, Option.map_none]
      have hm : m object (newLock file object exclusive pid zid (getUniqueId env)).lockObject :=
        (hok.1 hf rfl).2
      simp only [hnone, Option.none_or, firstKey_cons]
      rw [if_pos hm, newLock_key hu]
    · rw [hi.first g hg]
      rfl
  | @joins A r B object key grants pid zid env hf hk =>
    intro g hg
    rw [firstKey_recount]
    rcases List.mem_cons.mp hg with rfl | hg
    · rw [firstKey, hf]
      rfl
    · exact hi.first g hg
  | leaves =>
    intro g hg
    rw [firstKey_recount]
    exact hi.first g (List.mem_of_mem_erase hg)
  | removesLast hf hc hg hk =>
    intro g' hg'
    have hne := hi.accounts.no_holder_left (firstMatch_mem hf) hc hg hk g' hg'
    exact firstKey_removesLast (hi.first g' (List.mem_of_mem_erase hg')) hne
  | @moves A r B L object grants g hf hA hc hg hk =>
    intro g' hg'
    have hne := hi.accounts.no_holder_left (firstMatch_mem hf) hc hg hk g' hg'
    have hmem := List.mem_of_mem_erase hg'
    refine firstKey_moves (hi.first g' hmem) hne ?_
    intro x hx hxk
    have hlast : (A ++ r :: (B ++ [L])).getLast? = some L := by
      rw [← List.cons_append, ← List.append_assoc, List.getLast?_concat]
    refine hok r L hf rfl hc hlast g' hmem x ?_ hxk
    rw [← hA]
    simpa using hx
  | nothing => exact hi.first

theorem LockReach.releaseInv (h : LockReach m (StaysFirst m) s) : ReleaseInv m s := by
  induction h with
  | empty =>
    refine ⟨?_, ⟨List.nodup_nil, by simp, by simp, by simp, by simp⟩, by simp⟩
    intro i r h
    simp at h
  | step op _ ho hok hs ih =>
    exact (hs.effect ih.numbered ih.accounts ho hok.drawsKey).releaseInv ih hok

theorem recordedCount_append (A B : LockFile) (key : Str) :
    recordedCount (A ++ B) key = recordedCount A key + recordedCount B key := by
  simp [recordedCount]

theorem recordedCount_cons (r : AdminLock) (B : LockFile) (key : Str) :
    recordedCount (r :: B) key = (if r.lockKey = key then r.lockCount else 0) +
      recordedCount B key := by
  by_cases h : r.lockKey = key <;> simp [recordedCount, h]

theorem recordedCount_decrement (hn : Numbered file) (hr : r ∈ file) (hp : 0 < r.lockCount)
    (key : Str) :
    recordedCount (decrementLockCount file r) key + (if r.lockKey = key then 1 else 0) =
      recordedCount file key := by
  obtain ⟨A, B, rfl, hA⟩ := hn.split hr
  by_cases hc : 1 < r.lockCount
  · rw [decrementLockCount_shared hA hc]
    simp only [recordedCount_append, recordedCount_cons]
    split <;> omega
  · rcases List.eq_nil_or_concat B with rfl | ⟨B, L, rfl⟩
    · rw [decrementLockCount_last hA (by omega)]
      simp only [recordedCount_append, recordedCount_cons, show recordedCount [] key = 0 from rfl]
      split <;> omega
    · rw [List.concat_eq_append, decrementLockCount_moves hA (by omega)]
      simp only [recordedCount_append, recordedCount_cons, show recordedCount [] key = 0 from rfl]
      split <;> split <;> omega

theorem ReleaseInv.releasable (hi : ReleaseInv m s) : Releasable m s := by
  intro g hg
  obtain ⟨r, hf, hk⟩ := Option.map_eq_some_iff.mp (hi.first g hg)
  have hr := firstMatch_mem hf
  have hcount := recordedCount_decrement hi.numbered hr (hi.accounts.positive r hr)
  refine ⟨r, hr, hk, ?_, ?_, ?_⟩
  · have hne : g.key ≠ [] := hk ▸ hi.accounts.keyed r hr
    simp [lockRelease, findLock_some hf, hne, hk]
  · have := hcount g.key
    rwa [if_pos hk] at this
  · intro key hkey
    have := hcount key
    rwa [if_neg (fun he => hkey (he.symm.trans hk)), Nat.add_zero] at this

theorem mem_of_mem_splitOnPPrepend (hs : t ∈ List.splitOnPPrepend p xs acc) (hc : c ∈ t) :
    c ∈ xs ∨ c ∈ acc := by
  induction xs generalizing acc with
  | nil =>
    rw [List.splitOnPPrepend_nil, List.mem_singleton] at hs
    exact .inr (List.mem_reverse.mp (hs ▸ hc))
  | cons x xs ih =>
    rw [List.splitOnPPrepend_cons_eq_if] at hs
    split at hs
    · rcases List.mem_cons.mp hs with rfl | hs
      · exact .inr (List.mem_reverse.mp hc)
      · rw [← List.splitOnPPrepend_nil_right] at hs
        rcases ih hs with h | h
        · exact .inl (List.mem_cons_of_mem _ h)
        · cases h
    · rcases ih hs with h | h
      · exact .inl (List.mem_cons_of_mem _ h)
      · rcases List.mem_cons.mp h with rfl | h
        · exact .inl List.mem_cons_self
        · exact .inr h

theorem mem_of_mem_lockNodes (hn : n ∈ lockNodes object) (hc : c ∈ n) : c ∈ object := by
  obtain ⟨t, ht, rfl⟩ := List.mem_map.mp hn
  have hs : t ∈ object.splitOn '/' := List.mem_of_mem_filter ht
  rcases mem_of_mem_splitOnPPrepend hs (List.mem_of_mem_take hc) with h | h
  · exact h
  · cases h

/-- A lock object with a node, without brackets and quoting, matches itself: a new record for it
is found again if it was stored whole. -/
theorem lockMatch_self (s2Init : Str → Str → Int) (hn : lockNodes object ≠ [])
    (hc : ∀ c ∈ object, c ≠ '[' ∧ c ≠ '\\') : lockMatch s2Init object object := by
  have hsame (n : Str) : sameNode n n := by
    rw [sameNode]
    split <;> simp
  have hanchor : findAnchor (lockNodes object) (lockNodes object) = some (0, 0) := by
    obtain ⟨n, ns, hns⟩ := List.exists_cons_of_ne_nil hn
    simp [findAnchor, hns, List.findIdx?_cons, hsame]
  have hnodes : ∀ p ∈ (lockNodes object).zip (lockNodes object),
      (fnmatch p.1 p.2 || fnmatch p.2 p.1) = true := by
    rintro ⟨n, n'⟩ hp
    have hzip : (lockNodes object).zip (lockNodes object) =
        (lockNodes object).map fun n => (n, n) := by
      simpa using List.zip_map' (f := id) (g := id) (l := lockNodes object)
    rw [hzip, List.mem_map] at hp
    obtain ⟨k, hk, he⟩ := hp
    simp only [Prod.mk.injEq] at he
    obtain ⟨rfl, rfl⟩ := he
    simp only [fnmatch_self fun c h => hc c (mem_of_mem_lockNodes hk h), Bool.or_self]
  simp only [lockMatch, hanchor, gt_iff_lt, Nat.lt_irrefl, and_self, if_false, skipSlashes,
    compareNodes]
  exact List.all_eq_true.mpr hnodes

end Pkgtools
