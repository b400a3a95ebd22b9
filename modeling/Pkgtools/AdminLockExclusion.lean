import Pkgtools.AdminLockRuns

namespace Pkgtools
open CLib
set_option autoImplicit true

def Conflict (m : Str → Str → Bool) (x y : Str) : Prop := m x y ∨ m y x

instance (m : Str → Str → Bool) (x y : Str) : Decidable (Conflict m x y) :=
  inferInstanceAs (Decidable (_ ∨ _))

/-- No exclusive grant coexists with another grant on a conflicting object. -/
def MutuallyExclusive (m : Str → Str → Bool) (grants : List Grant) : Prop :=
  grants.Pairwise fun g h => g.exclusive ∨ h.exclusive → ¬ Conflict m g.object h.object

instance (m : Str → Str → Bool) (grants : List Grant) : Decidable (MutuallyExclusive m grants) :=
  inferInstanceAs (Decidable (List.Pairwise _ _))

/-- A record for `y` keeps off whatever conflicts with `x`. -/
def Covers (m : Str → Str → Bool) (y x : Str) : Prop := ∀ z, Conflict m z x → Conflict m z y

/-- The grant an acquire is about to make is fully recorded: a new record has a key of its own, it
stores the whole object and no record it has to keep off matches it the other way round; a record
that is joined is shared, covers the object and can count one holder more. -/
def FullyRecorded (m : Str → Str → Bool) (s : LockState) : LockOp → Prop
  | .acquire object key exclusive _ _ env =>
    match firstMatch m s.file object with
    | none => key = [] → UniqueKey env s.file ∧ object.length < lockObjectMaxlen ∧
        ∀ r ∈ s.file, exclusive ∨ r.lockExclusive → ¬ m r.lockObject object
    | some r =>
      r.lockExclusive = exclusive ∧ (key = [] ∧ exclusive = false ∨ key = r.lockKey) →
        exclusive = false ∧ Covers m r.lockObject object ∧ r.lockCount + 1 < ulongMod
  | .release _ _ => True

theorem FullyRecorded.drawsKey (h : FullyRecorded m s op) : DrawsKey m s.file op := by
  cases op with
  | acquire object key exclusive pid zid env =>
    intro hf hk
    simp only [FullyRecorded, hf] at h
    exact (h hk).1
  | release => trivial

theorem Conflict.symm (h : Conflict m x y) : Conflict m y x := Or.symm h

theorem Covers.refl (m : Str → Str → Bool) (x : Str) : Covers m x x := fun _ h => h

def Inherits (file' file : LockFile) : Prop :=
  ∀ x ∈ file', ∃ y ∈ file, y.lockKey = x.lockKey ∧ y.lockExclusive = x.lockExclusive ∧
    y.lockObject = x.lockObject

section Inherits
variable {A B : LockFile} {r L : AdminLock} {n : Nat}

theorem inherits_recount : Inherits (A ++ { r with lockCount := n } :: B) (A ++ r :: B) := by
  intro x hx
  rcases List.mem_append.mp hx with hx | hx
  · exact ⟨x, List.mem_append_left _ hx, rfl, rfl, rfl⟩
  · rcases List.mem_cons.mp hx with rfl | hx
    · exact ⟨r, by simp, rfl, rfl, rfl⟩
    · exact ⟨x, List.mem_append_right _ (List.mem_cons_of_mem _ hx), rfl, rfl, rfl⟩

theorem inherits_front : Inherits A (A ++ B) :=
  fun x hx => ⟨x, List.mem_append_left _ hx, rfl, rfl, rfl⟩

theorem inherits_moves :
    Inherits (A ++ { L with lockRecordNum := n } :: B) (A ++ r :: (B ++ [L])) := by
  intro x hx
  rcases List.mem_append.mp hx with hx | hx
  · exact ⟨x, List.mem_append_left _ hx, rfl, rfl, rfl⟩
  · rcases List.mem_cons.mp hx with rfl | hx
    · exact ⟨L, by simp, rfl, rfl, rfl⟩
    · exact ⟨x, by simp [hx], rfl, rfl, rfl⟩

end Inherits

/-- The invariant: each grant is covered by the record that carries its key, and exclusive records
keep off all others. -/
structure ExclusionInv (m : Str → Str → Bool) (s : LockState) : Prop where
  numbered : Numbered s.file
  accounts : Accounts s.file s.grants
  covered : ∀ g ∈ s.grants, ∀ r ∈ s.file, r.lockKey = g.key → Covers m r.lockObject g.object
  apart : ∀ r ∈ s.file, ∀ x ∈ s.file, r.lockKey ≠ x.lockKey → r.lockExclusive ∨ x.lockExclusive →
    ¬ Conflict m r.lockObject x.lockObject
  exclusion : MutuallyExclusive m s.grants

/-- The part of the invariant about records survives a step that adds none. -/
theorem ExclusionInv.apart_inherit (hi : ExclusionInv m s) (h : Inherits file' s.file) :
    ∀ r ∈ file', ∀ x ∈ file', r.lockKey ≠ x.lockKey → r.lockExclusive ∨ x.lockExclusive →
      ¬ Conflict m r.lockObject x.lockObject := by
  intro r hr x hx hk he
  obtain ⟨r', hr', hrk, hre, hro⟩ := h r hr
  obtain ⟨x', hx', hxk, hxe, hxo⟩ := h x hx
  rw [← hro, ← hxo]
  exact hi.apart r' hr' x' hx' (by rw [hrk, hxk]; exact hk) (by rw [hre, hxe]; exact he)

theorem ExclusionInv.covered_inherit (hi : ExclusionInv m s) (h : Inherits file' s.file) :
    ∀ g ∈ s.grants, ∀ r ∈ file', r.lockKey = g.key → Covers m r.lockObject g.object := by
  intro g hg r hr hk
  obtain ⟨r', hr', hrk, -, hro⟩ := h r hr
  rw [← hro]
  exact hi.covered g hg r' hr' (hrk.trans hk)

theorem ExclusionInv.release {s : LockState} (hi : ExclusionInv m s)
    (hna : Numbered file' ∧ Accounts file' (s.grants.erase g)) (h : Inherits file' s.file) :
    ExclusionInv m ⟨file', s.grants.erase g⟩ where
  numbered := hna.1
  accounts := hna.2
  covered g hg := hi.covered_inherit h g (List.mem_of_mem_erase hg)
  apart := hi.apart_inherit h
  exclusion := hi.exclusion.sublist List.erase_sublist

theorem ExclusionInv.record_conflict (hi : ExclusionInv m s) (hg : g ∈ s.grants)
    (hc : Conflict m x g.object) :
    ∃ r ∈ s.file, r.lockKey = g.key ∧ r.lockExclusive = g.exclusive ∧
      Conflict m x r.lockObject := by
  obtain ⟨r, hr, hk, he⟩ := hi.accounts.held g hg
  exact ⟨r, hr, hk, he, hi.covered g hg r hr hk x hc⟩

theorem firstMatch_none (h : firstMatch m file object = none) :
    ∀ r ∈ file, m object r.lockObject = false := by
  intro r hr
  simpa using List.find?_eq_none.mp h r hr

theorem ExclusionInv.adds {file : LockFile} {exclusive : Bool}
    (hi : ExclusionInv m ⟨file, grants⟩) (hf : firstMatch m file object = none)
    (hu : UniqueKey env file)
    (hl : object.length < lockObjectMaxlen)
    (hsym : ∀ r ∈ file, exclusive ∨ r.lockExclusive → ¬ m r.lockObject object)
    (hna : Numbered (file ++ [newLock file object exclusive pid zid (getUniqueId env)]) ∧
      Accounts (file ++ [newLock file object exclusive pid zid (getUniqueId env)])
        (⟨object, getUniqueId env, exclusive⟩ :: grants)) :
    ExclusionInv m ⟨file ++ [newLock file object exclusive pid zid (getUniqueId env)],
      ⟨object, getUniqueId env, exclusive⟩ :: grants⟩ := by
  have hkey := newLock_key hu object exclusive pid zid
  have hobj : (newLock file object exclusive pid zid (getUniqueId env)).lockObject = object := by
    simp only [newLock, strlcpy]
    exact List.take_of_length_le (by omega)
  have hfree (r : AdminLock) (hr : r ∈ file) (he : exclusive ∨ r.lockExclusive) :
      ¬ Conflict m object r.lockObject := by
    rintro (h | h)
    · rw [firstMatch_none hf r hr] at h
      cases h
    · exact hsym r hr he h
  refine ⟨hna.1, hna.2, ?_, ?_, ?_⟩
  · intro g hg r hr hk
    rcases List.mem_append.mp hr with hr | hr
    · rcases List.mem_cons.mp hg with rfl | hg
      · exact absurd hk (hu.fresh r hr)
      · exact hi.covered g hg r hr hk
    · obtain rfl := List.mem_singleton.mp hr
      rcases List.mem_cons.mp hg with rfl | hg
      · rw [hobj]
        exact Covers.refl m _
      · -- an earlier grant cannot carry the new key
        obtain ⟨y, hy, hyk, -⟩ := hi.accounts.held g hg
        exact absurd (hyk.trans (hk.symm.trans hkey)) (hu.fresh y hy)
  · intro r hr x hx hk he
    rcases List.mem_append.mp hr with hr | hr <;> rcases List.mem_append.mp hx with hx | hx
    · exact hi.apart r hr x hx hk he
    · obtain rfl := List.mem_singleton.mp hx
      rw [hobj]
      exact fun hc => hfree r hr he.symm hc.symm
    · obtain rfl := List.mem_singleton.mp hr
      rw [hobj]
      exact hfree x hx he
    · rw [List.mem_singleton.mp hr, List.mem_singleton.mp hx] at hk
      exact absurd rfl hk
  · refine List.Pairwise.cons ?_ hi.exclusion
    intro g hg he hc
    obtain ⟨r, hr, -, hre, hrc⟩ := hi.record_conflict hg hc
    exact hfree r hr (by rw [hre]; exact he) hrc

theorem ExclusionInv.joins {A B : LockFile} (hi : ExclusionInv m ⟨A ++ r :: B, grants⟩)
    (hs : r.lockExclusive = false) (hc : Covers m r.lockObject object)
    (hna : Numbered (A ++ { r with lockCount := n } :: B) ∧
      Accounts (A ++ { r with lockCount := n } :: B)
        (⟨object, r.lockKey, r.lockExclusive⟩ :: grants)) :
    ExclusionInv m ⟨A ++ { r with lockCount := n } :: B,
      ⟨object, r.lockKey, r.lockExclusive⟩ :: grants⟩ := by
  have hr : r ∈ A ++ r :: B := by simp
  refine ⟨hna.1, hna.2, ?_, hi.apart_inherit inherits_recount, ?_⟩
  · intro g hg x hx hk
    rcases List.mem_cons.mp hg with rfl | hg
    · obtain ⟨y, hy, hyk, -, hyo⟩ := inherits_recount x hx
      rw [← hyo, hi.accounts.eq_of_key hy hr (hyk.trans hk)]
      exact hc
    · exact hi.covered_inherit inherits_recount g hg x hx hk
  · refine List.Pairwise.cons ?_ hi.exclusion
    intro g hg he hcon
    rw [hs] at he
    -- the exclusive grant's record would conflict with the record joined
    have h₁ : Conflict m r.lockObject g.object := (hc g.object hcon.symm).symm
    obtain ⟨y, hy, -, hye, hyc⟩ := hi.record_conflict hg h₁
    have hyx : y.lockExclusive = true := by
      rw [hye]
      simpa using he
    have hne : r.lockKey ≠ y.lockKey := by
      intro hk
      rw [← hi.accounts.eq_of_key hr hy hk, hs] at hyx
      cases hyx
    exact hi.apart r hr y hy hne (.inr hyx) hyc

/-- What one fully recorded step preserves. -/
theorem LockEffect.exclusion (h : LockEffect m s op s') (hi : ExclusionInv m s)
    (hok : FullyRecorded m s op) : ExclusionInv m s' := by
  have hna := h.accounts hi.numbered hi.accounts
  cases h with
  | adds hf hu =>
    simp only [FullyRecorded, hf, forall_const] at hok
    exact hi.adds hf hu hok.2.1 hok.2.2 hna
  | @joins A r B object key grants pid zid env hf hk =>
    simp only [FullyRecorded, hf, true_and] at hok
    have hk' : key = [] ∧ r.lockExclusive = false ∨ key = r.lockKey := hk
    exact hi.joins (hok hk').1 (hok hk').2.1 hna
  | leaves => exact hi.release hna inherits_recount
  | removesLast => exact hi.release hna inherits_front
  | moves => exact hi.release hna inherits_moves
  | nothing => exact hi

theorem exclusionInv_empty (m : Str → Str → Bool) : ExclusionInv m ⟨[], []⟩ where
  numbered := by intro i r h; simp at h
  accounts := ⟨List.nodup_nil, by simp, by simp, by simp, by simp⟩
  covered := by simp
  apart := by simp
  exclusion := List.Pairwise.nil

theorem LockReach.exclusionInv (h : LockReach m (FullyRecorded m) s) : ExclusionInv m s := by
  induction h with
  | empty => exact exclusionInv_empty m
  | step op _ ho hok hs ih =>
    exact (hs.effect ih.numbered ih.accounts ho hok.drawsKey).exclusion ih hok

end Pkgtools
