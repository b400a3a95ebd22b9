import Mathlib.Data.List.Induction
import Pkgtools.NameCache

namespace Pkgtools
open CLib
set_option autoImplicit true

def CacheCall.bucket (heap : Nat → Item) (hsz : Int) (c : CacheCall) : Int :=
  bucketOf heap hsz c.itemp

/-- The calls whose items the bucket `i` takes: those from the first one on that finds memory for
an array. -/
def taken (heap : Nat → Item) (hsz : Int) (calls : List CacheCall) (i : Int) : List CacheCall :=
  (chain (CacheCall.bucket heap hsz) calls i).dropWhile fun c => !c.malloc

/-- When a bucket with items is full there is memory for a larger array, and its size is
an `int`. -/
def GrowthOk (heap : Nat → Item) (hsz bsz : Int) (calls : List CacheCall) : Prop :=
  ∀ (i : Int) (j : Nat) (c : CacheCall), (taken heap hsz calls i)[j]? = some c → 0 < j →
    bsz ∣ (j : Int) → c.malloc = true ∧ j + bsz < 2 ^ 31

/-- The cache works for the calls of `add_cache`, and for the looked-up keys `keys` and those of
the items: after each of the calls the first item that was added is found. -/
structure CacheRight (heap : Nat → Item) (cp : Cache) (calls : List CacheCall)
    (keys : List (List Int8)) : Prop where
  items : ∀ c ∈ calls, IndexOk cp (heap c.itemp).key (heap c.itemp).keyl
  lookups : ∀ k ∈ keys, IndexOk cp k k.length
  found : ∀ pre, pre <+: calls → ∃ added cp', addCalls heap cp pre = some (added, cp') ∧
    ((∀ c ∈ pre, c.malloc = true) → added = pre.map CacheCall.itemp) ∧
    ∀ k ∈ keys ++ calls.map fun c => (heap c.itemp).bytes,
      lookupCache heap cp' k k.length = some (added.find? fun p => (heap p).bytes = k)

section Taken
variable {heap : Nat → Item} {hsz bsz : Int} {calls pre : List CacheCall} {c : CacheCall} {i : Int}

theorem taken_concat_other (h : c.bucket heap hsz ≠ i) :
    taken heap hsz (calls ++ [c]) i = taken heap hsz calls i := by
  rw [taken, chain_concat_other h]
  rfl

theorem taken_concat_refused (h : c.bucket heap hsz = i) (hnil : taken heap hsz calls i = [])
    (hmalloc : c.malloc = false) : taken heap hsz (calls ++ [c]) i = [] := by
  rw [taken] at hnil
  rw [taken, chain_concat_same h, List.dropWhile_append, hnil, List.isEmpty_nil, if_pos rfl,
    List.dropWhile_cons_of_pos (by rw [hmalloc]; rfl)]
  rfl

theorem taken_concat_stored (h : c.bucket heap hsz = i)
    (hstored : taken heap hsz calls i ≠ [] ∨ c.malloc = true) :
    taken heap hsz (calls ++ [c]) i = taken heap hsz calls i ++ [c] := by
  rw [taken, chain_concat_same h, List.dropWhile_append, ← taken]
  cases ht : taken heap hsz calls i with
  | nil =>
    have hmalloc : c.malloc = true := hstored.resolve_left fun hne => hne ht
    rw [List.isEmpty_nil, if_pos rfl, List.dropWhile_cons_of_neg (by rw [hmalloc]; decide)]
    rfl
  | cons d t => rfl

theorem mem_of_mem_taken (h : c ∈ taken heap hsz calls i) : c ∈ calls :=
  (List.mem_filter.mp ((List.dropWhile_sublist _).subset h)).1

theorem taken_prefix (heap : Nat → Item) (hsz i : Int) (h : pre <+: calls) :
    taken heap hsz pre i <+: taken heap hsz calls i := by
  obtain ⟨post, rfl⟩ := h
  induction post using List.reverseRecOn with
  | nil => exact ⟨[], by rw [List.append_nil, List.append_nil]⟩
  | append_singleton post c ih =>
    refine ih.trans ?_
    rw [← List.append_assoc]
    by_cases hc : c.bucket heap hsz = i
    · by_cases hs : taken heap hsz (pre ++ post) i ≠ [] ∨ c.malloc = true
      · rw [taken_concat_stored hc hs]
        exact List.prefix_append _ _
      · obtain ⟨hnil, -⟩ := not_or.mp hs
        rw [Decidable.not_not.mp hnil]
        exact List.nil_prefix
    · exact ⟨[], by rw [List.append_nil, taken_concat_other hc]⟩

theorem GrowthOk.of_prefix (h : GrowthOk heap hsz bsz calls) (hpre : pre <+: calls) :
    GrowthOk heap hsz bsz pre := by
  intro i j c hc
  obtain ⟨post, hpost⟩ := taken_prefix heap hsz i hpre
  refine h i j c ?_
  rw [← hpost, List.getElem?_append_left (List.getElem?_eq_some_iff.mp hc).1]
  exact hc

/-- A call finds what it needs if its bucket is full. -/
def Takes (heap : Nat → Item) (hsz bsz : Int) (calls : List CacheCall) (c : CacheCall) : Prop :=
  taken heap hsz calls (c.bucket heap hsz) ≠ [] →
    bsz ∣ ((taken heap hsz calls (c.bucket heap hsz)).length : Int) →
    c.malloc = true ∧ (taken heap hsz calls (c.bucket heap hsz)).length + bsz < 2 ^ 31

theorem growthOk_concat : GrowthOk heap hsz bsz (calls ++ [c]) ↔
    GrowthOk heap hsz bsz calls ∧ Takes heap hsz bsz calls c := by
  constructor
  · intro h
    refine ⟨h.of_prefix (List.prefix_append _ _), ?_⟩
    intro hne hdvd
    have hlast := taken_concat_stored (c := c) rfl (.inl hne)
    refine h (c.bucket heap hsz) _ c ?_ (List.length_pos_iff.mpr hne) hdvd
    rw [hlast, List.getElem?_concat_length]
  · rintro ⟨h, htakes⟩ i j d hd hj hdvd
    by_cases hi : c.bucket heap hsz = i
    · subst hi
      by_cases hs : taken heap hsz calls (c.bucket heap hsz) ≠ [] ∨ c.malloc = true
      · rw [taken_concat_stored rfl hs] at hd
        rcases Nat.lt_or_ge j (taken heap hsz calls (c.bucket heap hsz)).length with hlt | hge
        · rw [List.getElem?_append_left hlt] at hd
          exact h _ j d hd hj hdvd
        · have hlen := (List.getElem?_eq_some_iff.mp hd).1
          rw [List.length_append, List.length_singleton] at hlen
          obtain rfl : j = (taken heap hsz calls (c.bucket heap hsz)).length := by omega
          rw [List.getElem?_concat_length] at hd
          obtain rfl := Option.some.inj hd
          exact htakes (List.length_pos_iff.mp hj) hdvd
      · obtain ⟨hnil, hmalloc⟩ := not_or.mp hs
        rw [taken_concat_refused rfl (Decidable.not_not.mp hnil) (by simpa using hmalloc)] at hd
        cases hd
    · rw [taken_concat_other hi] at hd
      exact h i j d hd hj hdvd

/-- With enough memory the buckets can grow as long as the number of items is an `int`. -/
theorem growthOk_of_malloc (hall : ∀ c ∈ calls, c.malloc = true)
    (hlen : calls.length + bsz ≤ 2 ^ 31) : GrowthOk heap hsz bsz calls := by
  intro i j c hc hj hdvd
  obtain ⟨hlt, hget⟩ := List.getElem?_eq_some_iff.mp hc
  have hle : (taken heap hsz calls i).length ≤ calls.length :=
    (List.dropWhile_sublist _).length_le.trans (List.length_filter_le _ _)
  refine ⟨hall c (mem_of_mem_taken (hget ▸ List.getElem_mem hlt)), ?_⟩
  omega

end Taken

/-- The parts of a cache that `add_cache` keeps. -/
structure Cache.Shape (hsz bsz : Int) (cp : Cache) : Prop where
  size : cp.hsz = hsz
  block : cp.bsz = bsz
  hash : cp.hfunc = HASH
  compare : cp.cfunc = BCMP
  length : cp.bp.length = hsz.toNat

/-- The cache after calls that found memory where they had to: each bucket holds the items that it
took, in the order of the calls. -/
structure Filled (heap : Nat → Item) (hsz bsz : Int) (calls : List CacheCall) (added : List Nat)
    (cp : Cache) : Prop where
  shape : cp.Shape hsz bsz
  buckets : ∀ i b, cp.bucketAt i = some b →
    b.Holds bsz ((taken heap hsz calls i).map CacheCall.itemp)
  order : ∀ i, chain (bucketOf heap hsz) added i = (taken heap hsz calls i).map CacheCall.itemp
  all : (∀ c ∈ calls, c.malloc = true) → added = calls.map CacheCall.itemp

def LostAt (heap : Nat → Item) (hsz bsz : Int) (itemp : Nat) (cp : Cache) : Prop :=
  cp.Shape hsz bsz ∧ ∃ b, cp.bucketAt (bucketOf heap hsz itemp) = some b ∧ b.Lost

section Runs
variable {heap : Nat → Item} {hsz bsz : Int} {cp : Cache} {calls : List CacheCall} {c : CacheCall}
  {added : List Nat} {k : List Int8}

theorem Cache.setBucket_shape (h : cp.Shape hsz bsz) (i : Int) (b : Bucket) :
    (cp.setBucket i b).Shape hsz bsz :=
  ⟨h.size, h.block, h.hash, h.compare, List.length_set.trans h.length⟩

theorem Cache.bucketAt_setBucket_self (h : cp.bucketAt i = some b) (b' : Bucket) :
    (cp.setBucket i b').bucketAt i = some b' := by
  unfold Cache.bucketAt at h ⊢
  split at h
  · rename_i hi
    rw [if_pos hi]
    exact List.getElem?_set_self (List.getElem?_eq_some_iff.mp h).1
  · cases h

theorem Cache.bucketAt_setBucket_other (h : cp.bucketAt i = some b) (hne : i ≠ j) (b' : Bucket) :
    (cp.setBucket i b').bucketAt j = cp.bucketAt j := by
  unfold Cache.bucketAt at h ⊢
  split at h
  · by_cases hj : 0 ≤ j
    · rw [if_pos hj, if_pos hj]
      exact List.getElem?_set_ne (by omega)
    · rw [if_neg hj, if_neg hj]
  · cases h

theorem Cache.Shape.bucketAt (h : cp.Shape hsz bsz) (h₀ : 0 ≤ i) (hi : i < hsz) :
    ∃ b, cp.bucketAt i = some b := by
  have hlt : i.toNat < cp.bp.length := by
    rw [h.length]
    omega
  exact ⟨cp.bp[i.toNat], (if_pos h₀).trans (List.getElem?_eq_getElem hlt)⟩

theorem KeyOk.range (h : KeyOk hsz k) (hpos : 0 < hsz) :
    0 ≤ (charSum k).tmod hsz ∧ (charSum k).tmod hsz < hsz :=
  ⟨(tmod_nonneg_iff _ _).mpr h.2, Int.tmod_lt_of_pos _ hpos⟩

theorem addStep_eq (h : cp.Shape hsz bsz) (hpos : 0 < hsz) (hitem : (heap c.itemp).Named)
    (hkey : KeyOk hsz (heap c.itemp).bytes) (added : List Nat) :
    ∃ b, cp.bucketAt (c.bucket heap hsz) = some b ∧
      addStep heap (added, some cp) c =
        (b.add c.malloc bsz (c.bucket heap hsz) c.itemp).map fun r =>
          (if r.1 = 0 then added ++ [c.itemp] else added,
            some (cp.setBucket (c.bucket heap hsz) r.2.2)) := by
  have hrange := hkey.range hpos
  obtain ⟨b, hb⟩ := h.bucketAt hrange.1 hrange.2
  have hhash : HASH (heap c.itemp).key (heap c.itemp).keyl hsz = some (c.bucket heap hsz) :=
    (HASH_iff hitem.1).mpr ⟨hkey.1, rfl⟩
  refine ⟨b, hb, ?_⟩
  rw [addStep, addCache, h.hash, h.size, hhash, Option.bind_some,
    show cp.bucketAt (c.bucket heap hsz) = some b from hb, Option.bind_some, h.block,
    Option.map_map]
  rfl

theorem lookupCache_eq (heap : Nat → Item) (h : cp.Shape hsz bsz) (hpos : 0 < hsz)
    (hkey : KeyOk hsz k) :
    ∃ b, cp.bucketAt ((charSum k).tmod hsz) = some b ∧
      lookupCache heap (some cp) k k.length =
        b.search heap BCMP k k.length b.nent.toNat 0 := by
  have hrange := hkey.range hpos
  obtain ⟨b, hb⟩ := h.bucketAt hrange.1 hrange.2
  have hhash : HASH k k.length hsz = some ((charSum k).tmod hsz) := by
    apply (HASH_iff (Nat.le_refl _)).mpr
    rw [List.take_length]
    exact ⟨hkey.1, rfl⟩
  refine ⟨b, hb, ?_⟩
  rw [lookupCache, h.hash, h.size, hhash, Option.bind_some, hb, Option.bind_some, h.compare]

theorem dvd_toNat (hb : 0 < bsz) (n : Nat) : bsz.toNat ∣ n ↔ bsz ∣ (n : Int) := by
  have hnat : (bsz.toNat : Int) = bsz := Int.toNat_of_nonneg (Int.le_of_lt hb)
  rw [← Int.natCast_dvd_natCast, hnat]

theorem Filled.update (h : Filled heap hsz bsz calls added cp)
    (hb : cp.bucketAt (c.bucket heap hsz) = some b)
    (hholds : b'.Holds bsz ((taken heap hsz (calls ++ [c]) (c.bucket heap hsz)).map
      CacheCall.itemp))
    (hsame : chain (bucketOf heap hsz) added' (c.bucket heap hsz) =
      (taken heap hsz (calls ++ [c]) (c.bucket heap hsz)).map CacheCall.itemp)
    (hother : ∀ i, c.bucket heap hsz ≠ i →
      chain (bucketOf heap hsz) added' i = chain (bucketOf heap hsz) added i)
    (hall : (∀ d ∈ calls ++ [c], d.malloc = true) → added' = (calls ++ [c]).map CacheCall.itemp) :
    Filled heap hsz bsz (calls ++ [c]) added' (cp.setBucket (c.bucket heap hsz) b') := by
  refine ⟨Cache.setBucket_shape h.shape _ _, ?_, ?_, hall⟩
  · intro i d hd
    by_cases hi : c.bucket heap hsz = i
    · subst hi
      rw [Cache.bucketAt_setBucket_self hb] at hd
      obtain rfl := Option.some.inj hd
      exact hholds
    · rw [Cache.bucketAt_setBucket_other hb hi] at hd
      rw [taken_concat_other hi]
      exact h.buckets i d hd
  · intro i
    by_cases hi : c.bucket heap hsz = i
    · subst hi
      exact hsame
    · rw [hother i hi, taken_concat_other hi]
      exact h.order i

theorem Filled.stored (h : Filled heap hsz bsz calls added cp)
    (hb : cp.bucketAt (c.bucket heap hsz) = some b)
    (hholds : b'.Holds bsz ((taken heap hsz calls (c.bucket heap hsz)).map CacheCall.itemp ++
      [c.itemp]))
    (hstored : taken heap hsz calls (c.bucket heap hsz) ≠ [] ∨ c.malloc = true) :
    Filled heap hsz bsz (calls ++ [c]) (added ++ [c.itemp])
      (cp.setBucket (c.bucket heap hsz) b') := by
  have hitems : (taken heap hsz (calls ++ [c]) (c.bucket heap hsz)).map CacheCall.itemp =
      (taken heap hsz calls (c.bucket heap hsz)).map CacheCall.itemp ++ [c.itemp] := by
    rw [taken_concat_stored rfl hstored, List.map_append]
    rfl
  refine h.update hb (by rwa [hitems]) ?_ (fun i hi => chain_concat_other hi) ?_
  · have hbucket : bucketOf heap hsz c.itemp = c.bucket heap hsz := rfl
    rw [chain_concat_same hbucket, hitems, h.order]
  · intro hall
    rw [h.all fun d hd => hall d (List.mem_append_left _ hd), List.map_append]
    rfl

theorem Filled.refused (h : Filled heap hsz bsz calls added cp)
    (hb : cp.bucketAt (c.bucket heap hsz) = some b) (hholds : b'.Holds bsz [])
    (hnil : taken heap hsz calls (c.bucket heap hsz) = []) (hmalloc : c.malloc = false) :
    Filled heap hsz bsz (calls ++ [c]) added (cp.setBucket (c.bucket heap hsz) b') := by
  have hnil' := taken_concat_refused rfl hnil hmalloc
  refine h.update hb (by rwa [hnil']) ?_ (fun i _ => rfl) ?_
  · rw [h.order, hnil, hnil']
  · intro hall
    have htrue := hall c (List.mem_append_right _ List.mem_cons_self)
    rw [hmalloc] at htrue
    cases htrue

/-- A call that finds memory where it has to keeps the buckets in order. -/
theorem Filled.step (h : Filled heap hsz bsz calls added cp) (hpos : 0 < hsz) (hb : 0 < bsz)
    (hb' : bsz < 2 ^ 31) (hitem : (heap c.itemp).Named) (hkey : KeyOk hsz (heap c.itemp).bytes)
    (htakes : Takes heap hsz bsz calls c) :
    ∃ added' cp', addStep heap (added, some cp) c = some (added', some cp') ∧
      Filled heap hsz bsz (calls ++ [c]) added' cp' := by
  obtain ⟨b, hat, hstep⟩ := addStep_eq h.shape hpos hitem hkey added
  have hholds := h.buckets _ b hat
  have hlen : ((taken heap hsz calls (c.bucket heap hsz)).map CacheCall.itemp).length =
      (taken heap hsz calls (c.bucket heap hsz)).length := List.length_map _
  rw [hstep]
  by_cases hfull : bsz.toNat ∣ ((taken heap hsz calls (c.bucket heap hsz)).map
      CacheCall.itemp).length
  · have hdvd : bsz ∣ ((taken heap hsz calls (c.bucket heap hsz)).length : Int) := by
      rwa [hlen, dvd_toNat hb] at hfull
    by_cases hnil : taken heap hsz calls (c.bucket heap hsz) = []
    · rw [hnil] at hholds
      cases hmalloc : c.malloc with
      | false =>
        obtain ⟨err, b', hadd, hb'⟩ := hholds.add_refused (c.bucket heap hsz) c.itemp
        rw [hadd]
        exact ⟨_, _, rfl, h.refused hat hb' hnil hmalloc⟩
      | true =>
        obtain ⟨err, b', hadd, hb'⟩ := hholds.add_full hb ⟨0, rfl⟩ (by simpa using hb')
          (c.bucket heap hsz) c.itemp
        rw [hadd]
        refine ⟨_, _, rfl, h.stored hat ?_ (.inr hmalloc)⟩
        rw [hnil]
        exact hb'
    · obtain ⟨hmalloc, hfits⟩ := htakes hnil hdvd
      obtain ⟨err, b', hadd, hb'⟩ := hholds.add_full hb hfull (by rwa [hlen])
        (c.bucket heap hsz) c.itemp
      rw [hmalloc, hadd]
      exact ⟨_, _, rfl, h.stored hat hb' (.inl hnil)⟩
  · obtain ⟨b', hadd, hb'⟩ := hholds.add_room hfull c.malloc (c.bucket heap hsz) c.itemp
    have hne : taken heap hsz calls (c.bucket heap hsz) ≠ [] := by
      intro hnil
      rw [hnil] at hfull
      exact hfull ⟨0, rfl⟩
    rw [hadd]
    exact ⟨_, _, rfl, h.stored hat hb' (.inl hne)⟩

theorem Filled.step_lost (h : Filled heap hsz bsz calls added cp) (hpos : 0 < hsz) (hb : 0 < bsz)
    (hitem : (heap c.itemp).Named) (hkey : KeyOk hsz (heap c.itemp).bytes)
    (hbad : ¬ Takes heap hsz bsz calls c) (hstep : addStep heap (added, some cp) c = some s) :
    ∃ cp', s.2 = some cp' ∧ LostAt heap hsz bsz c.itemp cp' := by
  obtain ⟨b, hat, heq⟩ := addStep_eq h.shape hpos hitem hkey added
  rw [heq] at hstep
  obtain ⟨r, hadd, rfl⟩ := Option.map_eq_some_iff.mp hstep
  unfold Takes at hbad
  push Not at hbad
  obtain ⟨hne, hdvd, hmem⟩ := hbad
  have hlen : ((taken heap hsz calls (c.bucket heap hsz)).map CacheCall.itemp).length =
      (taken heap hsz calls (c.bucket heap hsz)).length := List.length_map _
  have hlost := (h.buckets _ b hat).add_lost (mt List.map_eq_nil_iff.mp hne)
    (by rwa [hlen, dvd_toNat hb])
      (by rw [hlen]; exact fun hm => absurd hm.2 (hmem hm.1).not_gt) hadd
  exact ⟨_, rfl, Cache.setBucket_shape h.shape _ _, _, Cache.bucketAt_setBucket_self hat _, hlost⟩

theorem LostAt.step (h : LostAt heap hsz bsz p cp) (hpos : 0 < hsz)
    (hitem : (heap c.itemp).Named) (hkey : KeyOk hsz (heap c.itemp).bytes)
    (hstep : addStep heap (added, some cp) c = some s) :
    ∃ cp', s.2 = some cp' ∧ LostAt heap hsz bsz p cp' := by
  obtain ⟨hshape, lost, hat', hlost⟩ := h
  obtain ⟨b, hat, heq⟩ := addStep_eq hshape hpos hitem hkey added
  rw [heq] at hstep
  obtain ⟨r, hadd, rfl⟩ := Option.map_eq_some_iff.mp hstep
  refine ⟨_, rfl, Cache.setBucket_shape hshape _ _, ?_⟩
  by_cases hsame : c.bucket heap hsz = bucketOf heap hsz p
  · rw [← hsame] at hat' ⊢
    obtain rfl := Option.some.inj (hat'.symm.trans hat)
    exact ⟨_, Cache.bucketAt_setBucket_self hat _, hlost.add hadd⟩
  · exact ⟨lost, (Cache.bucketAt_setBucket_other hat hsame _).trans hat', hlost⟩

theorem LostAt.lookup (h : LostAt heap hsz bsz p cp) (hpos : 0 < hsz)
    (hkey : KeyOk hsz (heap p).bytes) :
    lookupCache heap (some cp) (heap p).bytes (heap p).bytes.length = none := by
  obtain ⟨hshape, lost, hat', hlost⟩ := h
  obtain ⟨b, hat, heq⟩ := lookupCache_eq heap hshape hpos hkey
  obtain rfl := Option.some.inj (hat'.symm.trans hat)
  rw [heq]
  exact hlost.search heap BCMP _ _

/-- A lookup returns the first item that was added with the key. -/
theorem Filled.lookup (h : Filled heap hsz bsz calls added cp) (hpos : 0 < hsz)
    (hitems : ∀ c ∈ calls, (heap c.itemp).Named) (hname : IsName k) (hkey : KeyOk hsz k) :
    lookupCache heap (some cp) k k.length =
      some (added.find? fun p => (heap p).bytes = k) := by
  obtain ⟨b, hat, heq⟩ := lookupCache_eq heap h.shape hpos hkey
  have hnamed : ∀ p ∈ (taken heap hsz calls ((charSum k).tmod hsz)).map CacheCall.itemp,
      (heap p).Named := by
    intro p hp
    obtain ⟨c, hc, rfl⟩ := List.mem_map.mp hp
    exact hitems c (mem_of_mem_taken hc)
  rw [heq, (h.buckets _ b hat).search hnamed hname, ← h.order, find?_chain]
  intro p hp
  rw [bucketOf, hp]

theorem addCalls_concat (heap : Nat → Item) (cp : Cache) (calls : List CacheCall) (c : CacheCall) :
    addCalls heap cp (calls ++ [c]) =
      (addCalls heap cp calls).bind fun s => addStep heap s c := by
  rw [addCalls, List.foldlM_append]
  simp only [List.foldlM_cons, List.foldlM_nil, bind_pure]
  rfl

theorem filled_init (hinit : initCache cacheMem bucketMem hsz bsz none none = .ok cp)
    (hb : 0 < bsz) (heap : Nat → Item) : Filled heap hsz bsz [] [] cp := by
  rw [initCache] at hinit
  split at hinit
  · cases hinit
  split at hinit
  · cases hinit
  cases hinit
  refine ⟨⟨rfl, rfl, rfl, rfl, List.length_replicate⟩, ?_, fun i => rfl, fun _ => rfl⟩
  intro i b hat
  unfold Cache.bucketAt at hat
  split at hat
  · obtain ⟨hlt, hget⟩ := List.getElem?_eq_some_iff.mp hat
    rw [List.getElem_replicate] at hget
    rw [← hget]
    exact Bucket.holds_empty hb
  · cases hat

/-- Calls that find memory where they have to leave the buckets in order. -/
theorem addCalls_filled (hinit : Filled heap hsz bsz [] [] cp) (hpos : 0 < hsz) (hb : 0 < bsz)
    (hb' : bsz < 2 ^ 31) (hitems : ∀ c ∈ calls, (heap c.itemp).Named)
    (hkeys : ∀ c ∈ calls, KeyOk hsz (heap c.itemp).bytes) (hg : GrowthOk heap hsz bsz calls) :
    ∃ added cp', addCalls heap cp calls = some (added, some cp') ∧
      Filled heap hsz bsz calls added cp' := by
  induction calls using List.reverseRecOn with
  | nil => exact ⟨[], cp, rfl, hinit⟩
  | append_singleton calls c ih =>
    obtain ⟨hbefore, htakes⟩ := growthOk_concat.mp hg
    have hc : c ∈ calls ++ [c] := List.mem_append_right _ List.mem_cons_self
    obtain ⟨added, cp₁, hrun, hfilled⟩ := ih
      (fun d hd => hitems d (List.mem_append_left _ hd))
      (fun d hd => hkeys d (List.mem_append_left _ hd)) hbefore
    obtain ⟨added', cp', hstep, hfilled'⟩ :=
      hfilled.step hpos hb hb' (hitems c hc) (hkeys c hc) htakes
    refine ⟨added', cp', ?_, hfilled'⟩
    rw [addCalls_concat, hrun]
    exact hstep

/-- Otherwise the bucket of an item is lost, if the calls come to an end. -/
theorem addCalls_lost (hinit : Filled heap hsz bsz [] [] cp) (hpos : 0 < hsz) (hb : 0 < bsz)
    (hb' : bsz < 2 ^ 31) (hitems : ∀ c ∈ calls, (heap c.itemp).Named)
    (hkeys : ∀ c ∈ calls, KeyOk hsz (heap c.itemp).bytes) (hg : ¬ GrowthOk heap hsz bsz calls)
    (hrun : addCalls heap cp calls = some s) :
    ∃ c ∈ calls, ∃ cp', s.2 = some cp' ∧ LostAt heap hsz bsz c.itemp cp' := by
  induction calls using List.reverseRecOn generalizing s with
  | nil =>
    refine absurd ?_ hg
    intro i j c hc
    cases hc
  | append_singleton calls c ih =>
    have hc : c ∈ calls ++ [c] := List.mem_append_right _ List.mem_cons_self
    have hitems' : ∀ d ∈ calls, (heap d.itemp).Named :=
      fun d hd => hitems d (List.mem_append_left _ hd)
    have hkeys' : ∀ d ∈ calls, KeyOk hsz (heap d.itemp).bytes :=
      fun d hd => hkeys d (List.mem_append_left _ hd)
    rw [addCalls_concat] at hrun
    obtain ⟨⟨added, cp₁⟩, hbefore, hstep⟩ := Option.bind_eq_some_iff.mp hrun
    by_cases hok : GrowthOk heap hsz bsz calls
    · have hbad : ¬ Takes heap hsz bsz calls c := fun ht => hg (growthOk_concat.mpr ⟨hok, ht⟩)
      obtain ⟨added', cp', hrun', hfilled⟩ :=
        addCalls_filled hinit hpos hb hb' hitems' hkeys' hok
      obtain ⟨rfl, rfl⟩ := Prod.mk.inj (Option.some.inj (hbefore.symm.trans hrun'))
      obtain ⟨cp₂, hcp₂, hlost⟩ :=
        hfilled.step_lost hpos hb (hitems c hc) (hkeys c hc) hbad hstep
      exact ⟨c, hc, cp₂, hcp₂, hlost⟩
    · obtain ⟨d, hd, cp', rfl, hlost⟩ := ih hitems' hkeys' hok hbefore
      obtain ⟨cp₂, hcp₂, hlost'⟩ := hlost.step hpos (hitems c hc) (hkeys c hc) hstep
      exact ⟨d, List.mem_append_left _ hd, cp₂, hcp₂, hlost'⟩

/-- Exactly when the cache works: the sum of the bytes of each key stays an `int` and is not
negative or is a multiple of the number of buckets, and a full bucket finds memory for a larger
array. -/
theorem cacheRight_iff (heap : Nat → Item) (calls : List CacheCall) (keys : List (List Int8))
    (hinit : initCache cacheMem bucketMem hsz bsz none none = .ok cp) (hpos : 0 < hsz)
    (hb : 0 < bsz) (hb' : bsz < 2 ^ 31) (hitems : ∀ c ∈ calls, (heap c.itemp).Named)
    (hnames : ∀ k ∈ keys, IsName k) :
    CacheRight heap cp calls keys ↔
      (∀ k ∈ keys ++ calls.map fun c => (heap c.itemp).bytes, KeyOk hsz k) ∧
        GrowthOk heap hsz bsz calls := by
  have hempty := filled_init hinit hb heap
  have hsize := hempty.shape.size
  have hindex {mem : List Int8} {n : Nat} (hn : n ≤ mem.length) :
      IndexOk cp mem n ↔ KeyOk hsz (mem.take n) := by
    rw [indexOk_iff hempty.shape.hash (hsize.symm ▸ hpos) hn, hsize]
  have hmem : ∀ c ∈ calls, (heap c.itemp).bytes ∈
      keys ++ calls.map fun c => (heap c.itemp).bytes := fun c hc =>
    List.mem_append_right _ (List.mem_map_of_mem hc)
  constructor
  · rintro ⟨hitemsOk, hlookups, hfound⟩
    have hkeys : ∀ k ∈ keys ++ calls.map fun c => (heap c.itemp).bytes, KeyOk hsz k := by
      intro k hk
      rcases List.mem_append.mp hk with hk | hk
      · have hok := (hindex (Nat.le_refl _)).mp (hlookups k hk)
        rwa [List.take_length] at hok
      · obtain ⟨c, hc, rfl⟩ := List.mem_map.mp hk
        exact (hindex (hitems c hc).1).mp (hitemsOk c hc)
    refine ⟨hkeys, ?_⟩
    by_contra hg
    obtain ⟨added, cp', hrun, -, hlookup⟩ := hfound calls List.prefix_rfl
    obtain ⟨c, hc, cp₁, rfl, hlost⟩ := addCalls_lost hempty hpos hb hb' hitems
      (fun c hc => hkeys _ (hmem c hc)) hg hrun
    have hnone := hlost.lookup hpos (hkeys _ (hmem c hc))
    rw [hlookup _ (hmem c hc)] at hnone
    cases hnone
  · rintro ⟨hkeys, hg⟩
    refine ⟨fun c hc => (hindex (hitems c hc).1).mpr (hkeys _ (hmem c hc)), fun k hk => ?_, ?_⟩
    · apply (hindex (Nat.le_refl _)).mpr
      rw [List.take_length]
      exact hkeys k (List.mem_append_left _ hk)
    · intro pre hpre
      have hpre' : ∀ c ∈ pre, c ∈ calls := fun c hc => hpre.subset hc
      obtain ⟨added, cp', hrun, hfilled⟩ := addCalls_filled hempty hpos hb hb'
        (fun c hc => hitems c (hpre' c hc)) (fun c hc => hkeys _ (hmem c (hpre' c hc)))
        (hg.of_prefix hpre)
      refine ⟨added, some cp', hrun, hfilled.all, ?_⟩
      intro k hk
      have hname : IsName k := by
        rcases List.mem_append.mp hk with hk | hk
        · exact hnames k hk
        · obtain ⟨c, hc, rfl⟩ := List.mem_map.mp hk
          exact (hitems c hc).2
      exact hfilled.lookup hpos (fun c hc => hitems c (hpre' c hc)) hname (hkeys k hk)

end Runs

/-- Five anagrams, which have one bucket. -/
def anagrams (p : Nat) : Item :=
  match p with
  | 0 => ⟨[98, 105, 110, 0], 4⟩
  | 1 => ⟨[98, 110, 105, 0], 4⟩
  | 2 => ⟨[105, 98, 110, 0], 4⟩
  | 3 => ⟨[105, 110, 98, 0], 4⟩
  | _ => ⟨[110, 105, 98, 0], 4⟩

theorem anagrams_named (p : Nat) : (anagrams p).Named := by
  match p with
  | 0 => exact ⟨by decide, [98, 105, 110], by decide, rfl⟩
  | 1 => exact ⟨by decide, [98, 110, 105], by decide, rfl⟩
  | 2 => exact ⟨by decide, [105, 98, 110], by decide, rfl⟩
  | 3 => exact ⟨by decide, [105, 110, 98], by decide, rfl⟩
  | _ + 4 => exact ⟨Nat.le_refl 4, [110, 105, 98], by decide, rfl⟩

/-- The bucket of the anagrams grows for the last one. -/
theorem cacheRight_iff_anagrams : ∃ cp, initCache true true HASHSIZE BSZ none none = .ok cp ∧
    CacheRight anagrams cp [⟨0, true⟩, ⟨1, true⟩, ⟨2, true⟩, ⟨3, true⟩, ⟨4, true⟩]
      [[110, 98, 105, 0]] := by
  have hinit : initCache true true HASHSIZE BSZ none none = .ok _ := rfl
  have hpos : 0 < HASHSIZE := by decide
  have hb : 0 < BSZ ∧ BSZ < 2 ^ 31 := by decide
  refine ⟨_, hinit, (cacheRight_iff anagrams _ _ hinit hpos hb.1 hb.2
    (fun c _ => anagrams_named c.itemp) ?_).mpr ⟨?_, growthOk_of_malloc (by decide) (by decide)⟩⟩
  · intro k hk
    rw [List.mem_singleton.mp hk]
    exact ⟨[110, 98, 105], by decide, rfl⟩
  · unfold KeyOk SumFits
    decide

/-- The hash of a name with the byte 0xE9 is negative. Without memory for a larger array all items
of a bucket are lost. -/
theorem hash_negative : ∃ cp, initCache true true HASHSIZE BSZ none none = .ok cp ∧
    IsName [-23, 0] ∧ cp.hfunc [-23, 0] 2 cp.hsz = some (-23) ∧
    lookupCache anagrams (some cp) [-23, 0] 2 = none ∧
    ¬ CacheRight anagrams cp [] [[-23, 0]] ∧
    (addCalls anagrams cp [⟨0, true⟩, ⟨1, true⟩, ⟨2, true⟩, ⟨3, true⟩, ⟨4, false⟩]).map
      Prod.fst = some [0, 1, 2, 3] ∧
    ((addCalls anagrams cp [⟨0, true⟩, ⟨1, true⟩, ⟨2, true⟩, ⟨3, true⟩, ⟨4, false⟩]).bind
      fun s => lookupCache anagrams s.2 [98, 105, 110, 0] 4) = none := by
  refine ⟨_, rfl, ⟨[-23], by decide, rfl⟩, by decide, by decide, ?_, by decide +kernel,
    by decide +kernel⟩
  rintro ⟨-, hlookups, -⟩
  obtain ⟨i, hi, h₀, -⟩ := hlookups [-23, 0] List.mem_cons_self
  have hneg : HASH [-23, 0] 2 151 = some (-23) := by decide
  obtain rfl := Option.some.inj (hneg.symm.trans hi)
  exact absurd h₀ (by decide)

end Pkgtools
