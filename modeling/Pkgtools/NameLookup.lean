import Pkgtools.NameCacheRuns
import Mathlib.Data.List.Forall2
import Mathlib.Data.List.Nodup

namespace Pkgtools
open CLib
set_option autoImplicit true

/-- The keys of a cache of `ncgrpw.c`: their bytes in memory, the hash function and the comparison.
The index of a key is that of a bucket, and only equal keys compare equal. -/
structure CacheKeys (K : Type) where
  encode : K → List Int8
  hfunc : List Int8 → Nat → Int → Option Int
  cfunc : List Int8 → List Int8 → Nat → Option Int
  bucket : K → Int
  hash_eq : ∀ k, hfunc (encode k) (encode k).length HASHSIZE = some (bucket k)
  range : ∀ k, 0 ≤ bucket k ∧ bucket k < HASHSIZE
  compare_eq : ∀ k k', ∃ d, cfunc (encode k) (encode k') (encode k').length = some d ∧
    (d = 0 ↔ k = k')

/-- Where a call finds memory: for the cache and its buckets, for the copy of the entry, for the
item, and for the array of the bucket. -/
structure LookupMem where
  cache : Bool
  buckets : Bool
  dup : Bool
  item : Bool
  array : Bool
  deriving DecidableEq, Repr

/-- The static variables of a function of `ncgrpw.c`, and the items that were allocated: the key of
the item at the address `p` and the fields of its data that were copied are the element `p`. -/
structure NameLookup (K C : Type) where
  cache : Option Cache
  isCache : Bool
  cacheFailed : Bool
  items : List (K × C)

/-- What a call returns: an entry as the databases give it, or the data of an item. What was not
copied into the latter lies in memory that the databases have used again since then. -/
inductive Reply (D C : Type) where
  | asked (d : D)
  | cached (c : C)
  deriving DecidableEq, Repr

section Functions
variable (keys : CacheKeys K)

def itemAt (items : List (K × C)) (p : Nat) : Item :=
  match items[p]? with
  | some it => ⟨keys.encode it.1, (keys.encode it.1).length⟩
  | none => ⟨[], 0⟩

namespace NameLookup
-- The entries of the files of the client, and of the running system.
variable (client system : K → Option D)
-- The fields of an entry that are copied, unless a pointer in it is NULL.
variable (copy : D → Option C)
variable (s : NameLookup K C) (a : LookupMem)

def start : NameLookup K C := ⟨none, false, false, []⟩

/-- `Attempt to initialize the cache.` It is attempted once. -/
def attempt : NameLookup K C :=
  if s.isCache = false ∧ s.cacheFailed = false then
    match initCache a.cache a.buckets HASHSIZE BSZ (some keys.hfunc) (some keys.cfunc) with
    | .error _ => { s with cache := none, cacheFailed := true }
    | .ok cp => { s with cache := some cp, isCache := true }
  else s

/-- `Insert the Item into the cache.` A failure is only reported. -/
def insert (k : K) (c : C) : Option (NameLookup K C) :=
  let items := s.items ++ [(k, c)]
  (addCache (itemAt keys items) a.array s.cache s.items.length).map fun r =>
    { s with cache := r.cache, items := items }

/-- `Failing that, do it the hard way.` -/
def retrieve (k : K) : Option (Option (Reply D C) × NameLookup K C) :=
  match (client k).or (system k) with
  | none => some (none, s)
  | some d =>
    match if a.dup then copy d else none with
    | none => some (none, s)
    | some c =>
      if s.isCache = true ∧ a.item = true then
        (s.insert keys a k c).map fun s => (some (.asked d), s)
      else some (some (.asked d), s)

/-- `First look in the cache.` -/
def search (k : K) : Option (Option (Reply D C) × NameLookup K C) :=
  match lookupCache (itemAt keys s.items) s.cache (keys.encode k) (keys.encode k).length with
  | none => none
  | some none => s.retrieve keys client system copy a k
  | some (some itemp) => s.items[itemp]?.map fun it => (some (.cached it.2), s)

/-- A call of `cgrnam`, `cpwnam`, `cgrgid` or `cpwuid`. -/
def lookup (k : K) : Option (Option (Reply D C) × NameLookup K C) :=
  (s.attempt keys a).search keys client system copy a k

def lookups : NameLookup K C → List (K × LookupMem) →
    Option (List (Option (Reply D C)) × NameLookup K C)
  | s, [] => some ([], s)
  | s, c :: calls =>
    match s.lookup keys client system copy c.2 c.1 with
    | none => none
    | some (r, s) => (lookups s calls).map fun rs => (r :: rs.1, rs.2)

end NameLookup

end Functions

/-- The parts of the cache that `add_cache` keeps. -/
structure CacheKeys.Shape (keys : CacheKeys K) (cp : Cache) : Prop where
  size : cp.hsz = HASHSIZE
  block : cp.bsz = BSZ
  hash : cp.hfunc = keys.hfunc
  compare : cp.cfunc = keys.cfunc
  length : cp.bp.length = HASHSIZE.toNat

/-- Each bucket of the cache holds the items whose keys have its index. -/
def CacheKeys.Hold (keys : CacheKeys K) (items : List (K × C)) (cp : Cache) : Prop :=
  ∀ i b, cp.bucketAt i = some b → ∃ live, b.Holds BSZ live ∧ live.length ≤ items.length ∧
    ∀ p, p ∈ live ↔ ∃ it, items[p]? = some it ∧ keys.bucket it.1 = i

/-- The key has this copy of what the databases say. -/
def CopyOf (client system : K → Option D) (copy : D → Option C) (k : K) (c : C) : Prop :=
  ∃ d, (client k).or (system k) = some d ∧ copy d = some c

/-- The cache has all items, which have copies of what the databases say, one item for a key. -/
structure NameLookup.Valid (keys : CacheKeys K) (client system : K → Option D)
    (copy : D → Option C) (s : NameLookup K C) : Prop where
  isCache : s.isCache = s.cache.isSome
  shape : ∀ cp, s.cache = some cp → keys.Shape cp
  buckets : ∀ cp, s.cache = some cp → keys.Hold s.items cp
  empty : s.cache = none → s.items = []
  values : ∀ it ∈ s.items, CopyOf client system copy it.1 it.2
  once : (s.items.map Prod.fst).Nodup

/-- What a call may return: what the databases say, as far as it was copied if it is from the cache,
or nothing when there is no entry or it cannot be copied. -/
inductive Answers (client system : K → Option D) (copy : D → Option C) :
    K × LookupMem → Option (Reply D C) → Prop where
  | unknown : (client k).or (system k) = none → Answers client system copy (k, a) none
  | uncopied : (client k).or (system k) = some d → a.dup = false ∨ copy d = none →
      Answers client system copy (k, a) none
  | asked : (client k).or (system k) = some d → Answers client system copy (k, a) (some (.asked d))
  | cached : CopyOf client system copy k c → Answers client system copy (k, a) (some (.cached c))

section Cached
variable {keys : CacheKeys K} {client system : K → Option D} {copy : D → Option C}
  {s : NameLookup K C} {a : LookupMem} {cp : Cache}

theorem itemAt_of_lt {items : List (K × C)} (h : p < items.length) :
    itemAt keys items p = ⟨keys.encode items[p].1, (keys.encode items[p].1).length⟩ := by
  rw [itemAt, List.getElem?_eq_getElem h]

theorem CacheKeys.Shape.bucketAt (h : keys.Shape cp) (k : K) :
    ∃ b, cp.bucketAt (keys.bucket k) = some b := by
  have hrange := keys.range k
  have hlt : (keys.bucket k).toNat < cp.bp.length := by
    rw [h.length]
    omega
  exact ⟨_, (if_pos hrange.1).trans (List.getElem?_eq_getElem hlt)⟩

theorem searchBucket_keys (keys : CacheKeys K) {bp : Bucket} {items : List (K × C)}
    (h : bp.Holds bsz live) (hlive : ∀ p ∈ live, p < items.length) (k : K)
    (hi : i + n = live.length) :
    ∃ r, bp.search (itemAt keys items) keys.cfunc (keys.encode k) (keys.encode k).length n i =
        some r ∧
      (∀ p, r = some p → ∃ it, items[p]? = some it ∧ it.1 = k) ∧
      (r = none → ∀ p ∈ live.drop i, ∀ it, items[p]? = some it → it.1 ≠ k) := by
  induction n generalizing i with
  | zero =>
    refine ⟨none, rfl, fun p hp => (by cases hp), fun _ p hp => ?_⟩
    rw [List.drop_of_length_le (by omega)] at hp
    cases hp
  | succ n ih =>
    have hlt : i < live.length := by omega
    have hslot : (bp.itempp.bind fun slots => slots[i]?.join) = some live[i] := by
      have hget := h.slots.getElem? hlt
      cases hs : bp.itempp with
      | none =>
        rw [hs] at hget
        cases hget
      | some slots =>
        rw [hs, Option.getD_some] at hget
        rw [Option.bind_some, hget, List.getElem?_eq_getElem hlt]
        rfl
    have hitem := hlive _ (List.getElem_mem hlt)
    obtain ⟨d, hd, hiff⟩ := keys.compare_eq items[live[i]].1 k
    rw [Bucket.search, hslot, Option.bind_some, itemAt_of_lt hitem, hd, Option.bind_some]
    by_cases hkey : items[live[i]].1 = k
    · refine ⟨some live[i], if_pos (hiff.mpr hkey), fun p hp => ?_, fun hnone => by cases hnone⟩
      cases hp
      exact ⟨_, List.getElem?_eq_getElem hitem, hkey⟩
    · rw [if_neg (mt hiff.mp hkey)]
      obtain ⟨r, hr, hfound, hno⟩ := ih (i := i + 1) (by omega)
      refine ⟨r, hr, hfound, fun hnone p hp it hit => ?_⟩
      rw [List.drop_eq_getElem_cons hlt] at hp
      rcases List.mem_cons.mp hp with rfl | hp
      · rw [List.getElem?_eq_getElem hitem] at hit
        cases hit
        exact hkey
      · exact hno hnone p hp it hit

theorem NameLookup.Valid.lookupCache (h : s.Valid keys client system copy) (k : K) :
    ∃ r, lookupCache (itemAt keys s.items) s.cache (keys.encode k) (keys.encode k).length =
        some r ∧
      (∀ p, r = some p → ∃ it, s.items[p]? = some it ∧ it.1 = k) ∧
      (r = none → k ∉ s.items.map Prod.fst) := by
  cases hcp : s.cache with
  | none =>
    refine ⟨none, rfl, fun p hp => (by cases hp), fun _ => ?_⟩
    rw [h.empty hcp]
    exact List.not_mem_nil
  | some cp =>
    have hshape := h.shape cp hcp
    obtain ⟨b, hb⟩ := hshape.bucketAt k
    obtain ⟨live, hholds, -, hlive⟩ := h.buckets cp hcp _ b hb
    have hlt : ∀ p ∈ live, p < s.items.length := fun p hp => by
      obtain ⟨it, hit, -⟩ := (hlive p).mp hp
      exact (List.getElem?_eq_some_iff.mp hit).1
    obtain ⟨r, hr, hfound, hno⟩ := searchBucket_keys keys hholds hlt k (Nat.zero_add live.length)
    refine ⟨r, ?_, hfound, fun hnone hmem => ?_⟩
    · rw [Pkgtools.lookupCache, hshape.hash, hshape.size, keys.hash_eq, Option.bind_some, hb,
        Option.bind_some, hshape.compare, hholds.nent]
      exact hr
    · obtain ⟨it, hit, hkey⟩ := List.mem_map.mp hmem
      obtain ⟨p, hp⟩ := List.mem_iff_getElem?.mp hit
      exact hno hnone p ((hlive p).mpr ⟨it, hp, by rw [hkey]⟩) it hp hkey

theorem Bucket.Holds.add_any {bp : Bucket} (h : bp.Holds BSZ live)
    (hfits : live.length + 4 < 2 ^ 31)
    (i : Int) (itemp : Nat) :
    ∃ err b, bp.add true BSZ i itemp = some (0, err, b) ∧ b.Holds BSZ (live ++ [itemp]) := by
  by_cases hfull : BSZ.toNat ∣ live.length
  · exact h.add_full (by decide) hfull (by rw [BSZ]; omega) i itemp
  · obtain ⟨b, hb⟩ := h.add_room hfull true i itemp
    exact ⟨[], b, hb⟩

theorem CacheKeys.Shape.setBucket (h : keys.Shape cp) (i : Int) (b : Bucket) :
    keys.Shape (cp.setBucket i b) :=
  ⟨h.size, h.block, h.hash, h.compare, List.length_set.trans h.length⟩

/-- The new item goes to the end of the bucket of its key. -/
theorem CacheKeys.Hold.setBucket {items : List (K × C)} (h : keys.Hold items cp)
    (hb : cp.bucketAt (keys.bucket k) = some b)
    (hadd : ∀ live, b.Holds BSZ live → live.length ≤ items.length →
      b'.Holds BSZ (live ++ [items.length])) (x : C) :
    keys.Hold (items ++ [(k, x)]) (cp.setBucket (keys.bucket k) b') := by
  intro i c hc
  have hold (p : Nat) (it : K × C) : (items ++ [(k, x)])[p]? = some it ↔
      items[p]? = some it ∨ p = items.length ∧ it = (k, x) := by
    rcases Nat.lt_trichotomy p items.length with hp | hp | hp
    · rw [List.getElem?_append_left hp, or_iff_left fun h => Nat.ne_of_lt hp h.1]
    · rw [hp, List.getElem?_concat_length, List.getElem?_eq_none (Nat.le_refl _)]
      simp [eq_comm]
    · rw [List.getElem?_eq_none (by simp; omega), List.getElem?_eq_none (Nat.le_of_lt hp)]
      simp [Nat.ne_of_gt hp]
  have hnew (p : Nat) : (∃ it, (items ++ [(k, x)])[p]? = some it ∧ keys.bucket it.1 = i) ↔
      (∃ it, items[p]? = some it ∧ keys.bucket it.1 = i) ∨
        p = items.length ∧ keys.bucket k = i := by
    constructor
    · rintro ⟨it, hit, hi⟩
      rcases (hold p it).mp hit with hit | ⟨hp, rfl⟩
      · exact .inl ⟨it, hit, hi⟩
      · exact .inr ⟨hp, hi⟩
    · rintro (⟨it, hit, hi⟩ | ⟨hp, hi⟩)
      · exact ⟨it, (hold p it).mpr (.inl hit), hi⟩
      · exact ⟨(k, x), (hold p _).mpr (.inr ⟨hp, rfl⟩), hi⟩
  by_cases hi : keys.bucket k = i
  · subst hi
    rw [Cache.bucketAt_setBucket_self hb] at hc
    cases hc
    obtain ⟨live, hholds, hlen, hlive⟩ := h _ b hb
    refine ⟨live ++ [items.length], hadd live hholds hlen, ?_, fun p => ?_⟩
    · rw [List.length_append, List.length_append]
      exact Nat.add_le_add_right hlen 1
    · rw [hnew, List.mem_append, List.mem_singleton, hlive, and_iff_left rfl]
  · rw [Cache.bucketAt_setBucket_other hb hi] at hc
    obtain ⟨live, hholds, hlen, hlive⟩ := h i c hc
    refine ⟨live, hholds, hlen.trans (by simp), fun p => ?_⟩
    rw [hnew, hlive, or_iff_left fun h => hi h.2]

theorem NameLookup.Valid.insert (h : s.Valid keys client system copy) (hcache : s.isCache = true)
    (harray : a.array = true) (hfits : s.items.length + 4 < 2 ^ 31)
    (hc : CopyOf client system copy k c) (hno : k ∉ s.items.map Prod.fst) :
    ∃ s', s.insert keys a k c = some s' ∧ s'.Valid keys client system copy ∧
      s'.items.length = s.items.length + 1 := by
  obtain ⟨cp, hcp⟩ := Option.isSome_iff_exists.mp (h.isCache.symm.trans hcache)
  have hshape := h.shape cp hcp
  obtain ⟨b, hb⟩ := hshape.bucketAt k
  obtain ⟨live, hholds, hlen, hlive⟩ := h.buckets cp hcp _ b hb
  obtain ⟨err, b', hadd, hholds'⟩ :=
    hholds.add_any (by omega) (keys.bucket k) s.items.length
  have hitem : itemAt keys (s.items ++ [(k, c)]) s.items.length =
      ⟨keys.encode k, (keys.encode k).length⟩ := by
    rw [itemAt, List.getElem?_concat_length]
  refine ⟨⟨some (cp.setBucket (keys.bucket k) b'), s.isCache, s.cacheFailed, s.items ++ [(k, c)]⟩,
    ?_, ⟨hcache, ?_, ?_, ?_, ?_, ?_⟩, ?_⟩
  · simp only [NameLookup.insert, hcp, addCache, hitem, hshape.hash, hshape.size, keys.hash_eq,
      Option.bind_some, hb, hshape.block, harray, hadd, Option.map_some]
  · rintro cp' hcp'
    cases hcp'
    exact hshape.setBucket _ _
  · rintro cp' hcp'
    cases hcp'
    refine (h.buckets cp hcp).setBucket hb (fun live' hlive' hlen' => ?_) c
    obtain ⟨err', b'', hadd', hholds''⟩ :=
      hlive'.add_any (by omega) (keys.bucket k) s.items.length
    rw [hadd] at hadd'
    cases hadd'
    exact hholds''
  · intro hnone
    cases hnone
  · intro it hit
    rcases List.mem_append.mp hit with hit | hit
    · exact h.values it hit
    · rw [List.mem_singleton.mp hit]
      exact hc
  · rw [List.map_append, List.map_singleton]
    refine List.Nodup.append h.once (List.nodup_singleton k) fun x hx hx' => hno ?_
    have hk : x = k := List.mem_singleton.mp hx'
    rwa [← hk]
  · rw [List.length_append, List.length_singleton]

theorem NameLookup.Valid.start :
    (NameLookup.start : NameLookup K C).Valid keys client system copy where
  isCache := rfl
  shape _ h := by cases h
  buckets _ h := by cases h
  empty _ := rfl
  values _ h := by cases h
  once := List.nodup_nil

theorem CacheKeys.hold_empty (keys : CacheKeys K) (hfunc cfunc) :
    keys.Hold ([] : List (K × C))
      ⟨HASHSIZE, BSZ, List.replicate HASHSIZE.toNat ⟨0, 0, none⟩, hfunc, cfunc⟩ := by
  intro i b hb
  have hempty : b = ⟨0, 0, none⟩ := by
    rw [Cache.bucketAt] at hb
    split at hb
    · exact List.eq_of_mem_replicate (List.mem_of_getElem? hb)
    · cases hb
  rw [hempty]
  refine ⟨[], Bucket.holds_empty (by decide), Nat.zero_le _, fun p => ?_⟩
  refine iff_of_false List.not_mem_nil ?_
  rintro ⟨it, hit, -⟩
  cases hit

theorem NameLookup.Valid.attempt (h : s.Valid keys client system copy) (a : LookupMem) :
    (s.attempt keys a).Valid keys client system copy ∧ (s.attempt keys a).items = s.items := by
  rw [NameLookup.attempt]
  split
  · rename_i hfirst
    have hnone : s.cache = none :=
      Option.isNone_iff_eq_none.mp (Option.isSome_eq_false_iff.mp (h.isCache.symm.trans hfirst.1))
    split
    · refine ⟨⟨hfirst.1, ?_, ?_, fun _ => h.empty hnone, h.values, h.once⟩, rfl⟩
      · rintro cp' hcp'
        cases hcp'
      · rintro cp' hcp'
        cases hcp'
    · rename_i cp hinit
      rw [initCache] at hinit
      split at hinit
      · cases hinit
      · split at hinit
        · cases hinit
        · cases hinit
          refine ⟨⟨rfl, ?_, ?_, fun _ => h.empty hnone, h.values, h.once⟩, rfl⟩
          · rintro cp' hcp'
            cases hcp'
            exact ⟨rfl, rfl, rfl, rfl, List.length_replicate⟩
          · rintro cp' hcp'
            cases hcp'
            rw [show ({ s with cache := _, isCache := true } : NameLookup K C).items = []
              from h.empty hnone]
            exact keys.hold_empty _ _
  · exact ⟨h, rfl⟩

/-- A call returns what the databases say, from the cache or from them, and keeps the cache. -/
theorem NameLookup.Valid.lookup (h : s.Valid keys client system copy) (harray : a.array = true)
    (hfits : s.items.length + 4 < 2 ^ 31) (k : K) :
    ∃ r s', s.lookup keys client system copy a k = some (r, s') ∧
      Answers client system copy (k, a) r ∧ s'.Valid keys client system copy ∧
      s'.items.length ≤ s.items.length + 1 := by
  obtain ⟨hvalid, hitems⟩ := h.attempt a
  rw [NameLookup.lookup, ← hitems]
  rw [← hitems] at hfits
  generalize s.attempt keys a = s at hvalid hfits
  obtain ⟨found, hfound, hkey, hno⟩ := hvalid.lookupCache k
  rw [NameLookup.search, hfound]
  cases found with
  | some p =>
    obtain ⟨it, hit, rfl⟩ := hkey p rfl
    refine ⟨some (.cached it.2), s, ?_, .cached ?_, hvalid, Nat.le_succ _⟩
    · simp only [hit, Option.map_some]
    · exact hvalid.values it (List.mem_of_getElem? hit)
  | none =>
    simp only
    rw [NameLookup.retrieve]
    cases hd : (client k).or (system k) with
    | none => exact ⟨none, s, rfl, .unknown hd, hvalid, Nat.le_succ _⟩
    | some d =>
      simp only
      cases hc : (if a.dup then copy d else none : Option C) with
      | none =>
        refine ⟨none, s, rfl, .uncopied hd ?_, hvalid, Nat.le_succ _⟩
        cases hdup : a.dup with
        | false => exact .inl rfl
        | true => exact .inr (by simpa [hdup] using hc)
      | some c =>
        have hcopy : copy d = some c := by
          cases hdup : a.dup with
          | false => simp [hdup] at hc
          | true => simpa [hdup] using hc
        simp only
        split
        · rename_i hcached
          obtain ⟨s', hs', hvalid', hlen⟩ :=
            hvalid.insert hcached.1 harray hfits ⟨d, hd, hcopy⟩ (hno rfl)
          refine ⟨some (.asked d), s', ?_, .asked hd, hvalid', hlen.le⟩
          rw [hs', Option.map_some]
        · exact ⟨some (.asked d), s, rfl, .asked hd, hvalid, Nat.le_succ _⟩

theorem NameLookup.Valid.lookups (h : s.Valid keys client system copy)
    (calls : List (K × LookupMem))
    (harray : ∀ c ∈ calls, c.2.array = true)
    (hfits : s.items.length + calls.length + 4 < 2 ^ 31) :
    ∃ rs s', s.lookups keys client system copy calls = some (rs, s') ∧
      List.Forall₂ (Answers client system copy) calls rs ∧ s'.Valid keys client system copy := by
  induction calls generalizing s with
  | nil => exact ⟨[], s, rfl, .nil, h⟩
  | cons c calls ih =>
    obtain ⟨hc, hcalls⟩ := List.forall_mem_cons.mp harray
    rw [List.length_cons] at hfits
    obtain ⟨r, s₁, hstep, hr, hvalid, hlen⟩ := h.lookup hc (by omega) c.1
    obtain ⟨rs, s₂, hrun, hrs, hvalid₂⟩ := ih hvalid hcalls (by omega)
    refine ⟨r :: rs, s₂, ?_, .cons hr hrs, hvalid₂⟩
    rw [NameLookup.lookups, hstep]
    simp only [hrun, Option.map_some]

end Cached

/-- In every run of calls that find memory for the arrays of the buckets each call returns what the
databases say, as far as it was copied if it is from the cache, or nothing when the entry cannot be
copied; and no key is ever stored twice. -/
theorem lookups_spec (keys : CacheKeys K) (client system : K → Option D) (copy : D → Option C)
    (calls : List (K × LookupMem)) (harray : ∀ c ∈ calls, c.2.array = true)
    (hfits : calls.length + 4 < 2 ^ 31) :
    ∃ rs s, NameLookup.start.lookups keys client system copy calls = some (rs, s) ∧
      List.Forall₂ (Answers client system copy) calls rs ∧ (s.items.map Prod.fst).Nodup ∧
      ∀ it ∈ s.items, CopyOf client system copy it.1 it.2 := by
  have hstart : (NameLookup.start : NameLookup K C).items.length + calls.length + 4 < 2 ^ 31 := by
    rw [NameLookup.start, List.length_nil, Nat.zero_add]
    exact hfits
  obtain ⟨rs, s, hrun, hrs, hvalid⟩ := NameLookup.Valid.start.lookups calls harray hstart
  exact ⟨rs, s, hrun, hrs, hvalid.once, hvalid.values⟩

/-- `*((uid_t *)datap)`, of a machine that stores the low byte first. -/
def readUid : List Int8 → Option (BitVec 32)
  | b₀ :: b₁ :: b₂ :: b₃ :: _ =>
    some (b₃.toBitVec ++ b₂.toBitVec ++ b₁.toBitVec ++ b₀.toBitVec)
  | _ => none

def uidBytes (uid : BitVec 32) : List Int8 :=
  [⟨⟨uid.extractLsb' 0 8⟩⟩, ⟨⟨uid.extractLsb' 8 8⟩⟩, ⟨⟨uid.extractLsb' 16 8⟩⟩,
    ⟨⟨uid.extractLsb' 24 8⟩⟩]

/-- `uid_hash`. A user number is unsigned, and so is the remainder. -/
def uidHash (datap : List Int8) (_datalen : Nat) (hsz : Int) : Option Int :=
  (readUid datap).map fun uid => ((uid.toNat % hsz.toNat : Nat) : Int)

/-- `uid_comp`. -/
def uidComp (datap₁ datap₂ : List Int8) (_datalen : Nat) : Option Int :=
  (readUid datap₁).bind fun uid₁ => (readUid datap₂).map fun uid₂ => (uid₁ - uid₂).toInt

theorem readUid_bytes (uid : BitVec 32) : readUid (uidBytes uid) = some uid := by
  have hjoin : uid.extractLsb' 24 8 ++ uid.extractLsb' 16 8 ++ uid.extractLsb' 8 8 ++
      uid.extractLsb' 0 8 = uid := by grind
  exact congrArg some hjoin

/-- The keys of `cgrgid` and `cpwuid`. The index of a number is never negative. -/
def uidKeys : CacheKeys (BitVec 32) where
  encode := uidBytes
  hfunc := uidHash
  cfunc := uidComp
  bucket uid := ((uid.toNat % HASHSIZE.toNat : Nat) : Int)
  hash_eq uid := by rw [uidHash, readUid_bytes, Option.map_some]
  range uid := by
    have hlt : uid.toNat % HASHSIZE.toNat < HASHSIZE.toNat := Nat.mod_lt _ (by decide)
    rw [HASHSIZE] at *
    omega
  compare_eq uid uid' := by
    refine ⟨(uid - uid').toInt, ?_, ?_⟩
    · rw [uidComp, readUid_bytes, readUid_bytes, Option.bind_some, Option.map_some]
    · rw [← BitVec.toInt_zero, BitVec.toInt_inj, BitVec.sub_eq_iff_eq_add, BitVec.zero_add]

/-- A name that `HASH` can index. -/
structure CacheName where
  nam : List Int8
  nulFree : 0 ∉ nam
  keyOk : KeyOk HASHSIZE (nam ++ [0])

/-- The keys of `cgrnam` and `cpwnam`, for which `init_cache` uses `HASH` and `BCMP`. -/
def nameKeys : CacheKeys CacheName where
  encode n := n.nam ++ [0]
  hfunc := HASH
  cfunc := BCMP
  bucket n := (charSum (n.nam ++ [0])).tmod HASHSIZE
  hash_eq n := by
    apply (HASH_iff (Nat.le_refl _)).mpr
    rw [List.take_length]
    exact ⟨n.keyOk.1, rfl⟩
  range n := n.keyOk.range (by decide)
  compare_eq n n' := by
    obtain ⟨d, hd, hiff⟩ := BCMP_append n.nulFree n'.nulFree []
    refine ⟨d, ?_, ?_⟩
    · rw [List.length_append, List.length_singleton]
      exact hd
    · rw [hiff, CacheName.mk.injEq]

section Callers

/-- `struct group`. -/
structure GroupEntry where
  name : Option Str
  passwd : Option Str
  gid : BitVec 32
  mem : Option (List Str)
  deriving DecidableEq, Repr

/-- The fields that `dup_gr_ent` copies. The members are copied too, but the new list is not put
into the entry: its `gr_mem` is still that of the database. -/
structure GroupCopy where
  name : Str
  passwd : Str
  gid : BitVec 32
  deriving DecidableEq, Repr

/-- `dup_gr_ent`, with memory for what it copies. -/
def dupGrEnt (grp : GroupEntry) : Option GroupCopy := do
  let name ← grp.name
  let passwd ← grp.passwd
  let _ ← grp.mem
  some ⟨name, passwd, grp.gid⟩

/-- `struct passwd`. -/
structure PasswdEntry where
  name : Option Str
  passwd : Option Str
  uid : BitVec 32
  gid : BitVec 32
  gecos : Option Str
  dir : Option Str
  shell : Option Str
  deriving DecidableEq, Repr

/-- `dup_pw_ent`, with memory for what it copies; all fields are. -/
def dupPwEnt (pwd : PasswdEntry) : Option PasswdEntry :=
  if pwd.name.isSome ∧ pwd.passwd.isSome ∧ pwd.gecos.isSome ∧ pwd.dir.isSome ∧ pwd.shell.isSome then
    some pwd
  else none

def cgrnam (clgrnam getgrnam : CacheName → Option GroupEntry) (s : NameLookup CacheName GroupCopy)
    (a : LookupMem) (nam : CacheName) :
    Option (Option (Reply GroupEntry GroupCopy) × NameLookup CacheName GroupCopy) :=
  s.lookup nameKeys clgrnam getgrnam dupGrEnt a nam

def cpwnam (clpwnam getpwnam : CacheName → Option PasswdEntry)
    (s : NameLookup CacheName PasswdEntry)
    (a : LookupMem) (nam : CacheName) :
    Option (Option (Reply PasswdEntry PasswdEntry) × NameLookup CacheName PasswdEntry) :=
  s.lookup nameKeys clpwnam getpwnam dupPwEnt a nam

def cgrgid (clgrgid getgrgid : BitVec 32 → Option GroupEntry) (s : NameLookup (BitVec 32) GroupCopy)
    (a : LookupMem) (gid : BitVec 32) :
    Option (Option (Reply GroupEntry GroupCopy) × NameLookup (BitVec 32) GroupCopy) :=
  s.lookup uidKeys clgrgid getgrgid dupGrEnt a gid

def cpwuid (clpwuid getpwuid : BitVec 32 → Option PasswdEntry)
    (s : NameLookup (BitVec 32) PasswdEntry)
    (a : LookupMem) (uid : BitVec 32) :
    Option (Option (Reply PasswdEntry PasswdEntry) × NameLookup (BitVec 32) PasswdEntry) :=
  s.lookup uidKeys clpwuid getpwuid dupPwEnt a uid

end Callers

def sampleGroup (name : String) (gid : BitVec 32) (mem : List String) : GroupEntry :=
  ⟨some name.toList, some [], gid, some (mem.map String.toList)⟩

def clientGroups (gid : BitVec 32) : Option GroupEntry :=
  if gid = 3 then some (sampleGroup "sys" 3 ["adm"])
  else if gid = 5 then some ⟨some "odd".toList, none, 5, some []⟩
  else none

def systemGroups (gid : BitVec 32) : Option GroupEntry :=
  if gid = 0 then some (sampleGroup "wheel" 0 ["root", "adm"]) else none

/-- Calls for groups of the client and the system, for one again, which is then in the cache, for
one that there is not, and for one that cannot be copied. -/
def groupCalls : List (BitVec 32 × LookupMem) :=
  [3, 0, 0, 7, 5].map fun gid => (gid, ⟨true, true, true, true, true⟩)

theorem lookups_spec_groups :
    ∃ rs s, NameLookup.start.lookups uidKeys clientGroups systemGroups dupGrEnt groupCalls =
        some (rs, s) ∧
      List.Forall₂ (Answers clientGroups systemGroups dupGrEnt) groupCalls rs ∧
      (s.items.map Prod.fst).Nodup ∧
      ∀ it ∈ s.items, CopyOf clientGroups systemGroups dupGrEnt it.1 it.2 :=
  lookups_spec uidKeys clientGroups systemGroups dupGrEnt groupCalls (by decide) (by decide)

example : (NameLookup.start.lookups uidKeys clientGroups systemGroups dupGrEnt groupCalls).map
    (fun r => r.1) = some [some (.asked (sampleGroup "sys" 3 ["adm"])),
      some (.asked (sampleGroup "wheel" 0 ["root", "adm"])),
      some (.cached ⟨"wheel".toList, [], 0⟩), none, none] := by
  decide +kernel

end Pkgtools
