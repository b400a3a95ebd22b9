import Pkgtools.CLib.Chains
import Pkgtools.StreamHeader

namespace Pkgtools
open CLib
set_option autoImplicit true

/-- `Item`, without its data: the memory from the key on, and the length of the key. -/
structure Item where
  key : List Int8
  keyl : Nat
  deriving DecidableEq, Repr

/-- `Bucket`. A slot of the array that nothing was stored into is `none`. -/
structure Bucket where
  nent : Int
  nalloc : Int
  itempp : Option (List (Option Nat))
  deriving DecidableEq, Repr

/-- `Cache`. Its functions have no result where C leaves their behaviour undefined. -/
structure Cache where
  hsz : Int
  bsz : Int
  bp : List Bucket
  hfunc : List Int8 → Nat → Int → Option Int
  cfunc : List Int8 → List Int8 → Nat → Option Int

/-- `hv += ((int)*cp++)` until `cp` has reached `np`. A `char` is signed. -/
def hashLoop : Nat → List Int8 → Int → Option Int
  | 0, _, hv => some hv
  | _ + 1, [], _ => none
  | n + 1, c :: cp, hv => (int (hv + c.toInt)).toOption.bind (hashLoop n cp)

def HASH (datap : List Int8) (datalen : Nat) (hsz : Int) : Option Int :=
  (hashLoop datalen datap 0).map (Int.tmod · hsz)

/-- `bcmp`, which stops at the first difference: it reads nothing behind the NUL of a
shorter key. -/
def BCMP : List Int8 → List Int8 → Nat → Option Int
  | _, _, 0 => some 0
  | c :: str1, d :: str2, len + 1 => if c = d then BCMP str1 str2 len else some 1
  | _, _, _ + 1 => none

/-- `init_cache`: the cache, or the message if there is no memory for it or for its buckets. -/
def initCache (cacheMem bucketMem : Bool) (hsz bsz : Int)
    (hfunc : Option (List Int8 → Nat → Int → Option Int))
    (cfunc : Option (List Int8 → List Int8 → Nat → Option Int)) : Except Str Cache :=
  if cacheMem = false then .error "malloc(Cache **cp)".toList
  else if bucketMem = false then .error "malloc(Bucket cp->bp)".toList
  else .ok ⟨hsz, bsz, List.replicate hsz.toNat ⟨0, 0, none⟩, hfunc.getD HASH, cfunc.getD BCMP⟩

/-- The size of the caches of `ncgrpw.c`. -/
def HASHSIZE : Int := 151

/-- The number of pointers by which a bucket of them grows. -/
def BSZ : Int := 4

/-- `&cp->bp[i]`. -/
def Cache.bucketAt (cp : Cache) (i : Int) : Option Bucket :=
  if 0 ≤ i then cp.bp[i.toNat]? else none

def Cache.setBucket (cp : Cache) (i : Int) (b : Bucket) : Cache :=
  { cp with bp := cp.bp.set i.toNat b }

/-- The array of a full bucket: the first one, or a larger one that the slots are copied to. There
are no slots to copy behind a NULL. -/
def Bucket.grow (malloc : Bool) (bsz i : Int) (bp : Bucket) : Option (Str × Bucket) :=
  if bp.nalloc = 0 then
    some ([], { bp with itempp := if malloc then some (List.replicate bsz.toNat none) else none })
  else (int (bp.nalloc + bsz)).toOption.bind fun size =>
    let err := "realloc(".toList ++ fmtD size ++ ") bucket=".toList ++ fmtD i ++ ['\n']
    if malloc then bp.itempp.map fun slots =>
      (err, { bp with itempp := some (slots ++ List.replicate bsz.toNat none) })
    else some (err, { bp with itempp := none })

/-- `bp->itempp[bp->nent] = itemp; bp->nent++`. -/
def Bucket.put (bp : Bucket) (itemp : Nat) : Option Bucket :=
  bp.itempp.bind fun slots =>
    if 0 ≤ bp.nent ∧ bp.nent < slots.length then
      some { bp with
        nent := bp.nent + 1
        itempp := some (slots.set bp.nent.toNat (some itemp)) }
    else none

/-- `add_cache` on the bucket `i`: what it returns, what it writes to `stderr`, and the bucket. -/
def Bucket.add (malloc : Bool) (bsz i : Int) (bp : Bucket) (itemp : Nat) :
    Option (Int × Str × Bucket) :=
  if bp.nent ≥ bp.nalloc then
    (bp.grow malloc bsz i).bind fun (err, bp) =>
      if bp.itempp = none then some (-1, err ++ "add_cache(): out of memory\n".toList, bp)
      else (int (bp.nalloc + bsz)).toOption.bind fun nalloc =>
        ({ bp with nalloc := nalloc }.put itemp).map fun bp => (0, err, bp)
  else (bp.put itemp).map fun bp => (0, [], bp)

structure Added where
  ret : Int
  err : Str
  cache : Option Cache

/-- `add_cache`. The items are in memory at their addresses, and `malloc` says whether there is
memory for an array. -/
def addCache (heap : Nat → Item) (malloc : Bool) (cp : Option Cache) (itemp : Nat) : Option Added :=
  match cp with
  | none => some ⟨-1, [], none⟩
  | some cp =>
    (cp.hfunc (heap itemp).key (heap itemp).keyl cp.hsz).bind fun i =>
      (cp.bucketAt i).bind fun bp =>
        (bp.add malloc cp.bsz i itemp).map fun (ret, err, bp) =>
          ⟨ret, err, some (cp.setBucket i bp)⟩

/-- The loop of `lookup_cache` over the next `n` pointers of a bucket. -/
def Bucket.search (heap : Nat → Item) (cfunc : List Int8 → List Int8 → Nat → Option Int)
    (datap : List Int8) (datalen : Nat) (bp : Bucket) : (n i : Nat) → Option (Option Nat)
  | 0, _ => some none
  | n + 1, i =>
    (bp.itempp.bind fun slots => slots[i]?.join).bind fun itemp =>
      (cfunc (heap itemp).key datap datalen).bind fun d =>
        if d = 0 then some (some itemp) else search heap cfunc datap datalen bp n (i + 1)

def lookupCache (heap : Nat → Item) (cp : Option Cache) (datap : List Int8) (datalen : Nat) :
    Option (Option Nat) :=
  match cp with
  | none => some none
  | some cp =>
    (cp.hfunc datap datalen cp.hsz).bind fun i =>
      (cp.bucketAt i).bind fun bp => bp.search heap cp.cfunc datap datalen bp.nent.toNat 0

/-- A call of `add_cache`: the item, and whether there is memory for an array. -/
structure CacheCall where
  itemp : Nat
  malloc : Bool
  deriving DecidableEq, Repr

/-- A call of `add_cache`, and the items that were added. -/
def addStep (heap : Nat → Item) (s : List Nat × Option Cache) (c : CacheCall) :
    Option (List Nat × Option Cache) :=
  (addCache heap c.malloc s.2 c.itemp).map fun r =>
    (if r.ret = 0 then s.1 ++ [c.itemp] else s.1, r.cache)

def addCalls (heap : Nat → Item) (cp : Cache) (calls : List CacheCall) :
    Option (List Nat × Option Cache) :=
  calls.foldlM (addStep heap) ([], some cp)

def Item.bytes (it : Item) : List Int8 := it.key.take it.keyl

def IsName (k : List Int8) : Prop := ∃ nam, 0 ∉ nam ∧ k = nam ++ [0]

/-- The key is a string, which may have anything behind it. -/
def Item.Named (it : Item) : Prop := it.keyl ≤ it.key.length ∧ IsName it.bytes

def charSum (k : List Int8) : Int := (k.map Int8.toInt).sum

/-- The sum of the bytes stays an `int`. -/
def SumFits (k : List Int8) : Prop :=
  ∀ j < k.length, -2 ^ 31 ≤ charSum (k.take (j + 1)) ∧ charSum (k.take (j + 1)) < 2 ^ 31

/-- The keys for which `HASH` returns the index of a bucket. -/
def KeyOk (hsz : Int) (k : List Int8) : Prop :=
  SumFits k ∧ (0 ≤ charSum k ∨ hsz ∣ charSum k)

/-- The index that is computed for a key is that of a bucket. -/
def IndexOk (cp : Cache) (datap : List Int8) (datalen : Nat) : Prop :=
  ∃ i, cp.hfunc datap datalen cp.hsz = some i ∧ 0 ≤ i ∧ i < cp.hsz

def bucketOf (heap : Nat → Item) (hsz : Int) (itemp : Nat) : Int :=
  (charSum (heap itemp).bytes).tmod hsz

section Hash
variable {it : Item} {k mem : List Int8} {hsz : Int}

theorem int_toOption (x : Int) :
    (int x).toOption = if -2 ^ 31 ≤ x ∧ x < 2 ^ 31 then some x else none := by
  rw [int]
  split <;> rfl

theorem hashLoop_iff (h : n ≤ mem.length) : hashLoop n mem hv = some v ↔
    (∀ j < n, -2 ^ 31 ≤ hv + charSum (mem.take (j + 1)) ∧
      hv + charSum (mem.take (j + 1)) < 2 ^ 31) ∧ v = hv + charSum (mem.take n) := by
  induction n generalizing mem hv with
  | zero => simp [hashLoop, charSum, eq_comm]
  | succ n ih =>
    cases mem with
    | nil => cases h
    | cons c mem =>
      have hsum (j : Nat) : hv + charSum ((c :: mem).take (j + 1)) =
          hv + c.toInt + charSum (mem.take j) := by
        rw [List.take_succ_cons, charSum, List.map_cons, List.sum_cons, charSum]
        omega
      have hfirst : hv + c.toInt + charSum (mem.take 0) = hv + c.toInt := by simp [charSum]
      rw [hashLoop, int_toOption]
      simp only [hsum, Nat.forall_lt_succ_left, hfirst]
      split
      · rename_i hc
        rw [Option.bind_some, ih (Nat.le_of_succ_le_succ h)]
        simp only [hc, true_and]
      · rename_i hc
        simp only [hc, Option.bind_none, reduceCtorEq, false_and]

theorem HASH_iff (h : n ≤ mem.length) : HASH mem n hsz = some i ↔
    SumFits (mem.take n) ∧ i = (charSum (mem.take n)).tmod hsz := by
  have hfits : SumFits (mem.take n) ↔ ∀ j < n, -2 ^ 31 ≤ 0 + charSum (mem.take (j + 1)) ∧
      0 + charSum (mem.take (j + 1)) < 2 ^ 31 := by
    rw [SumFits, List.length_take, Nat.min_eq_left h]
    refine forall₂_congr fun j hj => ?_
    rw [List.take_take, Nat.min_eq_left hj, Int.zero_add]
  rw [HASH, Option.map_eq_some_iff, hfits]
  constructor
  · rintro ⟨v, hv, rfl⟩
    obtain ⟨hall, rfl⟩ := (hashLoop_iff h).mp hv
    exact ⟨hall, by rw [Int.zero_add]⟩
  · rintro ⟨hall, rfl⟩
    exact ⟨_, (hashLoop_iff h).mpr ⟨hall, rfl⟩, by rw [Int.zero_add]⟩

/-- In C the remainder has the sign of the sum. -/
theorem tmod_nonneg_iff (x : Int) (hsz : Int) : 0 ≤ x.tmod hsz ↔ 0 ≤ x ∨ hsz ∣ x := by
  constructor
  · intro h
    by_cases hx : 0 ≤ x
    · exact .inl hx
    · right
      have hneg : 0 ≤ (-x).tmod hsz := Int.tmod_nonneg _ (by omega)
      rw [Int.neg_tmod] at hneg
      exact Int.dvd_of_tmod_eq_zero (by omega)
  · rintro (hx | hx)
    · exact Int.tmod_nonneg _ hx
    · exact (Int.tmod_eq_zero_of_dvd hx).ge

theorem indexOk_iff {cp : Cache} (hf : cp.hfunc = HASH) (hpos : 0 < cp.hsz) (h : n ≤ mem.length) :
    IndexOk cp mem n ↔ KeyOk cp.hsz (mem.take n) := by
  rw [IndexOk, KeyOk, hf, ← tmod_nonneg_iff]
  constructor
  · rintro ⟨i, hi, h₀, -⟩
    obtain ⟨hfits, rfl⟩ := (HASH_iff h).mp hi
    exact ⟨hfits, h₀⟩
  · rintro ⟨hfits, h₀⟩
    exact ⟨_, (HASH_iff h).mpr ⟨hfits, rfl⟩, h₀, Int.tmod_lt_of_pos _ hpos⟩

end Hash

section Compare
variable {it : Item} {k nam nam' : List Int8}

/-- Two strings differ at the NUL of the shorter one or in front of it. -/
theorem BCMP_append (hn : 0 ∉ nam) (hn' : 0 ∉ nam') (behind : List Int8) :
    ∃ d, BCMP (nam ++ 0 :: behind) (nam' ++ [0]) (nam'.length + 1) = some d ∧
      (d = 0 ↔ nam = nam') := by
  induction nam generalizing nam' with
  | nil =>
    cases nam' with
    | nil => exact ⟨0, by simp [BCMP], by simp⟩
    | cons c nam' =>
      have hc : 0 ≠ c := fun h => hn' (h ▸ List.mem_cons_self)
      exact ⟨1, if_neg hc, by simp⟩
  | cons b nam ih =>
    cases nam' with
    | nil =>
      have hb : b ≠ 0 := fun h => hn (h ▸ List.mem_cons_self)
      exact ⟨1, if_neg hb, by simp⟩
    | cons c nam' =>
      obtain ⟨d, hd, hiff⟩ := ih (fun h => hn (List.mem_cons_of_mem _ h))
        fun h => hn' (List.mem_cons_of_mem _ h)
      by_cases hbc : b = c
      · refine ⟨d, (if_pos hbc).trans hd, ?_⟩
        rw [hiff, List.cons.injEq, and_iff_right hbc]
      · refine ⟨1, if_neg hbc, ?_⟩
        simp [hbc]

theorem Item.Named.bcmp (hit : it.Named) (hk : IsName k) :
    ∃ d, BCMP it.key k k.length = some d ∧ (d = 0 ↔ it.bytes = k) := by
  obtain ⟨-, nam, hn, hbytes⟩ := hit
  obtain ⟨nam', hn', rfl⟩ := hk
  have hkey : it.key = nam ++ 0 :: it.key.drop it.keyl := by
    conv_lhs => rw [← List.take_append_drop it.keyl it.key]
    rw [← Item.bytes, hbytes, List.append_assoc]
    rfl
  obtain ⟨d, hd, hiff⟩ := BCMP_append hn hn' (it.key.drop it.keyl)
  rw [← hkey] at hd
  refine ⟨d, ?_, ?_⟩
  · rw [List.length_append, List.length_singleton]
    exact hd
  · rw [hiff, hbytes, List.append_left_inj]

end Compare

/-- The bucket points to the items `live`; its array has room for `nalloc` pointers. -/
structure Bucket.Holds (bsz : Int) (bp : Bucket) (live : List Nat) : Prop where
  slots : Grown bsz.toNat live (bp.itempp.getD [])
  nent : bp.nent = live.length
  nalloc : bp.nalloc = (bp.itempp.getD []).length

/-- The bucket has items, but the array of pointers to them was given up. -/
structure Bucket.Lost (bp : Bucket) : Prop where
  itempp : bp.itempp = none
  nent : 0 < bp.nent
  nalloc : bp.nalloc ≠ 0
  full : bp.nalloc ≤ bp.nent

section Buckets
variable {bsz : Int} {bp : Bucket} {live : List Nat} {heap : Nat → Item} {k : List Int8}

theorem Bucket.holds_empty (hb : 0 < bsz) : Bucket.Holds bsz ⟨0, 0, none⟩ [] :=
  ⟨Grown.nil (by omega), rfl, rfl⟩

theorem Bucket.Holds.full_iff (h : bp.Holds bsz live) :
    bp.nalloc ≤ bp.nent ↔ bsz.toNat ∣ live.length := by
  rw [← h.slots.full_iff, h.nent, h.nalloc, Int.ofNat_le]

theorem Bucket.put_eq {slots : List (Option Nat)} (hs : bp.itempp = some slots)
    (hn : bp.nent = live.length) (hlt : live.length < slots.length) (itemp : Nat) :
    bp.put itemp =
      some ⟨live.length + 1, bp.nalloc, some (slots.set live.length (some itemp))⟩ := by
  rw [Bucket.put, hs, Option.bind_some, hn]
  exact if_pos ⟨Int.natCast_nonneg _, Int.ofNat_lt.mpr hlt⟩

theorem Bucket.holds_mk {slots : List (Option Nat)} {nalloc : Int}
    (h : Grown bsz.toNat (live ++ [itemp]) slots) (hlen : nalloc = slots.length) :
    Bucket.Holds bsz ⟨live.length + 1, nalloc, some slots⟩ (live ++ [itemp]) := by
  refine ⟨h, ?_, hlen⟩
  rw [List.length_append, List.length_singleton]
  rfl

theorem Bucket.Holds.add_room (h : bp.Holds bsz live) (hroom : ¬ bsz.toNat ∣ live.length)
    (malloc : Bool) (i : Int) (itemp : Nat) :
    ∃ b, bp.add malloc bsz i itemp = some (0, [], b) ∧ b.Holds bsz (live ++ [itemp]) := by
  have hlt : ¬ bp.nalloc ≤ bp.nent := fun hle => hroom (h.full_iff.mp hle)
  have hslots := h.slots
  obtain ⟨slots, hs⟩ : ∃ slots, bp.itempp = some slots := by
    cases hs : bp.itempp with
    | none =>
      rw [h.nalloc, h.nent, hs] at hlt
      exact absurd (Int.natCast_nonneg _) hlt
    | some slots => exact ⟨slots, rfl⟩
  rw [hs, Option.getD_some] at hslots
  have hlen : live.length < slots.length := by
    rw [h.nalloc, h.nent, hs] at hlt
    exact Int.ofNat_lt.mp (Int.not_le.mp hlt)
  have hnalloc : bp.nalloc = (slots.set live.length (some itemp)).length := by
    rw [List.length_set, h.nalloc, hs]
    rfl
  refine ⟨_, ?_, Bucket.holds_mk (hslots.store hlen itemp) hnalloc⟩
  rw [Bucket.add, if_neg hlt, Bucket.put_eq hs h.nent hlen]
  rfl

theorem Bucket.Holds.add_full (h : bp.Holds bsz live) (hb : 0 < bsz)
    (hfull : bsz.toNat ∣ live.length) (hfits : live.length + bsz < 2 ^ 31) (i : Int) (itemp : Nat) :
    ∃ err b, bp.add true bsz i itemp = some (0, err, b) ∧ b.Holds bsz (live ++ [itemp]) := by
  have hle := h.full_iff.mpr hfull
  have hslots : (bp.itempp.getD []).length ≤ live.length := h.slots.full_iff.mpr hfull
  have hlen : (bp.itempp.getD []).length = live.length :=
    Nat.le_antisymm hslots h.slots.length_le
  have hnalloc : bp.nalloc = live.length := by rw [h.nalloc, hlen]
  have hsize : (int (bp.nalloc + bsz)).toOption = some (live.length + bsz) := by
    rw [int_toOption, hnalloc]
    exact if_pos ⟨by omega, hfits⟩
  obtain ⟨err, hgrow⟩ : ∃ err, bp.grow true bsz i =
      some (err, ⟨bp.nent, bp.nalloc,
        some (bp.itempp.getD [] ++ List.replicate bsz.toNat none)⟩) := by
    rw [Bucket.grow, hsize]
    by_cases hzero : bp.nalloc = 0
    · have hnil : bp.itempp.getD [] = [] := by
        apply List.eq_nil_of_length_eq_zero
        rw [h.nalloc] at hzero
        exact Int.ofNat_eq_zero.mp hzero
      rw [if_pos hzero, hnil]
      exact ⟨_, rfl⟩
    · rw [if_neg hzero, Option.bind_some]
      cases hs : bp.itempp with
      | none =>
        rw [h.nalloc, hs] at hzero
        exact absurd rfl hzero
      | some slots => exact ⟨_, rfl⟩
  have hmore : live.length < (bp.itempp.getD [] ++ List.replicate bsz.toNat none).length := by
    rw [List.length_append, List.length_replicate, hlen]
    omega
  have hput := @Bucket.put_eq ⟨bp.nent, live.length + bsz,
    some (bp.itempp.getD [] ++ List.replicate bsz.toNat none)⟩ live _ rfl h.nent hmore itemp
  have hnew : live.length + bsz = ((bp.itempp.getD [] ++
      List.replicate bsz.toNat none).set live.length (some itemp)).length := by
    rw [List.length_set, List.length_append, List.length_replicate, hlen]
    omega
  refine ⟨err, _, ?_, Bucket.holds_mk (h.slots.enlarge hslots (by omega) itemp) hnew⟩
  rw [Bucket.add, if_pos hle, hgrow, Option.bind_some]
  dsimp only
  rw [if_neg (Option.some_ne_none _), hsize, Option.bind_some, hput]
  rfl

theorem Bucket.Holds.add_refused (h : bp.Holds bsz []) (i : Int) (itemp : Nat) :
    ∃ err b, bp.add false bsz i itemp = some (-1, err, b) ∧ b.Holds bsz [] := by
  have hfull : bsz.toNat ∣ ([] : List Nat).length := ⟨0, rfl⟩
  have hlen : (bp.itempp.getD []).length = 0 := Nat.le_zero.mp (h.slots.full_iff.mpr hfull)
  have hzero : bp.nalloc = 0 := by rw [h.nalloc, hlen]; rfl
  refine ⟨"add_cache(): out of memory\n".toList, ⟨bp.nent, bp.nalloc, none⟩, ?_, ?_, h.nent,
    hzero⟩
  · rw [Bucket.add, if_pos (h.full_iff.mpr hfull), Bucket.grow, if_pos hzero]
    rfl
  · have hslots := h.slots
    rwa [List.eq_nil_of_length_eq_zero hlen] at hslots

/-- Without memory for a larger array the items of a full bucket are lost. -/
theorem Bucket.Holds.add_lost (h : bp.Holds bsz live) (hne : live ≠ [])
    (hfull : bsz.toNat ∣ live.length) (hbad : ¬ (malloc = true ∧ live.length + bsz < 2 ^ 31))
    (hadd : bp.add malloc bsz i itemp = some r) : r.2.2.Lost := by
  have hle := h.full_iff.mpr hfull
  have hpos : 0 < live.length := List.length_pos_iff.mpr hne
  have hlen : (bp.itempp.getD []).length = live.length :=
    Nat.le_antisymm (h.slots.full_iff.mpr hfull) h.slots.length_le
  have hnalloc : bp.nalloc = live.length := by rw [h.nalloc, hlen]
  have hnonzero : bp.nalloc ≠ 0 := by omega
  rw [Bucket.add, if_pos hle, Bucket.grow, if_neg hnonzero, int_toOption] at hadd
  split at hadd
  · rename_i hsize
    rw [hnalloc] at hsize
    have hmalloc : malloc = false := by
      cases malloc with
      | false => rfl
      | true => exact absurd ⟨rfl, hsize.2⟩ hbad
    rw [hmalloc] at hadd
    rw [← Option.some.inj hadd]
    exact ⟨rfl, by rw [h.nent]; omega, hnonzero, hle⟩
  · cases hadd

/-- Nothing brings the items of a bucket back. -/
theorem Bucket.Lost.add (h : bp.Lost) (hadd : bp.add malloc bsz i itemp = some r) :
    r.2.2.Lost := by
  rw [Bucket.add, if_pos h.full, Bucket.grow, if_neg h.nalloc, int_toOption] at hadd
  split at hadd
  · cases malloc with
    | true =>
      rw [h.itempp] at hadd
      cases hadd
    | false =>
      rw [← Option.some.inj hadd]
      exact ⟨rfl, h.nent, h.nalloc, h.full⟩
  · cases hadd

theorem Bucket.Lost.search (h : bp.Lost) (heap : Nat → Item)
    (cfunc : List Int8 → List Int8 → Nat → Option Int) (datap : List Int8) (datalen : Nat) :
    bp.search heap cfunc datap datalen bp.nent.toNat 0 = none := by
  obtain ⟨n, hn⟩ : ∃ n, bp.nent.toNat = n + 1 := by
    have hpos := h.nent
    exact ⟨bp.nent.toNat - 1, by omega⟩
  rw [hn, Bucket.search, h.itempp]
  rfl

theorem Bucket.Holds.search_from (h : bp.Holds bsz live) (hitems : ∀ p ∈ live, (heap p).Named)
    (hk : IsName k) (hi : i + n = live.length) :
    bp.search heap BCMP k k.length n i =
      some ((live.drop i).find? fun p => (heap p).bytes = k) := by
  induction n generalizing i with
  | zero =>
    rw [List.drop_of_length_le (by omega)]
    rfl
  | succ n ih =>
    have hlt : i < live.length := by omega
    have hslot : (bp.itempp.bind fun slots => slots[i]?.join) = some live[i] := by
      have hget := h.slots.getElem? hlt
      cases hs : bp.itempp with
      | none =>
        rw [hs] at hget
        cases hget
      | some slots =>
        rw [hs, Option.getD_some] at hget
        rw [Option.bind_some, hget, List.getElem?_eq_getElem hlt]
        rfl
    obtain ⟨d, hd, hiff⟩ := (hitems _ (List.getElem_mem hlt)).bcmp hk
    rw [Bucket.search, hslot, Option.bind_some, hd, Option.bind_some, List.drop_eq_getElem_cons hlt]
    by_cases hkey : (heap live[i]).bytes = k
    · rw [if_pos (hiff.mpr hkey), List.find?_cons_of_pos (by simpa using hkey)]
    · rw [if_neg (mt hiff.mp hkey), List.find?_cons_of_neg (by simpa using hkey), ih (by omega)]

theorem Bucket.Holds.search (h : bp.Holds bsz live) (hitems : ∀ p ∈ live, (heap p).Named)
    (hk : IsName k) : bp.search heap BCMP k k.length bp.nent.toNat 0 =
      some (live.find? fun p => (heap p).bytes = k) := by
  rw [h.search_from hitems hk (by rw [h.nent]; omega), List.drop_zero]

end Buckets

end Pkgtools
