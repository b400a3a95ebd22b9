import Pkgtools.CLib.DoublyLinked
import Pkgtools.Rbtree

namespace Pkgtools
open CLib
set_option autoImplicit true

/-- The hash function and the comparison of a class of keys. Keys that compare equal have
one hash. -/
structure KeyClass (K : Type) where
  xHash : K → BitVec 32
  xCompare : K → K → Int
  equal : Equivalence fun k k' => xCompare k k' = 0
  hash_eq : ∀ k k', xCompare k k' = 0 → xHash k = xHash k'

/-- `intHash`. -/
def intHash (nKey : BitVec 32) : BitVec 32 := nKey ^^^ (nKey <<< 8) ^^^ nKey.sshiftRight 8

def intCompare (n₁ n₂ : BitVec 32) : Int := n₂.toInt - n₁.toInt

theorem intCompare_eq_zero {n₁ n₂ : BitVec 32} : intCompare n₁ n₂ = 0 ↔ n₁ = n₂ := by
  rw [intCompare, Int.sub_eq_zero, BitVec.toInt_inj, eq_comm]

/-- `SQLITE_HASH_INT`. -/
def intKeys : KeyClass (BitVec 32) where
  xHash := intHash
  xCompare := intCompare
  equal := by
    simp only [intCompare_eq_zero]
    exact eq_equivalence
  hash_eq _ _ h := congrArg intHash (intCompare_eq_zero.mp h)

/-- `HashElem`, without the pointers to its neighbours. The data is not NULL. -/
structure HashElem (K D : Type) where
  pKey : K
  data : D

/-- `struct _ht`. -/
structure HtEntry where
  count : Nat
  chain : Option Nat
  deriving DecidableEq

/-- `Hash`. The size of the table is the length of `ht`, which is empty where the pointer
is NULL. -/
structure Hash (K D : Type) where
  copyKey : Bool
  count : Nat
  elems : DLinked (HashElem K D)
  ht : List HtEntry

def sqliteHashInit (copyKey : Bool) : Hash K D := ⟨copyKey, 0, ⟨fun _ => none, none⟩, []⟩

/-- `hraw & (htsize-1)`. -/
def hashIndex (hraw : BitVec 32) (htsize : Nat) : Nat := hraw.toNat &&& (htsize - 1)

/-- `assert( (htsize & (htsize-1))==0 )`. -/
def SizeOk (htsize : Nat) : Prop := htsize &&& (htsize - 1) = 0

instance : Decidable (SizeOk n) := inferInstanceAs (Decidable (_ = _))

/-- The memory that a call of `sqliteHashInsert` gets: the address of the element, the copy of the
key, and a table. -/
structure HashMalloc where
  elem : Option Nat
  key : Bool
  table : Bool

section Code
variable {K D : Type} (cls : KeyClass K) (H : Hash K D)

/-- The same statements in `rehash` and `sqliteHashInsert`: an element is put in front of its chain,
or of all elements if the chain is empty. -/
def linkElem (p : Nat) (elem : HashElem K D) (h : Nat) : Option (Hash K D) := do
  let e ← H.ht[h]?
  let elems ← H.elems.place p elem e.chain
  some { H with elems := elems, ht := H.ht.set h ⟨e.count + 1, some p⟩ }

/-- The loop of `rehash`, for so many elements at most. -/
def rehashLoop : Nat → Hash K D → Option Nat → Option (Hash K D)
  | _, H, none => some H
  | 0, _, some _ => none
  | n + 1, H, some p => do
    let c ← H.elems.cells p
    let H ← linkElem H p c.info (hashIndex (cls.xHash c.info.pKey) H.ht.length)
    rehashLoop n H c.next

/-- `rehash`. Nothing is done without memory for the new table. -/
def rehash (malloc : Bool) (newSize : Nat) : Option (Hash K D) := do
  guard (SizeOk newSize)
  if malloc then
    rehashLoop cls H.count
      { H with elems := { H.elems with first := none }, ht := List.replicate newSize ⟨0, none⟩ }
      H.elems.first
  else some H

/-- The loop of `findElementGivenHash`. -/
def findLoop (key : K) : Nat → Option Nat → Option (Option Nat)
  | _, none => some none
  | 0, some _ => some none
  | count + 1, some p => do
    let c ← H.elems.cells p
    if cls.xCompare c.info.pKey key = 0 then some (some p) else findLoop key count c.next

def findElementGivenHash (key : K) (h : Nat) : Option (Option Nat) :=
  if H.ht = [] then some none
  else do
    let e ← H.ht[h]?
    findLoop cls H key e.count e.chain

def removeElementGivenHash (elem h : Nat) : Option (Hash K D) := do
  let c ← H.elems.cells elem
  let e ← H.ht[h]?
  let chain := if e.chain = some elem then c.next else e.chain
  let chain := if e.count - 1 ≤ 0 then none else chain
  let elems ← H.elems.remove elem
  some { H with count := H.count - 1, elems := elems, ht := H.ht.set h ⟨e.count - 1, chain⟩ }

def sqliteHashFind (key : K) : Option (Option D) :=
  if H.ht = [] then some none
  else do
    guard (SizeOk H.ht.length)
    match ← findElementGivenHash cls H key (hashIndex (cls.xHash key) H.ht.length) with
    | some elem => (H.elems.cells elem).map fun c => some c.info.data
    | none => some none

/-- `elem->data = data`. -/
def setElemData (elem : Nat) (data : D) : Option (Hash K D) :=
  (H.elems.modify elem fun c => { c with info := ⟨c.info.pKey, data⟩ }).map
    fun elems => { H with elems := elems }

/-- `if( pH->htsize==0 ) rehash(pH,8);` -/
def makeTable (malloc : Bool) : Option (Hash K D) :=
  if H.ht = [] then rehash cls H malloc 8 else some H

/-- `if( pH->count > pH->htsize ){ rehash(pH,pH->htsize*2); }` -/
def growTable (malloc : Bool) : Option (Hash K D) :=
  if H.ht.length < H.count then rehash cls H malloc (H.ht.length * 2) else some H

/-- The second half of `sqliteHashInsert`, for a new element. -/
def insertElem (a : HashMalloc) (key : K) (data : D) : Option (Option D × Hash K D) :=
  match a.elem with
  | none => some (some data, H)
  | some p =>
    if H.copyKey && !a.key then some (some data, H)
    else do
      let H := { H with count := H.count + 1 }
      let H ← makeTable cls H a.table
      if H.ht = [] then some (some data, { H with count := 0 })
      else
        let H ← growTable cls H a.table
        guard (SizeOk H.ht.length)
        let H ← linkElem H p ⟨key, data⟩ (hashIndex (cls.xHash key) H.ht.length)
        some (none, H)

/-- `sqliteHashInsert`. It returns the old data, or the new one if there is no memory. -/
def sqliteHashInsert (a : HashMalloc) (key : K) (data : Option D) :
    Option (Option D × Hash K D) := do
  guard (SizeOk H.ht.length)
  let h := hashIndex (cls.xHash key) H.ht.length
  match ← findElementGivenHash cls H key h with
  | some elem =>
    let c ← H.elems.cells elem
    match data with
    | none =>
      let H ← removeElementGivenHash H elem h
      some (some c.info.data, H)
    | some d =>
      let H ← setElemData H elem d
      some (some c.info.data, H)
  | none =>
    match data with
    | none => some (none, H)
    | some d => insertElem cls H a key d

/-- The loop of `sqliteHashClear`, for so many elements at most. -/
def clearElems : Nat → Option Nat → DLinked (HashElem K D) → Option (DLinked (HashElem K D))
  | _, none, s => some s
  | 0, some _, _ => none
  | n + 1, some p, s => do
    let elem ← s.cells p
    clearElems n elem.next (s.put p none)

def sqliteHashClear : Option (Hash K D) := do
  let elems ← clearElems H.count H.elems.first { H.elems with first := none }
  some ⟨H.copyKey, 0, elems, []⟩

/-- The loop over all elements with `sqliteHashFirst` and `sqliteHashNext`. -/
def hashWalk : Nat → Option Nat → Option (List (HashElem K D))
  | _, none => some []
  | 0, some _ => none
  | n + 1, some p => do
    let c ← H.elems.cells p
    let rest ← hashWalk n c.next
    some (c.info :: rest)

end Code

abbrev HashElems (K D : Type) := List (Nat × HashElem K D)

/-- The elements of each bucket stand together in the list of all, the buckets in some order. -/
structure Hash.Holds (cls : KeyClass K) (H : Hash K D) (order : List Nat)
    (bucket : Nat → HashElems K D) : Prop where
  elems : H.elems.Holds (order.flatMap bucket)
  nodup : order.Nodup
  mem : ∀ h, h ∈ order ↔ bucket h ≠ []
  inside : ∀ h ∈ order, h < H.ht.length
  index : ∀ h, ∀ r ∈ bucket h, hashIndex (cls.xHash r.2.pKey) H.ht.length = h
  table : ∀ h < H.ht.length, H.ht[h]? = some ⟨(bucket h).length, firstOr none (bucket h)⟩

section Buckets
variable {K D : Type} {cls : KeyClass K} {H : Hash K D} {order o₁ o₂ : List Nat}
  {bucket : Nat → HashElems K D}

theorem flatMap_update (h : k ∉ order) (b : HashElems K D) :
    order.flatMap (Function.update bucket k b) = order.flatMap bucket := by
  refine List.flatMap_congr fun i hi => Function.update_of_ne ?_ _ _
  rintro rfl
  exact h hi

variable (bucket) in
theorem exists_bucket (hn : order.Nodup) (hk : k ∈ order) :
    ∃ o₁ o₂, order = o₁ ++ k :: o₂ ∧ ∀ b, order.flatMap (Function.update bucket k b) =
      o₁.flatMap bucket ++ b ++ o₂.flatMap bucket := by
  obtain ⟨o₁, o₂, rfl⟩ := List.append_of_mem hk
  obtain ⟨hk, -⟩ := List.nodup_cons.mp (List.nodup_middle.mp hn)
  rw [List.mem_append, not_or] at hk
  refine ⟨o₁, o₂, rfl, fun b => ?_⟩
  rw [List.flatMap_append, List.flatMap_cons, flatMap_update hk.1, flatMap_update hk.2,
    Function.update_self, List.append_assoc]

variable (bucket) in
theorem flatMap_split (hn : order.Nodup) (hk : k ∈ order) :
    ∃ o₁ o₂, order = o₁ ++ k :: o₂ ∧
      order.flatMap bucket = o₁.flatMap bucket ++ bucket k ++ o₂.flatMap bucket := by
  obtain ⟨o₁, o₂, rfl, hflat⟩ := exists_bucket bucket hn hk
  refine ⟨o₁, o₂, rfl, ?_⟩
  rw [← hflat, Function.update_eq_self]

theorem Hash.Holds.linkElem (hH : H.Holds cls order bucket)
    (hp : p ∉ (order.flatMap bucket).map Prod.fst) (elem : HashElem K D)
    (hh : hashIndex (cls.xHash elem.pKey) H.ht.length = h) (hlt : h < H.ht.length) :
    ∃ H' order', Pkgtools.linkElem H p elem h = some H' ∧
      H'.Holds cls order' (Function.update bucket h ((p, elem) :: bucket h)) ∧
      (order'.flatMap (Function.update bucket h ((p, elem) :: bucket h))).Perm
        ((p, elem) :: order.flatMap bucket) ∧
      H'.ht.length = H.ht.length ∧ H'.count = H.count ∧ H'.copyKey = H.copyKey ∧
      ∀ q ∉ p :: (order.flatMap bucket).map Prod.fst, H'.elems.cells q = H.elems.cells q := by
  have htable := hH.table h hlt
  -- the order of the buckets, and the list of all elements
  obtain ⟨elems, order', hplace, hlist, hnodup, hmem, hperm, hframe⟩ :
    ∃ (elems : DLinked (HashElem K D)) (order' : List Nat),
      H.elems.place p elem (firstOr none (bucket h)) = some elems ∧
      elems.Holds (order'.flatMap (Function.update bucket h ((p, elem) :: bucket h))) ∧
      order'.Nodup ∧ (∀ k, k ∈ order' ↔ k = h ∨ k ∈ order) ∧
      (order'.flatMap (Function.update bucket h ((p, elem) :: bucket h))).Perm
        ((p, elem) :: order.flatMap bucket) ∧
      ∀ q ∉ p :: (order.flatMap bucket).map Prod.fst, elems.cells q = H.elems.cells q := by
    cases hb : bucket h with
    | nil =>
      have hnot : h ∉ order := fun hm => (hH.mem h).mp hm hb
      obtain ⟨elems, hrun, hholds, hframe⟩ := hH.elems.place_front hp elem
      have hflat : (h :: order).flatMap (Function.update bucket h [(p, elem)]) =
          (p, elem) :: order.flatMap bucket := by
        rw [List.flatMap_cons, Function.update_self, flatMap_update hnot]
        rfl
      refine ⟨elems, h :: order, hrun, ?_, List.nodup_cons.mpr ⟨hnot, hH.nodup⟩,
        fun k => List.mem_cons, ?_, hframe⟩
      · rw [hflat]
        exact hholds
      · rw [hflat]
    | cons r b =>
      obtain ⟨q, y⟩ := r
      have hmem : h ∈ order := (hH.mem h).mpr (by rw [hb]; exact List.cons_ne_nil _ _)
      obtain ⟨o₁, o₂, rfl, hflat⟩ := exists_bucket bucket hH.nodup hmem
      have hold := hflat (bucket h)
      rw [Function.update_eq_self, hb, List.append_assoc, List.cons_append] at hold
      have helems := hH.elems
      rw [hold] at helems hp
      obtain ⟨elems, hrun, hholds, hframe⟩ := helems.place_before hp elem
      refine ⟨elems, _, hrun, ?_, hH.nodup, fun k => ?_, ?_, ?_⟩
      · rw [hflat, List.append_assoc]
        exact hholds
      · exact (or_iff_right_of_imp fun he => he ▸ hmem).symm
      · rw [hflat, hold, List.append_assoc]
        exact List.perm_middle
      · rwa [hold]
  refine ⟨⟨H.copyKey, H.count, elems, H.ht.set h ⟨(bucket h).length + 1, some p⟩⟩, order', ?_,
    ⟨hlist, hnodup, fun k => ?_, fun k hk => ?_, fun k r hr => ?_, fun k hk => ?_⟩, hperm,
    List.length_set, rfl, rfl, hframe⟩
  · simp only [Pkgtools.linkElem, htable, Option.bind_eq_bind, Option.bind_some, hplace]
  · rw [hmem]
    by_cases hk : k = h
    · simp [hk]
    · rw [Function.update_of_ne hk, ← hH.mem k, or_iff_right hk]
  · rw [List.length_set]
    rcases (hmem k).mp hk with rfl | hk
    · exact hlt
    · exact hH.inside k hk
  · rw [List.length_set]
    by_cases hkh : k = h
    · subst hkh
      rw [Function.update_self] at hr
      rcases List.mem_cons.mp hr with rfl | hr
      · exact hh
      · exact hH.index k r hr
    · rw [Function.update_of_ne hkh] at hr
      exact hH.index k r hr
  · rw [List.length_set] at hk
    by_cases hkh : k = h
    · subst hkh
      rw [Function.update_self, List.getElem?_set_self hk]
      rfl
    · rw [Function.update_of_ne hkh, List.getElem?_set_ne (Ne.symm hkh)]
      exact hH.table k hk

end Buckets

section Rehash
variable {K D : Type} {cls : KeyClass K} {H : Hash K D} {order : List Nat}
  {bucket : Nat → HashElems K D} {rest : HashElems K D}

theorem hashIndex_lt (hraw : BitVec 32) (h : 0 < htsize) : hashIndex hraw htsize < htsize :=
  Nat.lt_of_le_of_lt Nat.and_le_right (Nat.sub_lt h Nat.one_pos)

/-- The elements that are still linked as before are put into the new table one after the other. -/
theorem rehashLoop_spec (hH : H.Holds cls order bucket) (hnext : NextSegment H.elems.cells rest)
    (hn : (rest.map Prod.fst ++ (order.flatMap bucket).map Prod.fst).Nodup)
    (hpos : 0 < H.ht.length) (hfuel : rest.length ≤ fuel) :
    ∃ H' order' bucket', rehashLoop cls fuel H (firstOr none rest) = some H' ∧
      H'.Holds cls order' bucket' ∧
      (order'.flatMap bucket').Perm (rest ++ order.flatMap bucket) ∧
      H'.ht.length = H.ht.length ∧ H'.count = H.count ∧ H'.copyKey = H.copyKey ∧
      ∀ q ∉ rest.map Prod.fst ++ (order.flatMap bucket).map Prod.fst,
        H'.elems.cells q = H.elems.cells q := by
  induction rest generalizing H order bucket fuel with
  | nil =>
    refine ⟨H, order, bucket, ?_, hH, .refl _, rfl, rfl, rfl, fun _ _ => rfl⟩
    cases fuel <;> rfl
  | cons r rest ih =>
    obtain ⟨p, x⟩ := r
    obtain ⟨fuel, rfl⟩ : ∃ k, fuel = k + 1 := ⟨fuel - 1, by rw [List.length_cons] at hfuel; omega⟩
    obtain ⟨⟨b, hcell⟩, hrest⟩ := hnext
    rw [List.map_cons, List.cons_append, List.nodup_cons, List.mem_append, not_or] at hn
    obtain ⟨⟨hpr, hpl⟩, hn⟩ := hn
    obtain ⟨H₁, order₁, hlink, hH₁, hperm₁, hsize₁, hcount₁, hcopy₁, hframe₁⟩ :=
      hH.linkElem hpl x rfl (hashIndex_lt _ hpos)
    have hmap₁ := hperm₁.map Prod.fst
    have hdisj := (List.nodup_append.mp hn).2.2
    have hrest₁ : NextSegment H₁.elems.cells rest := by
      refine hrest.congr fun q hq => hframe₁ q ?_
      rw [List.mem_cons, not_or]
      refine ⟨?_, fun hql => hdisj q hq q hql rfl⟩
      rintro rfl
      exact hpr hq
    have hn₁ : (rest.map Prod.fst ++ (order₁.flatMap _).map Prod.fst).Nodup :=
      ((hmap₁.append_left _).nodup_iff).mpr (List.nodup_middle.mpr
        (List.nodup_cons.mpr ⟨by simp [hpr, hpl], hn⟩))
    obtain ⟨H₂, order₂, bucket₂, hrun, hH₂, hperm₂, hsize₂, hcount₂, hcopy₂, hframe₂⟩ :=
      ih hH₁ hrest₁ hn₁ (hsize₁ ▸ hpos) (Nat.le_of_succ_le_succ hfuel)
    refine ⟨H₂, order₂, bucket₂, ?_, hH₂, ?_, hsize₂.trans hsize₁, hcount₂.trans hcount₁,
      hcopy₂.trans hcopy₁, fun q hq => ?_⟩
    · rw [firstOr, rehashLoop, hcell]
      simp only [Option.bind_eq_bind, Option.bind_some, hlink, hrun]
    · exact hperm₂.trans ((hperm₁.append_left rest).trans List.perm_middle)
    · rw [List.map_cons, List.cons_append, List.mem_cons, List.mem_append, not_or, not_or] at hq
      rw [hframe₂ q ?_, hframe₁ q ?_]
      · simp [hq.1, hq.2.2]
      · rw [List.mem_append, hmap₁.mem_iff, List.map_cons, List.mem_cons, not_or, not_or]
        exact ⟨hq.2.1, hq.1, hq.2.2⟩

theorem Hash.holds_empty (cls : KeyClass K) (copyKey : Bool) (count : Nat)
    (elems : DLinked (HashElem K D)) (n : Nat) :
    (Hash.mk copyKey count { elems with first := none } (List.replicate n ⟨0, none⟩)).Holds cls []
      fun _ => [] where
  elems := ⟨rfl, trivial, List.nodup_nil⟩
  nodup := List.nodup_nil
  mem _ := by simp
  inside _ h := by cases h
  index _ _ h := by cases h
  table h hlt := by
    rw [List.length_replicate] at hlt
    rw [List.getElem?_replicate, if_pos hlt]
    rfl

/-- With memory the elements are moved to a table of the new size, without it nothing changes. -/
theorem Hash.Holds.rehash (hH : H.Holds cls order bucket) (malloc : Bool) (hok : SizeOk newSize)
    (hpos : 0 < newSize) (hcount : (order.flatMap bucket).length ≤ H.count) :
    ∃ H' order' bucket', Pkgtools.rehash cls H malloc newSize = some H' ∧
      H'.Holds cls order' bucket' ∧ (order'.flatMap bucket').Perm (order.flatMap bucket) ∧
      H'.ht.length = (if malloc then newSize else H.ht.length) ∧ H'.count = H.count ∧
      H'.copyKey = H.copyKey ∧
      ∀ q ∉ (order.flatMap bucket).map Prod.fst, H'.elems.cells q = H.elems.cells q := by
  cases malloc with
  | false =>
    refine ⟨H, order, bucket, ?_, hH, .refl _, rfl, rfl, rfl, fun _ _ => rfl⟩
    simp only [Pkgtools.rehash, guard, if_pos hok, Option.pure_def, Option.bind_eq_bind,
      Option.bind_some, Bool.false_eq_true, if_false]
  | true =>
    have hempty := Hash.holds_empty cls H.copyKey H.count H.elems newSize
    obtain ⟨H', order', bucket', hrun, hH', hperm, hsize, hcount', hcopy, hframe⟩ :=
      rehashLoop_spec hempty hH.elems.segment.nexts (by simpa using hH.elems.nodup)
        (by simpa using hpos) hcount
    refine ⟨H', order', bucket', ?_, hH', by simpa using hperm, ?_, hcount', hcopy,
      fun q hq => hframe q (by simpa using hq)⟩
    · simp only [Pkgtools.rehash, guard, if_pos hok, Option.pure_def, Option.bind_eq_bind,
        Option.bind_some, if_true, hH.elems.first]
      exact hrun
    · rw [hsize, List.length_replicate, if_pos rfl]

end Rehash

section Find
variable {K D : Type} {cls : KeyClass K} {H : Hash K D} {order : List Nat}
  {bucket : Nat → HashElems K D} {l b₁ b₂ : HashElems K D}

theorem findLoop_spec (hseg : DSegment H.elems.cells b l e) (key : K) :
    findLoop cls H key l.length (firstOr e l) =
      some ((l.find? fun r => cls.xCompare r.2.pKey key = 0).map Prod.fst) := by
  induction l generalizing b with
  | nil => cases e <;> rfl
  | cons r l ih =>
    obtain ⟨p, x⟩ := r
    obtain ⟨hcell, hl⟩ := hseg
    rw [List.length_cons, firstOr, findLoop, hcell, List.find?_cons]
    simp only [Option.bind_eq_bind, Option.bind_some]
    by_cases hx : cls.xCompare x.pKey key = 0
    · simp [hx]
    · simp only [hx, if_false, decide_false]
      exact ih hl

theorem Hash.Holds.find_bucket (hH : H.Holds cls order bucket) (key : K) (hlt : h < H.ht.length) :
    findElementGivenHash cls H key h =
      some (((bucket h).find? fun r => cls.xCompare r.2.pKey key = 0).map Prod.fst) := by
  have hne : H.ht ≠ [] := by
    rintro he
    rw [he] at hlt
    cases hlt
  rw [findElementGivenHash, if_neg hne, hH.table h hlt]
  simp only [Option.bind_eq_bind, Option.bind_some]
  cases hb : bucket h with
  | nil => rfl
  | cons r b =>
    have hmem : h ∈ order := (hH.mem h).mpr (by rw [hb]; exact List.cons_ne_nil _ _)
    obtain ⟨o₁, o₂, -, hflat⟩ := flatMap_split bucket hH.nodup hmem
    have hseg := hH.elems.segment
    rw [hflat, List.append_assoc, hb, dsegment_append, dsegment_append] at hseg
    exact findLoop_spec hseg.2.1 key

theorem Hash.Holds.find_cases (hH : H.Holds cls order bucket) (key : K) :
    (∃ h p x b₁ b₂, h = hashIndex (cls.xHash key) H.ht.length ∧ h < H.ht.length ∧ h ∈ order ∧
      bucket h = b₁ ++ (p, x) :: b₂ ∧ cls.xCompare x.pKey key = 0 ∧
      findElementGivenHash cls H key h = some (some p)) ∨
    ((∀ r ∈ order.flatMap bucket, cls.xCompare r.2.pKey key ≠ 0) ∧
      findElementGivenHash cls H key (hashIndex (cls.xHash key) H.ht.length) = some none) := by
  by_cases hnil : H.ht = []
  · refine .inr ⟨fun r hr => ?_, if_pos hnil⟩
    obtain ⟨k, hk, -⟩ := List.mem_flatMap.mp hr
    have hlt := hH.inside k hk
    rw [hnil] at hlt
    cases hlt
  · have hlt := hashIndex_lt (cls.xHash key) (List.length_pos_of_ne_nil hnil)
    have hfind := hH.find_bucket key hlt
    cases hr : (bucket (hashIndex (cls.xHash key) H.ht.length)).find?
        fun r => cls.xCompare r.2.pKey key = 0 with
    | some r =>
      obtain ⟨p, x⟩ := r
      rw [hr] at hfind
      obtain ⟨b₁, b₂, hb, -⟩ := (List.find?_eq_some_iff_append.mp hr).2
      have hx := of_decide_eq_true (List.find?_eq_some_iff_append.mp hr).1
      refine .inl ⟨_, p, x, b₁, b₂, rfl, hlt, (hH.mem _).mpr ?_, hb, hx, hfind⟩
      rw [hb]
      simp
    | none =>
      rw [hr] at hfind
      refine .inr ⟨fun r hmem hx => ?_, hfind⟩
      obtain ⟨k, hk, hrk⟩ := List.mem_flatMap.mp hmem
      have hindex := hH.index k r hrk
      rw [cls.hash_eq _ _ hx] at hindex
      rw [hindex] at hr
      exact List.find?_eq_none.mp hr r hrk (decide_eq_true hx)

theorem Hash.Holds.remove (hH : H.Holds cls order bucket) (hlt : h < H.ht.length)
    (hb : bucket h = b₁ ++ (p, x) :: b₂) :
    ∃ H' order' bucket', removeElementGivenHash H p h = some H' ∧ H'.Holds cls order' bucket' ∧
      (order.flatMap bucket).Perm ((p, x) :: order'.flatMap bucket') ∧
      H'.ht.length = H.ht.length ∧ H'.count = H.count - 1 ∧ H'.copyKey = H.copyKey := by
  have hmem : h ∈ order := (hH.mem h).mpr (by rw [hb]; simp)
  obtain ⟨o₁, o₂, rfl, hflat⟩ := exists_bucket bucket hH.nodup hmem
  obtain ⟨hnot, hnodup⟩ := List.nodup_cons.mp (List.nodup_middle.mp hH.nodup)
  have hall := hflat (bucket h)
  rw [Function.update_eq_self, hb] at hall
  have hlist : (o₁ ++ h :: o₂).flatMap bucket =
      (o₁.flatMap bucket ++ b₁) ++ (p, x) :: (b₂ ++ o₂.flatMap bucket) := by
    rw [hall]
    simp
  have helems := hH.elems
  rw [hlist] at helems
  obtain ⟨elems, hremove, helems', -, -⟩ := helems.remove
  have hcell := helems.segment.get
  -- a bucket that has become empty is no longer in the order
  obtain ⟨order', hnodup', hmem', hlist'⟩ : ∃ order' : List Nat, order'.Nodup ∧
      (∀ k, k ∈ order' ↔ (k = h ∧ b₁ ++ b₂ ≠ []) ∨ (k ≠ h ∧ k ∈ o₁ ++ h :: o₂)) ∧
      order'.flatMap (Function.update bucket h (b₁ ++ b₂)) =
        (o₁.flatMap bucket ++ b₁) ++ (b₂ ++ o₂.flatMap bucket) := by
    by_cases hnil : b₁ ++ b₂ = []
    · refine ⟨o₁ ++ o₂, hnodup, fun k => ?_, ?_⟩
      · by_cases hk : k = h
        · simp [hk, hnil, hnot]
        · simp [hk]
      · rw [flatMap_update hnot, List.flatMap_append]
        obtain ⟨rfl, rfl⟩ := List.append_eq_nil_iff.mp hnil
        simp
    · refine ⟨o₁ ++ h :: o₂, hH.nodup, fun k => ?_, ?_⟩
      · by_cases hk : k = h
        · simp [hk, hnil]
        · simp [hk]
      · rw [hflat]
        simp
  have hchain : (if (b₁ ++ (p, x) :: b₂).length - 1 ≤ 0 then none
      else if firstOr none (b₁ ++ (p, x) :: b₂) = some p then firstOr none (b₂ ++ o₂.flatMap bucket)
      else firstOr none (b₁ ++ (p, x) :: b₂)) = firstOr none (b₁ ++ b₂) := by
    cases b₁ with
    | nil =>
      rw [List.nil_append, List.nil_append, firstOr, if_pos rfl, List.length_cons]
      cases b₂ <;> rfl
    | cons r b₁ =>
      have hne : some r.1 ≠ some p := by
        intro he
        have hn := helems.nodup
        rw [List.map_append, List.map_cons] at hn
        have hnp := (List.nodup_cons.mp (List.nodup_middle.mp hn)).1
        rw [← Option.some.inj he] at hnp
        exact hnp (by simp)
      rw [if_neg (by simp), List.cons_append, firstOr, if_neg hne]
      rfl
  have hlength : (b₁ ++ (p, x) :: b₂).length - 1 = (b₁ ++ b₂).length := by simp
  rw [hlength] at hchain
  refine ⟨⟨H.copyKey, H.count - 1, elems,
    H.ht.set h ⟨(b₁ ++ b₂).length, firstOr none (b₁ ++ b₂)⟩⟩, order',
    Function.update bucket h (b₁ ++ b₂), ?_, ⟨?_, hnodup', fun k => ?_, fun k hk => ?_,
      fun k r hr => ?_, fun k hk => ?_⟩, ?_, List.length_set, rfl, rfl⟩
  · simp only [removeElementGivenHash, hcell, hH.table h hlt, Option.bind_eq_bind, Option.bind_some,
      hremove, hb, hchain, hlength]
  · rw [hlist']
    exact helems'
  · rw [hmem']
    by_cases hk : k = h
    · simp [hk]
    · rw [Function.update_of_ne hk, ← hH.mem k]
      simp [hk]
  · rw [List.length_set]
    rcases (hmem' k).mp hk with ⟨rfl, -⟩ | ⟨-, hk⟩
    · exact hlt
    · exact hH.inside k hk
  · rw [List.length_set]
    by_cases hkh : k = h
    · subst hkh
      rw [Function.update_self] at hr
      refine hH.index k r ?_
      rw [hb]
      rcases List.mem_append.mp hr with hr | hr
      · exact List.mem_append_left _ hr
      · exact List.mem_append_right _ (List.mem_cons_of_mem _ hr)
    · rw [Function.update_of_ne hkh] at hr
      exact hH.index k r hr
  · rw [List.length_set] at hk
    by_cases hkh : k = h
    · subst hkh
      rw [Function.update_self, List.getElem?_set_self hk]
    · rw [Function.update_of_ne hkh, List.getElem?_set_ne (Ne.symm hkh)]
      exact hH.table k hk
  · rw [hlist', hlist]
    exact List.perm_middle

theorem Hash.Holds.setData (hH : H.Holds cls order bucket) (hlt : h < H.ht.length)
    (hb : bucket h = b₁ ++ (p, x) :: b₂) (d : D) :
    ∃ H' A B, setElemData H p d = some H' ∧ H'.count = H.count ∧ H'.ht = H.ht ∧
      H'.Holds cls order (Function.update bucket h (b₁ ++ (p, ⟨x.pKey, d⟩) :: b₂)) ∧
      order.flatMap bucket = A ++ (p, x) :: B ∧
      order.flatMap (Function.update bucket h (b₁ ++ (p, ⟨x.pKey, d⟩) :: b₂)) =
        A ++ (p, ⟨x.pKey, d⟩) :: B := by
  have hmem : h ∈ order := (hH.mem h).mpr (by rw [hb]; simp)
  obtain ⟨o₁, o₂, rfl, hflat⟩ := exists_bucket bucket hH.nodup hmem
  have hall := hflat (bucket h)
  rw [Function.update_eq_self, hb] at hall
  have hlist : (o₁ ++ h :: o₂).flatMap bucket =
      (o₁.flatMap bucket ++ b₁) ++ (p, x) :: (b₂ ++ o₂.flatMap bucket) := by
    rw [hall]
    simp
  have hlist' : (o₁ ++ h :: o₂).flatMap (Function.update bucket h (b₁ ++ (p, ⟨x.pKey, d⟩) :: b₂)) =
      (o₁.flatMap bucket ++ b₁) ++ (p, ⟨x.pKey, d⟩) :: (b₂ ++ o₂.flatMap bucket) := by
    rw [hflat]
    simp
  have helems := hH.elems
  rw [hlist] at helems
  obtain ⟨elems, hrun, helems', -⟩ := helems.modify ⟨x.pKey, d⟩
  refine ⟨{ H with elems := elems }, _, _, ?_, rfl, rfl,
    ⟨?_, hH.nodup, fun k => ?_, hH.inside, fun k r hr => ?_, fun k hk => ?_⟩, hlist, hlist'⟩
  · rw [DLinked.modify_eq helems.segment.get] at hrun
    rw [setElemData, DLinked.modify_eq helems.segment.get, hrun]
    rfl
  · rw [hlist']
    exact helems'
  · rw [hH.mem k]
    by_cases hk : k = h
    · rw [hk, Function.update_self, hb]
      simp
    · rw [Function.update_of_ne hk]
  · by_cases hkh : k = h
    · subst hkh
      rw [Function.update_self, List.mem_append, List.mem_cons] at hr
      rcases hr with hr | rfl | hr
      · exact hH.index k r (by rw [hb]; exact List.mem_append_left _ hr)
      · exact hH.index k (p, x) (by rw [hb]; simp)
      · exact hH.index k r (by rw [hb]; exact List.mem_append_right _ (List.mem_cons_of_mem _ hr))
    · rw [Function.update_of_ne hkh] at hr
      exact hH.index k r hr
  · by_cases hkh : k = h
    · subst hkh
      rw [Function.update_self]
      have htable := hH.table k hk
      rw [hb] at htable
      rw [htable]
      cases b₁ <;> simp [firstOr]
    · rw [Function.update_of_ne hkh]
      exact hH.table k hk

end Find

/-- The map in which the keys that compare equal to a key have another value. -/
def KeyClass.set (cls : KeyClass K) (m : K → Option D) (key : K) (v : Option D) : K → Option D :=
  fun k => if cls.xCompare key k = 0 then v else m k

/-- The elements have no two equal keys, and are those of a map. -/
structure MapContent (cls : KeyClass K) (l : HashElems K D) (m : K → Option D) : Prop where
  distinct : l.Pairwise fun a b => cls.xCompare a.2.pKey b.2.pKey ≠ 0
  iff : ∀ k d, m k = some d ↔ ∃ r ∈ l, cls.xCompare r.2.pKey k = 0 ∧ r.2.data = d

/-- A hash table between two calls, with the map that it stands for. -/
structure Hash.Valid (cls : KeyClass K) (H : Hash K D) (m : K → Option D) : Prop where
  held : ∃ order bucket, H.Holds cls order bucket ∧ MapContent cls (order.flatMap bucket) m ∧
    H.count = (order.flatMap bucket).length
  size : H.ht = [] ∨ ∃ k, H.ht.length = 2 ^ k

section Content
variable {K D : Type} {cls : KeyClass K} {l l' A B : HashElems K D} {m : K → Option D}

theorem KeyClass.symm (cls : KeyClass K) {k k' : K} (h : cls.xCompare k k' = 0) :
    cls.xCompare k' k = 0 := cls.equal.symm h

theorem KeyClass.trans (cls : KeyClass K) {k k' k'' : K} (h : cls.xCompare k k' = 0)
    (h' : cls.xCompare k' k'' = 0) : cls.xCompare k k'' = 0 := cls.equal.trans h h'

theorem KeyClass.set_set (cls : KeyClass K) (m : K → Option D) (h : cls.xCompare key' key = 0)
    (v w : Option D) : cls.set (cls.set m key v) key' w = cls.set m key w := by
  funext k
  have hiff : cls.xCompare key' k = 0 ↔ cls.xCompare key k = 0 :=
    ⟨cls.trans (cls.symm h), cls.trans h⟩
  rw [KeyClass.set, KeyClass.set, KeyClass.set]
  by_cases hk : cls.xCompare key k = 0
  · rw [if_pos (hiff.mpr hk), if_pos hk]
  · rw [if_neg fun he => hk (hiff.mp he), if_neg hk, if_neg hk]

theorem MapContent.nil : MapContent (D := D) cls [] fun _ => none :=
  ⟨List.Pairwise.nil, fun _ _ => by simp⟩

theorem MapContent.perm (h : MapContent cls l m) (hp : l'.Perm l) : MapContent cls l' m := by
  refine ⟨hp.symm.pairwise h.distinct fun hab hba => hab (cls.symm hba), fun k d => ?_⟩
  rw [h.iff k d]
  exact exists_congr fun r => and_congr_left fun _ => hp.symm.mem_iff

theorem MapContent.eq_none (h : MapContent cls l m)
    (hkey : ∀ r ∈ l, cls.xCompare r.2.pKey key ≠ 0) : m key = none := by
  refine Option.eq_none_iff_forall_ne_some.mpr fun d hd => ?_
  obtain ⟨r, hr, hcmp, -⟩ := (h.iff key d).mp hd
  exact hkey r hr hcmp

theorem MapContent.eq_some (h : MapContent cls l m) (hr : (p, x) ∈ l)
    (hkey : cls.xCompare x.pKey key = 0) : m key = some x.data :=
  (h.iff key x.data).mpr ⟨(p, x), hr, hkey, rfl⟩

theorem MapContent.cons (h : MapContent cls l m)
    (hkey : ∀ r ∈ l, cls.xCompare r.2.pKey key ≠ 0) (p : Nat) (d : D) :
    MapContent cls ((p, ⟨key, d⟩) :: l) (cls.set m key (some d)) := by
  refine ⟨List.pairwise_cons.mpr ⟨fun r hr he => hkey r hr (cls.symm he), h.distinct⟩,
    fun k d' => ?_⟩
  rw [KeyClass.set, List.exists_mem_cons_iff]
  by_cases hk : cls.xCompare key k = 0
  · have hother : ¬ ∃ r ∈ l, cls.xCompare r.2.pKey k = 0 ∧ r.2.data = d' := by
      rintro ⟨r, hr, hcmp, -⟩
      exact hkey r hr (cls.trans hcmp (cls.symm hk))
    simp [hk, hother]
  · simp only [hk, if_false, false_and, false_or]
    exact h.iff k d'

theorem MapContent.remove (h : MapContent cls ((p, x) :: l) m)
    (hkey : cls.xCompare x.pKey key = 0) : MapContent cls l (cls.set m key none) := by
  obtain ⟨hx, hdistinct⟩ := List.pairwise_cons.mp h.distinct
  refine ⟨hdistinct, fun k d => ?_⟩
  have hiff := h.iff k d
  rw [List.exists_mem_cons_iff] at hiff
  rw [KeyClass.set]
  by_cases hk : cls.xCompare key k = 0
  · rw [if_pos hk]
    refine ⟨fun he => absurd he (by simp), ?_⟩
    rintro ⟨r, hr, hcmp, -⟩
    exact absurd (cls.trans hkey (cls.trans hk (cls.symm hcmp))) (hx r hr)
  · have hxk : cls.xCompare x.pKey k ≠ 0 := fun he => hk (cls.trans (cls.symm hkey) he)
    rw [if_neg hk, hiff]
    simp [hxk]

theorem MapContent.replace (h : MapContent cls (A ++ (p, x) :: B) m)
    (hkey : cls.xCompare x.pKey key = 0) (d : D) :
    MapContent cls (A ++ (p, ⟨x.pKey, d⟩) :: B) (cls.set m key (some d)) := by
  have hfront := h.perm List.perm_middle.symm
  have hother : ∀ r ∈ A ++ B, cls.xCompare r.2.pKey x.pKey ≠ 0 :=
    fun r hr he => (List.pairwise_cons.mp hfront.distinct).1 r hr (cls.symm he)
  have hnew := (hfront.remove hkey).cons hother p d
  rw [cls.set_set m hkey] at hnew
  exact hnew.perm List.perm_middle

end Content

def HashMalloc.Lacks (a : HashMalloc) (H : Hash K D) : Prop :=
  a.elem = none ∨ (H.copyKey = true ∧ a.key = false) ∨ (H.ht = [] ∧ a.table = false)

section Insert
variable {K D : Type} {cls : KeyClass K} {H : Hash K D} {order : List Nat}
  {bucket : Nat → HashElems K D} {m : K → Option D}

theorem sizeOk_iff (h : H.ht = [] ∨ ∃ k, H.ht.length = 2 ^ k) : SizeOk H.ht.length := by
  rw [SizeOk]
  rcases h with h | ⟨k, h⟩
  · rw [h]
    rfl
  · rw [h, Nat.and_two_pow_sub_one_eq_mod, Nat.mod_self]

theorem Hash.Holds.fresh (hH : H.Holds cls order bucket) (hp : H.elems.cells p = none) :
    p ∉ (order.flatMap bucket).map Prod.fst := by
  intro hmem
  obtain ⟨r, hr, rfl⟩ := List.mem_map.mp hmem
  obtain ⟨A, B, hl⟩ := List.append_of_mem hr
  have hseg := hH.elems.segment
  rw [hl] at hseg
  rw [hseg.get] at hp
  cases hp

theorem Hash.Holds.withCount (hH : H.Holds cls order bucket) (n : Nat) :
    ({ H with count := n } : Hash K D).Holds cls order bucket :=
  ⟨hH.elems, hH.nodup, hH.mem, hH.inside, hH.index, hH.table⟩

/-- A table without room for another element is replaced, if there is memory. -/
theorem Hash.Holds.grow (hH : H.Holds cls order bucket) (malloc : Bool)
    (hsize : H.ht.length = 2 ^ k) (hcount : (order.flatMap bucket).length ≤ H.count) :
    ∃ H' order' bucket' k', growTable cls H malloc = some H' ∧
      H'.Holds cls order' bucket' ∧ (order'.flatMap bucket').Perm (order.flatMap bucket) ∧
      H'.ht.length = 2 ^ k' ∧ H'.count = H.count ∧ H'.copyKey = H.copyKey ∧
      ∀ q ∉ (order.flatMap bucket).map Prod.fst, H'.elems.cells q = H.elems.cells q := by
  rw [growTable]
  split
  · have hok : SizeOk (H.ht.length * 2) := by
      rw [SizeOk, hsize, ← Nat.pow_succ, Nat.and_two_pow_sub_one_eq_mod, Nat.mod_self]
    have hpos : 0 < H.ht.length * 2 := by
      rw [hsize]
      exact Nat.mul_pos (Nat.two_pow_pos k) (by decide)
    obtain ⟨H', order', bucket', hrun, hH', hperm, hlen, hrest⟩ := hH.rehash malloc hok hpos hcount
    cases malloc with
    | false => exact ⟨H', order', bucket', k, hrun, hH', hperm, hlen.trans hsize, hrest⟩
    | true =>
      refine ⟨H', order', bucket', k + 1, hrun, hH', hperm, ?_, hrest⟩
      rw [hlen, if_pos rfl, hsize, Nat.pow_succ]
  · exact ⟨H, order, bucket, k, rfl, hH, .refl _, hsize, rfl, rfl, fun _ _ => rfl⟩

theorem Hash.Holds.makeTable (hH : H.Holds cls order bucket) (malloc : Bool)
    (hsize : H.ht = [] ∨ ∃ k, H.ht.length = 2 ^ k)
    (hcount : (order.flatMap bucket).length ≤ H.count) :
    (H.ht = [] ∧ malloc = false ∧ Pkgtools.makeTable cls H malloc = some H) ∨
    ¬ (H.ht = [] ∧ malloc = false) ∧ ∃ H' order' bucket' k,
      Pkgtools.makeTable cls H malloc = some H' ∧
      H'.Holds cls order' bucket' ∧ (order'.flatMap bucket').Perm (order.flatMap bucket) ∧
      H'.ht.length = 2 ^ k ∧ H'.count = H.count ∧ H'.copyKey = H.copyKey ∧
      ∀ q ∉ (order.flatMap bucket).map Prod.fst, H'.elems.cells q = H.elems.cells q := by
  rcases hsize with hnil | ⟨k, hk⟩
  · have hok : SizeOk 8 := rfl
    obtain ⟨H', order', bucket', hrun, hH', hperm, hlen, hrest⟩ :=
      hH.rehash malloc hok (by decide) hcount
    rw [Pkgtools.makeTable, if_pos hnil]
    cases malloc with
    | false => exact .inl ⟨hnil, rfl, rfl⟩
    | true => exact .inr ⟨by simp, H', order', bucket', 3, hrun, hH', hperm, hlen, hrest⟩
  · have hne : H.ht ≠ [] := by
      intro hnil
      rw [hnil, List.length_nil] at hk
      exact absurd hk.symm (Nat.two_pow_pos k).ne'
    exact .inr ⟨fun h => hne h.1, H, order, bucket, k, if_neg hne, hH, .refl _, hk, rfl, rfl,
      fun _ _ => rfl⟩

/-- A new element is added if there is memory for it; else the table stays as it is. -/
theorem insertElem_spec (hH : H.Holds cls order bucket)
    (hm : MapContent cls (order.flatMap bucket) m)
    (hcount : H.count = (order.flatMap bucket).length)
    (hsize : H.ht = [] ∨ ∃ k, H.ht.length = 2 ^ k)
    (hkey : ∀ r ∈ order.flatMap bucket, cls.xCompare r.2.pKey key ≠ 0) (a : HashMalloc)
    (hfree : ∀ p, a.elem = some p → H.elems.cells p = none) (d : D) :
    (a.Lacks H ∧ insertElem cls H a key d = some (some d, H)) ∨
    (¬ a.Lacks H ∧ ∃ H', insertElem cls H a key d = some (none, H') ∧
      H'.Valid cls (cls.set m key (some d))) := by
  cases ha : a.elem with
  | none => exact .inl ⟨.inl ha, by rw [insertElem, ha]⟩
  | some p =>
    by_cases hcopy : (H.copyKey && !a.key) = true
    · refine .inl ⟨.inr (.inl (by simpa using hcopy)), ?_⟩
      rw [insertElem, ha]
      exact if_pos hcopy
    · have hp := hH.fresh (hfree p ha)
      have hH₁ := hH.withCount (H.count + 1)
      rcases hH₁.makeTable a.table hsize (hcount ▸ Nat.le_succ _) with
        ⟨hnil, hmem, hrun⟩ | ⟨hnot, H₂, order₂, bucket₂, k₂, hrun₂, hH₂, hperm₂, hk₂, hcount₂, -,
          hframe₂⟩
      · -- no table: the count is that of an empty one
        refine .inl ⟨.inr (.inr ⟨hnil, hmem⟩), ?_⟩
        have horder : order = [] := by
          refine List.eq_nil_iff_forall_not_mem.mpr fun h hh => ?_
          have hlt := hH₁.inside h hh
          rw [hnil] at hlt
          cases hlt
        have hzero : H.count = 0 := by
          rw [hcount, horder]
          rfl
        have hsame : ({ H with count := 0 } : Hash K D) = H := by
          rw [← hzero]
        rw [insertElem, ha]
        refine (if_neg hcopy).trans ?_
        simp only [Option.bind_eq_bind, hrun, Option.bind_some]
        rw [if_pos hnil, hsame]
      · obtain ⟨H₃, order₃, bucket₃, k₃, hrun₃, hH₃, hperm₃, hk₃, hcount₃, -, hframe₃⟩ :=
          hH₂.grow a.table hk₂ (by rw [hcount₂, hperm₂.length_eq, hcount]; exact Nat.le_succ _)
        have hlist := hperm₃.trans hperm₂
        have hp₃ : p ∉ (order₃.flatMap bucket₃).map Prod.fst :=
          fun hmem => hp ((hlist.map Prod.fst).mem_iff.mp hmem)
        have hne₂ : H₂.ht ≠ [] := by
          intro hnil
          rw [hnil, List.length_nil] at hk₂
          exact absurd hk₂.symm (Nat.two_pow_pos k₂).ne'
        have hlt : hashIndex (cls.xHash key) H₃.ht.length < H₃.ht.length :=
          hashIndex_lt _ (by rw [hk₃]; exact Nat.two_pow_pos k₃)
        obtain ⟨H₄, order₄, hrun₄, hH₄, hperm₄, hlen₄, hcount₄, -, -⟩ :=
          hH₃.linkElem hp₃ ⟨key, d⟩ rfl hlt
        have hok := sizeOk_iff (.inr ⟨k₃, hk₃⟩)
        refine .inr ⟨?_, H₄, ?_, ⟨⟨order₄, _, hH₄, ?_, ?_⟩, .inr ⟨k₃, hlen₄.trans hk₃⟩⟩⟩
        · rintro (hnone | hkey' | hnil)
          · rw [ha] at hnone
            cases hnone
          · exact hcopy (by simp [hkey'.1, hkey'.2])
          · exact hnot hnil
        · rw [insertElem, ha]
          refine (if_neg hcopy).trans ?_
          simp only [Option.bind_eq_bind, hrun₂, Option.bind_some]
          rw [if_neg hne₂]
          simp only [hrun₃, Option.bind_some, guard, if_pos hok, Option.pure_def, hrun₄]
        · exact (hm.cons hkey p d).perm (hperm₄.trans (hlist.cons _))
        · rw [hcount₄, hcount₃, hcount₂, hperm₄.length_eq, List.length_cons, hlist.length_eq,
            hcount]

theorem hash_valid_init (cls : KeyClass K) (copyKey : Bool) :
    (sqliteHashInit copyKey : Hash K D).Valid cls fun _ => none :=
  ⟨⟨[], fun _ => [], Hash.holds_empty cls copyKey 0 ⟨fun _ => none, none⟩ 0, .nil, rfl⟩, .inl rfl⟩

/-- Nothing is done for a new key without memory, or without data. -/
def HashIdle (a : HashMalloc) (H : Hash K D) (m : K → Option D) (key : K) (data : Option D) :
    Prop :=
  m key = none ∧ (data = none ∨ a.Lacks H)

open Classical in
/-- The map after a call of `sqliteHashInsert`. -/
noncomputable def hashAfter (cls : KeyClass K) (a : HashMalloc) (H : Hash K D) (m : K → Option D)
    (key : K) (data : Option D) : K → Option D :=
  if HashIdle a H m key data then m else cls.set m key data

open Classical in
/-- What a call of `sqliteHashInsert` returns: the old data, or the new one that could not be
inserted. -/
noncomputable def hashReturned (a : HashMalloc) (H : Hash K D) (m : K → Option D) (key : K)
    (data : Option D) : Option D :=
  if HashIdle a H m key data then data else m key

theorem sqliteHashFind_spec (h : H.Valid cls m) (key : K) :
    sqliteHashFind cls H key = some (m key) := by
  obtain ⟨⟨order, bucket, hH, hm, -⟩, hsize⟩ := h
  have hok := sizeOk_iff hsize
  rw [sqliteHashFind]
  rcases hH.find_cases key with ⟨_, p, x, b₁, b₂, rfl, hlt, hmem, hb, hcmp, hfind⟩ | ⟨hkey, hfind⟩
  · have hne : H.ht ≠ [] := by
      rintro he
      rw [he] at hlt
      cases hlt
    obtain ⟨o₁, o₂, -, hflat⟩ := flatMap_split bucket hH.nodup hmem
    have hlist : order.flatMap bucket = (o₁.flatMap bucket ++ b₁) ++ (p, x) ::
        (b₂ ++ o₂.flatMap bucket) := by
      rw [hflat, hb]
      simp
    have hseg := hH.elems.segment
    rw [hlist] at hseg hm
    rw [if_neg hne, hm.eq_some (List.mem_append_right _ List.mem_cons_self) hcmp]
    simp only [guard, if_pos hok, Option.pure_def, Option.bind_eq_bind, Option.bind_some, hfind,
      hseg.get, Option.map_some]
  · rw [hm.eq_none hkey]
    split
    · rfl
    · simp only [guard, if_pos hok, Option.pure_def, Option.bind_eq_bind, Option.bind_some, hfind]

/-- A call of `sqliteHashInsert` returns, and does to the table what `hashAfter` says. -/
theorem sqliteHashInsert_spec (h : H.Valid cls m) (a : HashMalloc)
    (hfree : ∀ p, a.elem = some p → H.elems.cells p = none) (key : K) (data : Option D) :
    ∃ H', sqliteHashInsert cls H a key data = some (hashReturned a H m key data, H') ∧
      H'.Valid cls (hashAfter cls a H m key data) := by
  have hvalid := h
  obtain ⟨⟨order, bucket, hH, hm, hcount⟩, hsize⟩ := h
  have hok := sizeOk_iff hsize
  rcases hH.find_cases key with ⟨_, p, x, b₁, b₂, rfl, hlt, hmem, hb, hcmp, hfind⟩ | ⟨hkey, hfind⟩
  · obtain ⟨o₁, o₂, -, hflat⟩ := flatMap_split bucket hH.nodup hmem
    have hlist : order.flatMap bucket = (o₁.flatMap bucket ++ b₁) ++ (p, x) ::
        (b₂ ++ o₂.flatMap bucket) := by
      rw [hflat, hb]
      simp
    have hseg := hH.elems.segment
    have hx : (p, x) ∈ order.flatMap bucket := by
      rw [hlist]
      exact List.mem_append_right _ List.mem_cons_self
    rw [hlist] at hseg
    have hsome := hm.eq_some hx hcmp
    have hbusy : ¬ HashIdle a H m key data := fun hidle => by
      rw [HashIdle, hsome] at hidle
      cases hidle.1
    rw [hashReturned, hashAfter, if_neg hbusy, if_neg hbusy, hsome]
    simp only [sqliteHashInsert, guard, if_pos hok, Option.pure_def, Option.bind_eq_bind,
      Option.bind_some, hfind, hseg.get]
    cases data with
    | none =>
      obtain ⟨H', order', bucket', hrun, hH', hperm, hlen, hcount', -⟩ := hH.remove hlt hb
      refine ⟨H', by rw [hrun, Option.bind_some], ⟨⟨order', bucket', hH', ?_, ?_⟩, ?_⟩⟩
      · exact (hm.perm hperm.symm).remove hcmp
      · rw [hcount', hcount, hperm.length_eq, List.length_cons, Nat.add_sub_cancel]
      · rw [← List.length_eq_zero_iff, hlen, List.length_eq_zero_iff]
        exact hsize
    | some d =>
      obtain ⟨H', A, B, hrun, hcount', hht, hH', hold, hnew⟩ := hH.setData hlt hb d
      rw [hold] at hm hcount
      refine ⟨H', by simp only [hrun, Option.bind_some], ⟨⟨order, _, hH', ?_, ?_⟩, hht ▸ hsize⟩⟩
      · rw [hnew]
        exact hm.replace hcmp d
      · rw [hcount', hnew, List.length_append, List.length_cons]
        rw [List.length_append, List.length_cons] at hcount
        exact hcount
  · have hnone := hm.eq_none hkey
    simp only [sqliteHashInsert, guard, if_pos hok, Option.pure_def, Option.bind_eq_bind,
      Option.bind_some, hfind]
    cases data with
    | none =>
      have hidle : HashIdle a H m key (none : Option D) := ⟨hnone, .inl rfl⟩
      rw [hashReturned, hashAfter, if_pos hidle, if_pos hidle]
      exact ⟨H, rfl, hvalid⟩
    | some d =>
      rcases insertElem_spec hH hm hcount hsize hkey a hfree d with ⟨hlacks, hrun⟩ | ⟨hlacks, H',
        hrun, hH'⟩
      · have hidle : HashIdle a H m key (some d) := ⟨hnone, .inr hlacks⟩
        rw [hashReturned, hashAfter, if_pos hidle, if_pos hidle]
        exact ⟨H, hrun, hvalid⟩
      · have hbusy : ¬ HashIdle a H m key (some d) := by
          rintro ⟨-, hdata | hl⟩
          · cases hdata
          · exact hlacks hl
        rw [hashReturned, hashAfter, if_neg hbusy, if_neg hbusy, hnone]
        exact ⟨H', hrun, hH'⟩

theorem clearElems_spec {s : DLinked (HashElem K D)} (hnext : NextSegment s.cells l)
    (hn : (l.map Prod.fst).Nodup) (hfuel : l.length ≤ n) :
    ∃ s', clearElems n (firstOr none l) s = some s' ∧ s'.first = s.first ∧
      (∀ p ∈ l.map Prod.fst, s'.cells p = none) ∧
      ∀ p ∉ l.map Prod.fst, s'.cells p = s.cells p := by
  induction l generalizing s n with
  | nil =>
    refine ⟨s, ?_, rfl, fun p hp => absurd hp List.not_mem_nil, fun _ _ => rfl⟩
    cases n <;> rfl
  | cons r l ih =>
    obtain ⟨p, x⟩ := r
    obtain ⟨n, rfl⟩ : ∃ k, n = k + 1 := ⟨n - 1, by rw [List.length_cons] at hfuel; omega⟩
    obtain ⟨⟨b, hcell⟩, hrest⟩ := hnext
    obtain ⟨hp, hn⟩ := List.nodup_cons.mp hn
    have hrest' : NextSegment (s.put p none).cells l := by
      refine hrest.congr fun q hq => DLinked.put_ne s ?_ none
      rintro rfl
      exact hp hq
    obtain ⟨s', hrun, hfirst, hgone, hframe⟩ := ih hrest' hn (Nat.le_of_succ_le_succ hfuel)
    refine ⟨s', ?_, hfirst, fun q hq => ?_, fun q hq => ?_⟩
    · rw [firstOr, clearElems, hcell]
      exact hrun
    · rcases List.mem_cons.mp hq with rfl | hq
      · rw [hframe q hp, DLinked.put_self]
      · exact hgone q hq
    · rw [List.map_cons, List.mem_cons, not_or] at hq
      rw [hframe q hq.2, DLinked.put_ne s hq.1]

theorem sqliteHashClear_spec (h : H.Valid cls m) :
    ∃ H', sqliteHashClear H = some H' ∧ H'.Valid cls fun _ => none := by
  obtain ⟨⟨order, bucket, hH, -, hcount⟩, -⟩ := h
  have hnext : NextSegment ({ H.elems with first := none } : DLinked (HashElem K D)).cells
      (order.flatMap bucket) := hH.elems.segment.nexts
  obtain ⟨elems, hrun, hfirst, -⟩ := clearElems_spec hnext hH.elems.nodup hcount.ge
  refine ⟨⟨H.copyKey, 0, elems, []⟩, ?_, ⟨⟨[], fun _ => [], ?_, .nil, rfl⟩, .inl rfl⟩⟩
  · rw [sqliteHashClear, hH.elems.first, hrun]
    rfl
  · have hempty := Hash.holds_empty cls H.copyKey 0 elems 0
    have hnone : elems.first = none := hfirst
    rwa [← hnone] at hempty

theorem hashWalk_segment (hseg : DSegment H.elems.cells b l none) (n : Nat) (hn : l.length ≤ n) :
    hashWalk H n (firstOr none l) = some (l.map Prod.snd) := by
  induction l generalizing b n with
  | nil => cases n <;> rfl
  | cons r l ih =>
    obtain ⟨p, x⟩ := r
    obtain ⟨n, rfl⟩ : ∃ k, n = k + 1 := ⟨n - 1, by rw [List.length_cons] at hn; omega⟩
    rw [firstOr, hashWalk, hseg.1]
    simp only [Option.bind_eq_bind, Option.bind_some, ih hseg.2 n (Nat.le_of_succ_le_succ hn)]
    rfl

end Insert

/-- The states of a table that `sqliteHashInsert` and `sqliteHashClear` are called on again and
again, whatever memory there is, with the map that each stands for. -/
inductive HashRun {K D : Type} (cls : KeyClass K) (copyKey : Bool) :
    Hash K D → (K → Option D) → Prop
  | init : HashRun cls copyKey (sqliteHashInit copyKey) fun _ => none
  | insert (h : HashRun cls copyKey H m) (a : HashMalloc)
      (hfree : ∀ p, a.elem = some p → H.elems.cells p = none) (key : K) (data : Option D)
      (hcall : sqliteHashInsert cls H a key data = some (r, H')) :
      HashRun cls copyKey H' (hashAfter cls a H m key data)
  | clear (h : HashRun cls copyKey H m) (hcall : sqliteHashClear H = some H') :
      HashRun cls copyKey H' fun _ => none

section Runs
variable {K D : Type} {cls : KeyClass K} {H : Hash K D} {m : K → Option D}

theorem HashRun.valid (h : HashRun cls copyKey H m) : H.Valid cls m := by
  induction h with
  | init => exact hash_valid_init cls copyKey
  | insert h a hfree key data hcall ih =>
    obtain ⟨H', hrun, hH'⟩ := sqliteHashInsert_spec ih a hfree key data
    rw [hrun] at hcall
    cases hcall
    exact hH'
  | clear h hcall ih =>
    obtain ⟨H', hrun, hH'⟩ := sqliteHashClear_spec ih
    rw [hrun] at hcall
    cases hcall
    exact hH'

/-- Calls of `sqliteHashInsert`, each with its memory, one after the other. -/
def hashInsertAll (cls : KeyClass K) (H : Hash K D) :
    List (HashMalloc × K × Option D) → Option (Hash K D)
  | [] => some H
  | (a, key, data) :: calls => do
    guard ((a.elem.bind H.elems.cells).isNone)
    let (_, H) ← sqliteHashInsert cls H a key data
    hashInsertAll cls H calls

theorem HashRun.insertAll (h : HashRun cls copyKey H m) {calls : List (HashMalloc × K × Option D)}
    (hrun : hashInsertAll cls H calls = some H') : ∃ m', HashRun cls copyKey H' m' := by
  induction calls generalizing H m with
  | nil =>
    cases hrun
    exact ⟨m, h⟩
  | cons call calls ih =>
    obtain ⟨a, key, data⟩ := call
    rw [hashInsertAll] at hrun
    obtain ⟨_, hguard, hrun⟩ := Option.bind_eq_some_iff.mp hrun
    obtain ⟨⟨r, H₁⟩, hcall, hrun⟩ := Option.bind_eq_some_iff.mp hrun
    have hfree (p : Nat) (hp : a.elem = some p) : H.elems.cells p = none := by
      simpa [hp, guard] using hguard
    exact ih (h.insert a hfree key data hcall) hrun

/-- In every run a lookup finds what was inserted last, and an insertion returns the old data, or
the new one if there is no memory, when the table stays as it was. -/
theorem hashRun_spec (h : HashRun cls copyKey H m) :
    (∀ key, sqliteHashFind cls H key = some (m key)) ∧
    (∀ a, (∀ p, a.elem = some p → H.elems.cells p = none) → ∀ key data, ∃ H',
      sqliteHashInsert cls H a key data = some (hashReturned a H m key data, H') ∧
      ∀ k, sqliteHashFind cls H' k = some (hashAfter cls a H m key data k)) ∧
    ∃ H', sqliteHashClear H = some H' ∧ ∀ k, sqliteHashFind cls H' k = some none := by
  obtain ⟨H', hrun, hH'⟩ := sqliteHashClear_spec h.valid
  refine ⟨sqliteHashFind_spec h.valid, fun a hfree key data => ?_, H', hrun,
    sqliteHashFind_spec hH'⟩
  obtain ⟨H', hrun, hH'⟩ := sqliteHashInsert_spec h.valid a hfree key data
  exact ⟨H', hrun, sqliteHashFind_spec hH'⟩

/-- Ten keys, for which the table grows; one gets new data and one is taken out. -/
def tenKeys : List (HashMalloc × BitVec 32 × Option Nat) :=
  ((List.range 10).map fun i => (⟨some i, true, true⟩, BitVec.ofNat 32 (5 * i), some (i + 20))) ++
    [(⟨some 10, true, true⟩, 5, some 7), (⟨some 10, true, true⟩, 15, none)]

theorem hashInsertAll_tenKeys :
    ∃ (H : Hash (BitVec 32) Nat) (m : BitVec 32 → Option Nat), HashRun intKeys false H m ∧
      H.ht.length = 16 ∧ H.count = 9 ∧ sqliteHashFind intKeys H 5 = some (some 7) ∧
      sqliteHashFind intKeys H 15 = some none := by
  have hrun : (hashInsertAll intKeys (sqliteHashInit false) tenKeys).any fun H =>
      H.ht.length = 16 ∧ H.count = 9 ∧ sqliteHashFind intKeys H 5 = some (some 7) ∧
      sqliteHashFind intKeys H 15 = some none := by
    decide +kernel
  rw [Option.any_eq_true] at hrun
  obtain ⟨H, hsome, hH⟩ := hrun
  obtain ⟨m, h⟩ := HashRun.init.insertAll hsome
  exact ⟨H, m, h, of_decide_eq_true hH⟩

/-- A table that has grown. -/
theorem hashRun_spec_grown : ∃ (H : Hash (BitVec 32) Nat) (m : BitVec 32 → Option Nat),
    H.ht.length = 16 ∧ H.count = 9 ∧ m 5 = some 7 ∧ m 15 = none ∧
    (∀ key, sqliteHashFind intKeys H key = some (m key)) ∧
    (∀ a, (∀ p, a.elem = some p → H.elems.cells p = none) → ∀ key data, ∃ H',
      sqliteHashInsert intKeys H a key data = some (hashReturned a H m key data, H') ∧
      ∀ k, sqliteHashFind intKeys H' k = some (hashAfter intKeys a H m key data k)) ∧
    ∃ H', sqliteHashClear H = some H' ∧ ∀ k, sqliteHashFind intKeys H' k = some none := by
  obtain ⟨H, m, h, hsize, hcount, hfound, hgone⟩ := hashInsertAll_tenKeys
  have hspec := hashRun_spec h
  rw [hspec.1] at hfound hgone
  exact ⟨H, m, hsize, hcount, Option.some.inj hfound, Option.some.inj hgone, hspec⟩

/-- In every run the loop over the elements comes to each key of the map once, with its data, and
the count is theirs. -/
theorem hashWalk_spec (h : HashRun cls copyKey H m) : ∃ l,
    hashWalk H H.count H.elems.first = some l ∧ l.length = H.count ∧
    l.Pairwise (fun a b => cls.xCompare a.pKey b.pKey ≠ 0) ∧
    ∀ k d, m k = some d ↔ ∃ e ∈ l, cls.xCompare e.pKey k = 0 ∧ e.data = d := by
  obtain ⟨⟨order, bucket, hH, hm, hcount⟩, -⟩ := h.valid
  refine ⟨(order.flatMap bucket).map Prod.snd, ?_, ?_, ?_, fun k d => ?_⟩
  · rw [hH.elems.first]
    exact hashWalk_segment hH.elems.segment H.count hcount.ge
  · rw [List.length_map, hcount]
  · rw [List.pairwise_map]
    exact hm.distinct
  · rw [hm.iff k d]
    simp only [List.mem_map, exists_exists_and_eq_and]

/-- The loop over a table that has grown. -/
theorem hashWalk_spec_grown : ∃ (H : Hash (BitVec 32) Nat) (m : BitVec 32 → Option Nat),
    H.ht.length = 16 ∧ H.count = 9 ∧ ∃ l, hashWalk H H.count H.elems.first = some l ∧
      l.length = H.count ∧ l.Pairwise (fun a b => intKeys.xCompare a.pKey b.pKey ≠ 0) ∧
      ∀ k d, m k = some d ↔ ∃ e ∈ l, intKeys.xCompare e.pKey k = 0 ∧ e.data = d := by
  obtain ⟨H, m, h, hsize, hcount, -⟩ := hashInsertAll_tenKeys
  exact ⟨H, m, hsize, hcount, hashWalk_spec h⟩

end Runs

end Pkgtools
