import Pkgtools.HashTable

namespace Pkgtools
open CLib
set_option autoImplicit true

/-- `ptrHash`, of an address. -/
def ptrHash (pKey : BitVec 64) : BitVec 32 := (pKey ^^^ (pKey <<< 8) ^^^ (pKey >>> 8)).setWidth 32

def ptrCompare (pKey₁ pKey₂ : BitVec 64) : Int :=
  if pKey₁ = pKey₂ then 0 else if pKey₁ < pKey₂ then -1 else 1

/-- The table `UpperToLower`. -/
def upperToLower (c : Fin 256) : Fin 256 := if 65 ≤ c.val ∧ c.val ≤ 90 then c + 32 else c

/-- `sqliteHashNoCase`, of the `n > 0` bytes of a key. -/
def sqliteHashNoCase (z : Blob) : BitVec 32 :=
  z.foldl (fun (h : BitVec 32) c => (h <<< 3) ^^^ h ^^^ BitVec.ofNat 32 (upperToLower c).val) 0 &&&
    0x7fffffff

/-- `sqliteStrNICmp`, on the memory from two pointers on. -/
def sqliteStrNICmp : Blob → Blob → Nat → Int
  | a :: zLeft, b :: zRight, n + 1 =>
    if a ≠ 0 ∧ upperToLower a = upperToLower b then sqliteStrNICmp zLeft zRight n
    else (a.val : Int) - b.val
  | _, _, _ => 0

def strCompare (pKey₁ pKey₂ : Blob) : Int :=
  if pKey₁.length ≠ pKey₂.length then (pKey₂.length : Int) - pKey₁.length
  else sqliteStrNICmp pKey₁ pKey₂ pKey₁.length

/-- `binHash`. A `char` is signed. -/
def binHash (z : Blob) : BitVec 32 :=
  z.foldl (fun (h : BitVec 32) (c : Fin 256) =>
    (h <<< 3) ^^^ h ^^^ (BitVec.ofNat 8 c.val).signExtend 32) 0 &&& 0x7fffffff

def binCompare (pKey₁ pKey₂ : Blob) : Int :=
  if pKey₁.length ≠ pKey₂.length then (pKey₂.length : Int) - pKey₁.length
  else memcmp pKey₁ pKey₂ pKey₁.length

/-- The key of a string: it has no NUL but at its end. -/
structure StrKey where
  bytes : Blob
  nonempty : bytes ≠ []
  inner : 0 ∉ bytes.dropLast

def StrKey.folded (k : StrKey) : Blob := k.bytes.map upperToLower

theorem ptrCompare_eq_zero {p q : BitVec 64} : ptrCompare p q = 0 ↔ p = q := by
  rw [ptrCompare]
  split
  · simp_all
  · split <;> simp_all

/-- Two bytes that differ are not made equal by the end of a string. -/
theorem upperToLower_zero {c : Fin 256} : upperToLower 0 = upperToLower c ↔ 0 = c := by
  rw [upperToLower, upperToLower]
  constructor
  · intro h
    split at h
    · rename_i hc
      exact absurd hc (by decide)
    · split at h
      · rename_i hc
        have hval := congrArg Fin.val h
        rw [Fin.val_add] at hval
        simp at hval
        omega
      · exact h
  · rintro rfl
    rfl

theorem sqliteStrNICmp_eq_zero {s t : Blob} (hlen : s.length = t.length) (hs : 0 ∉ s.dropLast)
    (ht : 0 ∉ t.dropLast) :
    sqliteStrNICmp s t s.length = 0 ↔ s.map upperToLower = t.map upperToLower := by
  induction s generalizing t with
  | nil =>
    cases t with
    | nil => simp [sqliteStrNICmp]
    | cons b t => cases hlen
  | cons a s ih =>
    cases t with
    | nil => cases hlen
    | cons b t =>
      rw [List.length_cons, List.length_cons, Nat.succ_inj] at hlen
      rw [List.length_cons, sqliteStrNICmp, List.map_cons, List.map_cons, List.cons.injEq]
      have hab : (a.val : Int) - b.val = 0 ↔ a = b := by
        rw [Int.sub_eq_zero, Int.natCast_inj, Fin.val_inj]
      by_cases hfold : upperToLower a = upperToLower b
      · by_cases hzero : a = 0
        · -- a NUL, behind which both keys end
          have hsnil : s = [] := by
            cases s with
            | nil => rfl
            | cons c s => exact absurd (by simp [hzero]) hs
          have htnil : t = [] := by
            rw [hsnil] at hlen
            exact List.eq_nil_of_length_eq_zero hlen.symm
          subst hzero hsnil htnil
          rw [if_neg (by simp), hab, ← upperToLower_zero]
          simp
        · have hs' : 0 ∉ s.dropLast := fun h => hs (by
            cases s with
            | nil => cases h
            | cons c s => exact List.mem_cons_of_mem _ h)
          have ht' : 0 ∉ t.dropLast := fun h => ht (by
            cases t with
            | nil => cases h
            | cons c t => exact List.mem_cons_of_mem _ h)
          rw [if_pos ⟨hzero, hfold⟩, ih hlen hs' ht', and_iff_right hfold]
      · rw [if_neg fun h => hfold h.2, hab]
        constructor
        · rintro rfl
          exact absurd rfl hfold
        · exact fun h => absurd h.1 hfold

/-- Strings compare equal when they differ in the case of letters at most. -/
theorem strCompare_eq_zero {k k' : StrKey} :
    strCompare k.bytes k'.bytes = 0 ↔ k.folded = k'.folded := by
  rw [strCompare]
  split
  · rename_i hlen
    constructor
    · intro h
      omega
    · intro h
      have hmap := congrArg List.length h
      rw [StrKey.folded, StrKey.folded, List.length_map, List.length_map] at hmap
      exact absurd hmap hlen
  · rename_i hlen
    exact sqliteStrNICmp_eq_zero (not_not.mp hlen) k.inner k'.inner

theorem sqliteHashNoCase_folded (z : Blob) : sqliteHashNoCase z =
    (z.map upperToLower).foldl (fun (h : BitVec 32) (c : Fin 256) =>
      (h <<< 3) ^^^ h ^^^ BitVec.ofNat 32 c.val) 0 &&& 0x7fffffff := by
  rw [sqliteHashNoCase, List.foldl_map]

theorem binCompare_eq_zero {s t : Blob} : binCompare s t = 0 ↔ s = t := by
  rw [binCompare]
  split
  · rename_i hlen
    constructor
    · intro h
      omega
    · intro h
      exact absurd (congrArg List.length h) hlen
  · rename_i hlen
    have hlen := not_not.mp hlen
    obtain ⟨hzero, hneg, hpos⟩ := memcmp_spec s t
    rw [show min s.length t.length = s.length by omega] at hzero hneg hpos
    constructor
    · intro h
      exact (hzero h).1.mp hlen
    · rintro rfl
      rcases Int.lt_trichotomy (memcmp s s s.length) 0 with h | h | h
      · exact absurd (hneg h) (lt_irrefl s)
      · exact h
      · exact absurd (hpos h) (lt_irrefl s)

/-- `SQLITE_HASH_POINTER`. -/
def ptrKeys : KeyClass (BitVec 64) where
  xHash := ptrHash
  xCompare := ptrCompare
  equal := by
    simp only [ptrCompare_eq_zero]
    exact eq_equivalence
  hash_eq _ _ h := congrArg ptrHash (ptrCompare_eq_zero.mp h)

/-- `SQLITE_HASH_STRING`. -/
def strKeys : KeyClass StrKey where
  xHash k := sqliteHashNoCase k.bytes
  xCompare k k' := strCompare k.bytes k'.bytes
  equal := by
    simp only [strCompare_eq_zero]
    exact ⟨fun _ => rfl, Eq.symm, Eq.trans⟩
  hash_eq k k' h := by
    have hfold : k.bytes.map upperToLower = k'.bytes.map upperToLower := strCompare_eq_zero.mp h
    rw [sqliteHashNoCase_folded, sqliteHashNoCase_folded, hfold]

/-- `SQLITE_HASH_BINARY`. -/
def binKeys : KeyClass Blob where
  xHash := binHash
  xCompare := binCompare
  equal := by
    simp only [binCompare_eq_zero]
    exact eq_equivalence
  hash_eq _ _ h := congrArg binHash (binCompare_eq_zero.mp h)

/-- In a table of strings a name that was inserted is found under each spelling that differs in the
case of letters at most, and all other names are as before. -/
theorem strKeys_insert {m : StrKey → Option D} (h : HashRun strKeys copyKey H m) (a : HashMalloc)
    (hfree : ∀ p, a.elem = some p → H.elems.cells p = none) (hmem : ¬ a.Lacks H) (key : StrKey)
    (d : D) :
    ∃ H', sqliteHashInsert strKeys H a key (some d) = some (m key, H') ∧
      ∀ k, sqliteHashFind strKeys H' k = some (if k.folded = key.folded then some d else m k) := by
  obtain ⟨H', hcall, hH'⟩ := sqliteHashInsert_spec h.valid a hfree key (some d)
  have hbusy : ¬ HashIdle a H m key (some d) := by
    rintro ⟨-, hdata | hl⟩
    · cases hdata
    · exact hmem hl
  rw [hashReturned, if_neg hbusy] at hcall
  rw [hashAfter, if_neg hbusy] at hH'
  refine ⟨H', hcall, fun k => ?_⟩
  rw [sqliteHashFind_spec hH' k, KeyClass.set]
  have hiff : strKeys.xCompare key k = 0 ↔ k.folded = key.folded :=
    strCompare_eq_zero.trans eq_comm
  simp only [hiff]

/-- The names "Ab", "Bb" and so on. -/
def sampleName (c : Fin 26) : StrKey :=
  ⟨[Fin.ofNat 256 (65 + c.val), 98, 0], List.cons_ne_nil _ _, by revert c; decide⟩

/-- "aB". -/
def respelledName : StrKey := ⟨[97, 66, 0], List.cons_ne_nil _ _, by decide⟩

def sampleNames : List (HashMalloc × StrKey × Option Nat) :=
  (List.finRange 10).map fun c => (⟨some c.val, true, true⟩, sampleName (c.castLE (by decide)),
    some (c.val + 20))

/-- The first of ten names gets new data under another spelling. -/
theorem strKeys_insert_respelled : ∃ (H H' : Hash StrKey Nat) (m : StrKey → Option Nat),
    H.ht.length = 16 ∧ H.count = 10 ∧
    sqliteHashInsert strKeys H ⟨some 10, true, true⟩ respelledName (some 7) = some (some 20, H') ∧
    ∀ k, sqliteHashFind strKeys H' k =
      some (if k.folded = respelledName.folded then some 7 else m k) := by
  have hrun : (hashInsertAll strKeys (sqliteHashInit true) sampleNames).any fun H =>
      H.ht.length = 16 ∧ H.count = 10 ∧ (H.elems.cells 10).isNone ∧
      sqliteHashFind strKeys H respelledName = some (some 20) := by
    decide +kernel
  rw [Option.any_eq_true] at hrun
  obtain ⟨H, hsome, hH⟩ := hrun
  obtain ⟨hsize, hcount, hfree, hfound⟩ := of_decide_eq_true hH
  obtain ⟨m, h⟩ := HashRun.init.insertAll hsome
  have hold : m respelledName = some 20 := by
    rw [sqliteHashFind_spec h.valid] at hfound
    exact Option.some.inj hfound
  have hmem : ¬ HashMalloc.Lacks ⟨some 10, true, true⟩ H := by
    simp [HashMalloc.Lacks]
  have hcell (p : Nat) (hp : some 10 = some p) : H.elems.cells p = none := by
    cases hp
    exact Option.isNone_iff_eq_none.mp hfree
  obtain ⟨H', hcall, hspec⟩ := strKeys_insert h ⟨some 10, true, true⟩ hcell hmem respelledName 7
  rw [hold] at hcall
  exact ⟨H, H', m, hsize, hcount, hcall, hspec⟩

end Pkgtools
