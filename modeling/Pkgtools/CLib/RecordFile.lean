import Mathlib.Data.List.Basic
import Pkgtools.CLib.Numeral
import Pkgtools.CLib.Text

namespace CLib
set_option autoImplicit true

/-- How a record is stored as bytes, all records with the same size. -/
structure Layout (α β : Type) where
  size : Nat
  size_pos : 0 < size
  zero : β
  encode : α → List β
  decode : List β → α
  /-- The records that the bytes can hold. -/
  Fits : α → Prop
  length_encode : ∀ r, (encode r).length = size
  decode_encode : ∀ r, Fits r → decode (encode r) = r

/-- `pread` of `n` bytes at an offset; short at the end of the file. -/
def preadAt (file : List β) (pos n : Nat) : List β := (file.drop pos).take n

/-- `pwrite` at an offset; a gap behind the end of the file is filled with zeros. -/
def pwriteAt (zero : β) (file : List β) (pos : Nat) (bytes : List β) : List β :=
  file.take pos ++ List.replicate (pos - file.length) zero ++ bytes ++
    file.drop (pos + bytes.length)

def ftruncate (zero : β) (file : List β) (n : Nat) : List β :=
  file.take n ++ List.replicate (n - file.length) zero

section Layout
variable {α β : Type} (L : Layout α β)

def Layout.store (rs : List α) : List β := rs.flatMap L.encode

/-- The records that are read one after the other, until a read is short. -/
def Layout.records (file : List β) : List α :=
  (List.range (file.length / L.size)).map fun i => L.decode (preadAt file (L.size * i) L.size)

theorem Layout.length_store (rs : List α) : (L.store rs).length = rs.length * L.size := by
  induction rs with
  | nil => exact (Nat.zero_mul _).symm
  | cons r rs ih =>
    have hcons : L.store (r :: rs) = L.encode r ++ L.store rs := rfl
    rw [hcons, List.length_append, L.length_encode, ih, List.length_cons, Nat.succ_mul,
      Nat.add_comm]

theorem Layout.store_append (rs ts : List α) : L.store (rs ++ ts) = L.store rs ++ L.store ts :=
  List.flatMap_append

theorem Layout.store_cons (r : α) (rs : List α) : L.store (r :: rs) = L.encode r ++ L.store rs :=
  rfl

theorem Layout.records_store (hfits : ∀ r ∈ rs, L.Fits r) : L.records (L.store rs) = rs := by
  have hcount : (L.store rs).length / L.size = rs.length := by
    rw [L.length_store, Nat.mul_div_cancel _ L.size_pos]
  apply List.ext_getElem
  · rw [Layout.records, List.length_map, List.length_range, hcount]
  · intro i hi hrs
    have hsplit : rs = rs.take i ++ rs[i] :: rs.drop (i + 1) := by
      rw [← List.drop_eq_getElem_cons hrs, List.take_append_drop]
    have hlen : (L.store (rs.take i)).length = L.size * i := by
      rw [L.length_store, List.length_take, Nat.min_eq_left (Nat.le_of_lt hrs), Nat.mul_comm]
    have hread : preadAt (L.store rs) (L.size * i) L.size = L.encode rs[i] := by
      rw [preadAt, congrArg L.store hsplit, L.store_append, ← hlen, List.drop_left, L.store_cons,
        List.take_left' (L.length_encode _)]
    simp only [Layout.records, List.getElem_map, List.getElem_range, hread,
      L.decode_encode _ (hfits _ (List.getElem_mem hrs))]

section At
variable {A B : List α} {n : Nat}

theorem Layout.offset (hA : A.length = n) : (L.store A).length = n * L.size := by
  rw [L.length_store, hA]

theorem Layout.pwrite_end (r : α) :
    pwriteAt L.zero (L.store A) (L.store A).length (L.encode r) = L.store (A ++ [r]) := by
  rw [pwriteAt, List.take_length, Nat.sub_self, List.drop_eq_nil_of_le (Nat.le_add_right _ _),
    L.store_append, L.store_cons]
  simp [Layout.store]

theorem Layout.pwrite_at (hA : A.length = n) (r x : α) :
    pwriteAt L.zero (L.store (A ++ r :: B)) (n * L.size) (L.encode x) = L.store (A ++ x :: B) := by
  have hgap : n * L.size - (L.store (A ++ r :: B)).length = 0 := by
    rw [L.length_store, List.length_append, hA, Nat.add_mul]
    omega
  have hrest : (L.store (A ++ r :: B)).drop (n * L.size + (L.encode x).length) = L.store B := by
    have hlen : n * L.size + (L.encode x).length = (L.store A ++ L.encode r).length := by
      rw [List.length_append, L.offset hA, L.length_encode, L.length_encode]
    rw [hlen, L.store_append, L.store_cons, ← List.append_assoc, List.drop_left]
  rw [pwriteAt, hgap, hrest, ← L.offset hA, L.store_append, List.take_left, L.store_append,
    L.store_cons, List.replicate_zero, List.append_nil, List.append_assoc]

theorem Layout.ftruncate_last (r : α) :
    ftruncate L.zero (L.store (A ++ [r])) ((L.store (A ++ [r])).length - L.size) = L.store A := by
  have hlen : (L.store (A ++ [r])).length - L.size = (L.store A).length := by
    rw [L.length_store, L.length_store, List.length_append, List.length_singleton, Nat.succ_mul,
      Nat.add_sub_cancel]
  have hgap : (L.store A).length - (L.store (A ++ [r])).length = 0 := by
    rw [← hlen]
    omega
  rw [hlen, ftruncate, hgap, List.replicate_zero, List.append_nil, L.store_append, List.take_left]

theorem Layout.pread_last (hA : A.length = n) (r : α) :
    preadAt (L.store (A ++ [r])) (n * L.size) L.size = L.encode r := by
  rw [preadAt, ← L.offset hA, L.store_append, List.drop_left, L.store_cons,
    List.take_left' (L.length_encode r)]

end At

end Layout

/-- One record after the other. -/
def Layout.pair (L : Layout α β) (M : Layout γ β) : Layout (α × γ) β where
  size := L.size + M.size
  size_pos := Nat.add_pos_left L.size_pos _
  zero := L.zero
  encode r := L.encode r.1 ++ M.encode r.2
  decode bytes := (L.decode (bytes.take L.size), M.decode (bytes.drop L.size))
  Fits r := L.Fits r.1 ∧ M.Fits r.2
  length_encode r := by rw [List.length_append, L.length_encode, M.length_encode]
  decode_encode r h := by
    rw [List.take_left' (L.length_encode _), List.drop_left' (L.length_encode _),
      L.decode_encode _ h.1, M.decode_encode _ h.2]

/-- The same bytes, read as another kind of record. -/
def Layout.map (L : Layout α β) (fields : γ → α) (make : α → γ) (hmake : ∀ r, make (fields r) = r) :
    Layout γ β where
  size := L.size
  size_pos := L.size_pos
  zero := L.zero
  encode r := L.encode (fields r)
  decode bytes := make (L.decode bytes)
  Fits r := L.Fits (fields r)
  length_encode r := L.length_encode _
  decode_encode r h := by rw [L.decode_encode _ h, hmake]

/-- An integer of `n` bytes, the lowest first. -/
def leBytes : Nat → Nat → Str
  | 0, _ => []
  | n + 1, v => Char.ofNat (v % 256) :: leBytes n (v / 256)

def leValue : Str → Nat
  | [] => 0
  | c :: s => c.toNat + 256 * leValue s

theorem length_leBytes (n v : Nat) : (leBytes n v).length = n := by
  induction n generalizing v with
  | zero => rfl
  | succ n ih => rw [leBytes, List.length_cons, ih]

theorem leValue_leBytes (h : v < 256 ^ n) : leValue (leBytes n v) = v := by
  induction n generalizing v with
  | zero =>
    rw [Nat.pow_zero] at h
    rw [leBytes, leValue]
    omega
  | succ n ih =>
    have hlow : (Char.ofNat (v % 256)).toNat = v % 256 := by
      have hvalid : (v % 256).isValidChar := .inl (by omega)
      rw [Char.ofNat, dif_pos hvalid]
      rfl
    rw [leBytes, leValue, hlow, ih (Nat.div_lt_of_lt_mul (by rwa [Nat.pow_succ'] at h))]
    exact Nat.mod_add_div v 256

/-- An unsigned integer of `n` bytes. -/
def unsignedLayout (n : Nat) (hn : 0 < n) : Layout Nat Char where
  size := n
  size_pos := hn
  zero := nul
  encode v := leBytes n v
  decode := leValue
  Fits v := v < 256 ^ n
  length_encode v := length_leBytes n v
  decode_encode _ h := leValue_leBytes h

/-- An `int` of four bytes. -/
def intLayout : Layout Int Char where
  size := 4
  size_pos := by decide
  zero := nul
  encode v := leBytes 4 (v % 2 ^ 32).toNat
  decode bytes := wrap 32 (leValue bytes)
  Fits v := -2 ^ 31 ≤ v ∧ v < 2 ^ 31
  length_encode _ := length_leBytes 4 _
  decode_encode v h := by
    rw [leValue_leBytes (by omega), Int.toNat_of_nonneg (by omega)]
    rw [wrap, show (2 : Int) ^ 32 = ((2 ^ 32 : Nat) : Int) from rfl, Int.emod_bmod]
    exact wrap_of_signed (by decide) h.1 h.2

/-- An array of `n` characters that holds a text and the NUL behind it. -/
def textLayout (n : Nat) : Layout Str Char where
  size := n + 1
  size_pos := Nat.succ_pos n
  zero := nul
  encode s := s.take n ++ List.replicate (n + 1 - (s.take n).length) nul
  decode bytes := bytes.takeWhile (· != nul)
  Fits s := s.length ≤ n ∧ NulFree s
  length_encode s := by
    rw [List.length_append, List.length_replicate, List.length_take]
    omega
  decode_encode s h := by
    have hgap : n + 1 - s.length = n - s.length + 1 := Nat.succ_sub h.1
    rw [List.take_of_length_le h.1, hgap, List.replicate_succ]
    refine takeWhile_append_cons (fun c hc => ?_) (by decide) _
    simp only [bne_iff_ne, ne_eq]
    rintro rfl
    exact h.2 hc

/-- Bytes of a structure that none of its fields has. -/
def gapLayout (n : Nat) (hn : 0 < n) : Layout Unit Char where
  size := n
  size_pos := hn
  zero := nul
  encode _ := List.replicate n nul
  decode _ := ()
  Fits _ := True
  length_encode _ := List.length_replicate
  decode_encode _ _ := rfl

end CLib
