import Mathlib.Data.List.Basic
import Mathlib.Tactic.Ring

namespace Pkgtools
set_option autoImplicit true

/-- The data models the tools are built for, named by the size of `unsigned long`. -/
inductive DataModel where
  | ilp32
  | lp64
  deriving DecidableEq, Repr

/-- `sizeof (unsigned long)`. -/
def DataModel.sizeofLong : DataModel → Nat
  | .ilp32 => 4
  | .lp64 => 8

/-- `LONG_BOUNDARY`. -/
def DataModel.longBoundary (m : DataModel) : Nat := m.sizeofLong - 1

/-- The value kept by a `long` accumulator, read as an unsigned bit pattern. -/
def DataModel.long (m : DataModel) (x : Nat) : Nat := x % 2 ^ (8 * m.sizeofLong)

/-- One addend of a byte loop: `((int)(*ucp++)) & WDMSK`. -/
def addend (b : UInt8) : Nat := b.toNat &&& 0xFFFF

/-- The leading byte loop. The pointer `ucp` is the address `addr` with the bytes from there to
`uep` behind it, so `ucp <= uep` says that this list is not empty. -/
def addLeading (m : DataModel) (addr lg : Nat) : List UInt8 → Nat × Nat × List UInt8
  | [] => (addr, lg, [])
  | b :: rest =>
    if addr &&& m.longBoundary ≠ 0 then addLeading m (addr + 1) (m.long (lg + addend b)) rest
    else (addr, lg, b :: rest)

def loadWord : List UInt8 → Nat
  | [] => 0
  | b :: rest => b.toNat + 256 * loadWord rest

/-- One addend of the word loop: `(int)(z >> k) & 0xFF & WDMSK`. -/
def wordAddend (z k : Nat) : Nat := (z >>> k) &&& 0xFF &&& 0xFFFF

/-- The whole-word loop, run while `ucp < ulep`, where `ulep` lies one word below the last byte. -/
def addWords (m : DataModel) : Nat → Nat → List UInt8 → Nat × List UInt8
  | 0, lg, rest => (lg, rest)
  | fuel + 1, lg, rest =>
    if m.sizeofLong + 1 < rest.length then
      let z := loadWord (rest.take m.sizeofLong)
      let lg := m.long (lg + wordAddend z 24)
      let lg := m.long (lg + wordAddend z 16)
      let lg := m.long (lg + wordAddend z 8)
      let lg := m.long (lg + wordAddend z 0)
      addWords m fuel lg (rest.drop m.sizeofLong)
    else (lg, rest)

def addTrailing (m : DataModel) (lg : Nat) : List UInt8 → Nat
  | [] => lg
  | b :: rest => addTrailing m (m.long (lg + addend b)) rest

/-- The members of `union hilo` on a little-endian machine. -/
def hiPart (lg : Nat) : Nat := lg % 2 ^ 16

def loPart (lg : Nat) : Nat := lg / 2 ^ 16 % 2 ^ 16

/-- `compute_checksum` of a file that `vfpOpen` has read into the buffer at address `addr`. -/
def computeChecksum (m : DataModel) (addr : Nat) (file : List UInt8) : Nat :=
  let (_, lg, rest) := addLeading m addr 0 file
  let (lg, rest) := addWords m rest.length lg rest
  let suma := addTrailing m lg rest
  let tempa := (loPart suma &&& 0xFFFF) + (hiPart suma &&& 0xFFFF)
  hiPart tempa + loPart tempa

def byteSum (file : List UInt8) : Nat := (file.map UInt8.toNat).sum

/-- The documented checksum, a function of the sum of all bytes. -/
def foldSum (s : Nat) : Nat :=
  let r := s % 2 ^ 16 + s / 2 ^ 16 % 2 ^ 16
  r % 2 ^ 16 + r / 2 ^ 16

/-- The number of bytes in front of the first word boundary. -/
def leadLength (m : DataModel) (addr : Nat) : Nat :=
  (m.sizeofLong - addr % m.sizeofLong) % m.sizeofLong

/-- A byte at offset `q` of the aligned tail of `n` bytes lies in the upper half of a word that
the word loop reads. -/
def Missed (m : DataModel) (n q : Nat) : Prop :=
  4 ≤ q % m.sizeofLong ∧ q - q % m.sizeofLong + m.sizeofLong + 1 < n

instance (m : DataModel) (n q : Nat) : Decidable (Missed m n q) :=
  inferInstanceAs (Decidable (_ ∧ _))

/-- The sum of the bytes of the aligned tail outside the upper halves of those words. -/
def tailSum (m : DataModel) (n : Nat) : Nat → List UInt8 → Nat
  | _, [] => 0
  | q, b :: rest => (if Missed m n q then 0 else b.toNat) + tailSum m n (q + 1) rest

/-- The sum of the bytes in the lower halves of the words, and of all bytes outside words. -/
def countedSum (m : DataModel) (addr : Nat) (file : List UInt8) : Nat :=
  let k := leadLength m addr
  byteSum (file.take k) + tailSum m (file.length - k) 0 (file.drop k)

theorem DataModel.sizeofLong_pos (m : DataModel) : 0 < m.sizeofLong := by
  cases m <;> decide

@[simp] theorem DataModel.long_add_long (m : DataModel) (x y : Nat) :
    m.long (m.long x + y) = m.long (x + y) := by
  simp only [DataModel.long, Nat.mod_add_mod]

theorem DataModel.long_mod (m : DataModel) (x : Nat) : m.long x % 2 ^ 32 = x % 2 ^ 32 := by
  cases m <;> simp only [DataModel.long, DataModel.sizeofLong] <;> omega

theorem addend_eq (b : UInt8) : addend b = b.toNat := by
  have hb := b.toNat_lt
  rw [addend, Nat.and_two_pow_sub_one_eq_mod _ 16]
  omega

theorem longBoundary_eq (m : DataModel) (addr : Nat) :
    addr &&& m.longBoundary = addr % m.sizeofLong := by
  cases m with
  | ilp32 => exact Nat.and_two_pow_sub_one_eq_mod addr 2
  | lp64 => exact Nat.and_two_pow_sub_one_eq_mod addr 3

@[simp] theorem byteSum_cons (b : UInt8) (l : List UInt8) :
    byteSum (b :: l) = b.toNat + byteSum l := by
  simp only [byteSum, List.map_cons, List.sum_cons]

theorem leadLength_succ (m : DataModel) (h : addr % m.sizeofLong ≠ 0) :
    leadLength m addr = leadLength m (addr + 1) + 1 := by
  cases m <;> simp only [leadLength, DataModel.sizeofLong] at * <;> omega

theorem leadLength_aligned (m : DataModel) (h : addr % m.sizeofLong = 0) :
    leadLength m addr = 0 := by
  rw [leadLength, h, Nat.sub_zero, Nat.mod_self]

/-- The leading loop stops at the first word boundary, or at the end of the file. -/
theorem addLeading_eq (m : DataModel) (addr lg : Nat) (file : List UInt8) (hl : m.long lg = lg) :
    (addLeading m addr lg file).2 =
      (m.long (lg + byteSum (file.take (leadLength m addr))), file.drop (leadLength m addr)) := by
  induction file generalizing addr lg with
  | nil => simp [addLeading, byteSum, hl]
  | cons b rest ih =>
    rw [addLeading, longBoundary_eq]
    by_cases h : addr % m.sizeofLong = 0
    · rw [if_neg (not_not.mpr h), leadLength_aligned m h]
      simp [byteSum, hl]
    · rw [if_pos h, ih _ _ (by simp [DataModel.long]), leadLength_succ m h, addend_eq]
      simp [Nat.add_assoc]

theorem addTrailing_eq (m : DataModel) (lg : Nat) (file : List UInt8) (hl : m.long lg = lg) :
    addTrailing m lg file = m.long (lg + byteSum file) := by
  induction file generalizing lg with
  | nil => simp [addTrailing, byteSum, hl]
  | cons b rest ih =>
    rw [addTrailing, ih _ (by simp [DataModel.long]), addend_eq]
    simp [Nat.add_assoc]

theorem wordAddend_eq (z k : Nat) : wordAddend z k = z / 2 ^ k % 256 := by
  rw [wordAddend, Nat.shiftRight_eq_div_pow, Nat.and_two_pow_sub_one_eq_mod _ 8,
    Nat.and_two_pow_sub_one_eq_mod _ 16]
  omega

/-- Only the four low bytes of a loaded word are added. -/
theorem wordAddend_sum (b₀ b₁ b₂ b₃ : UInt8) (rest : List UInt8) :
    wordAddend (loadWord (b₀ :: b₁ :: b₂ :: b₃ :: rest)) 24 +
      wordAddend (loadWord (b₀ :: b₁ :: b₂ :: b₃ :: rest)) 16 +
      wordAddend (loadWord (b₀ :: b₁ :: b₂ :: b₃ :: rest)) 8 +
      wordAddend (loadWord (b₀ :: b₁ :: b₂ :: b₃ :: rest)) 0 =
    b₀.toNat + b₁.toNat + b₂.toNat + b₃.toNat := by
  have h₀ := b₀.toNat_lt
  have h₁ := b₁.toNat_lt
  have h₂ := b₂.toNat_lt
  have h₃ := b₃.toNat_lt
  simp only [wordAddend_eq, loadWord]
  generalize loadWord rest = w
  omega

theorem tailSum_append (m : DataModel) (n q : Nat) (l l' : List UInt8) :
    tailSum m n q (l ++ l') = tailSum m n q l + tailSum m n (q + l.length) l' := by
  induction l generalizing q with
  | nil => simp [tailSum]
  | cons b l ih =>
    simp only [List.cons_append, tailSum, ih, List.length_cons]
    rw [show q + 1 + l.length = q + (l.length + 1) by omega]
    omega

theorem tailSum_shift (m : DataModel) (n q : Nat) (l : List UInt8) :
    tailSum m (n + m.sizeofLong) (q + m.sizeofLong) l = tailSum m n q l := by
  induction l generalizing q with
  | nil => rfl
  | cons b l ih =>
    have he : Missed m (n + m.sizeofLong) (q + m.sizeofLong) ↔ Missed m n q := by
      cases m <;> simp only [Missed, DataModel.sizeofLong] <;> omega
    rw [tailSum, tailSum, show q + m.sizeofLong + 1 = q + 1 + m.sizeofLong by omega, ih]
    simp only [he]

theorem tailSum_short (m : DataModel) (n q : Nat) (l : List UInt8)
    (h : n ≤ m.sizeofLong + 1) : tailSum m n q l = byteSum l := by
  induction l generalizing q with
  | nil => rfl
  | cons b l ih =>
    have hm : ¬ Missed m n q := by
      simp only [Missed]
      omega
    rw [tailSum, if_neg hm, ih, byteSum_cons]

/-- The first word of a long tail contributes the sum that the word loop adds for it. -/
theorem tailSum_word (m : DataModel) (l : List UInt8) (h : m.sizeofLong + 1 < l.length) :
    tailSum m l.length 0 (l.take m.sizeofLong) =
      wordAddend (loadWord (l.take m.sizeofLong)) 24 +
      wordAddend (loadWord (l.take m.sizeofLong)) 16 +
      wordAddend (loadWord (l.take m.sizeofLong)) 8 +
      wordAddend (loadWord (l.take m.sizeofLong)) 0 := by
  cases m with
  | ilp32 =>
    match l, h with
    | b₀ :: b₁ :: b₂ :: b₃ :: l, h =>
      simp only [DataModel.sizeofLong, List.take_succ_cons, List.take_zero, wordAddend_sum]
      simp [tailSum, Missed, DataModel.sizeofLong]
      omega
  | lp64 =>
    match l, h with
    | b₀ :: b₁ :: b₂ :: b₃ :: b₄ :: b₅ :: b₆ :: b₇ :: l, h =>
      have hmissed (q : Nat) (hq : q < 8) : Missed .lp64
          (b₀ :: b₁ :: b₂ :: b₃ :: b₄ :: b₅ :: b₆ :: b₇ :: l).length q ↔ 4 ≤ q := by
        dsimp only [DataModel.sizeofLong] at h
        rw [Missed, DataModel.sizeofLong, Nat.mod_eq_of_lt hq]
        omega
      generalize (b₀ :: b₁ :: b₂ :: b₃ :: b₄ :: b₅ :: b₆ :: b₇ :: l).length = n at hmissed
      simp only [DataModel.sizeofLong, List.take_succ_cons, List.take_zero, wordAddend_sum]
      simp (disch := decide) only [tailSum, hmissed, Nat.reduceAdd, Nat.reduceLeDiff, if_true,
        if_false]
      omega

theorem tailSum_step (m : DataModel) (l : List UInt8) (h : m.sizeofLong + 1 < l.length) :
    tailSum m l.length 0 l = tailSum m l.length 0 (l.take m.sizeofLong) +
      tailSum m (l.drop m.sizeofLong).length 0 (l.drop m.sizeofLong) := by
  conv_lhs => rw [← List.take_append_drop m.sizeofLong l]
  rw [tailSum_append, List.take_append_drop, List.length_take, List.length_drop]
  have hlen : l.length = l.length - m.sizeofLong + m.sizeofLong := by omega
  rw [Nat.min_eq_left (by omega)]
  conv_lhs =>
    enter [2]
    rw [hlen, tailSum_shift]

/-- The word loop and the trailing loop together add every byte outside the upper word halves. -/
theorem addWords_addTrailing (m : DataModel) (fuel lg : Nat) (l : List UInt8)
    (hf : l.length ≤ fuel) (hl : m.long lg = lg) :
    addTrailing m (addWords m fuel lg l).1 (addWords m fuel lg l).2 =
      m.long (lg + tailSum m l.length 0 l) := by
  induction fuel generalizing lg l with
  | zero =>
    have he : l = [] := List.eq_nil_of_length_eq_zero (by omega)
    subst he
    simp [addWords, addTrailing, tailSum, hl]
  | succ fuel ih =>
    rw [addWords]
    by_cases h : m.sizeofLong + 1 < l.length
    · have hp := m.sizeofLong_pos
      simp only [if_pos h]
      rw [ih _ _ (by rw [List.length_drop]; omega) (by simp [DataModel.long]),
        tailSum_step m l h, tailSum_word m l h]
      simp only [DataModel.long_add_long, Nat.add_assoc]
    · simp only [if_neg h]
      rw [addTrailing_eq m lg l hl, tailSum_short m l.length 0 l (by omega)]

theorem end_around (h : r ≤ 131070) :
    r % 2 ^ 16 + r / 2 ^ 16 = if r < 65536 then r else r - 65535 := by
  split <;> omega

theorem end_around_eq_iff (hr : r ≤ 131070) (hs : s ≤ 131070) :
    r % 2 ^ 16 + r / 2 ^ 16 = s % 2 ^ 16 + s / 2 ^ 16 ↔
      r % 65535 = s % 65535 ∧ (r = 0 ↔ s = 0) := by
  rw [end_around hr, end_around hs]
  have hr' : r < 65535 ∨ r = 65535 ∨ (65535 < r ∧ r < 131070) ∨ r = 131070 := by omega
  have hs' : s < 65535 ∨ s = 65535 ∨ (65535 < s ∧ s < 131070) ∨ s = 131070 := by omega
  rcases hr' with h | h | h | h <;> rcases hs' with h' | h' | h' | h' <;>
    split <;> split <;> omega

/-- Folding is addition with end-around carry: it keeps the residue modulo `65535`. -/
theorem foldSum_eq_iff (x y : Nat) : foldSum x = foldSum y ↔
    x % 2 ^ 32 % 65535 = y % 2 ^ 32 % 65535 ∧ (x % 2 ^ 32 = 0 ↔ y % 2 ^ 32 = 0) := by
  have hx : x % 2 ^ 32 = x % 2 ^ 16 + 65536 * (x / 2 ^ 16 % 2 ^ 16) := by omega
  have hy : y % 2 ^ 32 = y % 2 ^ 16 + 65536 * (y / 2 ^ 16 % 2 ^ 16) := by omega
  simp only [foldSum]
  rw [end_around_eq_iff (by omega) (by omega), hx, hy]
  omega

theorem computeChecksum_eq (m : DataModel) (addr : Nat) (file : List UInt8) :
    computeChecksum m addr file = foldSum (countedSum m addr file) := by
  have hlead := addLeading_eq m addr 0 file (by simp [DataModel.long])
  simp only [computeChecksum, hlead]
  rw [addWords_addTrailing m _ _ _ (Nat.le_refl _) (by simp [DataModel.long]),
    DataModel.long_add_long, Nat.zero_add, List.length_drop]
  change _ = foldSum (byteSum _ + tailSum _ _ _ _)
  generalize byteSum _ + tailSum _ _ _ _ = s
  have hs := m.long_mod s
  simp only [foldSum, hiPart, loPart, Nat.and_two_pow_sub_one_eq_mod _ 16]
  have h₁ : m.long s % 2 ^ 16 = s % 2 ^ 16 := by omega
  have h₂ : m.long s / 2 ^ 16 % 2 ^ 16 = s / 2 ^ 16 % 2 ^ 16 := by omega
  have hr : (s % 2 ^ 16 + s / 2 ^ 16 % 2 ^ 16) / 2 ^ 16 < 2 ^ 16 := by omega
  rw [h₁, h₂, Nat.mod_mod, Nat.mod_mod, Nat.add_comm (s / 2 ^ 16 % 2 ^ 16), Nat.mod_eq_of_lt hr]

/-- The checksum is the documented one exactly when the bytes in the upper halves of the words
read by the word loop do not show in the folded sum. -/
theorem computeChecksum_documented_iff (m : DataModel) (addr : Nat) (file : List UInt8) :
    computeChecksum m addr file = foldSum (byteSum file) ↔
      countedSum m addr file % 2 ^ 32 % 65535 = byteSum file % 2 ^ 32 % 65535 ∧
      (countedSum m addr file % 2 ^ 32 = 0 ↔ byteSum file % 2 ^ 32 = 0) := by
  rw [computeChecksum_eq, foldSum_eq_iff]

/-- A word-aligned file of ten bytes with the one non-zero byte in the upper half of a word. -/
theorem computeChecksum_lp64_upper_half :
    ¬ ∀ (m : DataModel) (addr : Nat) (file : List UInt8),
      computeChecksum m addr file = foldSum (byteSum file) := by
  intro h
  have := h .lp64 4096 [0, 0, 0, 0, 1, 0, 0, 0, 0, 0]
  revert this
  decide

theorem tailSum_ilp32 (n q : Nat) (l : List UInt8) : tailSum .ilp32 n q l = byteSum l := by
  induction l generalizing q with
  | nil => rfl
  | cons b l ih =>
    have hm : ¬ Missed .ilp32 n q := by
      simp only [Missed, DataModel.sizeofLong]
      omega
    rw [tailSum, if_neg hm, ih, byteSum_cons]

/-- With a four-byte `unsigned long` the checksum is always the documented one. -/
theorem computeChecksum_ilp32 (addr : Nat) (file : List UInt8) :
    computeChecksum .ilp32 addr file = foldSum (byteSum file) := by
  rw [computeChecksum_eq, countedSum, tailSum_ilp32]
  congr 1
  simp only [byteSum, ← List.sum_append, ← List.map_append, List.take_append_drop]

end Pkgtools
