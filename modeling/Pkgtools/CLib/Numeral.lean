import Mathlib.Tactic.Ring
import Pkgtools.CLib.Text

namespace CLib
set_option autoImplicit true

/-- Conversion to a signed integer type of `w` bits. -/
def wrap (w : Nat) (x : Int) : Int := x.bmod (2 ^ w)

theorem wrap_of_signed (hw : 0 < w) (h₁ : -2 ^ (w - 1) ≤ x) (h₂ : x < 2 ^ (w - 1)) :
    wrap w x = x := by
  obtain ⟨v, rfl⟩ : ∃ v, w = v + 1 := ⟨w - 1, by omega⟩
  simp only [Nat.add_sub_cancel] at h₁ h₂
  have hp : ((2 ^ (v + 1) : Nat) : Int) = 2 * 2 ^ v := by
    push_cast
    ring
  apply Int.bmod_eq_of_le_mul_two
  · rw [hp]
    omega
  · rw [hp]
    omega

theorem wrap_of_range (hw : 0 < w) (h₁ : 0 ≤ x) (h₂ : x < 2 ^ (w - 1)) : wrap w x = x :=
  wrap_of_signed hw (by omega) h₂

theorem wrap_bounds (hw : 0 < w) (x : Int) : -2 ^ (w - 1) ≤ wrap w x ∧ wrap w x < 2 ^ (w - 1) := by
  obtain ⟨v, rfl⟩ : ∃ v, w = v + 1 := ⟨w - 1, by omega⟩
  have hpos : (0 : Int) < ((2 ^ (v + 1) : Nat) : Int) := by exact_mod_cast Nat.two_pow_pos (v + 1)
  have hp : ((2 ^ (v + 1) : Nat) : Int) = 2 * 2 ^ v := by
    push_cast
    ring
  have h₁ := Int.le_bmod (x := x) (m := 2 ^ (v + 1)) (Nat.two_pow_pos (v + 1))
  have h₂ := Int.bmod_lt (x := x) (m := 2 ^ (v + 1)) (Nat.two_pow_pos (v + 1))
  rw [hp] at h₁ h₂
  rw [wrap, Nat.add_sub_cancel]
  omega

theorem wrap_wrap_add (w : Nat) (x y : Int) : wrap w (wrap w x + y) = wrap w (x + y) := by
  simp only [wrap, Int.bmod_add_bmod]

theorem wrap_wrap_mul_add (w : Nat) (x b y : Int) :
    wrap w (wrap w x * b + y) = wrap w (x * b + y) := by
  rw [← wrap_wrap_add w (wrap w x * b), ← wrap_wrap_add w (x * b)]
  simp only [wrap, Int.bmod_mul_bmod]

/-- The text `printf` makes of a signed integer for `%d` and `%ld`. -/
def fmtD (x : Int) : Str :=
  if x < 0 then '-' :: Nat.toDigits 10 x.natAbs else Nat.toDigits 10 x.natAbs

/-- The text `printf` makes of an unsigned integer for `%04o`. -/
def fmtO4 (n : Nat) : Str :=
  List.replicate (4 - (Nat.toDigits 8 n).length) '0' ++ Nat.toDigits 8 n

/-- The value of a run of digits, accumulated in a `long`: `*d = (*d * base) + (c & 017)`. -/
def digitsValue (base : Int) (s : Str) : Int :=
  s.foldl (fun d c => wrap 64 (d * base + (c.toNat % 16 : Nat))) 0

theorem digitsValue_bounds (base : Int) (ds : Str) :
    -2 ^ 63 ≤ digitsValue base ds ∧ digitsValue base ds < 2 ^ 63 := by
  rw [digitsValue]
  rcases List.eq_nil_or_concat ds with rfl | ⟨ds, c, rfl⟩
  · rw [List.foldl_nil]
    decide
  · rw [List.concat_eq_append, List.foldl_append]
    exact wrap_bounds (w := 64) (by decide) _

theorem isDigit_range {c : Char} (h : c.isDigit) : 48 ≤ c.toNat ∧ c.toNat ≤ 57 := by
  simp only [Char.isDigit, ge_iff_le, Bool.and_eq_true, decide_eq_true_eq] at h
  exact h

theorem digit_low_bits {c : Char} (h : c.isDigit) : c.toNat % 16 = c.toNat - '0'.toNat := by
  have h' := isDigit_range h
  change c.toNat % 16 = c.toNat - 48
  omega

theorem foldl_wrap_digits (w base : Nat) (s : Str) (hs : ∀ c ∈ s, c.isDigit) (x : Nat) :
    s.foldl (fun d c => wrap w (d * base + (c.toNat % 16 : Nat))) (wrap w x) =
      wrap w (Nat.ofDigitChars base s x) := by
  induction s generalizing x with
  | nil => simp
  | cons c s ih =>
    have hc := digit_low_bits (hs c List.mem_cons_self)
    have hm : (x : Int) * base + ((c.toNat - '0'.toNat : Nat) : Int) =
        ((base * x + (c.toNat - '0'.toNat) : Nat) : Int) := by
      push_cast
      rw [Int.mul_comm]
    rw [List.foldl_cons, wrap_wrap_mul_add, hc, hm, Nat.ofDigitChars_cons]
    exact ih (fun d hd => hs d (List.mem_cons_of_mem _ hd)) _

theorem digitsValue_eq (base : Nat) (hs : ∀ c ∈ s, c.isDigit) :
    digitsValue base s = wrap 64 (Nat.ofDigitChars base s 0) := by
  have h := foldl_wrap_digits 64 base s hs 0
  rw [show wrap 64 ((0 : Nat) : Int) = 0 from rfl] at h
  exact h

theorem toDigits_isDigit (hb : 1 < b) (hb' : b ≤ 10) : ∀ c ∈ Nat.toDigits b n, c.isDigit :=
  fun _ hc => Nat.isDigit_of_mem_toDigits (by omega) hb' hc

theorem fmtO4_isDigit (n : Nat) : ∀ c ∈ fmtO4 n, c.isDigit := by
  intro c hc
  rcases List.mem_append.mp hc with h | h
  · rw [List.eq_of_mem_replicate h]
    rfl
  · exact toDigits_isDigit (by decide) (by decide) c h

theorem fmtO4_ne_nil (n : Nat) : fmtO4 n ≠ [] := by
  simp [fmtO4, Nat.toDigits_ne_nil]

theorem fmtD_of_nonneg (h : 0 ≤ x) : fmtD x = Nat.toDigits 10 x.toNat := by
  rw [fmtD, if_neg (by omega), show x.natAbs = x.toNat by omega]

theorem fmtD_isDigit (h : 0 ≤ x) : ∀ c ∈ fmtD x, c.isDigit := by
  rw [fmtD_of_nonneg h]
  exact toDigits_isDigit (by decide) (by decide)

theorem fmtD_ne_nil (x : Int) : fmtD x ≠ [] := by
  rw [fmtD]
  split <;> simp [Nat.toDigits_ne_nil]

theorem fmtD_length (h₁ : -2 ^ 63 ≤ x) (h₂ : x < 2 ^ 63) : (fmtD x).length ≤ 20 := by
  have hn : x.natAbs < 10 ^ 19 := by omega
  have hl := (Nat.length_toDigits_le_iff (by decide) (by decide)).mpr hn
  rw [fmtD]
  split
  · rw [List.length_cons]
    omega
  · omega

theorem fmtO4_length (h : n < 2 ^ 16) : (fmtO4 n).length ≤ 6 := by
  have hn : n < 8 ^ 6 := by omega
  have hl := (Nat.length_toDigits_le_iff (by decide) (by decide)).mpr hn
  rw [fmtO4, List.length_append, List.length_replicate]
  omega

theorem digitsValue_fmtD (h₁ : 0 ≤ x) (h₂ : x < 2 ^ 63) : digitsValue 10 (fmtD x) = x := by
  have he := digitsValue_eq 10 (fmtD_isDigit h₁)
  rw [Nat.cast_ofNat] at he
  rw [he, fmtD_of_nonneg h₁, Nat.ofDigitChars_toDigits (by decide) (by decide),
    Int.toNat_of_nonneg h₁]
  exact wrap_of_range (by decide) h₁ h₂

theorem digitsValue_fmtO4 (h : n < 2 ^ 63) : digitsValue 8 (fmtO4 n) = n := by
  have he := digitsValue_eq 8 (fmtO4_isDigit n)
  rw [Nat.cast_ofNat] at he
  rw [he, fmtO4, Nat.ofDigitChars_append, Nat.ofDigitChars_replicate_zero, Nat.mul_zero,
    Nat.ofDigitChars_toDigits (by decide) (by decide)]
  exact wrap_of_range (by decide) (by omega) (by exact_mod_cast h)

theorem isspace_of_isDigit {c : Char} (h : c.isDigit) : isspace c = false := by
  have h' := isDigit_range h
  simp only [isspace, Bool.or_eq_false_iff, beq_eq_false_iff_ne, ne_eq]
  refine ⟨⟨⟨⟨⟨?_, ?_⟩, ?_⟩, ?_⟩, ?_⟩, ?_⟩ <;> rintro rfl <;> revert h' <;> decide

end CLib
