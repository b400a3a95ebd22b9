import Pkgtools.CLib.Numeral

namespace CLib
set_option autoImplicit true

/-- White space in a `scanf` format. -/
def skipSpace (s : Str) : Str := s.dropWhile isspace

/-- `%s`: the word read and what is left of the input. -/
def scanWord (s : Str) : Option (Str × Str) :=
  let w := (skipSpace s).takeWhile fun c => !isspace c
  if w = [] then none else some (w, (skipSpace s).dropWhile fun c => !isspace c)

/-- A set of characters, such as `%[ 0-9]`. -/
def scanSet (p : Char → Bool) (s : Str) : Option (Str × Str) :=
  if s.takeWhile p = [] then none else some (s.takeWhile p, s.dropWhile p)

def scanSign : Str → Int × Str
  | '-' :: s => (-1, s)
  | '+' :: s => (1, s)
  | s => (1, s)

/-- `%d` for a type of `w` bits: the value is read as a 64-bit number, which stays at its bounds. -/
def scanInt (w : Nat) (s : Str) : Option (Int × Str) :=
  let (sign, s) := scanSign (skipSpace s)
  let ds := s.takeWhile Char.isDigit
  if ds = [] then none
  else
    let x := sign * Nat.ofDigitChars 10 ds 0
    some (wrap w (max (-2 ^ 63) (min x (2 ^ 63 - 1))), s.dropWhile Char.isDigit)

def EndsNumber (s : Str) : Prop := s.takeWhile Char.isDigit = []

theorem skipSpace_cons_of_not (h : isspace c = false) (s : Str) : skipSpace (c :: s) = c :: s :=
  List.dropWhile_cons_of_neg (by simp [h])

theorem takeWhile_digits (hs : ∀ c ∈ s, c.isDigit) (ht : EndsNumber t) :
    (s ++ t).takeWhile Char.isDigit = s := by
  rw [List.takeWhile_append_of_pos hs, ht, List.append_nil]

theorem dropWhile_digits (hs : ∀ c ∈ s, c.isDigit) (ht : EndsNumber t) :
    (s ++ t).dropWhile Char.isDigit = t := by
  rw [List.dropWhile_append_of_pos hs]
  have h := List.takeWhile_append_dropWhile (p := Char.isDigit) (l := t)
  rw [EndsNumber] at ht
  rw [ht, List.nil_append] at h
  exact h

theorem scanSign_digit (hc : c.isDigit) (s : Str) : scanSign (c :: s) = (1, c :: s) := by
  have hr := isDigit_range hc
  rw [scanSign.eq_3]
  · intro t he
    cases he
    exact absurd hr (by decide)
  · intro t he
    cases he
    exact absurd hr (by decide)

theorem scanInt_digits {w : Nat} {x : Int} (hsign : scanSign (skipSpace s) = (g, ds ++ t))
    (hds : ∀ c ∈ ds, c.isDigit) (hne : ds ≠ []) (ht : EndsNumber t)
    (hx : g * Nat.ofDigitChars 10 ds 0 = x) (hw : 0 < w) (hw' : w ≤ 64)
    (h₁ : -2 ^ (w - 1) ≤ x) (h₂ : x < 2 ^ (w - 1)) : scanInt w s = some (x, t) := by
  have hpow : (2 : Int) ^ (w - 1) ≤ 2 ^ 63 := by
    exact_mod_cast Nat.pow_le_pow_right (by decide) (show w - 1 ≤ 63 by omega)
  have hclamp : max (-2 ^ 63) (min x (2 ^ 63 - 1)) = x := by omega
  simp only [scanInt, hsign, takeWhile_digits hds ht, if_neg hne, dropWhile_digits hds ht, hx,
    hclamp, wrap_of_signed hw h₁ h₂]

theorem scanInt_fmtD {w : Nat} (hw : 0 < w) (hw' : w ≤ 64) (h₁ : -2 ^ (w - 1) ≤ x)
    (h₂ : x < 2 ^ (w - 1)) (ht : EndsNumber t) : scanInt w (fmtD x ++ t) = some (x, t) := by
  have hds : ∀ c ∈ Nat.toDigits 10 x.natAbs, c.isDigit :=
    toDigits_isDigit (by decide) (by decide)
  have hval : Nat.ofDigitChars 10 (Nat.toDigits 10 x.natAbs) 0 = x.natAbs :=
    Nat.ofDigitChars_toDigits (by decide) (by decide)
  have hne : Nat.toDigits 10 x.natAbs ≠ [] := Nat.toDigits_ne_nil
  by_cases hx : x < 0
  · rw [fmtD, if_pos hx]
    apply scanInt_digits (g := -1) _ hds hne ht _ hw hw' h₁ h₂
    · rw [List.cons_append, skipSpace_cons_of_not (by decide)]
      rfl
    · rw [hval]
      omega
  · rw [fmtD, if_neg hx]
    apply scanInt_digits (g := 1) _ hds hne ht _ hw hw' h₁ h₂
    · obtain ⟨c, s, hcs⟩ := List.exists_cons_of_ne_nil hne
      have hc : c.isDigit := hds c (hcs ▸ List.mem_cons_self)
      rw [hcs, List.cons_append, skipSpace_cons_of_not (isspace_of_isDigit hc), scanSign_digit hc]
    · rw [hval]
      omega

theorem scanWord_append (hs : ∀ c ∈ s, isspace c = false) (hne : s ≠ []) (hd : isspace d)
    (t : Str) : scanWord (s ++ d :: t) = some (s, d :: t) := by
  have hskip : skipSpace (s ++ d :: t) = s ++ d :: t := by
    obtain ⟨c, s', rfl⟩ := List.exists_cons_of_ne_nil hne
    exact skipSpace_cons_of_not (hs c List.mem_cons_self) _
  have hword : ∀ c ∈ s, (!isspace c) = true := by
    intro c hc
    rw [hs c hc]
    rfl
  have hend : (!isspace d) = false := by rw [hd]; rfl
  simp only [scanWord, hskip, takeWhile_append_cons hword hend, dropWhile_append_cons hword hend,
    if_neg hne]

theorem scanWord_no_space (h : scanWord s = some (w, t)) : ∀ c ∈ w, isspace c = false := by
  rw [scanWord] at h
  split at h
  · cases h
  · cases h
    intro c hc
    have := List.mem_takeWhile_imp hc
    simpa using this

theorem toNat_of_mem_toDigits (hb : 1 < b) (hb' : b ≤ 10) (n : Nat) :
    ∀ c ∈ Nat.toDigits b n, c.toNat < 48 + b := by
  induction n using Nat.strongRecOn with
  | ind n ih =>
    intro c hc
    rw [Nat.toDigits_eq_if hb] at hc
    split at hc
    · rename_i hlt
      rw [List.mem_singleton.mp hc, Nat.toNat_digitChar_of_lt_ten (by omega)]
      omega
    · rename_i hge
      rcases List.mem_append.mp hc with hc | hc
      · exact ih (n / b) (Nat.div_lt_self (by omega) hb) c hc
      · have hlt := Nat.mod_lt n (show 0 < b by omega)
        rw [List.mem_singleton.mp hc, Nat.toNat_digitChar_of_lt_ten (by omega)]
        omega

end CLib
