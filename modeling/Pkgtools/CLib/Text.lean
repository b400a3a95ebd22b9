import Mathlib.Data.List.Lex
import Mathlib.Data.Char
import Mathlib.Data.List.TakeWhile

namespace CLib
set_option autoImplicit true

/-- The bytes of a C string, without the terminating NUL. -/
abbrev Str := List Char

instance Str.lawfulBEq : LawfulBEq Str := inferInstance

def nul : Char := '\x00'

/-- `isspace` in the C locale. -/
def isspace (c : Char) : Bool :=
  c == ' ' || c == '\t' || c == '\n' || c == '\x0b' || c == '\x0c' || c == '\r'

/-- `strlcpy` into a buffer of `n` bytes. -/
def strlcpy (n : Nat) (s : Str) : Str := s.take (n - 1)

/-- `strncmp`, with the bytes behind the end of either string read as NUL. -/
def strncmp : Str → Str → Nat → Int
  | _, _, 0 => 0
  | [], [], _ + 1 => 0
  | [], d :: _, _ + 1 => - (d.toNat : Int)
  | c :: _, [], _ + 1 => c.toNat
  | c :: s, d :: t, n + 1 =>
    if c = d then if c = nul then 0 else strncmp s t n else (c.toNat : Int) - d.toNat

theorem strncmp_self (s : Str) (n : Nat) : strncmp s s n = 0 := by
  induction s generalizing n with
  | nil => cases n <;> rfl
  | cons c s ih =>
    cases n with
    | zero => rfl
    | succ n =>
      rw [strncmp, if_pos rfl, ih]
      split <;> rfl

-- The characters of a string are few; an instance over all characters is not for evaluation.
instance decidableAllChars (p : Char → Prop) [DecidablePred p] (s : Str) :
    Decidable (∀ c, c ∈ s → p c) := List.decidableBAll p s

def NulFree (s : Str) : Prop := nul ∉ s

instance (s : Str) : Decidable (NulFree s) := inferInstanceAs (Decidable (¬ _))

theorem NulFree.tail (h : NulFree (c :: s)) : NulFree s :=
  fun hm => h (List.mem_cons_of_mem _ hm)

theorem NulFree.head (h : NulFree (c :: s)) : c ≠ nul :=
  fun he => h (he ▸ List.mem_cons_self)

theorem NulFree.sublist (h : NulFree s) (ht : List.Sublist t s) : NulFree t :=
  fun hm => h (ht.subset hm)

theorem toNat_lt_iff (c d : Char) : c.toNat < d.toNat ↔ c < d := Iff.rfl

theorem toNat_pos_of_ne_nul (h : c ≠ nul) : 0 < c.toNat := by
  rcases Nat.eq_zero_or_pos c.toNat with h0 | h0
  · exact absurd (Char.toNat_inj.mp h0) h
  · exact h0

/-- Comparing a string with the leading `p.length` bytes of a buffer compares it with `p`. -/
theorem strncmp_neg_iff (hs : NulFree s) (hp : NulFree p) (t : Str) :
    strncmp s (p ++ t) p.length < 0 ↔ s < p := by
  induction p generalizing s with
  | nil => simp [strncmp]
  | cons d p ih =>
    have hd := toNat_pos_of_ne_nul hp.head
    cases s with
    | nil =>
      simp only [List.cons_append, List.length_cons, strncmp, List.nil_lt_cons, iff_true]
      omega
    | cons c s =>
      simp only [List.cons_append, List.length_cons, strncmp, List.cons_lt_cons_iff]
      by_cases he : c = d
      · subst he
        simp [hs.head, ih hs.tail hp.tail]
      · rw [if_neg he]
        have hlt := toNat_lt_iff c d
        constructor
        · intro h
          exact .inl (hlt.mp (by omega))
        · intro h
          rcases h with h | ⟨h, _⟩
          · have := hlt.mpr h
            omega
          · exact absurd h he

theorem strncmp_eq_zero_iff (hs : NulFree s) (hp : NulFree p) (t : Str) :
    strncmp s (p ++ t) p.length = 0 ↔ p <+: s := by
  induction p generalizing s with
  | nil => simp [strncmp]
  | cons d p ih =>
    have hd := toNat_pos_of_ne_nul hp.head
    cases s with
    | nil => simp [strncmp]; omega
    | cons c s =>
      simp only [List.cons_append, List.length_cons, strncmp, List.cons_prefix_cons]
      by_cases he : c = d
      · subst he
        simp [hs.head, ih hs.tail hp.tail]
      · rw [if_neg he]
        have hne : c.toNat ≠ d.toNat := fun h => he (Char.toNat_inj.mp h)
        constructor
        · intro h
          omega
        · intro h
          exact absurd h.1.symm he

theorem lt_of_prefix_of_length_ne {p s : Str} (h : p <+: s) (hl : s.length ≠ p.length) : p < s := by
  obtain ⟨t, rfl⟩ := h
  induction p with
  | nil =>
    cases t with
    | nil => simp at hl
    | cons => exact List.nil_lt_cons _ _
  | cons c p ih =>
    rw [List.cons_append, List.cons_lt_cons_iff]
    exact .inr ⟨rfl, ih (by simpa using hl)⟩

/-- A pointer into a NUL-terminated buffer: its offset and the bytes from there to the NUL. -/
structure Ptr where
  pos : Nat
  rest : Str
  deriving DecidableEq, Repr

/-- `*p`. -/
def Ptr.deref (p : Ptr) : Char := p.rest.headD nul

/-- `p + k`. -/
def Ptr.add (p : Ptr) (k : Nat) : Ptr := ⟨p.pos + k, p.rest.drop k⟩

@[simp] theorem Ptr.add_pos (p : Ptr) (k : Nat) : (p.add k).pos = p.pos + k := rfl

@[simp] theorem Ptr.add_rest (p : Ptr) (k : Nat) : (p.add k).rest = p.rest.drop k := rfl

@[simp] theorem Ptr.add_zero (p : Ptr) : p.add 0 = p := rfl

theorem Ptr.add_add (p : Ptr) (j k : Nat) : (p.add j).add k = p.add (j + k) := by
  simp only [Ptr.add, List.drop_drop, Nat.add_assoc]

@[simp] theorem Ptr.mk_add_append (n : Nat) (s t : Str) :
    (Ptr.mk n (s ++ t)).add s.length = ⟨n + s.length, t⟩ := by
  simp [Ptr.add]

@[simp] theorem Ptr.mk_add_one (n : Nat) (c : Char) (t : Str) :
    (Ptr.mk n (c :: t)).add 1 = ⟨n + 1, t⟩ := rfl

@[simp] theorem Ptr.deref_cons (n : Nat) (c : Char) (t : Str) : (Ptr.mk n (c :: t)).deref = c := rfl

/-- `strchr (p, '\n')`, as the distance of the newline from `p`. -/
def Ptr.findNewline (p : Ptr) : Option Nat := p.rest.findIdx? (· == '\n')

theorem findNewline_append (h : '\n' ∉ s) (n : Nat) (t : Str) :
    (Ptr.mk n (s ++ '\n' :: t)).findNewline = some s.length := by
  have hs : ∀ c ∈ s, (c == '\n') = false := by
    intro c hc
    simp only [beq_eq_false_iff_ne]
    exact fun he => h (he ▸ hc)
  simp [Ptr.findNewline, List.findIdx?_append, List.findIdx?_eq_none_iff.mpr hs, List.findIdx?_cons]

theorem takeWhile_append_cons {p : Char → Bool} {s : Str} (hs : ∀ c ∈ s, p c) (hd : p d = false)
    (t : Str) : (s ++ d :: t).takeWhile p = s := by
  rw [List.takeWhile_append_of_pos hs, List.takeWhile_cons_of_neg (by simp [hd]), List.append_nil]

theorem dropWhile_append_cons {p : Char → Bool} {s : Str} (hs : ∀ c ∈ s, p c) (hd : p d = false)
    (t : Str) : (s ++ d :: t).dropWhile p = d :: t := by
  rw [List.dropWhile_append_of_pos hs, List.dropWhile_cons_of_neg (by simp [hd])]

theorem drop_length_takeWhile (p : α → Bool) (s : List α) :
    s.drop (s.takeWhile p).length = s.dropWhile p := by
  induction s with
  | nil => rfl
  | cons c s ih =>
    rw [List.takeWhile_cons, List.dropWhile_cons]
    split
    · exact ih
    · rfl

/-- Where a token ends, so does one with more separators. -/
theorem takeWhile_dropWhile_eq_nil {p q : α → Bool} (h : ∀ c, p c = false → q c = false)
    (s : List α) : (s.dropWhile p).takeWhile q = [] := by
  cases hs : s.dropWhile p with
  | nil => rfl
  | cons c t =>
    have hc := List.head_dropWhile_not p (l := s) (by rw [hs]; exact List.cons_ne_nil _ _)
    rw [List.takeWhile_cons_of_neg]
    simp only [hs, List.head_cons] at hc
    simp [h c hc]

theorem forall_or_exists_first (p : α → Prop) (xs : List α) :
    (∀ x ∈ xs, p x) ∨ ∃ A m B, xs = A ++ m :: B ∧ (∀ x ∈ A, p x) ∧ ¬ p m := by
  induction xs with
  | nil => exact .inl (by simp)
  | cons x xs ih =>
    by_cases hx : p x
    · rcases ih with ih | ⟨A, m, B, rfl, hA, hm⟩
      · exact .inl (by simpa [hx] using ih)
      · exact .inr ⟨x :: A, m, B, rfl, by simpa [hx] using hA, hm⟩
    · exact .inr ⟨[], x, xs, rfl, by simp, hx⟩

end CLib
