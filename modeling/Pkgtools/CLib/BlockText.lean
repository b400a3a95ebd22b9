import Pkgtools.CLib.Lines

namespace CLib
set_option autoImplicit true

/-- The C string that starts at the first of these bytes. -/
def cstr (s : Str) : Str := s.takeWhile (· != nul)

theorem cstr_append (hs : NulFree s) (t : Str) : cstr (s ++ t) = s ++ cstr t := by
  apply List.takeWhile_append_of_pos
  intro c hc
  exact bne_iff_ne.mpr fun he => hs (he ▸ hc)

theorem cstr_nul (t : Str) : cstr (nul :: t) = [] := List.takeWhile_cons_of_neg (by decide)

theorem cstr_append_nul (hs : NulFree s) (t : Str) : cstr (s ++ nul :: t) = s := by
  rw [cstr_append hs, cstr_nul, List.append_nil]

theorem cstr_of_nulFree (hs : NulFree s) : cstr s = s := by
  have h := cstr_append hs []
  rw [List.append_nil] at h
  exact h.trans (List.append_nil s)

/-- What stands behind the terminator does not belong to the string. -/
theorem cstr_append_terminator (s t : Str) : cstr (s ++ nul :: t) = cstr s := by
  induction s with
  | nil => exact cstr_nul t
  | cons c s ih =>
    rw [cstr] at ih
    rw [List.cons_append, cstr, cstr, List.takeWhile_cons, List.takeWhile_cons, ih, cstr]

theorem nulFree_cstr (s : Str) : NulFree (cstr s) :=
  fun hm => absurd (List.mem_takeWhile_imp hm) (by decide)

/-- `strchr (s, '\n')`, as an index. -/
def newlineIdx (s : Str) : Option Nat := s.findIdx? (· == '\n')

theorem newlineIdx_eq_none (hs : '\n' ∉ s) : newlineIdx s = none := by
  apply List.findIdx?_eq_none_iff.mpr
  intro c hc
  exact beq_eq_false_iff_ne.mpr fun he => hs (he ▸ hc)

theorem newlineIdx_append (hs : '\n' ∉ s) (t : Str) :
    newlineIdx (s ++ '\n' :: t) = some s.length := findNewline_append hs 0 t

def storeStr (buf : Str) (off : Nat) (s : Str) : Str :=
  buf.take off ++ s ++ nul :: buf.drop (off + s.length + 1)

theorem cstr_storeStr_zero (buf : Str) (hs : NulFree s) : cstr (storeStr buf 0 s) = s := by
  rw [storeStr, List.take_zero, List.nil_append]
  exact cstr_append_nul hs _

theorem length_cstr_append_nul_le (a b : Str) : (cstr (a ++ nul :: b)).length ≤ a.length := by
  induction a with
  | nil =>
    rw [List.nil_append, cstr_nul]
  | cons c a ih =>
    rw [List.cons_append, cstr, List.takeWhile_cons]
    split
    · exact Nat.succ_le_succ ih
    · exact Nat.zero_le _

/-- A string stored behind the beginning of the buffer is not what the buffer then holds. -/
theorem cstr_storeStr_ne (buf : Str) (hoff : off < buf.length) (h0 : 0 < off) (hle : off ≤ s.length)
    (hs : NulFree s) : cstr (storeStr buf off s) ≠ s := by
  intro he
  have hlen := congrArg List.length he
  rw [storeStr, List.append_assoc] at hlen
  by_cases hn : NulFree (buf.take off)
  · rw [cstr_append hn, cstr_append_nul hs, List.length_append, List.length_take] at hlen
    omega
  · -- the string in the buffer ends inside the beginning, so it is too short
    obtain ⟨a, b, hab⟩ := List.append_of_mem (not_not.mp hn)
    have hl := congrArg List.length hab
    rw [List.length_take, List.length_append, List.length_cons] at hl
    rw [hab, List.append_assoc, List.cons_append] at hlen
    have hcut := length_cstr_append_nul_le a (b ++ (s ++ nul :: buf.drop (off + s.length + 1)))
    omega

/-- A piece of a text that starts with a line holds the line or is a piece of it. -/
theorem line_or_prefix {a r l t : Str} (h : a ++ r = l ++ '\n' :: t) :
    (∃ u, a = l ++ '\n' :: u ∧ u ++ r = t) ∨ (a <+: l ∧ r ≠ []) := by
  rcases List.append_eq_append_iff.mp h with ⟨a', ha, hr⟩ | ⟨c', ha, hr⟩
  · right
    constructor
    · exact ⟨a', ha.symm⟩
    · rw [hr]
      simp
  · cases c' with
    | nil =>
      right
      rw [List.nil_append] at hr
      rw [ha, List.append_nil, ← hr]
      exact ⟨List.prefix_refl _, List.cons_ne_nil _ _⟩
    | cons d u =>
      rw [List.cons_append, List.cons.injEq] at hr
      left
      exact ⟨u, by rw [ha, hr.1], hr.2.symm⟩

/-- Where a text of lines is cut: whole lines, then the beginning of the next one. -/
theorem take_unlines (ls : List Str) (n : Nat) (hn : n ≤ (unlines ls).length) :
    ∃ front back q, ls = front ++ back ∧ (unlines ls).take n = unlines front ++ q ∧
      (q = [] ∨ ∃ l more, back = l :: more ∧ q <+: l) := by
  induction ls generalizing n with
  | nil =>
    exact ⟨[], [], [], rfl, by simp, .inl rfl⟩
  | cons l ls ih =>
    rw [unlines_cons] at hn ⊢
    by_cases hl : n ≤ l.length
    · refine ⟨[], l :: ls, l.take n, rfl, ?_, .inr ⟨l, ls, rfl, List.take_prefix _ _⟩⟩
      rw [List.take_append_of_le_length hl]
      rfl
    · rw [List.length_append, List.length_cons] at hn
      obtain ⟨front, back, q, hls, htake, hq⟩ := ih (n - (l.length + 1)) (by omega)
      refine ⟨l :: front, back, q, by rw [hls]; rfl, ?_, hq⟩
      have hsplit : n = l.length + (n - (l.length + 1) + 1) := by omega
      rw [hsplit, List.take_length_add_append, List.take_succ_cons, htake, unlines_cons]
      simp

/-- Every cut of the text, `d` bytes from its start and then every `b` bytes, is at the start or
directly behind a newline. -/
def CutsAtLines (b d : Nat) (t : Str) : Prop :=
  ∀ k, 0 < d + b * k → d + b * k < t.length → t[d + b * k - 1]? = some '\n'

theorem cutsAtLines_cons (b : Nat) (hd : l.length < d) (t : Str) :
    CutsAtLines b d (l ++ '\n' :: t) ↔ CutsAtLines b (d - (l.length + 1)) t := by
  have hget : ∀ i, l.length < i → (l ++ '\n' :: t)[i - 1]? =
      if i = l.length + 1 then some '\n' else t[i - (l.length + 1) - 1]? := by
    intro i hi
    rw [List.getElem?_append_right (by omega)]
    split
    · next he => rw [he, Nat.add_sub_cancel, Nat.sub_self, List.getElem?_cons_zero]
    · rw [show i - 1 - l.length = i - (l.length + 1) - 1 + 1 by omega, List.getElem?_cons_succ]
  constructor
  · intro h k h0 hlt
    have hk := h k (by omega) (by rw [List.length_append, List.length_cons]; omega)
    rw [hget _ (by omega), if_neg (by omega)] at hk
    rw [show d - (l.length + 1) + b * k = d + b * k - (l.length + 1) by omega]
    exact hk
  · intro h k h0 hlt
    rw [List.length_append, List.length_cons] at hlt
    rw [hget _ (by omega)]
    split
    · rfl
    · have hk := h k (by omega) (by omega)
      rw [show d - (l.length + 1) + b * k = d + b * k - (l.length + 1) by omega] at hk
      exact hk

theorem not_cutsAtLines (b : Nat) (hl : '\n' ∉ l) (h0 : 0 < d) (hd : d ≤ l.length) (t : Str) :
    ¬ CutsAtLines b d (l ++ '\n' :: t) := by
  intro h
  have hk := h 0 (by omega) (by rw [List.length_append, List.length_cons]; omega)
  rw [Nat.mul_zero, Nat.add_zero, List.getElem?_append_left (by omega)] at hk
  exact hl (List.mem_of_getElem? hk)

theorem cutsAtLines_zero (b : Nat) (t : Str) : CutsAtLines b 0 t ↔ CutsAtLines b b t := by
  constructor
  · intro h k h0 hlt
    have he : 0 + b * (k + 1) = b + b * k := by rw [Nat.mul_succ]; omega
    have hk := h (k + 1) (by omega) (by omega)
    rw [he] at hk
    exact hk
  · intro h k h0 hlt
    cases k with
    | zero => omega
    | succ k =>
      have he : 0 + b * (k + 1) = b + b * k := by rw [Nat.mul_succ]; omega
      rw [he] at h0 hlt ⊢
      exact h k h0 hlt

end CLib
