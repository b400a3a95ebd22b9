import Mathlib.Algebra.GroupWithZero.Nat
import Mathlib.Data.List.Nodup
import Mathlib.Data.List.Perm.Subperm

namespace Pkgtools
set_option autoImplicit true

/-- The quote, which together with NUL may not occur in an encoded string. -/
def encodeQuote : UInt8 := 0x27

/-- The loop that looks for the offset with the fewest escapes. The least number so far is `m`, and
`e` is the offset that has it, if one was stored. -/
def encodeOffset (cnt : UInt8 → Nat) : List UInt8 → Nat → Option UInt8 → Option UInt8
  | [], _, e => e
  | i :: is, m, e =>
    if i = encodeQuote then encodeOffset cnt is m e
    else
      let sum := cnt i + cnt (i + 1) + cnt (i + encodeQuote)
      if sum < m then
        if sum = 0 then some i else encodeOffset cnt is sum (some i)
      else encodeOffset cnt is m e

def encodeOffsets : List UInt8 := (List.range' 1 255).map UInt8.ofNat

def encodeByte (e b : UInt8) : List UInt8 :=
  let c := b - e
  if c = 0 then [1, 1]
  else if c = 1 then [1, 2]
  else if c = encodeQuote then [1, 3]
  else [c]

/-- `sqlite_encode_binary`: the characters in front of the terminator. There is no result if the
offset is used before it is set. -/
def sqliteEncodeBinary (input : List UInt8) : Option (List UInt8) :=
  if input = [] then some [0x78]
  else
    (encodeOffset (fun b => input.count b) encodeOffsets input.length none).map fun e =>
      e :: input.flatMap (encodeByte e)

/-- The loop of `sqlite_decode_binary`, which returns the number of bytes in `out`, or -1. There is
no result if it runs over the end of its input. -/
def decodeLoop (e : UInt8) : List UInt8 → List UInt8 → Option (Int × List UInt8)
  | [], _ => none
  | c :: rest, out =>
    if c = 0 then some (out.length, out)
    else if c = 1 then
      match rest with
      | [] => none
      | d :: rest =>
        if d = 1 then decodeLoop e rest (out ++ [0 + e])
        else if d = 2 then decodeLoop e rest (out ++ [1 + e])
        else if d = 3 then decodeLoop e rest (out ++ [encodeQuote + e])
        else some (-1, out)
    else decodeLoop e rest (out ++ [c + e])

/-- `sqlite_decode_binary` of the bytes from `in` on. -/
def sqliteDecodeBinary : List UInt8 → Option (Int × List UInt8)
  | [] => none
  | e :: rest => decodeLoop e rest []

/-- The loop of `sqlite_decode_binary` with one buffer for `in` and `out`, with the indices of the
next byte that is read and the next one that is written. -/
def decodeInPlace (e : UInt8) : Nat → List UInt8 → Nat → Nat → Option (Int × List UInt8)
  | 0, _, _, _ => none
  | fuel + 1, buf, r, w => do
    let c ← buf[r]?
    if c = 0 then some (w, buf)
    else if c = 1 then
      let d ← buf[r + 1]?
      if d = 1 then decodeInPlace e fuel (buf.set w (0 + e)) (r + 2) (w + 1)
      else if d = 2 then decodeInPlace e fuel (buf.set w (1 + e)) (r + 2) (w + 1)
      else if d = 3 then decodeInPlace e fuel (buf.set w (encodeQuote + e)) (r + 2) (w + 1)
      else some (-1, buf)
    else decodeInPlace e fuel (buf.set w (c + e)) (r + 1) (w + 1)

/-- `sqlite_decode_binary` with `in` and `out` pointing to one buffer. -/
def sqliteDecodeBinaryInPlace : List UInt8 → Option (Int × List UInt8)
  | [] => none
  | e :: rest => decodeInPlace e (rest.length + 1) (e :: rest) 1 0

section Offset
variable {input : List UInt8} {e b : UInt8}

def Escaped (e b : UInt8) : Prop := b - e = 0 ∨ b - e = 1 ∨ b - e = encodeQuote

instance (e b : UInt8) : Decidable (Escaped e b) := inferInstanceAs (Decidable (_ ∨ _))

def escapes (e : UInt8) (input : List UInt8) : Nat := input.countP fun b => Escaped e b

theorem escaped_iff : Escaped e b ↔ b = e ∨ b = e + 1 ∨ b = e + encodeQuote := by
  have hsub (c : UInt8) : b - e = c ↔ b = e + c := by
    constructor
    · rintro rfl
      rw [UInt8.add_comm, UInt8.sub_add_cancel]
    · rintro rfl
      rw [UInt8.add_comm, UInt8.add_sub_cancel]
  rw [Escaped, hsub, hsub, hsub, UInt8.add_zero]

/-- The three counters of an offset count the bytes that it escapes. -/
theorem escapes_eq (e : UInt8) (input : List UInt8) :
    escapes e input = input.count e + input.count (e + 1) + input.count (e + encodeQuote) := by
  have h₁ : e ≠ e + 1 := by rw [ne_eq, UInt8.left_eq_add]; decide
  have h₂ : e ≠ e + encodeQuote := by rw [ne_eq, UInt8.left_eq_add]; decide
  have h₃ : e + 1 ≠ e + encodeQuote := by rw [ne_eq, UInt8.add_right_inj]; decide
  induction input with
  | nil => rfl
  | cons b input ih =>
    rw [escapes] at ih ⊢
    rw [List.countP_cons, ih, List.count_cons, List.count_cons, List.count_cons]
    simp only [escaped_iff, beq_iff_eq, decide_eq_true_eq]
    by_cases hb₁ : b = e
    · subst hb₁
      simp [h₁, h₂]
      omega
    · by_cases hb₂ : b = e + 1
      · subst hb₂
        simp [h₁.symm, h₃]
        omega
      · by_cases hb₃ : b = e + encodeQuote
        · subst hb₃
          simp [h₂.symm, h₃.symm]
          omega
        · simp [hb₁, hb₂, hb₃]

/-- A byte is escaped by three offsets at most. -/
theorem offsets_escaping (b : UInt8) (is : List UInt8) (h : is.Nodup) :
    is.countP (fun e => Escaped e b) ≤ 3 := by
  rw [List.countP_eq_length_filter]
  have hsub : is.filter (fun e => Escaped e b) ⊆ [b, b - 1, b - encodeQuote] := by
    intro e he
    have hesc : Escaped e b := of_decide_eq_true (List.mem_filter.mp he).2
    rcases escaped_iff.mp hesc with rfl | rfl | rfl
    · simp
    · rw [UInt8.add_sub_cancel]
      simp
    · rw [UInt8.add_sub_cancel]
      simp
  exact (List.subperm_of_subset (h.filter _) hsub).length_le

theorem sum_escapes_le (is : List UInt8) (h : is.Nodup) (input : List UInt8) :
    (is.map fun e => escapes e input).sum ≤ 3 * input.length := by
  induction input with
  | nil =>
    clear h
    induction is with
    | nil => exact Nat.le_refl 0
    | cons e is ih =>
      rw [List.map_cons, List.sum_cons, show escapes e [] = 0 from rfl, Nat.zero_add]
      exact ih
  | cons b input ih =>
    have hsplit : (is.map fun e => escapes e (b :: input)).sum =
        (is.map fun e => escapes e input).sum + is.countP (fun e => Escaped e b) := by
      clear h ih
      induction is with
      | nil => rfl
      | cons e is ih =>
        rw [List.map_cons, List.sum_cons, ih, List.map_cons, List.sum_cons, List.countP_cons,
          escapes, List.countP_cons, ← escapes]
        omega
    have hle := offsets_escaping b is h
    rw [hsplit, List.length_cons]
    omega

theorem offsets_mul_le (is : List UInt8) (h : is.Nodup) (hk : ∀ e ∈ is, k ≤ escapes e input) :
    is.length * k ≤ 3 * input.length := by
  refine Nat.le_trans ?_ (sum_escapes_le is h input)
  clear h
  induction is with
  | nil => simp
  | cons e is ih =>
    have he := hk e List.mem_cons_self
    have his := ih fun x hx => hk x (List.mem_cons_of_mem _ hx)
    rw [List.length_cons, Nat.succ_mul, List.map_cons, List.sum_cons]
    omega

/-- The loop keeps an offset with the fewest escapes, if one has fewer than `m`. -/
theorem encodeOffset_spec (is : List UInt8) (m : Nat) (e₀ : Option UInt8)
    (hm : ∀ e, e₀ = some e → escapes e input = m) :
    (∀ e, encodeOffset (fun b => input.count b) is m e₀ = some e →
      (e₀ = some e ∨ e ∈ is ∧ e ≠ encodeQuote) ∧ escapes e input ≤ m ∧
        ∀ i ∈ is, i ≠ encodeQuote → escapes e input ≤ escapes i input) ∧
      (encodeOffset (fun b => input.count b) is m e₀ = none →
        e₀ = none ∧ ∀ i ∈ is, i ≠ encodeQuote → m ≤ escapes i input) := by
  induction is generalizing m e₀ with
  | nil =>
    exact ⟨fun e he => ⟨.inl he, Nat.le_of_eq (hm e he), by simp⟩, fun he => ⟨he, by simp⟩⟩
  | cons i is ih =>
    rw [encodeOffset]
    split
    · rename_i hquote
      obtain ⟨hsome, hnone⟩ := ih m e₀ hm
      refine ⟨fun e he => ?_, fun he => ?_⟩
      · obtain ⟨hfrom, hle, hmin⟩ := hsome e he
        refine ⟨hfrom.imp id fun h => ⟨List.mem_cons_of_mem _ h.1, h.2⟩, hle, ?_⟩
        rw [List.forall_mem_cons]
        exact ⟨fun hne => absurd hquote hne, hmin⟩
      · obtain ⟨hfrom, hmin⟩ := hnone he
        refine ⟨hfrom, ?_⟩
        rw [List.forall_mem_cons]
        exact ⟨fun hne => absurd hquote hne, hmin⟩
    · rename_i hquote
      dsimp only
      rw [← escapes_eq]
      split
      · rename_i hlt
        split
        · rename_i hzero
          refine ⟨fun e he => ?_, fun he => by cases he⟩
          obtain rfl := Option.some.inj he
          refine ⟨.inr ⟨List.mem_cons_self, hquote⟩, by omega, fun j _ _ => by omega⟩
        · obtain ⟨hsome, hnone⟩ := ih (escapes i input) (some i) fun e he => by
            rw [Option.some.inj he]
          refine ⟨fun e he => ?_, fun he => ?_⟩
          · obtain ⟨hfrom, hle, hmin⟩ := hsome e he
            refine ⟨.inr ?_, by omega, ?_⟩
            · rcases hfrom with hfrom | ⟨hmem, hne⟩
              · rw [← Option.some.inj hfrom]
                exact ⟨List.mem_cons_self, hquote⟩
              · exact ⟨List.mem_cons_of_mem _ hmem, hne⟩
            · rw [List.forall_mem_cons]
              exact ⟨fun _ => hle, hmin⟩
          · cases (hnone he).1
      · rename_i hge
        obtain ⟨hsome, hnone⟩ := ih m e₀ hm
        refine ⟨fun e he => ?_, fun he => ?_⟩
        · obtain ⟨hfrom, hle, hmin⟩ := hsome e he
          refine ⟨hfrom.imp id fun h => ⟨List.mem_cons_of_mem _ h.1, h.2⟩, hle, ?_⟩
          rw [List.forall_mem_cons]
          exact ⟨fun _ => by omega, hmin⟩
        · obtain ⟨hfrom, hmin⟩ := hnone he
          refine ⟨hfrom, ?_⟩
          rw [List.forall_mem_cons]
          exact ⟨fun _ => by omega, hmin⟩

theorem mem_encodeOffsets : e ∈ encodeOffsets ↔ e ≠ 0 := by
  rw [encodeOffsets, List.mem_map]
  constructor
  · rintro ⟨k, hk, rfl⟩ h
    rw [List.mem_range'_1] at hk
    have hzero := congrArg UInt8.toNat h
    rw [UInt8.toNat_ofNat', UInt8.toNat_zero] at hzero
    omega
  · intro h
    refine ⟨e.toNat, ?_, UInt8.ofNat_toNat⟩
    have hlt := e.toNat_lt
    have hpos : e.toNat ≠ 0 := fun hz => h (UInt8.toNat_inj.mp hz)
    rw [List.mem_range'_1]
    omega

theorem encodeOffsets_nodup : (encodeOffsets.filter (· ≠ encodeQuote)).Nodup := by
  apply List.Nodup.filter
  refine List.Nodup.map_on (fun j hj k hk he => ?_) List.nodup_range'
  rw [List.mem_range'_1] at hj hk
  have hnat := congrArg UInt8.toNat he
  rw [UInt8.toNat_ofNat', UInt8.toNat_ofNat'] at hnat
  omega

/-- The offset is always set, and escapes three of 254 bytes at most. -/
theorem encodeOffset_set (hne : input ≠ []) :
    ∃ e, encodeOffset (fun b => input.count b) encodeOffsets input.length none = some e ∧
      e ≠ 0 ∧ e ≠ encodeQuote ∧ 254 * escapes e input ≤ 3 * input.length ∧
      ∀ i, i ≠ 0 → i ≠ encodeQuote → escapes e input ≤ escapes i input := by
  have hlen : (encodeOffsets.filter (· ≠ encodeQuote)).length = 254 := by decide +kernel
  have hmany {k : Nat} (hk : ∀ i ∈ encodeOffsets, i ≠ encodeQuote → k ≤ escapes i input) :
      254 * k ≤ 3 * input.length := by
    rw [← hlen]
    refine offsets_mul_le _ encodeOffsets_nodup fun i hi => ?_
    obtain ⟨hi, hq⟩ := List.mem_filter.mp hi
    exact hk i hi (of_decide_eq_true hq)
  obtain ⟨hsome, hnone⟩ := encodeOffset_spec encodeOffsets input.length none (by simp)
  cases he : encodeOffset (fun b => input.count b) encodeOffsets input.length none with
  | none =>
    have hall := hmany (hnone he).2
    have hpos := List.length_pos_of_ne_nil hne
    omega
  | some e =>
    obtain ⟨hfrom, -, hmin⟩ := hsome e he
    obtain ⟨hmem, hquote⟩ := hfrom.resolve_left (by simp)
    exact ⟨e, rfl, mem_encodeOffsets.mp hmem, hquote, hmany hmin,
      fun i hi hq => hmin i (mem_encodeOffsets.mpr hi) hq⟩

end Offset

section Codec
variable {input s tail out : List UInt8} {e b c : UInt8}

inductive EncodeCase (e b : UInt8) : Prop where
  | zero (hb : b = 0 + e) (h : encodeByte e b = [1, 1])
  | one (hb : b = 1 + e) (h : encodeByte e b = [1, 2])
  | quote (hb : b = encodeQuote + e) (h : encodeByte e b = [1, 3])
  | plain (c : UInt8) (hb : b = c + e) (h₀ : c ≠ 0) (h₁ : c ≠ 1) (hq : c ≠ encodeQuote)
      (h : encodeByte e b = [c])

theorem encodeByte_cases (e b : UInt8) : EncodeCase e b := by
  have hb : b = (b - e) + e := (UInt8.sub_add_cancel b e).symm
  by_cases h₀ : b - e = 0
  · exact .zero (by rwa [h₀] at hb) (by rw [encodeByte, if_pos h₀])
  · by_cases h₁ : b - e = 1
    · exact .one (by rwa [h₁] at hb) (by rw [encodeByte, if_neg h₀, if_pos h₁])
    · by_cases hq : b - e = encodeQuote
      · exact .quote (by rwa [hq] at hb) (by rw [encodeByte, if_neg h₀, if_neg h₁, if_pos hq])
      · exact .plain (b - e) hb h₀ h₁ hq (by rw [encodeByte, if_neg h₀, if_neg h₁, if_neg hq])

theorem encodeByte_add (e c : UInt8) : encodeByte e (c + e) =
    if c = 0 then [1, 1] else if c = 1 then [1, 2] else if c = encodeQuote then [1, 3]
    else [c] := by
  rw [encodeByte, UInt8.add_sub_cancel]

theorem encodeByte_chars (h : c ∈ encodeByte e b) : c ≠ 0 ∧ c ≠ encodeQuote := by
  cases encodeByte_cases e b with
  | zero _ he => exact (show ∀ c ∈ [1, 1], c ≠ 0 ∧ c ≠ encodeQuote by simp [encodeQuote]) c (he ▸ h)
  | one _ he => exact (show ∀ c ∈ [1, 2], c ≠ 0 ∧ c ≠ encodeQuote by simp [encodeQuote]) c (he ▸ h)
  | quote _ he =>
    exact (show ∀ c ∈ [1, 3], c ≠ 0 ∧ c ≠ encodeQuote by simp [encodeQuote]) c (he ▸ h)
  | plain c' _ h₀ _ hq he =>
    rw [he, List.mem_singleton] at h
    rw [h]
    exact ⟨h₀, hq⟩

theorem encodeByte_length (e b : UInt8) :
    (encodeByte e b).length = 1 + if Escaped e b then 1 else 0 := by
  rw [encodeByte]
  by_cases h₀ : b - e = 0
  · rw [if_pos h₀, if_pos (.inl h₀)]
    rfl
  · by_cases h₁ : b - e = 1
    · rw [if_neg h₀, if_pos h₁, if_pos (.inr (.inl h₁))]
      rfl
    · by_cases hq : b - e = encodeQuote
      · rw [if_neg h₀, if_neg h₁, if_pos hq, if_pos (.inr (.inr hq))]
        rfl
      · rw [if_neg h₀, if_neg h₁, if_neg hq, if_neg (by simp [Escaped, h₀, h₁, hq])]
        rfl

theorem encoded_length (e : UInt8) (input : List UInt8) :
    (input.flatMap (encodeByte e)).length = input.length + escapes e input := by
  induction input with
  | nil => rfl
  | cons b input ih =>
    rw [List.flatMap_cons, List.length_append, ih, encodeByte_length, List.length_cons, escapes,
      escapes, List.countP_cons]
    simp only [decide_eq_true_eq]
    omega

theorem decodeLoop_encoded (e : UInt8) (input s out : List UInt8) :
    decodeLoop e (input.flatMap (encodeByte e) ++ s) out = decodeLoop e s (out ++ input) := by
  induction input generalizing out with
  | nil => rw [List.flatMap_nil, List.nil_append, List.append_nil]
  | cons b input ih =>
    have hout : out ++ b :: input = out ++ [b] ++ input := by simp
    rw [List.flatMap_cons, List.append_assoc, hout, ← ih]
    cases encodeByte_cases e b with
    | zero hb he =>
      rw [he, hb]
      rfl
    | one hb he =>
      rw [he, hb]
      rfl
    | quote hb he =>
      rw [he, hb]
      rfl
    | plain c hb h₀ h₁ _ he =>
      rw [he, hb, List.singleton_append, decodeLoop.eq_def]
      simp only [if_neg h₀, if_neg h₁]

theorem decodeLoop_nul (e : UInt8) (tail out : List UInt8) :
    decodeLoop e (0 :: tail) out = some ((out.length : Int), out) := by
  rw [decodeLoop.eq_def]
  rfl

/-- The encoded string has no NUL and no quote, it is as long as the documentation says and no
longer than with another offset, and it decodes to the input. -/
theorem sqliteEncodeBinary_spec (input tail : List UInt8) :
    ∃ out, sqliteEncodeBinary input = some out ∧ (∀ c ∈ out, c ≠ 0 ∧ c ≠ encodeQuote) ∧
      out.length + 1 ≤ 2 + 257 * input.length / 254 ∧
      (∀ e, e ≠ 0 → e ≠ encodeQuote → out.length ≤ (e :: input.flatMap (encodeByte e)).length) ∧
      sqliteDecodeBinary (out ++ 0 :: tail) = some ((input.length : Int), input) := by
  by_cases hnil : input = []
  · subst hnil
    refine ⟨[0x78], by rw [sqliteEncodeBinary, if_pos rfl], by simp [encodeQuote], by decide, ?_, ?_⟩
    · intro e _ _
      simp
    · exact decodeLoop_nul 0x78 tail []
  · obtain ⟨e, he, h₀, hq, hfew, hmin⟩ := encodeOffset_set hnil
    refine ⟨e :: input.flatMap (encodeByte e), ?_, ?_, ?_, ?_, ?_⟩
    · rw [sqliteEncodeBinary, if_neg hnil, he]
      rfl
    · intro c hc
      rcases List.mem_cons.mp hc with rfl | hc
      · exact ⟨h₀, hq⟩
      · obtain ⟨b, -, hb⟩ := List.mem_flatMap.mp hc
        exact encodeByte_chars hb
    · rw [List.length_cons, encoded_length]
      omega
    · intro i hi hiq
      rw [List.length_cons, List.length_cons, encoded_length, encoded_length]
      have := hmin i hi hiq
      omega
    · rw [List.cons_append, sqliteDecodeBinary, decodeLoop_encoded, decodeLoop_nul, List.nil_append]

/-- A string without NUL and quote is what the encoder writes for some bytes, or it is refused. -/
theorem decodeLoop_cases (e : UInt8) (s tail out : List UInt8)
    (hs : ∀ c ∈ s, c ≠ 0 ∧ c ≠ encodeQuote) :
    (∃ input : List UInt8, s = input.flatMap (encodeByte e)) ∨
      ∃ out', decodeLoop e (s ++ 0 :: tail) out = some (-1, out') := by
  induction hn : s.length using Nat.strongRecOn generalizing s out with
  | ind n ih =>
    have hnext (b : UInt8) (rest : List UInt8) (hlt : rest.length < n)
        (hrest : ∀ c ∈ rest, c ≠ 0 ∧ c ≠ encodeQuote) :
        (∃ input : List UInt8, encodeByte e b ++ rest = input.flatMap (encodeByte e)) ∨
          ∃ out', decodeLoop e (rest ++ 0 :: tail) (out ++ [b]) = some (-1, out') := by
      refine (ih _ hlt rest (out ++ [b]) hrest rfl).imp ?_ id
      rintro ⟨input, rfl⟩
      exact ⟨b :: input, rfl⟩
    cases s with
    | nil => exact .inl ⟨[], rfl⟩
    | cons c rest =>
      obtain ⟨⟨h₀, hq⟩, hrest⟩ := List.forall_mem_cons.mp hs
      rw [List.length_cons] at hn
      rw [List.cons_append, decodeLoop.eq_def]
      simp only [if_neg h₀]
      by_cases h₁ : c = 1
      · simp only [if_pos h₁]
        rw [h₁]
        cases rest with
        | nil => exact .inr ⟨out, rfl⟩
        | cons d rest =>
          obtain ⟨-, hrest⟩ := List.forall_mem_cons.mp hrest
          rw [List.length_cons] at hn
          rw [List.cons_append]
          dsimp only
          by_cases hd₁ : d = 1
          · rw [if_pos hd₁, hd₁]
            have h := hnext (0 + e) rest (by omega) hrest
            rwa [encodeByte_add, if_pos rfl] at h
          · by_cases hd₂ : d = 2
            · rw [if_neg hd₁, if_pos hd₂, hd₂]
              have h := hnext (1 + e) rest (by omega) hrest
              rwa [encodeByte_add, if_neg (by decide), if_pos rfl] at h
            · by_cases hd₃ : d = 3
              · rw [if_neg hd₁, if_neg hd₂, if_pos hd₃, hd₃]
                have h := hnext (encodeQuote + e) rest (by omega) hrest
                rwa [encodeByte_add, if_neg (by decide), if_neg (by decide), if_pos rfl] at h
              · rw [if_neg hd₁, if_neg hd₂, if_neg hd₃]
                exact .inr ⟨out, rfl⟩
      · simp only [if_neg h₁]
        have h := hnext (c + e) rest (by omega) hrest
        rwa [encodeByte_add, if_neg h₀, if_neg h₁, if_neg hq] at h

/-- The decoder accepts a string without NUL and quote exactly if it is what the encoder writes with
the offset in front, and then gives back the bytes it was written for. Otherwise it returns -1. -/
theorem sqliteDecodeBinary_accepts (e : UInt8) (s tail : List UInt8)
    (hs : ∀ c ∈ s, c ≠ 0 ∧ c ≠ encodeQuote) :
    ∃ n out, sqliteDecodeBinary (e :: s ++ 0 :: tail) = some (n, out) ∧
      (0 ≤ n ↔ ∃ input : List UInt8, s = input.flatMap (encodeByte e)) ∧
      (0 ≤ n → n = out.length ∧ s = out.flatMap (encodeByte e)) ∧ (n < 0 → n = -1) := by
  rw [List.cons_append, sqliteDecodeBinary]
  rcases decodeLoop_cases e s tail [] hs with ⟨input, rfl⟩ | ⟨out, hout⟩
  · rw [decodeLoop_encoded, decodeLoop_nul, List.nil_append]
    exact ⟨_, _, rfl, ⟨fun _ => ⟨input, rfl⟩, fun _ => Int.natCast_nonneg _⟩, fun _ => ⟨rfl, rfl⟩,
      fun h => absurd h (Int.not_lt.mpr (Int.natCast_nonneg _))⟩
  · refine ⟨-1, out, hout, ⟨fun h => absurd h (by decide), ?_⟩, fun h => absurd h (by decide),
      fun _ => rfl⟩
    rintro ⟨input, rfl⟩
    rw [decodeLoop_encoded, decodeLoop_nul] at hout
    have hlen := congrArg Prod.fst (Option.some.inj hout)
    dsimp only at hlen
    omega

/-- An escaped quote in front of a plain byte. -/
theorem sqliteDecodeBinary_accepts_quote :
    ∃ n out, sqliteDecodeBinary (2 :: [1, 3, 0x42] ++ 0 :: [0xff]) = some (n, out) ∧
      (0 ≤ n ↔ ∃ input : List UInt8, [1, 3, 0x42] = input.flatMap (encodeByte 2)) ∧
      (0 ≤ n → n = out.length ∧ [1, 3, 0x42] = out.flatMap (encodeByte 2)) ∧ (n < 0 → n = -1) :=
  sqliteDecodeBinary_accepts 2 [1, 3, 0x42] [0xff] (by simp [encodeQuote])

theorem decodeLoop_length (h : decodeLoop e s out = some (n, out')) :
    out.length ≤ out'.length := by
  fun_induction decodeLoop e s out with
  | case1 => cases h
  | case2 => cases h; exact Nat.le_refl _
  | case3 => cases h
  | case4 out _ rest ih => have := ih h; rw [List.length_append] at this; omega
  | case5 out _ _ rest ih => have := ih h; rw [List.length_append] at this; omega
  | case6 out _ _ _ rest ih => have := ih h; rw [List.length_append] at this; omega
  | case7 => cases h; exact Nat.le_refl _
  | case8 out _ _ _ _ ih => have := ih h; rw [List.length_append] at this; omega

/-- With one buffer for input and output, the decoder overwrites only bytes that it has read. -/
theorem decodeInPlace_eq (e : UInt8) (fuel : Nat) (buf : List UInt8) (r w : Nat) (hw : w < r)
    (hr : r ≤ buf.length) (hfuel : buf.length - r < fuel) :
    decodeInPlace e fuel buf r w = (decodeLoop e (buf.drop r) (buf.take w)).map fun x =>
      (x.1, x.2 ++ buf.drop x.2.length) := by
  induction fuel generalizing buf r w with
  | zero => omega
  | succ fuel ih =>
    have htake : (buf.take w).length = w := by
      rw [List.length_take]
      omega
    have hdone (n : Int) : some (n, buf) = (some (n, buf.take w)).map fun x : Int × List UInt8 =>
        (x.1, x.2 ++ buf.drop x.2.length) := by
      rw [Option.map_some, htake, List.take_append_drop]
    have hset (b : UInt8) (r' : Nat) (hr' : r < r') (hlt : r' ≤ buf.length) :
        decodeInPlace e fuel (buf.set w b) r' (w + 1) =
          (decodeLoop e (buf.drop r') (buf.take w ++ [b])).map fun x =>
            (x.1, x.2 ++ buf.drop x.2.length) := by
      have hnext := ih (buf.set w b) r' (w + 1) (by omega) (by rwa [List.length_set])
        (by rw [List.length_set]; omega)
      have hlen : w < (buf.set w b).length := by
        rw [List.length_set]
        omega
      have htake' : (buf.set w b).take (w + 1) = buf.take w ++ [b] := by
        rw [List.take_succ_eq_append_getElem hlen, List.getElem_set_self,
          List.take_set_of_le (by omega)]
      rw [hnext, List.drop_set_of_lt (by omega), htake']
      cases hloop : decodeLoop e (buf.drop r') (buf.take w ++ [b]) with
      | none => rfl
      | some x =>
        have hle := decodeLoop_length hloop
        rw [List.length_append, htake, List.length_singleton] at hle
        rw [Option.map_some, Option.map_some, List.drop_set_of_lt (by omega)]
    rw [decodeInPlace]
    by_cases hend : r = buf.length
    · rw [hend, List.getElem?_eq_none (Nat.le_refl _), List.drop_length]
      rfl
    · have hlt : r < buf.length := by omega
      rw [List.getElem?_eq_getElem hlt, List.drop_eq_getElem_cons hlt, decodeLoop.eq_def]
      generalize buf[r] = c
      simp only [Option.bind_eq_bind, Option.bind_some]
      split
      · rw [← hdone, htake]
      · split
        · by_cases hend' : r + 1 = buf.length
          · rw [hend', List.getElem?_eq_none (Nat.le_refl _), List.drop_length]
            rfl
          · have hlt' : r + 1 < buf.length := by omega
            rw [List.getElem?_eq_getElem hlt', List.drop_eq_getElem_cons hlt']
            generalize buf[r + 1] = d
            simp only [Option.bind_some]
            split
            · exact hset _ _ (by omega) hlt'
            · split
              · exact hset _ _ (by omega) hlt'
              · split
                · exact hset _ _ (by omega) hlt'
                · exact hdone _
        · exact hset _ _ (by omega) hlt

/-- To decode a string in place gives the same number and the same bytes, and keeps what is behind
them. -/
theorem sqliteDecodeBinaryInPlace_eq (buf : List UInt8) : sqliteDecodeBinaryInPlace buf =
    (sqliteDecodeBinary buf).map fun x => (x.1, x.2 ++ buf.drop x.2.length) := by
  cases buf with
  | nil => rfl
  | cons e rest =>
    rw [sqliteDecodeBinaryInPlace, decodeInPlace_eq e _ _ 1 0 (by omega) (by simp) (by simp)]
    rfl

end Codec

end Pkgtools
