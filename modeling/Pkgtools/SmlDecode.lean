import Pkgtools.SmlRoundTrip

namespace Pkgtools
open CLib
set_option autoImplicit true

/-- `sml_XmlDecodeString` at work: the state of the machine, the size of the storage at `rs`, the
buffer and the place in it that `d` points to. -/
structure Decoder where
  fsms : Fsms
  size : Nat
  stringHead : Str
  d : Nat
  deriving DecidableEq, Repr

namespace Decoder

/-- `*d++ = c`, inside the buffer. -/
def put (m : Decoder) (c : Char) : Option Decoder :=
  if m.d < m.stringHead.length then
    some { m with stringHead := m.stringHead.set m.d c, d := m.d + 1 }
  else none

/-- `strncpy (d, rs, tmpdiff - 1)`, which leaves `d` where it is. With nothing collected the length
is negative. -/
def strncpyRef (m : Decoder) (rs : Str) : Option Decoder :=
  if rs = [] then none
  else if m.d + (rs.length - 1) ≤ m.stringHead.length then
    some { m with stringHead := m.stringHead.take m.d ++
      (rs.take (rs.length - 1) ++ m.stringHead.drop (m.d + (rs.length - 1))) }
  else none

/-- `fsms_collect`. Every branch stores at `ri`. -/
def collect (m : Decoder) (rs : Str) (c : Char) : Option Decoder :=
  if m.size ≤ rs.length then none
  else if c = ';' then (m.put (refByte rs)).map ({ · with fsms := .text })
  else if isHexDigit c then some { m with fsms := .collect (rs ++ [c]) }
  else do
    let m ← m.put '&'
    let m ← m.put '#'
    let m ← m.strncpyRef rs
    let m ← m.put c
    some { m with fsms := .text }

/-- One round of the loop, with the character `s` points to in front of the rest. -/
def step (m : Decoder) (c : Char) (s : Str) : Option Decoder :=
  match m.fsms with
  | .text => if c = '&' then some { m with fsms := .seenAmp } else m.put c
  | .seenAmp =>
    if c = '#' then some { m with fsms := .seenPound }
    else do
      let m ← m.put '&'
      let m ← m.put c
      some { m with fsms := .text }
  | .seenPound =>
    match (c :: s).findIdx? (· = ';') with
    | none => do
      let m ← m.put '&'
      let m ← m.put '#'
      let m ← m.put c
      some { m with fsms := .text }
    | some i => collect { m with size := i + 1 } [] c
  | .collect rs => m.collect rs c

def run : Decoder → Str → Option Decoder
  | m, [] => some m
  | m, c :: s => (m.step c s).bind (run · s)

end Decoder

/-- `sml_XmlDecodeString` on the buffer that it allocates: the bytes of the buffer and the offset of
the terminator. -/
def smlXmlDecodeBuffer (s : Str) : Option (Str × Nat) :=
  (Decoder.run ⟨.text, 0, List.replicate (s.length + 1) nul, 0⟩ s).bind fun m =>
    if m.d < m.stringHead.length then some (m.stringHead.set m.d nul, m.d) else none

section Buffer

/-- The characters of the string that a state holds back. -/
def Fsms.held : Fsms → Nat
  | .text => 0
  | .seenAmp => 1
  | .seenPound => 2
  | .collect rs => 2 + rs.length

namespace Decoder

/-- The buffer holds what was put out, and there is room for `k` characters and the terminator. -/
structure Wrote (n : Nat) (m : Decoder) (out : Str) (k : Nat) : Prop where
  length : m.stringHead.length = n + 1
  room : m.d + k ≤ n
  written : m.stringHead.take m.d = out

theorem Wrote.mono (h : Wrote n m out k) (hk : j ≤ k) : Wrote n m out j :=
  ⟨h.length, by have := h.room; omega, h.written⟩

theorem Wrote.state (h : Wrote n m out k) (fsms : Fsms) (size : Nat) :
    Wrote n { m with fsms := fsms, size := size } out k := ⟨h.length, h.room, h.written⟩

theorem Wrote.put (h : Wrote n m out (k + 1)) (c : Char) :
    ∃ m', m.put c = some m' ∧ m'.fsms = m.fsms ∧ m'.size = m.size ∧ Wrote n m' (out ++ [c]) k := by
  have hlt : m.d < m.stringHead.length := by
    have := h.room
    rw [h.length]
    omega
  refine ⟨_, if_pos hlt, rfl, rfl, ?_, ?_, ?_⟩
  · rw [List.length_set]
    exact h.length
  · have := h.room
    show m.d + 1 + k ≤ n
    omega
  · show (m.stringHead.set m.d c).take (m.d + 1) = out ++ [c]
    rw [List.take_add_one, List.take_set_of_le (Nat.le_refl _), h.written,
      List.getElem?_set_self hlt]
    rfl

theorem Wrote.strncpyRef (h : Wrote n m out k) (hne : rs ≠ []) (hk : rs.length ≤ k + 2) :
    ∃ m', m.strncpyRef rs = some m' ∧ m'.fsms = m.fsms ∧ m'.size = m.size ∧ Wrote n m' out k := by
  have hle : m.d + (rs.length - 1) ≤ m.stringHead.length := by
    have := h.room
    rw [h.length]
    omega
  have hd : m.d ≤ m.stringHead.length := by omega
  rw [Decoder.strncpyRef, if_neg hne, if_pos hle]
  refine ⟨_, rfl, rfl, rfl, ?_, h.room, ?_⟩
  · rw [← h.length]
    simp only [List.length_append, List.length_take, List.length_drop]
    omega
  · show List.take m.d (_ ++ _) = out
    rw [List.take_append_of_le_length (by rw [List.length_take]; omega), List.take_take,
      Nat.min_self, h.written]

/-- The storage at `rs` reaches up to the next semicolon. -/
def Stored (m : Decoder) (s : Str) : Prop :=
  ∀ rs, m.fsms = .collect rs → ∃ i, s.findIdx? (· = ';') = some i ∧ m.size = rs.length + i + 1

/-- The decoder in front of the rest of a string of `n` characters. -/
structure Holds (n : Nat) (m : Decoder) (s out : Str) : Prop where
  wrote : Wrote n m out (m.fsms.held + s.length)
  stored : Stored m s

theorem stored_text (h : m.fsms = .text) (s : Str) : Stored m s := by
  intro rs hc
  rw [h] at hc
  cases hc

/-- A step of the machine on strings is a step on the buffer. -/
def Tracks (n : Nat) (s out : Str) : Option (Fsms × Str) → Option Decoder → Prop
  | none, m => m = none
  | some (st, o), m => ∃ m', m = some m' ∧ m'.fsms = st ∧ Holds n m' s (out ++ o)

theorem Wrote.end_text (h : Wrote n m out k) (hk : s.length ≤ k) :
    Holds n { m with fsms := .text } s out :=
  ⟨(h.state .text m.size).mono (by rw [Fsms.held]; omega), stored_text rfl s⟩

theorem Wrote.tracks_put (h : Wrote n m out (s.length + 1)) (c : Char) :
    Tracks n s out (some (.text, [c])) ((m.put c).map ({ · with fsms := .text })) := by
  obtain ⟨m₁, hm₁, -, -, h₁⟩ := h.put c
  refine ⟨{ m₁ with fsms := .text }, ?_, rfl, h₁.end_text (Nat.le_refl _)⟩
  rw [hm₁]
  rfl

theorem Wrote.tracks_collect (h : Wrote n m out (2 + rs.length + (s.length + 1)))
    (hi : (c :: s).findIdx? (· = ';') = some i) (hsize : m.size = rs.length + i + 1) :
    Tracks n s out (collectChar rs c) (m.collect rs c) := by
  rw [Decoder.collect, if_neg (by omega), collectChar]
  by_cases hc : c = ';'
  · rw [if_pos hc, if_pos hc]
    exact (h.mono (by omega)).tracks_put _
  rw [if_neg hc, if_neg hc]
  by_cases hd : isHexDigit c
  · rw [if_pos hd, if_pos hd]
    refine ⟨_, rfl, rfl, ?_, ?_⟩
    · rw [List.append_nil]
      refine (h.state _ _).mono ?_
      simp only [Fsms.held, List.length_append, List.length_singleton]
      omega
    · intro rs' hrs
      obtain rfl := Fsms.collect.inj hrs
      rw [List.findIdx?_cons, if_neg (by simpa using hc)] at hi
      obtain ⟨j, hj, rfl⟩ := Option.map_eq_some_iff.mp hi
      refine ⟨j, hj, ?_⟩
      rw [List.length_append, List.length_singleton]
      show m.size = _
      omega
  rw [if_neg hd, if_neg hd]
  obtain ⟨m₁, hm₁, -, -, h₁⟩ :=
    (h.mono (show rs.length + s.length + 1 + 1 + 1 ≤ _ by omega)).put '&'
  obtain ⟨m₂, hm₂, -, -, h₂⟩ := h₁.put '#'
  simp only [hm₁, hm₂, Option.bind_eq_bind, Option.bind_some]
  by_cases hrs : rs = []
  · rw [if_pos hrs, Decoder.strncpyRef, if_pos hrs]
    rfl
  · obtain ⟨m₃, hm₃, -, -, h₃⟩ := h₂.strncpyRef hrs (by omega)
    obtain ⟨m₄, hm₄, -, -, h₄⟩ := h₃.put c
    rw [if_neg hrs, hm₃, Option.bind_some, hm₄]
    refine ⟨{ m₄ with fsms := .text }, rfl, rfl, ?_⟩
    have := h₄.end_text (s := s) (by omega)
    rwa [List.append_assoc, List.append_assoc] at this

/-- Nothing is stored outside the buffer and the storage for a reference. -/
theorem Holds.step (h : Holds n m (c :: s) out) :
    Tracks n s out (decodeStep m.fsms c s) (m.step c s) := by
  have hw := h.wrote
  rw [List.length_cons] at hw
  rw [Decoder.step]
  cases hst : m.fsms with
  | text =>
    rw [hst, Fsms.held] at hw
    simp only [decodeStep]
    by_cases hc : c = '&'
    · rw [if_pos hc, if_pos hc]
      refine ⟨_, rfl, rfl, ?_, fun rs hrs => by cases hrs⟩
      rw [List.append_nil]
      exact (hw.state .seenAmp m.size).mono (by simp only [Fsms.held]; omega)
    · rw [if_neg hc, if_neg hc]
      obtain ⟨m₁, hm₁, hf, -, h₁⟩ := (hw.mono (show s.length + 1 ≤ _ by omega)).put c
      rw [hst] at hf
      exact ⟨m₁, hm₁, hf, h₁.mono (by rw [hf, Fsms.held]; omega), stored_text hf s⟩
  | seenAmp =>
    rw [hst, Fsms.held] at hw
    simp only [decodeStep]
    by_cases hc : c = '#'
    · rw [if_pos hc, if_pos hc]
      refine ⟨_, rfl, rfl, ?_, fun rs hrs => by cases hrs⟩
      rw [List.append_nil]
      exact (hw.state .seenPound m.size).mono (by simp only [Fsms.held]; omega)
    · rw [if_neg hc, if_neg hc]
      obtain ⟨m₁, hm₁, -, -, h₁⟩ := (hw.mono (show s.length + 1 + 1 ≤ _ by omega)).put '&'
      obtain ⟨m₂, hm₂, -, -, h₂⟩ := h₁.put c
      rw [hm₁, Option.bind_eq_bind, Option.bind_some, hm₂]
      refine ⟨{ m₂ with fsms := .text }, rfl, rfl, ?_⟩
      have := h₂.end_text (Nat.le_refl _)
      rwa [List.append_assoc] at this
  | seenPound =>
    rw [hst, Fsms.held] at hw
    simp only [decodeStep]
    cases hi : (c :: s).findIdx? (· = ';') with
    | none =>
      have hmem : ';' ∉ c :: s := by
        intro hm
        have := List.findIdx?_eq_none_iff.mp hi ';' hm
        simp at this
      rw [if_neg hmem]
      obtain ⟨m₁, hm₁, -, -, h₁⟩ := (hw.mono (show s.length + 1 + 1 + 1 ≤ _ by omega)).put '&'
      obtain ⟨m₂, hm₂, -, -, h₂⟩ := h₁.put '#'
      obtain ⟨m₃, hm₃, -, -, h₃⟩ := h₂.put c
      simp only [hm₁, hm₂, hm₃, Option.bind_eq_bind, Option.bind_some]
      refine ⟨{ m₃ with fsms := .text }, rfl, rfl, ?_⟩
      have := h₃.end_text (Nat.le_refl _)
      rwa [List.append_assoc, List.append_assoc] at this
    | some i =>
      have hmem : ';' ∈ c :: s := by
        obtain ⟨x, hx, hp⟩ := List.findIdx?_isSome.symm.trans (by rw [hi]; rfl) |>
          List.any_eq_true.mp
        exact of_decide_eq_true hp ▸ hx
      rw [if_pos hmem]
      refine (hw.state .seenPound (i + 1)).tracks_collect hi ?_
      show i + 1 = 0 + i + 1
      omega
  | collect rs =>
    rw [hst, Fsms.held] at hw
    obtain ⟨i, hi, hsize⟩ := h.stored rs hst
    exact hw.tracks_collect hi hsize

theorem Holds.run (h : Holds n m s out) :
    (decodeFrom m.fsms s = none ∧ m.run s = none) ∨
      ∃ rest m', decodeFrom m.fsms s = some rest ∧ m.run s = some m' ∧
        Wrote n m' (out ++ rest) 0 := by
  induction s generalizing m out with
  | nil =>
    refine .inr ⟨[], m, by rw [decodeFrom], rfl, ?_⟩
    rw [List.append_nil]
    exact h.wrote.mono (Nat.zero_le _)
  | cons c s ih =>
    have hstep := h.step
    rw [Decoder.run]
    cases hd : decodeStep m.fsms c s with
    | none =>
      rw [hd] at hstep
      refine .inl ⟨by simp only [decodeFrom, hd], ?_⟩
      rw [show m.step c s = none from hstep]
      rfl
    | some r =>
      obtain ⟨st, o⟩ := r
      rw [hd] at hstep
      obtain ⟨m₁, hm₁, rfl, h₁⟩ := hstep
      rw [decodeFrom_cons hd, hm₁, Option.bind_some]
      rcases ih h₁ with ⟨hnone, hrun⟩ | ⟨rest, m₂, hrest, hrun, hw⟩
      · exact .inl ⟨by rw [hnone]; rfl, hrun⟩
      · refine .inr ⟨o ++ rest, m₂, by rw [hrest]; rfl, hrun, ?_⟩
        rwa [← List.append_assoc]

end Decoder

theorem smlXmlDecodeBuffer_eq (s : Str) :
    (decodeFrom .text s = none ∧ smlXmlDecodeBuffer s = none) ∨
      ∃ out buf, decodeFrom .text s = some out ∧ smlXmlDecodeBuffer s = some (buf, out.length) ∧
        buf.length = s.length + 1 ∧ buf.take out.length = out ∧ buf[out.length]? = some nul := by
  have hstart : Decoder.Holds s.length ⟨.text, 0, List.replicate (s.length + 1) nul, 0⟩ s [] :=
    ⟨⟨List.length_replicate, by simp [Fsms.held], rfl⟩, Decoder.stored_text rfl s⟩
  rw [smlXmlDecodeBuffer]
  rcases hstart.run with ⟨hnone, hrun⟩ | ⟨out, m, hout, hrun, hw⟩
  · exact .inl ⟨hnone, by rw [hrun]; rfl⟩
  · have hlt : m.d < m.stringHead.length := by
      have := hw.room
      rw [hw.length]
      omega
    have hd : m.d = out.length := by
      rw [← List.nil_append out, ← hw.written, List.length_take]
      omega
    refine .inr ⟨out, m.stringHead.set m.d nul, hout, ?_, ?_, ?_, ?_⟩
    · rw [hrun, Option.bind_some, if_pos hlt, hd]
    · rw [List.length_set]
      exact hw.length
    · rw [← hd, List.take_set_of_le (Nat.le_refl _)]
      exact hw.written
    · rw [← hd, List.getElem?_set_self hlt]

/-- The string that is returned, as the machine on strings has it. -/
theorem smlXmlDecodeString_eq_buffer (s : Str) :
    smlXmlDecodeString s = (smlXmlDecodeBuffer s).map fun r => cstr r.1 := by
  rw [smlXmlDecodeString]
  rcases smlXmlDecodeBuffer_eq s with ⟨hnone, hbuf⟩ | ⟨out, buf, hout, hbuf, -, htake, hnul⟩
  · rw [hnone, hbuf]
    rfl
  · obtain ⟨hlt, hget⟩ := List.getElem?_eq_some_iff.mp hnul
    have hsplit : buf = out ++ nul :: buf.drop (out.length + 1) := by
      rw [← hget, List.getElem_cons_drop, ← htake, List.length_take, Nat.min_eq_left (by omega)]
      exact (List.take_append_drop _ _).symm
    rw [hout, hbuf, Option.map_some, Option.map_some, hsplit, cstr_append_terminator]

end Buffer

section References

def hexNumber (ds : Str) : Nat := ds.foldl (fun v c => v * 16 + hexDigitValue c) 0

def denoted (ds : Str) : Char := Char.ofNat (hexNumber ds % 256)

/-- The digits of the character reference at the start of a string, and what stands behind it. -/
def reference : Str → Option (Str × Str)
  | '&' :: '#' :: s =>
    match s.takeWhile isHexDigit, s.dropWhile isHexDigit with
    | d :: ds, ';' :: rest => some (d :: ds, rest)
    | _, _ => none
  | _ => none

structure Digits (ds : Str) : Prop where
  nonempty : ds ≠ []
  hex : ∀ c ∈ ds, isHexDigit c

theorem reference_append (h : Digits ds) (rest : Str) :
    reference ('&' :: '#' :: (ds ++ ';' :: rest)) = some (ds, rest) := by
  obtain ⟨d, ds, rfl⟩ := List.exists_cons_of_ne_nil h.nonempty
  have ht := takeWhile_append_cons h.hex (show isHexDigit ';' = false by decide) rest
  have hd := dropWhile_append_cons h.hex (show isHexDigit ';' = false by decide) rest
  simp only [reference, ht, hd]

theorem eq_of_reference (h : reference s = some (ds, rest)) :
    s = '&' :: '#' :: (ds ++ ';' :: rest) ∧ Digits ds := by
  rw [reference.eq_def] at h
  split at h
  · next s =>
    split at h
    · next d ds' rest' ht hd =>
      obtain ⟨rfl, rfl⟩ := Prod.mk.inj (Option.some.inj h)
      refine ⟨?_, List.cons_ne_nil _ _, ?_⟩
      · rw [← ht, ← hd, List.takeWhile_append_dropWhile]
      · rw [← ht]
        exact fun c hc => List.mem_takeWhile_imp hc
    · cases h
  · cases h

theorem reference_eq_none_of_ne (hc : c ≠ '&') (s : Str) : reference (c :: s) = none := by
  cases h : reference (c :: s) with
  | none => rfl
  | some r => exact absurd (List.cons.inj (eq_of_reference h).1).1 hc

theorem reference_eq_none (h : ';' ∉ s) : reference s = none := by
  cases hr : reference s with
  | none => rfl
  | some r =>
    refine absurd ?_ h
    rw [(eq_of_reference hr).1]
    simp

/-- The string with every well-formed reference replaced by its byte. -/
def decodeRefs (s : Str) : Str :=
  match _hr : reference s with
  | some (ds, rest) => denoted ds :: decodeRefs rest
  | none =>
    match s with
    | [] => []
    | c :: s => c :: decodeRefs s
termination_by s.length
decreasing_by
  · rw [(eq_of_reference _hr).1]
    simp only [List.length_cons, List.length_append]
    omega
  · exact Nat.lt_succ_self _

theorem decodeRefs_nil : decodeRefs [] = [] := by
  rw [decodeRefs]
  rfl

theorem decodeRefs_reference (h : Digits ds) (rest : Str) :
    decodeRefs ('&' :: '#' :: (ds ++ ';' :: rest)) = denoted ds :: decodeRefs rest := by
  rw [decodeRefs]
  split
  · next hr =>
    rw [reference_append h] at hr
    obtain ⟨rfl, rfl⟩ := Prod.mk.inj (Option.some.inj hr)
    rfl
  · next hr =>
    rw [reference_append h] at hr
    cases hr

theorem decodeRefs_cons (h : reference (c :: s) = none) :
    decodeRefs (c :: s) = c :: decodeRefs s := by
  rw [decodeRefs]
  split
  · next hr =>
    rw [h] at hr
    cases hr
  · rfl

end References

/-- The text of which every piece is decoded as it should be: a character other than `&`, a `&` with
a character behind it that does not begin a reference, `&#` and another character where no semicolon
follows, and a reference whose number `sscanf` can read. -/
inductive DecodableText : Str → Prop
  | nil : DecodableText []
  | char : c ≠ '&' → DecodableText s → DecodableText (c :: s)
  | amp : c ≠ '#' → reference (c :: s) = none → DecodableText s → DecodableText ('&' :: c :: s)
  | pound : ';' ∉ c :: s → DecodableText s → DecodableText ('&' :: '#' :: c :: s)
  | ref : Digits ds → hexNumber ds < 2 ^ 64 ∨ hexNumber ds % 256 = 255 → DecodableText s →
      DecodableText ('&' :: '#' :: (ds ++ ';' :: s))

section Exact

theorem ofNat_byte_inj (ha : a < 256) (hb : b < 256) (h : Char.ofNat a = Char.ofNat b) : a = b := by
  have hval : ∀ n, n < 256 → (Char.ofNat n).toNat = n := by
    intro n hn
    rw [Char.ofNat, dif_pos (show n.isValidChar from .inl (by omega))]
    rfl
  rw [← hval a ha, ← hval b hb, h]

/-- The number is read as the machine's largest one when it does not fit. -/
theorem refByte_eq (h : Digits ds) :
    refByte ds = if hexNumber ds < 2 ^ 64 then denoted ds else Char.ofNat 255 := by
  rw [refByte, if_neg h.nonempty, hexValue, denoted, ← hexNumber]
  split
  · rw [Nat.min_eq_left (by omega)]
  · rw [Nat.min_eq_right (by omega)]
    rfl

theorem refByte_eq_denoted_iff (h : Digits ds) :
    refByte ds = denoted ds ↔ hexNumber ds < 2 ^ 64 ∨ hexNumber ds % 256 = 255 := by
  rw [refByte_eq h]
  split
  · next hlt => exact iff_of_true rfl (.inl hlt)
  · next hlt =>
    rw [or_iff_right hlt]
    constructor
    · intro he
      exact (ofNat_byte_inj (by omega) (Nat.mod_lt _ (by omega)) he).symm
    · intro he
      rw [denoted, he]

theorem decodeFrom_char (hc : c ≠ '&') (s : Str) :
    decodeFrom .text (c :: s) = (decodeFrom .text s).map (c :: ·) :=
  decodeFrom_cons (show decodeStep .text c s = some (.text, [c]) from if_neg hc)

theorem decodeFrom_amp (hc : c ≠ '#') (s : Str) :
    decodeFrom .text ('&' :: c :: s) = (decodeFrom .text s).map (['&', c] ++ ·) := by
  rw [decodeFrom_silent (show decodeStep .text '&' (c :: s) = some (.seenAmp, []) from rfl)]
  exact decodeFrom_cons (show decodeStep .seenAmp c s = some (.text, ['&', c]) from if_neg hc)

theorem decodeFrom_pound (c : Char) (s : Str) :
    decodeFrom .text ('&' :: '#' :: c :: s) = decodeFrom .seenPound (c :: s) := by
  rw [decodeFrom_silent (show decodeStep .text '&' ('#' :: c :: s) = some (.seenAmp, []) from rfl)]
  exact decodeFrom_silent (show decodeStep .seenAmp '#' (c :: s) = some (.seenPound, []) from rfl)

theorem decodeFrom_noSemicolon (h : ';' ∉ c :: s) :
    decodeFrom .text ('&' :: '#' :: c :: s) = (decodeFrom .text s).map (['&', '#', c] ++ ·) := by
  rw [decodeFrom_pound]
  exact decodeFrom_cons (show decodeStep .seenPound c s = some (.text, ['&', '#', c]) from if_neg h)

theorem decodeFrom_text (hs : '&' ∉ s) (t : Str) :
    decodeFrom .text (s ++ t) = (decodeFrom .text t).map (s ++ ·) := by
  induction s with
  | nil =>
    rw [List.nil_append]
    cases decodeFrom .text t <;> rfl
  | cons c s ih =>
    have hc : c ≠ '&' := fun he => hs (he ▸ List.mem_cons_self)
    rw [List.cons_append, decodeFrom_char hc, ih fun hm => hs (List.mem_cons_of_mem _ hm),
      Option.map_map]
    rfl

theorem decodeFrom_collect_bad (hds : ∀ c ∈ ds, isHexDigit c) (hx : isHexDigit x = false)
    (hne : x ≠ ';') (rs s : Str) :
    decodeFrom (.collect rs) (ds ++ x :: s) =
      if rs ++ ds = [] then none else (decodeFrom .text s).map (['&', '#', x] ++ ·) := by
  induction ds generalizing rs with
  | nil =>
    rw [List.nil_append, List.append_nil]
    have hstep : decodeStep (.collect rs) x s =
        if rs = [] then none else some (.text, ['&', '#', x]) := by
      rw [decodeStep, collectChar, if_neg hne, if_neg (by rw [hx]; decide)]
    split
    · next hrs => simp only [decodeFrom, hstep, if_pos hrs]
    · next hrs =>
      rw [if_neg hrs] at hstep
      exact decodeFrom_cons hstep
  | cons d ds ih =>
    have hd : isHexDigit d := hds d List.mem_cons_self
    have hsemi : d ≠ ';' := by
      rintro rfl
      exact absurd hd (by decide)
    have hstep : decodeStep (.collect rs) d (ds ++ x :: s) = some (.collect (rs ++ [d]), []) := by
      simp only [decodeStep, collectChar, if_neg hsemi, hd, if_true]
    rw [List.cons_append, decodeFrom_silent hstep, ih fun c hc => hds c (List.mem_cons_of_mem _ hc),
      List.append_assoc, List.singleton_append]

theorem decodeFrom_semicolon (h : ';' ∈ c :: s) :
    decodeFrom .text ('&' :: '#' :: c :: s) = decodeFrom (.collect []) (c :: s) := by
  rw [decodeFrom_pound]
  simp only [decodeFrom, decodeStep, if_pos h]

theorem decodeFrom_of_decodable (h : DecodableText s) :
    decodeFrom .text s = some (decodeRefs s) := by
  induction h with
  | nil => rw [decodeRefs_nil, decodeFrom]
  | char hc _ ih => rw [decodeFrom_char hc, ih, decodeRefs_cons (reference_eq_none_of_ne hc _)]; rfl
  | @amp c s hc hr _ ih =>
    have hamp : reference ('&' :: c :: s) = none := by
      cases href : reference ('&' :: c :: s) with
      | none => rfl
      | some r => exact absurd (List.cons.inj (List.cons.inj (eq_of_reference href).1).2).1 hc
    rw [decodeFrom_amp hc, ih, decodeRefs_cons hamp, decodeRefs_cons hr]
    rfl
  | pound hm _ ih =>
    rw [decodeFrom_noSemicolon hm, ih, decodeRefs_cons (reference_eq_none _),
      decodeRefs_cons (reference_eq_none _), decodeRefs_cons (reference_eq_none hm)]
    · rfl
    · simpa using hm
    · simpa using hm
  | ref hds hv _ ih =>
    rw [decodeFrom_reference hds.hex hds.nonempty, ih, decodeRefs_reference hds,
      (refByte_eq_denoted_iff hds).mpr hv]
    rfl

/-- What was passed over as plain text is never caught up with. -/
theorem append_decodeFrom_ne (hl : l ≠ []) (hamp : '&' ∉ l) (h : decodeFrom .text s = some out) :
    l ++ out ≠ decodeRefs s := by
  induction hn : s.length using Nat.strong_induction_on generalizing s l out with
  | h n ih =>
    obtain ⟨x, l, rfl⟩ := List.exists_cons_of_ne_nil hl
    intro he
    have hx : x ≠ '&' := fun h => hamp (h ▸ List.mem_cons_self)
    have hl' : '&' ∉ l := fun h => hamp (List.mem_cons_of_mem _ h)
    cases s with
    | nil =>
      rw [decodeRefs_nil] at he
      cases he
    | cons c s =>
      cases hr : reference (c :: s) with
      | none =>
        rw [decodeRefs_cons hr, List.cons_append] at he
        obtain ⟨rfl, hrest⟩ := List.cons.inj he
        rw [decodeFrom_char hx] at h
        obtain ⟨out', hout, rfl⟩ := Option.map_eq_some_iff.mp h
        refine ih s.length (by rw [← hn]; exact Nat.lt_succ_self _) (by simp) ?_ hout rfl
          (l := l ++ [x]) (by rw [← hrest, List.append_assoc]; rfl)
        simpa using ⟨hl', hx.symm⟩
      | some r =>
        obtain ⟨ds, rest⟩ := r
        obtain ⟨hs, hds⟩ := eq_of_reference hr
        rw [hs, decodeRefs_reference hds, List.cons_append] at he
        obtain ⟨rfl, hrest⟩ := List.cons.inj he
        rw [hs, decodeFrom_reference hds.hex hds.nonempty] at h
        obtain ⟨out', hout, rfl⟩ := Option.map_eq_some_iff.mp h
        have hbyte : refByte ds ≠ '&' := by
          rw [refByte_eq hds]
          split
          · exact hx
          · decide
        refine ih rest.length ?_ (by simp) ?_ hout rfl (l := l ++ [refByte ds])
          (by rw [← hrest, List.append_assoc]; rfl)
        · rw [← hn, hs]
          simp only [List.length_cons, List.length_append]
          omega
        · simpa using ⟨hl', hbyte.symm⟩

theorem map_append_inj {a b : Str} {o : Option Str} (hlen : a.length = b.length)
    (h : o.map (a ++ ·) = some (b ++ t)) : a = b ∧ o = some t := by
  obtain ⟨u, rfl, he⟩ := Option.map_eq_some_iff.mp h
  obtain ⟨hab, rfl⟩ := List.append_inj he hlen
  exact ⟨hab, rfl⟩

theorem map_cons_inj {o : Option Str} (h : o.map (a :: ·) = some (b :: t)) :
    a = b ∧ o = some t := by
  obtain ⟨hab, ho⟩ := map_append_inj (a := [a]) (b := [b]) rfl h
  exact ⟨List.singleton_inj.mp hab, ho⟩

/-- A `&` behind a `&` is not looked at, also where it begins a reference. -/
theorem decodable_amp (hc : c ≠ '#')
    (h : decodeFrom .text ('&' :: c :: s) = some (decodeRefs ('&' :: c :: s)))
    (ih : decodeFrom .text s = some (decodeRefs s) → DecodableText s) :
    DecodableText ('&' :: c :: s) := by
  have hamp : reference ('&' :: c :: s) = none := by
    cases hr : reference ('&' :: c :: s) with
    | none => rfl
    | some r => exact absurd (List.cons.inj (List.cons.inj (eq_of_reference hr).1).2).1 hc
  rw [decodeFrom_amp hc, decodeRefs_cons hamp] at h
  cases hr : reference (c :: s) with
  | none =>
    rw [decodeRefs_cons hr] at h
    exact .amp hc hr (ih (map_append_inj (b := ['&', c]) rfl h).2)
  | some r =>
    obtain ⟨ds, rest⟩ := r
    obtain ⟨hs, hds⟩ := eq_of_reference hr
    obtain ⟨rfl, rfl⟩ := List.cons.inj hs
    have hplain : '&' ∉ '#' :: (ds ++ [';']) := by
      intro hm
      simp only [List.mem_cons, List.mem_append, List.not_mem_nil, or_false] at hm
      rcases hm with he | hm | he
      · cases he
      · exact absurd (hds.hex _ hm) (by decide)
      · cases he
    have hsplit : '#' :: (ds ++ ';' :: rest) = '#' :: (ds ++ [';']) ++ rest := by simp
    rw [decodeRefs_reference hds, hsplit, decodeFrom_text hplain] at h
    obtain ⟨u, hu, he⟩ := Option.map_eq_some_iff.mp h
    obtain ⟨out, hout, rfl⟩ := Option.map_eq_some_iff.mp hu
    have hlag : '#' :: (ds ++ [';']) ++ out = decodeRefs rest :=
      (List.cons.inj (List.cons.inj he).2).2
    exact absurd hlag (append_decodeFrom_ne (List.cons_ne_nil _ _) hplain hout)

theorem split_hexDigits {s : Str} (hm : ';' ∈ s) :
    ∃ ds x u, s = ds ++ x :: u ∧ (∀ c ∈ ds, isHexDigit c) ∧ isHexDigit x = false := by
  have hsplit := List.takeWhile_append_dropWhile (p := isHexDigit) (l := s)
  cases hd : s.dropWhile isHexDigit with
  | nil => exact absurd (List.dropWhile_eq_nil_iff.mp hd ';' hm) (by decide)
  | cons x u =>
    rw [hd] at hsplit
    refine ⟨_, x, u, hsplit.symm, fun c hc => List.mem_takeWhile_imp hc, ?_⟩
    have hhead := List.head?_dropWhile_not isHexDigit s
    rw [hd] at hhead
    simpa using hhead

theorem reference_bad_digit {ds u : Str} {x : Char} (hds : ∀ c ∈ ds, isHexDigit c)
    (hx : isHexDigit x = false) (hsemi : x ≠ ';') :
    reference ('&' :: '#' :: (ds ++ x :: u)) = none := by
  cases hr : reference ('&' :: '#' :: (ds ++ x :: u)) with
  | none => rfl
  | some r =>
    obtain ⟨ds', rest⟩ := r
    obtain ⟨he, hds'⟩ := eq_of_reference hr
    have he := (List.cons.inj (List.cons.inj he).2).2
    have hdrop := dropWhile_append_cons hds hx u
    rw [he, dropWhile_append_cons hds'.hex (by decide)] at hdrop
    exact absurd (List.cons.inj hdrop).1.symm hsemi

theorem decodable_pound (h : decodeFrom .text ('&' :: '#' :: s) =
    some (decodeRefs ('&' :: '#' :: s)))
    (ih : ∀ t : Str, t.length < s.length → decodeFrom .text t = some (decodeRefs t) →
      DecodableText t) : DecodableText ('&' :: '#' :: s) := by
  cases s with
  | nil =>
    rw [decodeRefs_cons rfl, decodeRefs_cons rfl] at h
    cases h
  | cons c s =>
    by_cases hm : ';' ∈ c :: s
    · rw [decodeFrom_semicolon hm] at h
      obtain ⟨ds, x, u, hs, hds, hx⟩ := split_hexDigits hm
      rw [hs] at h ih ⊢
      by_cases hsemi : x = ';'
      · subst hsemi
        rw [decodeFrom_collect hds, List.nil_append] at h
        by_cases hne : ds = []
        · subst hne
          rw [decodeRefs_cons rfl] at h
          exact absurd (map_cons_inj h).1 (by decide)
        · have hdig : Digits ds := ⟨hne, hds⟩
          rw [decodeRefs_reference hdig] at h
          obtain ⟨hbyte, htext⟩ := map_cons_inj h
          refine .ref hdig ((refByte_eq_denoted_iff hdig).mp hbyte) (ih u ?_ htext)
          rw [List.length_append, List.length_cons]
          omega
      · rw [decodeFrom_collect_bad hds hx hsemi, List.nil_append] at h
        cases ds with
        | nil => cases h
        | cons d ds =>
          have hnone := reference_bad_digit hds hx hsemi (u := u)
          have hd : isHexDigit d := hds d List.mem_cons_self
          have hdne : d ≠ '&' := by
            rintro rfl
            exact absurd hd (by decide)
          rw [if_neg (List.cons_ne_nil _ _), decodeRefs_cons hnone,
            decodeRefs_cons (reference_eq_none_of_ne (by decide) _), List.cons_append,
            decodeRefs_cons (reference_eq_none_of_ne hdne _)] at h
          have he := (map_append_inj (a := ['&', '#', x]) (b := ['&', '#', d]) rfl h).1
          have hxd : x = d := (List.cons.inj (List.cons.inj (List.cons.inj he).2).2).1
          rw [hxd, hd] at hx
          cases hx
    · rw [decodeFrom_noSemicolon hm, decodeRefs_cons (reference_eq_none (by simpa using hm)),
        decodeRefs_cons (reference_eq_none (by simpa using hm)),
        decodeRefs_cons (reference_eq_none hm)] at h
      exact .pound hm (ih s (Nat.lt_succ_self _) (map_append_inj (b := ['&', '#', c]) rfl h).2)

theorem decodable_of_decodeFrom (h : decodeFrom .text s = some (decodeRefs s)) :
    DecodableText s := by
  induction hn : s.length using Nat.strong_induction_on generalizing s with
  | h n ih =>
    match s, h, hn with
    | [], _, _ => exact .nil
    | c :: s, h, hn =>
      rw [List.length_cons] at hn
      by_cases hc : c = '&'
      · subst hc
        match s, h, hn with
        | [], h, _ =>
          rw [decodeRefs_cons rfl] at h
          cases h
        | c :: s, h, hn =>
          rw [List.length_cons] at hn
          by_cases hc : c = '#'
          · subst hc
            exact decodable_pound h fun t ht htext => ih t.length (by omega) htext rfl
          · exact decodable_amp hc h fun htext => ih s.length (by omega) htext rfl
      · rw [decodeFrom_char hc, decodeRefs_cons (reference_eq_none_of_ne hc _)] at h
        exact .char hc (ih s.length (by omega) (map_cons_inj h).2 rfl)

/-- The buffer ends up with the string decoded exactly where every `&` of it is read in
its place. -/
theorem smlXmlDecodeBuffer_decodes_iff (s : Str) :
    (∃ buf d, smlXmlDecodeBuffer s = some (buf, d) ∧ buf.length = s.length + 1 ∧
      buf.take d = decodeRefs s ∧ buf[d]? = some nul) ↔ DecodableText s := by
  rcases smlXmlDecodeBuffer_eq s with ⟨hnone, hbuf⟩ | ⟨out, buf, hout, hbuf, hlen, htake, hnul⟩
  · rw [hbuf]
    refine iff_of_false ?_ fun h => ?_
    · rintro ⟨buf, d, h, -⟩
      cases h
    · rw [decodeFrom_of_decodable h] at hnone
      cases hnone
  · constructor
    · rintro ⟨buf', d, h, -, hdec, -⟩
      rw [hbuf] at h
      obtain ⟨rfl, rfl⟩ := Prod.mk.inj (Option.some.inj h)
      rw [htake] at hdec
      exact decodable_of_decodeFrom (hdec ▸ hout)
    · intro h
      rw [decodeFrom_of_decodable h] at hout
      obtain rfl := Option.some.inj hout
      exact ⟨buf, _, hbuf, hlen, htake, hnul⟩

/-- A `&` at the end of the string is lost. -/
theorem smlXmlDecodeBuffer_drops_amp :
    ¬ ∃ buf d, smlXmlDecodeBuffer "a&".toList = some (buf, d) ∧
      buf.length = "a&".toList.length + 1 ∧
      buf.take d = decodeRefs "a&".toList ∧ buf[d]? = some nul := by
  rintro ⟨buf, d, h, -, hdec, -⟩
  have hrun : smlXmlDecodeBuffer "a&".toList = some (['a', nul, nul], 1) := by decide
  have hspec : decodeRefs "a&".toList = ['a', '&'] := by
    rw [show "a&".toList = ['a', '&'] from rfl, decodeRefs_cons rfl, decodeRefs_cons rfl,
      decodeRefs_nil]
  rw [hrun] at h
  obtain ⟨rfl, rfl⟩ := Prod.mk.inj (Option.some.inj h)
  rw [hspec] at hdec
  exact absurd hdec (by decide)

end Exact

end Pkgtools
