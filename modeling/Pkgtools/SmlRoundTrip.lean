import Pkgtools.Sml

namespace Pkgtools
open CLib
set_option autoImplicit true

/-- A value of bytes other than NUL whose encoded form fits the reader's buffer. -/
structure ValueFits (v : Str) : Prop where
  nulFree : NulFree v
  bytes : ∀ c ∈ v, c.toNat < 256
  short : (smlXmlEncodeString v).length < MAX_SML_COMPONENT_LENGTH

section Decode

theorem decodeFrom_cons (h : decodeStep st c s = some (st', out)) :
    decodeFrom st (c :: s) = (decodeFrom st' s).map (out ++ ·) := by
  simp only [decodeFrom, h]

theorem decodeFrom_silent (h : decodeStep st c s = some (st', [])) :
    decodeFrom st (c :: s) = decodeFrom st' s := by
  rw [decodeFrom_cons h]
  cases decodeFrom st' s <;> rfl

theorem decodeFrom_collect (hds : ∀ c ∈ ds, isHexDigit c) (rs s : Str) :
    decodeFrom (.collect rs) (ds ++ ';' :: s) =
      (decodeFrom .text s).map (refByte (rs ++ ds) :: ·) := by
  induction ds generalizing rs with
  | nil =>
    rw [List.nil_append, List.append_nil]
    have hstep : decodeStep (.collect rs) ';' s = some (.text, [refByte rs]) := by
      rw [decodeStep, collectChar, if_pos rfl]
    exact decodeFrom_cons hstep
  | cons d ds ih =>
    have hd : isHexDigit d := hds d List.mem_cons_self
    have hne : d ≠ ';' := by
      rintro rfl
      exact absurd hd (by decide)
    have hstep : decodeStep (.collect rs) d (ds ++ ';' :: s) = some (.collect (rs ++ [d]), []) := by
      simp only [decodeStep, collectChar, if_neg hne, hd, if_true]
    rw [List.cons_append, decodeFrom_silent hstep, ih fun c hc => hds c (List.mem_cons_of_mem _ hc),
      List.append_assoc, List.singleton_append]

theorem decodeFrom_reference (hds : ∀ c ∈ ds, isHexDigit c) (hne : ds ≠ []) (s : Str) :
    decodeFrom .text ('&' :: '#' :: (ds ++ ';' :: s)) =
      (decodeFrom .text s).map (refByte ds :: ·) := by
  obtain ⟨d, ds, rfl⟩ := List.exists_cons_of_ne_nil hne
  have hpound : decodeFrom .seenPound (d :: ds ++ ';' :: s) =
      decodeFrom (.collect []) (d :: ds ++ ';' :: s) := by
    have hm : ';' ∈ d :: (ds ++ ';' :: s) := by simp
    simp only [List.cons_append, decodeFrom, decodeStep, if_pos hm]
  have hcollect := decodeFrom_collect hds [] s
  rw [List.nil_append] at hcollect
  have hamp : decodeFrom .text ('&' :: '#' :: (d :: ds ++ ';' :: s)) =
      decodeFrom .seenAmp ('#' :: (d :: ds ++ ';' :: s)) := decodeFrom_silent rfl
  have hhash : decodeFrom .seenAmp ('#' :: (d :: ds ++ ';' :: s)) =
      decodeFrom .seenPound (d :: ds ++ ';' :: s) := decodeFrom_silent rfl
  rw [hamp, hhash, hpound, hcollect]

theorem hex_byte : ∀ n < 256, (∀ c ∈ Nat.toDigits 16 n, isHexDigit c) ∧
    refByte (Nat.toDigits 16 n) = Char.ofNat n ∧
    ∀ c ∈ Nat.toDigits 16 n, c ≠ '"' ∧ c ≠ '\n' := by
  decide +kernel

theorem decodeFrom_encodeChar (hc : c.toNat < 256) (s : Str) :
    decodeFrom .text (encodeChar c ++ s) = (decodeFrom .text s).map (c :: ·) := by
  rw [encodeChar]
  split
  · next hp =>
    have hne : c ≠ '&' := by
      rintro rfl
      exact absurd hp (by decide)
    have hstep : decodeStep .text c s = some (.text, [c]) := if_neg hne
    exact decodeFrom_cons hstep
  · obtain ⟨hds, hval, -⟩ := hex_byte c.toNat hc
    rw [Nat.mod_eq_of_lt hc, List.cons_append, List.cons_append, List.append_assoc,
      List.singleton_append, decodeFrom_reference hds Nat.toDigits_ne_nil, hval, Char.ofNat_toNat]

theorem decodeFrom_encode (h : ∀ c ∈ v, c.toNat < 256) :
    decodeFrom .text (smlXmlEncodeString v) = some v := by
  induction v with
  | nil => rfl
  | cons c v ih =>
    rw [smlXmlEncodeString, List.flatMap_cons, decodeFrom_encodeChar (h c List.mem_cons_self)]
    rw [← smlXmlEncodeString, ih fun d hd => h d (List.mem_cons_of_mem _ hd)]
    rfl

theorem smlXmlDecodeString_encode (h : ValueFits v) :
    smlXmlDecodeString (smlXmlEncodeString v) = some v := by
  rw [smlXmlDecodeString, decodeFrom_encode h.bytes, Option.map_some, cstr_of_nulFree h.nulFree]

theorem encode_chars (h : ∀ c ∈ v, c.toNat < 256) :
    ∀ c ∈ smlXmlEncodeString v, c ≠ '"' ∧ c ≠ '\n' := by
  intro c hc
  obtain ⟨d, hd, hc⟩ := List.mem_flatMap.mp hc
  rw [encodeChar] at hc
  split at hc
  · next hp =>
    rw [List.mem_singleton.mp hc]
    constructor <;> rintro rfl <;> exact absurd hp (by decide)
  · rw [Nat.mod_eq_of_lt (h d hd)] at hc
    simp only [List.mem_cons, List.mem_append, List.not_mem_nil, or_false] at hc
    rcases hc with rfl | rfl | hc | rfl
    · decide
    · decide
    · exact (hex_byte d.toNat (h d hd)).2.2 c hc
    · decide

end Decode

/-- A character that the reader accepts in the name of an element. -/
def nameChar (c : Char) : Bool :=
  !(nameSeparators.contains c || nameIllegal.contains c || c == '/' || c == nul)

structure ElementName (n : Str) : Prop where
  nonempty : n ≠ []
  chars : ∀ c ∈ n, nameChar c
  short : n.length < MAX_SML_COMPONENT_LENGTH

/-- A character that the reader accepts at the start of a parameter's name. -/
def paramStartChar (c : Char) : Bool :=
  !(paramSeparators.contains c || paramStartIllegal.contains c || c == '>' || c == '/' || c == nul)

def paramChar (c : Char) : Bool := !(paramIllegal.contains c || c == '=' || c == nul)

structure ParamName (n : Str) : Prop where
  nonempty : n ≠ []
  start : ∀ c ∈ n.head?, paramStartChar c
  chars : ∀ c ∈ n.tail, paramChar c
  short : n.length < MAX_SML_COMPONENT_LENGTH

section Names

theorem accumulate_of_lt (h : acc.length + 1 < MAX_SML_COMPONENT_LENGTH) (c : Char) :
    accumulate acc c = acc ++ [c] := if_pos (by omega)

theorem readName_append (hn : ∀ c ∈ n, nameChar c)
    (hl : acc.length + n.length < MAX_SML_COMPONENT_LENGTH) (s : Str) :
    readName acc (n ++ s) = readName (acc ++ n) s := by
  induction n generalizing acc with
  | nil => rw [List.nil_append, List.append_nil]
  | cons c n ih =>
    have hc := hn c List.mem_cons_self
    simp only [nameChar, Bool.not_eq_true', Bool.or_eq_false_iff, List.contains_eq_mem,
      decide_eq_false_iff_not, beq_eq_false_iff_ne] at hc
    rw [List.length_cons] at hl
    rw [List.cons_append, readName, if_neg hc.1.1.1, if_neg hc.1.1.2, if_neg hc.1.2,
      accumulate_of_lt (by omega), ih fun d hd => hn d (List.mem_cons_of_mem _ hd)]
    · simp
    · rw [List.length_append, List.length_singleton]
      omega

theorem closeIllegal_of_nameChar : ∀ c ∈ closeIllegal, nameChar c = false := by decide

theorem readClose_name (hn : ∀ c ∈ n, nameChar c)
    (hl : acc.length + n.length < MAX_SML_COMPONENT_LENGTH) (s : Str) :
    readClose acc (n ++ '>' :: s) = some (acc ++ n, s) := by
  induction n generalizing acc with
  | nil => rw [List.append_nil]; rfl
  | cons c n ih =>
    have hc := hn c List.mem_cons_self
    have hgt : c ≠ '>' := by
      rintro rfl
      exact absurd hc (by decide)
    have hill : c ∉ closeIllegal :=
      fun hm => absurd hc (by rw [closeIllegal_of_nameChar c hm]; decide)
    rw [List.length_cons] at hl
    rw [List.cons_append, readClose, if_neg hgt, if_neg hill, accumulate_of_lt (by omega),
      ih fun d hd => hn d (List.mem_cons_of_mem _ hd)]
    · simp
    · rw [List.length_append, List.length_singleton]
      omega

theorem readParams_name (hn : ∀ c ∈ n, paramChar c)
    (hl : acc.length + n.length < MAX_SML_COMPONENT_LENGTH) (ps : List SmlParam) (s : Str) :
    readParams (.name acc) ps (n ++ s) = readParams (.name (acc ++ n)) ps s := by
  induction n generalizing acc with
  | nil => rw [List.nil_append, List.append_nil]
  | cons c n ih =>
    have hc := hn c List.mem_cons_self
    simp only [paramChar, Bool.not_eq_true', Bool.or_eq_false_iff, List.contains_eq_mem,
      decide_eq_false_iff_not, beq_eq_false_iff_ne] at hc
    rw [List.length_cons] at hl
    rw [List.cons_append, readParams, if_neg hc.1.1, if_neg hc.1.2, accumulate_of_lt (by omega),
      ih fun d hd => hn d (List.mem_cons_of_mem _ hd)]
    · simp
    · rw [List.length_append, List.length_singleton]
      omega

theorem readParams_value (hv : ∀ c ∈ v, c ≠ '"' ∧ c ≠ '\n')
    (hl : acc.length + v.length < MAX_SML_COMPONENT_LENGTH) (n : Str) (ps : List SmlParam)
    (s : Str) : readParams (.value n acc) ps (v ++ s) = readParams (.value n (acc ++ v)) ps s := by
  induction v generalizing acc with
  | nil => rw [List.nil_append, List.append_nil]
  | cons c v ih =>
    obtain ⟨h₁, h₂⟩ := hv c List.mem_cons_self
    rw [List.length_cons] at hl
    rw [List.cons_append, readParams, if_neg h₁, if_neg h₂, accumulate_of_lt (by omega),
      ih fun d hd => hv d (List.mem_cons_of_mem _ hd)]
    · simp
    · rw [List.length_append, List.length_singleton]
      omega

def paramText (p : SmlParam) : Str := p.name ++ '=' :: smlWriteParamValue [] p.value

structure ParamFits (p : SmlParam) : Prop where
  name : ParamName p.name
  value : ValueFits p.value

theorem readParams_param (hp : ParamFits p) (ps : List SmlParam) (s : Str) :
    readParams .gap ps (paramText p ++ s) = readParams .gap (ps ++ [p]) s := by
  obtain ⟨⟨hne, hstart, hchars, hshort⟩, hv⟩ := hp
  obtain ⟨c, n, hcn⟩ := List.exists_cons_of_ne_nil hne
  rw [hcn] at hstart hchars hshort
  rw [List.tail_cons] at hchars
  have hc := hstart c rfl
  simp only [paramStartChar, Bool.not_eq_true', Bool.or_eq_false_iff, List.contains_eq_mem,
    decide_eq_false_iff_not, beq_eq_false_iff_ne] at hc
  have htext : paramText p ++ s =
      c :: (n ++ '=' :: '"' :: (smlXmlEncodeString p.value ++ '"' :: s)) := by
    simp [paramText, hcn, smlWriteParamValue]
  rw [List.length_cons] at hshort
  have hlen := hv.short
  rw [htext, readParams, if_neg hc.1.1.1.1, if_neg hc.1.1.1.2, if_neg hc.1.1.2, if_neg hc.1.2,
    readParams_name hchars (by rw [List.length_singleton]; omega),
    readParams, if_neg (by decide), if_pos rfl, if_neg (by simp), readParams, if_pos rfl,
    readParams_value (encode_chars hv.bytes) (by rw [List.length_nil]; omega), readParams,
    if_pos rfl, List.nil_append, smlXmlDecodeString_encode hv]
  simp only [List.singleton_append, ← hcn]

theorem readParams_space (ps : List SmlParam) (s : Str) :
    readParams .gap ps (' ' :: s) = readParams .gap ps s := by
  rw [readParams, if_pos (by decide)]

def paramsText (ps : List SmlParam) : Str := ps.flatMap fun p => ' ' :: paramText p

theorem readParams_all (hps : ∀ p ∈ ps, ParamFits p) (qs : List SmlParam) (s : Str) :
    readParams .gap qs (paramsText ps ++ s) = readParams .gap (qs ++ ps) s := by
  induction ps generalizing qs with
  | nil => rw [List.append_nil]; rfl
  | cons p ps ih =>
    have hcons : paramsText (p :: ps) ++ s = ' ' :: (paramText p ++ (paramsText ps ++ s)) := by
      simp [paramsText]
    rw [hcons, readParams_space, readParams_param (hps p List.mem_cons_self),
      ih fun q hq => hps q (List.mem_cons_of_mem _ hq), List.append_assoc, List.singleton_append]

end Names

mutual

/-- A tree whose names are such as the reader accepts and whose components fit its buffer. -/
def SmlTag.Fits : SmlTag → Prop
  | .mk name params tags => ElementName name ∧ (∀ p ∈ params, ParamFits p) ∧ AllFit tags

def AllFit : List SmlTag → Prop
  | [] => True
  | tag :: tags => tag.Fits ∧ AllFit tags

end

section Text

theorem writeParams_eq (a : Str) (ps : List SmlParam) : writeParams a ps = a ++ paramsText ps := by
  induction ps generalizing a with
  | nil => exact (List.append_nil a).symm
  | cons p ps ih =>
    rw [writeParams, ih]
    simp [paramsText, paramText]

mutual

theorem smlWriteSimpleTag_append (a b : Str) :
    (tag : SmlTag) → smlWriteSimpleTag (a ++ b) tag = a ++ smlWriteSimpleTag b tag
  | .mk name params [] => by
    simp only [smlWriteSimpleTag, writeParams_eq, List.append_assoc]
  | .mk name params (tag :: tags) => by
    have h := writeTags_append a (b ++ '<' :: name ++ paramsText params ++ ">\n".toList)
      (tag :: tags)
    simp only [List.append_assoc] at h
    simp only [smlWriteSimpleTag, writeParams_eq, List.append_assoc, h]

theorem writeTags_append (a b : Str) :
    (tags : List SmlTag) → writeTags (a ++ b) tags = a ++ writeTags b tags
  | [] => rfl
  | tag :: tags => by
    rw [writeTags, writeTags, smlWriteSimpleTag_append a b tag,
      writeTags_append a (smlWriteSimpleTag b tag) tags]

end

theorem write_leaf (name : Str) (params : List SmlParam) :
    smlWriteSimpleTag [] (.mk name params []) =
      '<' :: (name ++ (paramsText params ++ "/>\n".toList)) := by
  simp only [smlWriteSimpleTag, writeParams_eq, List.nil_append, List.cons_append,
    List.append_assoc]

theorem write_node (name : Str) (params : List SmlParam) (tag : SmlTag) (tags : List SmlTag) :
    smlWriteSimpleTag [] (.mk name params (tag :: tags)) =
      '<' :: (name ++ (paramsText params ++ '>' :: '\n' :: (writeTags [] (tag :: tags) ++
        '<' :: '/' :: (name ++ ">\n".toList)))) := by
  have h := writeTags_append ('<' :: name ++ paramsText params ++ ">\n".toList) [] (tag :: tags)
  rw [List.append_nil] at h
  simp only [smlWriteSimpleTag, writeParams_eq, List.nil_append, h]
  simp

theorem writeTags_cons (tag : SmlTag) (tags : List SmlTag) :
    writeTags [] (tag :: tags) = smlWriteSimpleTag [] tag ++ writeTags [] tags := by
  have h := writeTags_append (smlWriteSimpleTag [] tag) [] tags
  rw [List.append_nil] at h
  rw [writeTags, h]

end Text

section Read
variable {name : Str} {params : List SmlParam} {tags : List SmlTag}

theorem ElementName.head_ne (h : ElementName name) (s : Str) : (name ++ s).head? ≠ some '/' := by
  obtain ⟨c, n, rfl⟩ := List.exists_cons_of_ne_nil h.nonempty
  intro he
  have hc : c = '/' := Option.some.inj he
  have := h.chars c List.mem_cons_self
  rw [hc] at this
  exact absurd this (by decide)

theorem readName_element (h : ElementName name) (s : Str) :
    readName [] (name ++ s) = readName name s := by
  rw [readName_append h.chars (by rw [List.length_nil]; have := h.short; omega), List.nil_append]

theorem smlReadTag_opened (h : ElementName name) (hps : ∀ p ∈ params, ParamFits p) (fuel : Nat)
    (parent : Option Str) (s : Str) :
    smlReadTag (fuel + 1) parent ('<' :: (name ++ (paramsText params ++ '>' :: s))) =
      (readTags fuel name s).map fun r => (some (.mk name params r.1), r.2.tail) := by
  have hlead : readLead parent.isSome ('<' :: (name ++ (paramsText params ++ '>' :: s))) =
      .opened (name ++ (paramsText params ++ '>' :: s)) := by rw [readLead, if_pos rfl]
  simp only [smlReadTag, hlead, if_neg (h.head_ne _), readName_element h]
  cases params with
  | nil =>
    have hend : readName name ([] ++ '>' :: s) = .separator name '>' s := by
      rw [List.nil_append, readName, if_pos (by decide)]
    simp only [paramsText, List.flatMap_nil, hend, if_neg h.nonempty, if_true]
  | cons p ps =>
    have hcons : paramsText (p :: ps) ++ '>' :: s =
        ' ' :: (paramText p ++ (paramsText ps ++ '>' :: s)) := by
      simp [paramsText]
    have hall := readParams_all hps [] ('>' :: s)
    rw [hcons, readParams_space, List.nil_append] at hall
    have hend : readName name (' ' :: (paramText p ++ (paramsText ps ++ '>' :: s))) =
        .separator name ' ' (paramText p ++ (paramsText ps ++ '>' :: s)) := by
      rw [readName, if_pos (by decide)]
    have hopen : readParams .gap (p :: ps) ('>' :: s) = .opened (p :: ps) s := by
      rw [readParams, if_neg (by decide), if_neg (by decide), if_pos rfl]
    simp only [hcons, hend, if_neg h.nonempty, if_neg (show ¬ ' ' = '>' by decide), hall, hopen]

theorem smlReadTag_closed (h : ElementName name) (hps : ∀ p ∈ params, ParamFits p) (fuel : Nat)
    (parent : Option Str) (s : Str) :
    smlReadTag (fuel + 1) parent ('<' :: (name ++ (paramsText params ++ '/' :: '>' :: s))) =
      .ok (some (.mk name params []), s) := by
  have hlead : readLead parent.isSome ('<' :: (name ++ (paramsText params ++ '/' :: '>' :: s))) =
      .opened (name ++ (paramsText params ++ '/' :: '>' :: s)) := by rw [readLead, if_pos rfl]
  simp only [smlReadTag, hlead, if_neg (h.head_ne _), readName_element h]
  cases params with
  | nil =>
    have hend : readName name ([] ++ '/' :: '>' :: s) = .closed name s := by
      rw [List.nil_append, readName, if_neg (by decide), if_neg (by decide), if_pos rfl,
        if_pos ⟨rfl, h.nonempty⟩, List.tail_cons]
    simp only [paramsText, List.flatMap_nil, hend]
  | cons p ps =>
    have hcons : paramsText (p :: ps) ++ '/' :: '>' :: s =
        ' ' :: (paramText p ++ (paramsText ps ++ '/' :: '>' :: s)) := by
      simp [paramsText]
    have hall := readParams_all hps [] ('/' :: '>' :: s)
    rw [hcons, readParams_space, List.nil_append] at hall
    have hend : readName name (' ' :: (paramText p ++ (paramsText ps ++ '/' :: '>' :: s))) =
        .separator name ' ' (paramText p ++ (paramsText ps ++ '/' :: '>' :: s)) := by
      rw [readName, if_pos (by decide)]
    have hclosed : readParams .gap (p :: ps) ('/' :: '>' :: s) = .closed (p :: ps) s := by
      rw [readParams, if_neg (by decide), if_neg (by decide), if_neg (by decide), if_pos rfl,
        List.head?_cons, if_pos rfl, List.tail_cons]
    simp only [hcons, hend, if_neg h.nonempty, if_neg (show ¬ ' ' = '>' by decide), hall, hclosed]

theorem smlReadTag_end (h : ElementName name) (fuel : Nat) (s : Str) :
    smlReadTag (fuel + 1) (some name) ('<' :: '/' :: (name ++ '>' :: s)) = .ok (none, s) := by
  have hlead : readLead (some name).isSome ('<' :: '/' :: (name ++ '>' :: s)) =
      .opened ('/' :: (name ++ '>' :: s)) := by rw [readLead, if_pos rfl]
  have hlen : ([] : Str).length + name.length < MAX_SML_COMPONENT_LENGTH := by
    rw [List.length_nil]
    have := h.short
    omega
  have hclose := readClose_name h.chars hlen s
  rw [List.nil_append] at hclose
  simp only [smlReadTag, hlead, List.head?_cons, if_true, List.tail_cons, hclose]
  rw [if_pos ⟨h.nonempty, trivial⟩]

/-- Inside a tag a newline is passed over. -/
theorem smlReadTag_newline (fuel : Nat) (name s : Str) :
    smlReadTag fuel (some name) ('\n' :: s) = smlReadTag fuel (some name) s := by
  cases fuel with
  | zero => rfl
  | succ fuel =>
    have hlead : readLead (some name).isSome ('\n' :: s) = readLead (some name).isSome s := by
      rw [readLead, if_neg (by decide)]
      rfl
    rw [smlReadTag, smlReadTag, hlead]

theorem readTags_newline (fuel : Nat) (name s : Str) :
    readTags fuel name ('\n' :: s) = readTags fuel name s := by
  cases fuel with
  | zero => rfl
  | succ fuel => rw [readTags, readTags, smlReadTag_newline]

end Read

mutual

/-- How deep and how often the reader calls itself for a tree. -/
def SmlTag.calls : SmlTag → Nat
  | .mk _ _ tags => 1 + callsFor tags

def callsFor : List SmlTag → Nat
  | [] => 2
  | tag :: tags => 1 + tag.calls + callsFor tags

end

/-- What is left behind a tag: the newline that follows it, unless a closing tag was read. -/
def SmlTag.behind : SmlTag → Str → Str
  | .mk _ _ [], s => '\n' :: s
  | .mk _ _ (_ :: _), s => s

mutual

/-- A tag that was written is read back. -/
theorem smlReadTag_write (parent : Option Str) (s : Str) :
    (tag : SmlTag) → tag.Fits → (fuel : Nat) → tag.calls ≤ fuel →
      smlReadTag fuel parent (smlWriteSimpleTag [] tag ++ s) = .ok (some tag, tag.behind s)
  | .mk name params [], h, fuel, hf => by
    obtain ⟨fuel, rfl⟩ : ∃ k, fuel = k + 1 := ⟨fuel - 1, by rw [SmlTag.calls] at hf; omega⟩
    obtain ⟨hname, hps, -⟩ := h
    have htext : smlWriteSimpleTag [] (.mk name params []) ++ s =
        '<' :: (name ++ (paramsText params ++ '/' :: '>' :: '\n' :: s)) := by
      rw [write_leaf]
      simp
    rw [htext, smlReadTag_closed hname hps]
    rfl
  | .mk name params (tag :: tags), h, fuel, hf => by
    obtain ⟨fuel, rfl⟩ : ∃ k, fuel = k + 1 := ⟨fuel - 1, by rw [SmlTag.calls] at hf; omega⟩
    obtain ⟨hname, hps, htags⟩ := h
    rw [SmlTag.calls] at hf
    have htext : smlWriteSimpleTag [] (.mk name params (tag :: tags)) ++ s =
        '<' :: (name ++ (paramsText params ++ '>' :: '\n' :: (writeTags [] (tag :: tags) ++
          '<' :: '/' :: (name ++ '>' :: '\n' :: s)))) := by
      rw [write_node]
      simp
    rw [htext, smlReadTag_opened hname hps, readTags_newline,
      readTags_write hname ('\n' :: s) (tag :: tags) htags fuel (by omega)]
    rfl

theorem readTags_write (hname : ElementName name) (s : Str) :
    (tags : List SmlTag) → AllFit tags → (fuel : Nat) → callsFor tags ≤ fuel →
      readTags fuel name (writeTags [] tags ++ '<' :: '/' :: (name ++ '>' :: s)) = .ok (tags, s)
  | [], _, fuel, hf => by
    obtain ⟨fuel, rfl⟩ : ∃ k, fuel = k + 2 := ⟨fuel - 2, by rw [callsFor] at hf; omega⟩
    have htext : writeTags [] [] ++ '<' :: '/' :: (name ++ '>' :: s) =
      '<' :: '/' :: (name ++ '>' :: s) := rfl
    rw [htext, readTags, smlReadTag_end hname]
  | tag :: tags, h, fuel, hf => by
    rw [callsFor] at hf
    obtain ⟨fuel, rfl⟩ : ∃ k, fuel = k + 1 := ⟨fuel - 1, by omega⟩
    have hrest := readTags_write hname s tags h.2 fuel (by omega)
    have hbehind : readTags fuel name
        (tag.behind (writeTags [] tags ++ '<' :: '/' :: (name ++ '>' :: s))) = .ok (tags, s) := by
      cases tag with
      | mk n ps ts =>
        cases ts with
        | nil => exact (readTags_newline fuel name _).trans hrest
        | cons t ts => exact hrest
    rw [writeTags_cons, List.append_assoc, readTags,
      smlReadTag_write (some name) _ tag h.1 fuel (by omega)]
    simp only [hbehind, Except.map]

end

mutual

theorem SmlTag.calls_lt_length : (tag : SmlTag) → tag.calls < (smlWriteSimpleTag [] tag).length
  | .mk name params [] => by
    rw [write_leaf, SmlTag.calls, callsFor]
    simp only [List.length_cons, List.length_append, String.length_toList]
    have hlen : "/>\n".length = 3 := by decide
    omega
  | .mk name params (tag :: tags) => by
    have htags := callsFor_le_length (tag :: tags)
    rw [write_node, SmlTag.calls]
    simp only [List.length_cons, List.length_append, String.length_toList]
    omega

theorem callsFor_le_length : (tags : List SmlTag) → callsFor tags ≤ (writeTags [] tags).length + 2
  | [] => Nat.le_refl _
  | tag :: tags => by
    have htag := tag.calls_lt_length
    have htags := callsFor_le_length tags
    rw [callsFor, writeTags_cons, List.length_append]
    omega

end

/-- The string written for a tree is converted to a `tagfile` tag with the tree as its only
element. -/
theorem smlConvertStringToTag_write (tag : SmlTag) (h : tag.Fits) :
    smlConvertStringToTag (smlWriteSimpleTag [] tag) = .ok (.mk "tagfile".toList [] [tag]) := by
  have hcalls := tag.calls_lt_length
  have hread := smlReadTag_write none [] tag h ((smlWriteSimpleTag [] tag).length + 1) (by omega)
  rw [List.append_nil] at hread
  have hne : smlWriteSimpleTag [] tag ≠ [] := by
    intro he
    rw [he] at hcalls
    exact absurd hcalls (Nat.not_lt_zero _)
  obtain ⟨k, hk⟩ : ∃ k, (smlWriteSimpleTag [] tag).length = k + 1 :=
    ⟨_, (Nat.succ_pred_eq_of_pos (List.length_pos_of_ne_nil hne)).symm⟩
  have hend : convertLoop (k + 1) [tag] (tag.behind []) = .ok [tag] := by
    cases tag with
    | mk name params tags =>
      cases tags with
      | nil =>
        -- the newline behind the tag is read as a blank line
        have hblank : smlReadTag 2 none ['\n'] = .ok (none, []) := by
          rw [smlReadTag, show readLead (none : Option Str).isSome ['\n'] = .empty [] by decide]
        simp only [SmlTag.behind, convertLoop, List.length_singleton, hblank, if_true]
      | cons t ts =>
        have hempty : smlReadTag 1 none [] = .ok (none, []) := by
          rw [smlReadTag, show readLead (none : Option Str).isSome [] = .empty [] by decide]
        simp only [SmlTag.behind, convertLoop, List.length_nil, Nat.zero_add, hempty, if_true]
  rw [smlConvertStringToTag, if_neg hne, hk, convertLoop, hread]
  simp only [List.nil_append, hend, Except.map]

def sampleTag : SmlTag :=
  .mk "pkg".toList [⟨"name".toList, "a \"b\"\n&$".toList⟩, ⟨"arch".toList, []⟩]
    [.mk "file".toList [] [], .mk "dir".toList [] [.mk "sub".toList [⟨"p".toList, ";".toList⟩] []]]

theorem smlConvertStringToTag_write_sample :
    smlConvertStringToTag (smlWriteSimpleTag [] sampleTag) =
      .ok (.mk "tagfile".toList [] [sampleTag]) := by
  have hname : ∀ n ∈ ["pkg".toList, "file".toList, "dir".toList, "sub".toList], ElementName n :=
    fun n hn => ⟨by revert n; decide, by revert n; decide, by revert n; decide⟩
  have hstart : ∀ n ∈ ["name".toList, "arch".toList, "p".toList],
      n.head?.all paramStartChar := by decide
  have hparam : ∀ n ∈ ["name".toList, "arch".toList, "p".toList], ParamName n :=
    fun n hn => ⟨by revert n; decide,
      fun c hc => by simpa [Option.mem_def.1 hc] using hstart n hn,
      by revert n; decide, by revert n; decide⟩
  have hvalue : ∀ v ∈ ["a \"b\"\n&$".toList, [], ";".toList], ValueFits v :=
    fun v hv => ⟨by revert v; decide, by revert v; decide, by revert v; decide⟩
  apply smlConvertStringToTag_write
  refine ⟨hname _ (by decide), ?_, ⟨hname _ (by decide), List.forall_mem_nil _, trivial⟩,
    ⟨hname _ (by decide), List.forall_mem_nil _, ⟨hname _ (by decide), ?_, trivial⟩, trivial⟩,
    trivial⟩
  · intro p hp
    simp only [List.mem_cons, List.not_mem_nil, or_false] at hp
    rcases hp with rfl | rfl
    · exact ⟨hparam _ (by decide), hvalue _ (by decide)⟩
    · exact ⟨hparam _ (by decide), hvalue _ (by decide)⟩
  · intro p hp
    rw [List.mem_singleton.mp hp]
    exact ⟨hparam _ (by decide), hvalue _ (by decide)⟩

end Pkgtools
