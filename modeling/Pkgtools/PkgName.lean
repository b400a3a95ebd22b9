import Pkgtools.HeaderLines

namespace Pkgtools
open CLib
set_option autoImplicit true

def rsvrd : List Str := ["all".toList, "install".toList, "new".toList]

/-- The limit for abbreviations, with `set_ABI_namelngth` and without it. -/
def namelngth (abi : Bool) : Nat := if abi then ABI_NAMELNGTH else NON_ABI_NAMELNGTH

def isNameChar (c : Char) : Bool := c.isAlphanum || c == '-' || c == '+'

/-- A reserved name followed by the end, `.` or `*`. -/
def Reserved (name : Str) : Prop :=
  ∃ r ∈ rsvrd, ∃ rest, name = r ++ rest ∧ ∀ c ∈ rest.head?, c = '.' ∨ c = '*'

/-- The names that are to be accepted. -/
def ValidName (limit : Nat) (name : Str) : Prop :=
  name = "all".toList ∨ ¬ Reserved name ∧ ∃ c rest ext, name = c :: rest ++ ext ∧ c.isAlpha ∧
    (∀ d ∈ rest, isNameChar d) ∧ (c :: rest).length ≤ limit ∧
    (ext = [] ∨ ext = ".*".toList ∨ ext = "*".toList ∨
      ∃ inst, ext = '.' :: inst ∧ 1 ≤ inst.length ∧ inst.length ≤ 4 ∧ ∀ d ∈ inst, isNameChar d)

def abbrevOf (name : Str) : Str := name.takeWhile fun c => !NMBRK.contains c

def suffixOf (name : Str) : Str := name.dropWhile fun c => !NMBRK.contains c

/-- The end of the name or a wildcard. -/
def isOpen (ext : Str) : Bool := ext = [] ∨ ext = ".*".toList ∨ ext = "*".toList

/-- The characters that are looked at: those of the abbreviation, and those of an instance. -/
def checkedChars (name : Str) : Str :=
  abbrevOf name ++ if isOpen (suffixOf name) then [] else (suffixOf name).tail

/-- The name is not reserved, begins with a letter and keeps the limits for its parts. -/
structure Shaped (limit : Nat) (name : Str) : Prop where
  free : ¬ Reserved name
  letter : name.head?.any Char.isAlpha
  nameLength : (abbrevOf name).length ≤ limit
  suffixLength : isOpen (suffixOf name) ∨
    1 ≤ (suffixOf name).tail.length ∧ (suffixOf name).tail.length ≤ 4

def isDash (c : Char) : Bool := c == '-' || c == '+'

/-- Every character that is not one of a name has a `-` or `+` behind it, there or in what
follows. -/
def Excused (s t : Str) : Prop := ∀ a c b, s = a ++ c :: b → isNameChar c = false →
    (b ++ t).any isDash

theorem isReserved_iff (name : Str) :
    (["all".toList, "install".toList, "new".toList].any fun r =>
      r.isPrefixOf name && ((name.drop r.length).head?.all NMBRK.contains)) = true ↔
      Reserved name := by
  rw [List.any_eq_true, Reserved, rsvrd]
  refine exists_congr fun r => and_congr_right fun _ => ?_
  rw [Bool.and_eq_true, List.isPrefixOf_iff_prefix]
  constructor
  · rintro ⟨⟨rest, rfl⟩, h⟩
    rw [List.drop_left] at h
    refine ⟨rest, rfl, fun c hc => ?_⟩
    rw [Option.mem_def.mp hc, Option.all_some] at h
    simpa [NMBRK] using h
  · rintro ⟨rest, rfl, h⟩
    refine ⟨List.prefix_append r rest, ?_⟩
    rw [List.drop_left]
    cases rest with
    | nil => rfl
    | cons c rest => simpa [NMBRK] using h c rfl

theorem excused_nil (t : Str) : Excused [] t := by
  intro a c b h
  simp at h

theorem excused_cons : Excused (c :: s) t ↔ (isNameChar c || (s ++ t).any isDash) ∧
    Excused s t := by
  constructor
  · intro h
    refine ⟨?_, fun a d b hs => h (c :: a) d b (by rw [hs]; rfl)⟩
    cases hc : isNameChar c with
    | true => rfl
    | false => exact h [] c s rfl hc
  · rintro ⟨hc, hs⟩ a d b h hd
    cases a with
    | nil =>
      obtain ⟨rfl, rfl⟩ := List.cons.inj h
      rw [hd, Bool.false_or] at hc
      exact hc
    | cons e a => exact hs a d b (List.cons.inj h).2 hd

theorem excused_append (s t : Str) : Excused (s ++ t) [] ↔ Excused s t ∧ Excused t [] := by
  induction s with
  | nil => exact ⟨fun h => ⟨excused_nil t, h⟩, And.right⟩
  | cons c s ih => rw [List.cons_append, excused_cons, ih, excused_cons, List.append_nil, and_assoc]

theorem excused_of_nameChars (h : ∀ c ∈ s, isNameChar c) (t : Str) : Excused s t := by
  intro a c b hs hc
  rw [h c (hs ▸ List.mem_append_right _ List.mem_cons_self)] at hc
  cases hc

/-- What follows counts only for its dashes. -/
theorem excused_congr (h : t.any isDash = t'.any isDash) (s : Str) : Excused s t ↔
    Excused s t' := by
  simp only [Excused, List.any_append, h]

theorem excused_test (c : Char) (s : Str) :
    (c.isAlphanum || hasSign (c :: s)) = (isNameChar c || s.any isDash) := by
  have hsign : hasSign (c :: s) = (isDash c || s.any isDash) := rfl
  rw [hsign, ← Bool.or_assoc]
  congr 1
  exact (Bool.or_assoc _ _ _).symm

theorem nameChars_iff (s : Str) : nameChars s ↔ Excused s [] := by
  induction s with
  | nil => exact iff_of_true rfl (excused_nil _)
  | cons c s ih =>
    rw [nameChars, Bool.and_eq_true, ih, excused_cons, excused_test, List.append_nil]

theorem baseChars_iff (hs : ∀ c ∈ s, c ∉ NMBRK) (hext : ∀ c ∈ ext.head?, c ∈ NMBRK) :
    baseChars (s ++ ext) ↔ Excused s ext := by
  induction s with
  | nil =>
    refine iff_of_true ?_ (excused_nil _)
    cases ext with
    | nil => rfl
    | cons c ext => simp [baseChars, hext c rfl]
  | cons c s ih =>
    have hc : NMBRK.contains c = false := by simpa using hs c List.mem_cons_self
    rw [List.cons_append, baseChars, hc, Bool.false_or, Bool.and_eq_true,
      ih fun d hd => hs d (List.mem_cons_of_mem _ hd), excused_cons, excused_test]

theorem abbrevOf_append_suffixOf (name : Str) : abbrevOf name ++ suffixOf name = name :=
  List.takeWhile_append_dropWhile

theorem mem_abbrevOf (h : c ∈ abbrevOf name) : c ∉ NMBRK := by
  simpa using List.mem_takeWhile_imp h

theorem head_suffixOf (h : c ∈ (suffixOf name).head?) : c ∈ NMBRK := by
  have := List.head?_dropWhile_not (fun c => !NMBRK.contains c) name
  rw [← suffixOf, Option.mem_def.mp h] at this
  simpa using this

theorem baseChars_name (name : Str) :
    baseChars name ↔ Excused (abbrevOf name) (suffixOf name) := by
  rw [← baseChars_iff (fun c => mem_abbrevOf) (fun c => head_suffixOf), abbrevOf_append_suffixOf]

/-- The characters of the suffix that are looked at have the same dashes as the suffix. -/
theorem dashes_suffixOf (name : Str) :
    (suffixOf name).any isDash =
      (if isOpen (suffixOf name) then [] else (suffixOf name).tail).any isDash := by
  split
  · rename_i h
    rcases of_decide_eq_true h with h | h | h <;> rw [h] <;> rfl
  · cases hs : suffixOf name with
    | nil => rfl
    | cons c ext =>
      have hc : isDash c = false := by
        have := head_suffixOf (hs ▸ rfl : c ∈ (suffixOf name).head?)
        rcases (by simpa [NMBRK] using this : c = '.' ∨ c = '*') with rfl | rfl <;> rfl
      rw [List.any_cons, hc, Bool.false_or, List.tail_cons]

theorem excused_checkedChars (name : Str) : Excused (checkedChars name) [] ↔
    Excused (abbrevOf name) (suffixOf name) ∧
      (isOpen (suffixOf name) ∨ Excused (suffixOf name).tail []) := by
  rw [checkedChars, excused_append, excused_congr (dashes_suffixOf name)]
  refine and_congr_right fun _ => ?_
  split
  · rename_i h
    exact iff_of_true (excused_nil _) (.inl h)
  · rename_i h
    exact ⟨.inr, fun hs => hs.resolve_left h⟩

theorem all_reserved : Reserved "all".toList := (isReserved_iff _).mp (by decide)

theorem checks_eq_zero_iff {a b c d : Prop} [Decidable a] [Decidable b] [Decidable c]
    [Decidable d] :
    (if a then (-1 : Int) else if b then -1 else if c then -1 else if d then -1 else 0) = 0 ↔
      ¬ a ∧ ¬ b ∧ ¬ c ∧ ¬ d := by
  split_ifs <;> simp [*]

theorem letter_ok (name : Str) :
    ¬ (!name.head?.any Char.isAlphanum || !name.head?.any Char.isAlpha) = true ↔
      name.head?.any Char.isAlpha := by
  cases name with
  | nil => simp
  | cons c name =>
    simp only [List.head?_cons, Option.any_some, Char.isAlphanum]
    cases c.isAlpha <;> simp

theorem suffix_ok (ext : Str) :
    ¬ (!ext.isEmpty && !(ext == ".*".toList || ext == "*".toList) &&
      (!nameChars ext.tail || ext.tail.isEmpty || decide (ext.tail.length > 4))) = true ↔
      isOpen ext ∨ Excused ext.tail [] ∧ 1 ≤ ext.tail.length ∧ ext.tail.length ≤ 4 := by
  have hopen : isOpen ext = (ext.isEmpty || (ext == ".*".toList || ext == "*".toList)) := by
    rw [isOpen, Bool.eq_iff_iff]
    simp only [decide_eq_true_eq, Bool.or_eq_true, List.isEmpty_iff, beq_iff_eq]
  rw [hopen, ← nameChars_iff, Nat.one_le_iff_ne_zero, ← Nat.not_lt, List.length_eq_zero_iff.ne]
  cases ext.isEmpty <;> cases (ext == ".*".toList || ext == "*".toList) <;>
    cases nameChars ext.tail <;> simp

/-- Without a specification and for names of this release, what is accepted. -/
theorem pkgnmchk_eq_zero_iff (abi : Bool) (name : Str) : pkgnmchk abi name none false = 0 ↔
    name = "all".toList ∨ Shaped (namelngth abi) name ∧ Excused (checkedChars name) [] := by
  have hzero : pkgnmchk abi name none false = 0 ↔ valname abi name true false = 0 := by
    rw [pkgnmchk, Option.isNone_none]
    split
    · rename_i h
      exact ⟨nofun, fun hv => absurd hv h⟩
    · rename_i h
      exact ⟨fun _ => not_not.mp h, fun _ => rfl⟩
  rw [hzero, valname, ← suffixOf, ← abbrevOf]
  by_cases hall : name = "all".toList
  · simp [hall]
  by_cases hres : Reserved name
  · have hr := (isReserved_iff name).mpr hres
    simp only [hr, beq_false_of_ne hall, Bool.and_false, Bool.false_eq_true, if_false, if_true,
      hall, false_or]
    exact ⟨nofun, fun h => absurd hres h.1.free⟩
  have hr := Bool.eq_false_iff.mpr fun h => hres ((isReserved_iff name).mp h)
  simp only [hr, beq_false_of_ne hall, Bool.and_false, Bool.false_and, Bool.false_eq_true, if_false,
    hall, false_or, Bool.not_true, Bool.not_false, Bool.true_and]
  rw [checks_eq_zero_iff, suffix_ok, letter_ok, excused_checkedChars, ← baseChars_name]
  simp only [Bool.not_eq_true', Bool.not_eq_false, gt_iff_lt, not_lt]
  constructor
  · rintro ⟨hs, hl, hc, hn⟩
    exact ⟨⟨hres, hl, hn, hs.imp_right And.right⟩, hc, hs.imp_right And.left⟩
  · rintro ⟨h, hc, hs⟩
    refine ⟨?_, h.letter, hc, h.nameLength⟩
    rcases hs with hs | hs
    · exact .inl hs
    · exact h.suffixLength.imp_right fun hl => ⟨hs, hl⟩

/-- The suffix is a wildcard, or an instance behind a `.`. -/
def Dotted (name : Str) : Prop := isOpen (suffixOf name) ∨ (suffixOf name).head? = some '.'

theorem nameChar_not_mem_NMBRK (h : isNameChar c) : c ∉ NMBRK := by
  intro hc
  rcases (by simpa [NMBRK] using hc : c = '.' ∨ c = '*') with rfl | rfl <;> cases h

theorem abbrevOf_append (hs : ∀ c ∈ s, isNameChar c) (hext : ∀ c ∈ ext.head?, c ∈ NMBRK) :
    abbrevOf (s ++ ext) = s ∧ suffixOf (s ++ ext) = ext := by
  have hall : ∀ c ∈ s, (!NMBRK.contains c) = true := by
    intro c hc
    simpa using nameChar_not_mem_NMBRK (hs c hc)
  have hstop : (ext.takeWhile fun c => !NMBRK.contains c) = [] ∧
      (ext.dropWhile fun c => !NMBRK.contains c) = ext := by
    cases ext with
    | nil => exact ⟨rfl, rfl⟩
    | cons c ext => simp [hext c rfl]
  constructor
  · rw [abbrevOf, List.takeWhile_append_of_pos hall, hstop.1, List.append_nil]
  · rw [suffixOf, List.dropWhile_append_of_pos hall, hstop.2]

def ValidSuffix (ext : Str) : Prop :=
  ext = [] ∨ ext = ".*".toList ∨ ext = "*".toList ∨
    ∃ inst, ext = '.' :: inst ∧ 1 ≤ inst.length ∧ inst.length ≤ 4 ∧ ∀ d ∈ inst, isNameChar d

theorem ValidSuffix.open_or_instance {ext : Str} (h : ValidSuffix ext) :
    (isOpen ext ∨ ∃ inst, ext = '.' :: inst ∧ 1 ≤ inst.length ∧ inst.length ≤ 4 ∧
      ∀ d ∈ inst, isNameChar d) ∧ ∀ d ∈ ext.head?, d ∈ NMBRK := by
  constructor
  · rcases h with h | h | h | h
    · exact .inl (decide_eq_true (.inl h))
    · exact .inl (decide_eq_true (.inr (.inl h)))
    · exact .inl (decide_eq_true (.inr (.inr h)))
    · exact .inr h
  · rcases h with rfl | rfl | rfl | ⟨inst, rfl, -⟩
    · exact nofun
    all_goals
      intro d hd
      obtain rfl := Option.some.inj hd
      decide

theorem shaped_of_parts {limit : Nat} {c : Char} {rest ext : Str}
    (hfree : ¬ Reserved (c :: rest ++ ext))
    (hc : c.isAlpha) (hrest : ∀ d ∈ rest, isNameChar d) (hlen : (c :: rest).length ≤ limit)
    (hext : ValidSuffix ext) :
    Shaped limit (c :: rest ++ ext) ∧ (∀ d ∈ checkedChars (c :: rest ++ ext), isNameChar d) ∧
      Dotted (c :: rest ++ ext) := by
  have hs : ∀ d ∈ c :: rest, isNameChar d := by
    intro d hd
    rcases List.mem_cons.mp hd with rfl | hd
    · rw [isNameChar, Char.isAlphanum, hc]
      rfl
    · exact hrest d hd
  obtain ⟨hopen, hbreak⟩ := hext.open_or_instance
  obtain ⟨habb, hsuf⟩ := abbrevOf_append hs hbreak
  have hletter : ((c :: rest ++ ext).head?.any Char.isAlpha) := hc
  refine ⟨⟨hfree, hletter, by rw [habb]; exact hlen, ?_⟩, ?_, ?_⟩
  · rw [hsuf]
    refine hopen.imp_right ?_
    rintro ⟨inst, rfl, h₁, h₂, -⟩
    exact ⟨h₁, h₂⟩
  · rw [checkedChars, habb, hsuf]
    intro d hd
    rcases List.mem_append.mp hd with hd | hd
    · exact hs d hd
    · split at hd
      · cases hd
      · rename_i hno
        obtain ⟨inst, rfl, -, -, hinst⟩ := hopen.resolve_left hno
        exact hinst d hd
  · rw [Dotted, hsuf]
    refine hopen.imp_right ?_
    rintro ⟨inst, rfl, -⟩
    rfl

theorem suffix_of_shaped {limit : Nat} {name : Str} (h : Shaped limit name)
    (hchars : ∀ c ∈ checkedChars name, isNameChar c) (hdot : Dotted name) :
    ValidSuffix (suffixOf name) := by
  by_cases hopen : isOpen (suffixOf name)
  · rcases of_decide_eq_true hopen with h | h | h
    · exact .inl h
    · exact .inr (.inl h)
    · exact .inr (.inr (.inl h))
  · obtain ⟨inst, hinst⟩ : ∃ inst, suffixOf name = '.' :: inst := by
      cases hs : suffixOf name with
      | nil => exact absurd (by rw [hs]; rfl) hopen
      | cons e inst =>
        have hdot := hdot.resolve_left hopen
        rw [hs] at hdot
        exact ⟨inst, by rw [Option.some.inj hdot]⟩
    have hlen := h.suffixLength.resolve_left hopen
    rw [hinst, List.tail_cons] at hlen
    refine .inr (.inr (.inr ⟨inst, hinst, hlen.1, hlen.2, fun e he => hchars e ?_⟩))
    rw [checkedChars, if_neg hopen, hinst]
    exact List.mem_append_right _ he

theorem parts_of_shaped {limit : Nat} {name : Str} (h : Shaped limit name)
    (hchars : ∀ c ∈ checkedChars name, isNameChar c) (hdot : Dotted name) :
    ¬ Reserved name ∧ ∃ c rest ext, name = c :: rest ++ ext ∧ c.isAlpha ∧
      (∀ d ∈ rest, isNameChar d) ∧ (c :: rest).length ≤ limit ∧ ValidSuffix ext := by
  have hname := abbrevOf_append_suffixOf name
  obtain ⟨c, hc, hletter⟩ := (Option.any_eq_true _ _).mp h.letter
  have hchars' (d) (hd : d ∈ abbrevOf name) : isNameChar d :=
    hchars d (List.mem_append_left _ hd)
  cases habb : abbrevOf name with
  | nil =>
    -- the first character would be a break, and is a letter
    rw [habb, List.nil_append] at hname
    have hbreak := head_suffixOf (hname.symm ▸ hc : c ∈ (suffixOf name).head?)
    rcases (by simpa [NMBRK] using hbreak : c = '.' ∨ c = '*') with rfl | rfl <;> cases hletter
  | cons d rest =>
    rw [habb] at hname
    obtain rfl : d = c := by
      rw [← hname] at hc
      exact Option.some.inj hc
    refine ⟨h.free, d, rest, suffixOf name, hname.symm, hletter,
      fun e he => hchars' e (habb ▸ List.mem_cons_of_mem _ he), habb ▸ h.nameLength,
      suffix_of_shaped h hchars hdot⟩

theorem validName_iff (limit : Nat) (name : Str) : ValidName limit name ↔
    name = "all".toList ∨
      Shaped limit name ∧ (∀ c ∈ checkedChars name, isNameChar c) ∧ Dotted name := by
  refine or_congr_right ?_
  constructor
  · rintro ⟨hfree, c, rest, ext, rfl, hc, hrest, hlen, hext⟩
    exact shaped_of_parts hfree hc hrest hlen hext
  · rintro ⟨h, hchars, hdot⟩
    exact parts_of_shaped h hchars hdot

/-- A name is accepted exactly when it is to be, unless it keeps all limits and has a character that
does not belong there in front of a `-` or `+`, or an instance behind a `*`. -/
theorem pkgnmchk_valid_iff (abi : Bool) (name : Str) :
    (pkgnmchk abi name none false = 0 ↔ ValidName (namelngth abi) name) ↔
      (Shaped (namelngth abi) name → Excused (checkedChars name) [] →
        (∀ c ∈ checkedChars name, isNameChar c) ∧ Dotted name) := by
  rw [pkgnmchk_eq_zero_iff, validName_iff]
  constructor
  · intro h hshaped hex
    rcases h.mp (.inr ⟨hshaped, hex⟩) with rfl | hvalid
    · exact absurd all_reserved hshaped.free
    · exact hvalid.2
  · intro h
    refine or_congr_right (and_congr_right fun hshaped => ?_)
    exact ⟨h hshaped, fun hv => excused_of_nameChars hv.1 _⟩

/-- A slash in front of a `-` is accepted. -/
theorem pkgnmchk_slash :
    ¬ ∀ (abi : Bool) (name : Str),
      pkgnmchk abi name none false = 0 ↔ ValidName (namelngth abi) name := by
  intro h
  have hvalid := (h false "a/b-".toList).mp (by decide +kernel)
  rw [validName_iff] at hvalid
  rcases hvalid with hall | ⟨-, hchars, -⟩
  · exact absurd hall (by decide)
  · exact absurd (hchars '/' (by decide +kernel)) (by decide)

end Pkgtools
