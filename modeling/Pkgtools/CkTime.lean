import Pkgtools.CkDate

namespace Pkgtools
open CLib
set_option autoImplicit true

namespace Cktime

def delim1 : Char := ':'

/-- The directives and the other characters that `_fmtcheck` accepts. -/
def letters : Str := ['H', 'M', 'S', 'T', 'R', 'r', 'I', 'p']
def delims : Str := ['\t', ' ', delim1]

/-- `p_ndig`: two digits. -/
def pNdig (string : Str) : Option (Nat × Str) := pNdigit 2 string 0

/-- `p_time`. -/
def pTime (llim ulim : Nat) (string : Str) : Option Str :=
  match pNdig string with
  | none => none
  | some (value, ptr) => if llim ≤ value ∧ value ≤ ulim then some ptr else none

def middle : List Str := ["AM".toList, "PM".toList, "am".toList, "pm".toList]

/-- `p_meridian`: `sscanf` skips white space, but two characters are taken from the string as it
was. If there is only white space, `mid` is not set. -/
def pMeridian (string : Str) : Option (Option Str) :=
  let mid := ((string.dropWhile isspace).take 2).takeWhile fun c => !isspace c
  if mid = [] then none
  else some (if mid ∈ middle then some (string.drop 2) else none)

/-- `p_delim`. At the end of the string `dlm` is not set. -/
def pDelim (dchoice : Char) : Str → Option (Option Str)
  | [] => none
  | dlm :: string => some (if dlm = dchoice then some string else none)

/-- The switch of `cktime_val` on a directive. -/
def scan (c : Char) (input : Str) : Option (Option Str) :=
  match c with
  | 'H' => some (pTime 0 23 input)
  | 'M' => some (pTime 0 59 input)
  | 'S' => some (pTime 0 59 input)
  | 'T' =>
    thenScan (some (pTime 0 23 input)) fun input => thenScan (pDelim delim1 input) fun input =>
      thenScan (some (pTime 0 59 input)) fun input => thenScan (pDelim delim1 input) fun input =>
        some (pTime 0 59 input)
  | 'R' =>
    thenScan (some (pTime 0 23 input)) fun input => thenScan (pDelim delim1 input) fun input =>
      some (pTime 0 59 input)
  | 'r' =>
    thenScan (some (pTime 0 12 input)) fun input => thenScan (pDelim delim1 input) fun input =>
      thenScan (some (pTime 0 59 input)) fun input => thenScan (pDelim delim1 input) fun input =>
        thenScan (some (pTime 0 59 input)) fun input => thenScan (pDelim ' ' input) pMeridian
  | 'I' => some (pTime 0 12 input)
  | 'p' => pMeridian input
  | _ =>
    match input with
    | [] => none
    | _ :: input => some (some input)

/-- `DEFAULT`. -/
def defaultFormat : Str := "%H:%M".toList

def IsTime (ulim : Nat) : Str → Prop := IsNumber 0 ulim 2

def IsDelim (c : Char) (f : Str) : Prop := f = [c]

def IsMeridian (f : Str) : Prop := f ∈ middle

def IsField (c : Char) : Str → Prop :=
  match c with
  | 'H' => IsTime 23
  | 'M' => IsTime 59
  | 'S' => IsTime 59
  | 'T' => FieldSeq (IsTime 23) (FieldSeq (IsDelim delim1) (FieldSeq (IsTime 59)
      (FieldSeq (IsDelim delim1) (IsTime 59))))
  | 'R' => FieldSeq (IsTime 23) (FieldSeq (IsDelim delim1) (IsTime 59))
  | 'r' => FieldSeq (IsTime 12) (FieldSeq (IsDelim delim1) (FieldSeq (IsTime 59)
      (FieldSeq (IsDelim delim1) (FieldSeq (IsTime 59) (FieldSeq (IsDelim ' ') IsMeridian)))))
  | 'I' => IsTime 12
  | 'p' => IsMeridian
  | _ => fun _ => False

/-- An AM or PM that white space stands in front of; two characters are taken for it. -/
def Padded (f r : Str) : Prop :=
  f.length = 2 ∧ ∃ w m t, f ++ r = w ++ (m ++ t) ∧ w ≠ [] ∧ (∀ c ∈ w, isspace c) ∧ IsMeridian m

/-- The time in front of the meridian of `%r`. -/
def IsClock : Str → Prop :=
  FieldSeq (IsTime 12) (FieldSeq (IsDelim delim1) (FieldSeq (IsTime 59)
    (FieldSeq (IsDelim delim1) (FieldSeq (IsTime 59) (IsDelim ' ')))))

/-- What is taken for a directive: a valid field, or a padded AM or PM in one. -/
def Takes (c : Char) (f r : Str) : Prop :=
  IsField c f ∨ c = 'p' ∧ Padded f r ∨ c = 'r' ∧ FieldSeq IsClock (fun h => Padded h r) f

def IsBlank (s : Str) : Prop := ∀ c ∈ s, isspace c

/-- The text is too short for a directive: it ends in front of a delimiter, or at most white space
is left for AM or PM. -/
def Short (c : Char) (s : Str) : Prop :=
  match c with
  | 'T' => FieldSeq (IsTime 23)
      (fun s => s = [] ∨ FieldSeq (IsDelim delim1) (FieldSeq (IsTime 59) (· = [])) s) s
  | 'R' => FieldSeq (IsTime 23) (· = []) s
  | 'r' => FieldSeq (IsTime 12) (fun s => s = [] ∨ FieldSeq (IsDelim delim1)
      (FieldSeq (IsTime 59) (fun s => s = [] ∨ FieldSeq (IsDelim delim1)
        (FieldSeq (IsTime 59) (fun s => s = [] ∨ FieldSeq (IsDelim ' ') IsBlank s)) s)) s) s
  | 'p' => IsBlank s
  | _ => False

end Cktime

/-- `cktime_val`: 0 for a valid time, 1 for an invalid one, 4 for a bad format. -/
def cktimeVal (fmt : Option Str) (input : Str) : Option Int :=
  if fmt.any (fmtcheck Cktime.letters Cktime.delims false) then some 4
  else (checkFormat Cktime.scan (fmt.getD Cktime.defaultFormat) input).map fun valid =>
    if valid then 0 else 1

namespace Cktime

theorem scanSpec_pTime (ulim : Nat) : ScanSpec (fun s => some (pTime 0 ulim s))
    (fun f _ => IsTime ulim f) (fun _ => False) := scanSpec_pDate

theorem scanSpec_pDelim (c : Char) : ScanSpec (pDelim c) (fun f _ => IsDelim c f) (· = []) where
  undefined s := by cases s <;> simp [pDelim]
  taken s r hs := by
    obtain ⟨d, s, rfl⟩ := List.exists_cons_of_ne_nil hs
    rw [pDelim, Option.some_inj]
    constructor
    · intro h
      by_cases hd : d = c
      · rw [if_pos hd] at h
        obtain rfl := Option.some_inj.mp h
        exact ⟨[d], rfl, congrArg (fun x => [x]) hd⟩
      · rw [if_neg hd] at h
        cases h
    · rintro ⟨f, hf, rfl⟩
      obtain ⟨rfl, rfl⟩ := List.cons.inj hf
      exact if_pos rfl

/-- The two characters that `sscanf` stores. -/
def mid (s : Str) : Str := ((s.dropWhile isspace).take 2).takeWhile fun c => !isspace c

theorem mid_eq_nil (s : Str) : mid s = [] ↔ IsBlank s := by
  induction s with
  | nil => simp [mid, IsBlank]
  | cons c s ih =>
    by_cases hc : isspace c
    · rw [mid, List.dropWhile_cons_of_pos hc, ← mid, ih]
      simp [IsBlank, hc]
    · simp [mid, IsBlank, hc]

theorem meridian_letters (h : IsMeridian m) :
    ∃ a b, m = [a, b] ∧ isspace a = false ∧ isspace b = false := by
  simp only [IsMeridian, middle, List.mem_cons, List.not_mem_nil, or_false] at h
  rcases h with rfl | rfl | rfl | rfl
  all_goals exact ⟨_, _, rfl, by decide, by decide⟩

theorem mid_meridian_iff (s : Str) :
    mid s ∈ middle ↔ ∃ w m t, s = w ++ (m ++ t) ∧ (∀ c ∈ w, isspace c) ∧ IsMeridian m := by
  constructor
  · intro h
    obtain ⟨a, b, heq, -, -⟩ := meridian_letters h
    have hprefix : mid s <+: s.dropWhile isspace :=
      (List.takeWhile_prefix _).trans (List.take_prefix _ _)
    obtain ⟨t, ht⟩ := hprefix
    refine ⟨s.takeWhile isspace, mid s, t, ?_, fun c hc => List.mem_takeWhile_imp hc, h⟩
    rw [ht, List.takeWhile_append_dropWhile]
  · rintro ⟨w, m, t, rfl, hw, hm⟩
    obtain ⟨a, b, rfl, ha, hb⟩ := meridian_letters hm
    have hmid : mid (w ++ ([a, b] ++ t)) = [a, b] := by
      rw [mid, List.dropWhile_append_of_pos hw]
      simp [ha, hb]
    rw [hmid]
    exact hm

theorem scanSpec_pMeridian :
    ScanSpec pMeridian (fun f r => IsMeridian f ∨ Padded f r) IsBlank where
  undefined s := by
    rw [← mid_eq_nil, pMeridian, ← mid]
    simp
  taken s r hs := by
    rw [← mid_eq_nil] at hs
    rw [pMeridian, ← mid, if_neg hs, Option.some_inj]
    constructor
    · intro h
      by_cases hmid : mid s ∈ middle
      · rw [if_pos hmid] at h
        obtain rfl := Option.some_inj.mp h
        obtain ⟨w, m, t, rfl, hw, hm⟩ := (mid_meridian_iff _).mp hmid
        obtain ⟨a, b, rfl, -, -⟩ := meridian_letters hm
        cases w with
        | nil => exact ⟨[a, b], rfl, .inl hm⟩
        | cons c w =>
          refine ⟨_, (List.take_append_drop 2 _).symm, .inr ⟨?_, c :: w, [a, b], t, ?_, ?_⟩⟩
          · rw [List.length_take, List.length_append, List.length_append]
            simp only [List.length_cons]
            omega
          · exact List.take_append_drop 2 _
          · exact ⟨List.cons_ne_nil c w, hw, hm⟩
      · rw [if_neg hmid] at h
        cases h
    · rintro ⟨f, rfl, hf | ⟨hlen, w, m, t, heq, -, hw, hm⟩⟩
      · have hmid := (mid_meridian_iff (f ++ r)).mpr ⟨[], f, r, rfl, by simp, hf⟩
        obtain ⟨a, b, rfl, -, -⟩ := meridian_letters hf
        rw [if_pos hmid]
        rfl
      · have hmid := (mid_meridian_iff (f ++ r)).mpr ⟨w, m, t, heq, hw, hm⟩
        rw [if_pos hmid, List.drop_left' hlen]

theorem takes_iff {c : Char} (hp : c ≠ 'p') (hr : c ≠ 'r') (f r : Str) :
    Takes c f r ↔ IsField c f := by
  simp [Takes, hp, hr]

theorem isField_clock : IsField 'r' = FieldSeq IsClock IsMeridian := by
  simp only [IsClock, fieldSeq_assoc]
  rfl

theorem takes_clock (f r : Str) :
    Takes 'r' f r ↔ FieldSeq IsClock (fun h => IsMeridian h ∨ Padded h r) f := by
  rw [Takes, isField_clock]
  constructor
  · rintro (⟨g, h, hf, hg, hh⟩ | ⟨hc, -⟩ | ⟨-, g, h, hf, hg, hh⟩)
    · exact ⟨g, h, hf, hg, .inl hh⟩
    · exact absurd hc (by decide)
    · exact ⟨g, h, hf, hg, .inr hh⟩
  · rintro ⟨g, h, hf, hg, hh | hh⟩
    · exact .inl ⟨g, h, hf, hg, hh⟩
    · exact .inr (.inr ⟨rfl, g, h, hf, hg, hh⟩)

theorem scanSpec_clock : ScanSpec (scan 'r') (Takes 'r') (Short 'r') := by
  have hspec := (scanSpec_pTime 12).seq ((scanSpec_pDelim delim1).seq ((scanSpec_pTime 59).seq
    ((scanSpec_pDelim delim1).seq ((scanSpec_pTime 59).seq
      ((scanSpec_pDelim ' ').seq scanSpec_pMeridian)))))
  refine hspec.congr (fun f r => ?_) fun s => ?_
  · rw [takes_clock, IsClock]
    simp only [fieldSeq_assoc]
    exact Iff.rfl
  · simp only [Short, FieldSeq, false_or]

/-- The switch of `cktime_val` takes the valid fields, and more for AM and PM. -/
theorem scanSpec {c : Char} (hc : c ∈ letters) : ScanSpec (scan c) (Takes c) (Short c) := by
  have hcases : c = 'H' ∨ c = 'M' ∨ c = 'S' ∨ c = 'T' ∨ c = 'R' ∨ c = 'r' ∨ c = 'I' ∨ c = 'p' := by
    simpa only [letters, List.mem_cons, List.not_mem_nil, or_false] using hc
  rcases hcases with rfl | rfl | rfl | rfl | rfl | rfl | rfl | rfl
  · exact (scanSpec_pTime 23).congr (takes_iff (by decide) (by decide)) fun _ => Iff.rfl
  · exact (scanSpec_pTime 59).congr (takes_iff (by decide) (by decide)) fun _ => Iff.rfl
  · exact (scanSpec_pTime 59).congr (takes_iff (by decide) (by decide)) fun _ => Iff.rfl
  · refine ((scanSpec_pTime 23).seq ((scanSpec_pDelim delim1).seq ((scanSpec_pTime 59).seq
      ((scanSpec_pDelim delim1).seq (scanSpec_pTime 59))))).congr
        (takes_iff (by decide) (by decide)) fun s => ?_
    simp only [Short, FieldSeq, and_false, exists_false, false_or, or_false]
  · refine ((scanSpec_pTime 23).seq ((scanSpec_pDelim delim1).seq (scanSpec_pTime 59))).congr
      (takes_iff (by decide) (by decide)) fun s => ?_
    simp only [Short, FieldSeq, and_false, exists_false, false_or, or_false]
  · exact scanSpec_clock
  · exact (scanSpec_pTime 12).congr (takes_iff (by decide) (by decide)) fun _ => Iff.rfl
  · refine scanSpec_pMeridian.congr (fun f r => ?_) fun _ => Iff.rfl
    simp [Takes, IsField]

/-- The items of the format that `cktime_val` uses. -/
def items (fmt : Option Str) : List FormatItem := formatItems (fmt.getD defaultFormat)

/-- `_fmtcheck` accepts the format, or there is none. -/
def Accepts (fmt : Option Str) : Prop := fmt.any (fmtcheck letters delims false) = false

theorem Accepts.getD {fmt : Option Str} (h : Accepts fmt) :
    fmtcheck letters delims false (fmt.getD defaultFormat) = false := by
  cases fmt with
  | none => decide
  | some fmt => exact h

theorem cktimeVal_decides {fmt : Option Str} (h : Accepts fmt) (input : Str) :
    (∃ n, cktimeVal fmt input = some n ∧ (n = 0 ↔ Matches IsField (items fmt) input)) ↔
      ¬ EndsEarly Takes Short (items fmt) input ∧ ¬ Replaced Takes IsField (items fmt) input := by
  have hitems := (fmtcheck_items scan h.getD).2
  have hspec : ScanSpecs scan Takes Short (items fmt) := by
    intro c hc
    rcases hitems _ hc with ⟨d, hd, heq⟩ | ⟨d, -, heq⟩
    · obtain rfl := FormatItem.directive.inj heq
      exact scanSpec hd
    · cases heq
  -- a field is always taken, so that a text that matches is read by its own fields
  have hreads (hmatch : Matches IsField (items fmt) input) :
      Reads (fun c f r => Takes c f r ∧ IsField c f) (fun c d => d = c) (items fmt) input [] :=
    hmatch.reads fun _ _ _ _ hf => .inl hf
  have hexact (hloose : Loose scan (items fmt) input) (hmatch : Matches IsField (items fmt) input) :
      Exact scan IsField (items fmt) input := by
    have hends : ¬ EndsEarly Takes Short (items fmt) input := by
      rw [← overruns_iff hspec]
      intro hover
      rw [← runItems_none_iff, runItems_true_iff.mpr hloose] at hover
      cases hover
    exact (exact_iff hspec hends).mpr (hreads hmatch)
  rw [cktimeVal, if_neg (by rw [show fmt.any _ = false from h]; decide)]
  refine (checkFormat_iff h.getD hspec hexact).trans ?_
  exact ⟨fun h => ⟨h.1, h.2.1⟩, fun h => ⟨h.1, h.2, hreads⟩⟩

end Cktime

/-- Where `ckdate_val` and `cktime_val` match the whole input against the whole format and read
nothing behind it. -/
theorem ckdate_cktime_iff (dfmt tfmt : Option Str) (hd : Ckdate.Accepts dfmt)
    (ht : Cktime.Accepts tfmt) (input : Str) :
    ((∃ n, ckdateVal dfmt input = some n ∧
        (n = 0 ↔ Matches Ckdate.IsField (Ckdate.items dfmt) input)) ↔
      ¬ EndsEarly Ckdate.Takes Ckdate.Short (Ckdate.items dfmt) input ∧
        ¬ Replaced Ckdate.Takes Ckdate.IsField (Ckdate.items dfmt) input ∧
        (Matches Ckdate.IsField (Ckdate.items dfmt) input →
          Reads Ckdate.Takes (fun c d => d = c) (Ckdate.items dfmt) input [])) ∧
    ((∃ n, cktimeVal tfmt input = some n ∧
        (n = 0 ↔ Matches Cktime.IsField (Cktime.items tfmt) input)) ↔
      ¬ EndsEarly Cktime.Takes Cktime.Short (Cktime.items tfmt) input ∧
        ¬ Replaced Cktime.Takes Cktime.IsField (Cktime.items tfmt) input) :=
  ⟨Ckdate.ckdateVal_decides hd input, Cktime.cktimeVal_decides ht input⟩

/-- Another character in the place of a literal one. -/
theorem ckdate_cktime_iff_literal :
    ¬ (∃ n, ckdateVal (some "%m/%d".toList) "12x05".toList = some n ∧
      (n = 0 ↔ Matches Ckdate.IsField (Ckdate.items (some "%m/%d".toList)) "12x05".toList)) ∧
    ¬ (∃ n, cktimeVal (some "%H:%M".toList) "12x05".toList = some n ∧
      (n = 0 ↔ Matches Cktime.IsField (Cktime.items (some "%H:%M".toList)) "12x05".toList)) := by
  obtain ⟨hdate, htime⟩ := ckdate_cktime_iff (some "%m/%d".toList) (some "%H:%M".toList) rfl
    rfl "12x05".toList
  have htwo (llim ulim : Nat) (f : Str) (hf : f.length = 2 ∧ (f.all Char.isDigit) = true ∧
      llim ≤ Nat.ofDigitChars 10 f 0 ∧ Nat.ofDigitChars 10 f 0 ≤ ulim) : IsNumber llim ulim 2 f :=
    ⟨hf.1, List.all_eq_true.mp hf.2.1, hf.2.2⟩
  constructor
  · intro h
    have hmonth := (Ckdate.takes_iff (c := 'm') (by decide) ['1', '2'] ['x', '0', '5']).mpr
      (htwo 1 12 _ (by decide))
    have hday := (Ckdate.takes_iff (c := 'd') (by decide) ['0', '5'] []).mpr
      (htwo 1 31 _ (by decide))
    exact (hdate.mp h).2.1 ⟨[.directive 'm'], .literal '/', [.directive 'd'], ['x', '0', '5'], rfl,
      ⟨['1', '2'], _, rfl, hmonth, rfl⟩, ['0', '5'], ⟨'x', rfl, by decide⟩, ['0', '5'], [], rfl,
      hday, rfl⟩
  · intro h
    exact (htime.mp h).2 ⟨[.directive 'H'], .literal ':', [.directive 'M'], ['x', '0', '5'], rfl,
      ⟨['1', '2'], _, rfl, .inl (htwo 0 23 _ (by decide)), rfl⟩, ['0', '5'],
      ⟨'x', rfl, by decide⟩, ['0', '5'], [], rfl, .inl (htwo 0 59 _ (by decide)), rfl⟩

/-- A wrong delimiter is accepted, a literal is looked for behind the end of the input, and a day of
one digit is not found in front of a digit. -/
theorem ckdateVal_misses :
    (ckdateVal (some "%m/%d".toList) "12x05".toList = some 0 ∧
      ¬ Matches Ckdate.IsField (Ckdate.items (some "%m/%d".toList)) "12x05".toList) ∧
    (cktimeVal (some "%H:%M".toList) "12x05".toList = some 0 ∧
      ¬ Matches Cktime.IsField (Cktime.items (some "%H:%M".toList)) "12x05".toList) ∧
    ckdateVal (some "%m/".toList) "12".toList = none ∧
    (ckdateVal (some "%e%d".toList) "512".toList = some 1 ∧
      Matches Ckdate.IsField (Ckdate.items (some "%e%d".toList)) "512".toList) := by
  refine ⟨⟨by decide, ?_⟩, ⟨by decide, ?_⟩, by decide, by decide, ?_⟩
  · rintro ⟨f, r, hs, -, r', rfl, -⟩
    have hmem : '/' ∈ "12x05".toList := hs ▸ List.mem_append_right _ List.mem_cons_self
    revert hmem
    decide
  · rintro ⟨f, r, hs, -, r', rfl, -⟩
    have hmem : ':' ∈ "12x05".toList := hs ▸ List.mem_append_right _ List.mem_cons_self
    revert hmem
    decide
  · exact ⟨['5'], ['1', '2'], rfl, .inl ⟨rfl, by decide, by decide, by decide⟩, ['1', '2'], [], rfl,
      ⟨rfl, by decide, by decide, by decide⟩, rfl⟩

end Pkgtools
