import Pkgtools.CLib.FieldFormat
import Mathlib.Data.List.Basic

namespace Pkgtools
open CLib
set_option autoImplicit true

/-- `_fmtcheck`, from the state `percent` on: whether the format is not acceptable. -/
def fmtcheck (letters delims : Str) : Bool → Str → Bool
  | percent, [] => percent
  | percent, c :: fmt =>
    if c = '%' then if percent then true else fmtcheck letters delims true fmt
    else if c ∈ letters then if percent then fmtcheck letters delims false fmt else true
    else if c ∈ delims then if percent then true else fmtcheck letters delims percent fmt
    else true

/-- The loop of `ckdate_val` and `cktime_val`, and the test behind it: whether the input is valid.
It is undefined where a byte behind the NUL is read. -/
def checkFormat (scan : Char → Str → Option (Option Str)) : Str → Str → Option Bool
  | [], input => some input.isEmpty
  | c :: fmt, input =>
    if c = '%' then
      match fmt with
      | [] => none
      | d :: fmt =>
        match scan d input with
        | none => none
        | some none => some false
        | some (some input) => checkFormat scan fmt input
    else match input with
      -- `input++` leaves the text, and what follows reads there
      | [] => none
      | _ :: input => checkFormat scan fmt input

def formatItems : Str → List FormatItem
  | [] => []
  | c :: fmt =>
    if c = '%' then
      match fmt with
      | [] => []
      | d :: fmt => .directive d :: formatItems fmt
    else .literal c :: formatItems fmt

/-- `p_ndigit` on a string, from the value `accum` on. -/
def pNdigit : Nat → Str → Nat → Option (Nat × Str)
  | 0, ptr, accum => some (accum, ptr)
  | _ + 1, [], _ => none
  | n + 1, c :: ptr, accum =>
    if c.isDigit then pNdigit n ptr (10 * accum + (c.toNat - '0'.toNat)) else none

/-- `p_date`. -/
def pDate (llim ulim ndig : Nat) (string : Str) : Option Str :=
  match pNdigit ndig string 0 with
  | none => none
  | some (value, ptr) => if llim ≤ value ∧ value ≤ ulim then some ptr else none

namespace Ckdate

def delim1 : Char := '/'
def delim2 : Char := '-'

/-- The directives and the other characters that `_fmtcheck` accepts. -/
def letters : Str := ['d', 'e', 'm', 'y', 'Y', 'D', 'h', 'b', 'B']
def delims : Str := ['\t', ' ', delim1, delim2]

/-- `MLIM`. -/
def mlim : Nat := 9

def fmonth : List Str :=
  ["JANUARY", "FEBRUARY", "MARCH", "APRIL", "MAY", "JUNE", "JULY", "AUGUST", "SEPTEMBER", "OCTOBER",
    "NOVEMBER", "DECEMBER"].map String.toList

def amonth : List Str :=
  ["JAN", "FEB", "MAR", "APR", "MAY", "JUN", "JUL", "AUG", "SEP", "OCT", "NOV", "DEC"].map
    String.toList

/-- `p_eday`: its limits are those for the digits that it finds. -/
def pEday (string : Str) : Option Str :=
  let (string, idaymax) := if string.head? = some ' ' then (string.tail, 1) else (string, 2)
  let iday := ((string.take idaymax).takeWhile Char.isDigit).length
  if iday = 0 then none
  else if iday = 1 then pDate 1 9 iday string
  else pDate 10 31 iday string

/-- `p_month`; `strncmp` compares as many letters as the name has. It is undefined if the NUL is
stored behind the end of `mletter`. -/
def pMonth (mnth : List Str) (mlen : Nat) (string : Str) : Option (Option Str) :=
  let mletter := ((string.take mlen).takeWhile Char.isAlpha).map Char.toUpper
  if mletter.length = mlim then none
  else some ((mnth.find? fun m => m.isPrefixOf mletter).map fun m => string.drop m.length)

/-- `p_dlm` for `DELIM1`. At the end of the string `dlm` is not set. -/
def pDlm : Str → Option (Option Str)
  | [] => none
  | dlm :: string => some (if dlm = delim1 ∨ dlm = delim2 then some string else none)

/-- The switch of `ckdate_val` on a directive. -/
def scan (c : Char) (input : Str) : Option (Option Str) :=
  match c with
  | 'd' => some (pDate 1 31 2 input)
  | 'e' => some (pEday input)
  | 'm' => some (pDate 1 12 2 input)
  | 'y' => some (pDate 0 99 2 input)
  | 'Y' => some (pDate 1970 9999 4 input)
  | 'D' =>
    thenScan (some (pDate 1 12 2 input)) fun input => thenScan (pDlm input) fun input =>
      thenScan (some (pDate 1 31 2 input)) fun input => thenScan (pDlm input) fun input =>
        some (pDate 0 99 2 input)
  | 'h' => pMonth amonth 3 input
  | 'b' => pMonth amonth 3 input
  | 'B' => pMonth fmonth 9 input
  | _ =>
    match input with
    | [] => none
    | _ :: input => some (some input)

/-- `DEFAULT`. -/
def defaultFormat : Str := "%m/%d/%y".toList

end Ckdate

/-- `ckdate_val`: 0 for a valid date, 1 for an invalid one, 4 for a bad format. -/
def ckdateVal (fmt : Option Str) (input : Str) : Option Int :=
  if fmt.any (fmtcheck Ckdate.letters Ckdate.delims false) then some 4
  else (checkFormat Ckdate.scan (fmt.getD Ckdate.defaultFormat) input).map fun valid =>
    if valid then 0 else 1

/-- A number of `ndig` digits within limits. -/
def IsNumber (llim ulim ndig : Nat) (f : Str) : Prop :=
  f.length = ndig ∧ (∀ c ∈ f, c.isDigit) ∧ llim ≤ Nat.ofDigitChars 10 f 0 ∧
    Nat.ofDigitChars 10 f 0 ≤ ulim

def HeadDigit (r : Str) : Prop := ∃ c ∈ r.head?, c.isDigit = true

theorem headDigit_cons (c : Char) (r : Str) : HeadDigit (c :: r) ↔ c.isDigit = true := by
  simp [HeadDigit]

namespace Ckdate

/-- A delimiter of `%D`. -/
def IsDlm (f : Str) : Prop := f = [delim1] ∨ f = [delim2]

/-- A day without a leading zero: one digit, with or without a blank, or two digits. -/
def IsEday (f : Str) : Prop :=
  IsNumber 1 9 1 f ∨ IsNumber 10 31 2 f ∨ ∃ g, f = ' ' :: g ∧ IsNumber 1 9 1 g

/-- A name of a month in letters of any case. -/
def IsMonth (mnth : List Str) (f : Str) : Prop := f.map Char.toUpper ∈ mnth

def IsField (c : Char) : Str → Prop :=
  match c with
  | 'd' => IsNumber 1 31 2
  | 'e' => IsEday
  | 'm' => IsNumber 1 12 2
  | 'y' => IsNumber 0 99 2
  | 'Y' => IsNumber 1970 9999 4
  | 'D' => FieldSeq (IsNumber 1 12 2) (FieldSeq IsDlm (FieldSeq (IsNumber 1 31 2)
      (FieldSeq IsDlm (IsNumber 0 99 2))))
  | 'h' => IsMonth amonth
  | 'b' => IsMonth amonth
  | 'B' => IsMonth fmonth
  | _ => fun _ => False

/-- What is taken for a directive: a valid field, for `%e` with both digits where there are two. -/
def Takes (c : Char) (f r : Str) : Prop :=
  IsField c f ∧ (c = 'e' → f.length = 1 → ¬ HeadDigit r)

/-- The text that is too short for `%D` ends in front of a delimiter. A text with `MLIM` letters is
too long for `%B`. -/
def Short (c : Char) (s : Str) : Prop :=
  match c with
  | 'D' => FieldSeq (IsNumber 1 12 2)
      (fun s => s = [] ∨ FieldSeq IsDlm (FieldSeq (IsNumber 1 31 2) (· = [])) s) s
  | 'B' => mlim ≤ (s.takeWhile Char.isAlpha).length
  | _ => False

end Ckdate

section Format
variable {letters delims : Str}

theorem fmtcheck_directive {d : Char} {fmt : Str}
    (h : fmtcheck letters delims true (d :: fmt) = false) :
    d ∈ letters ∧ fmtcheck letters delims false fmt = false := by
  rw [fmtcheck] at h
  by_cases hd : d = '%'
  · simp [hd] at h
  · by_cases hmem : d ∈ letters
    · exact ⟨hmem, by simpa [hd, hmem] using h⟩
    · by_cases hdelim : d ∈ delims
      · simp [hd, hmem, hdelim] at h
      · simp [hd, hmem, hdelim] at h

theorem fmtcheck_literal {c : Char} {fmt : Str} (hc : c ≠ '%')
    (h : fmtcheck letters delims false (c :: fmt) = false) :
    c ∈ delims ∧ fmtcheck letters delims false fmt = false := by
  rw [fmtcheck, if_neg hc] at h
  by_cases hmem : c ∈ letters
  · simp [hmem] at h
  · by_cases hdelim : c ∈ delims
    · exact ⟨hdelim, by simpa [hmem, hdelim] using h⟩
    · simp [hmem, hdelim] at h

/-- An accepted format has only known directives and delimiters, and is read item by item. -/
theorem fmtcheck_items (scan : Char → Str → Option (Option Str)) {fmt : Str}
    (h : fmtcheck letters delims false fmt = false) :
    (∀ input, checkFormat scan fmt input = runItems scan (formatItems fmt) input) ∧
      ∀ item ∈ formatItems fmt, (∃ c ∈ letters, item = .directive c) ∨
        ∃ c ∈ delims, item = .literal c := by
  fun_induction formatItems fmt with
  | case1 => exact ⟨fun _ => rfl, fun item hitem => by cases hitem⟩
  | case2 =>
    rw [fmtcheck, if_pos rfl] at h
    cases h
  | case3 d fmt ih =>
    rw [fmtcheck, if_pos rfl] at h
    obtain ⟨hd, hfmt⟩ := fmtcheck_directive h
    obtain ⟨hrun, hitems⟩ := ih hfmt
    refine ⟨fun input => ?_, List.forall_mem_cons.mpr ⟨.inl ⟨d, hd, rfl⟩, hitems⟩⟩
    cases hs : scan d input with
    | none => simp [checkFormat, runItems, hs]
    | some x =>
      cases x with
      | none => simp [checkFormat, runItems, hs]
      | some r => simp [checkFormat, runItems, hs, hrun]
  | case4 c fmt hc ih =>
    obtain ⟨hdelim, hfmt⟩ := fmtcheck_literal hc h
    obtain ⟨hrun, hitems⟩ := ih hfmt
    refine ⟨fun input => ?_, List.forall_mem_cons.mpr ⟨.inr ⟨c, hdelim, rfl⟩, hitems⟩⟩
    cases input with
    | nil =>
      rw [checkFormat.eq_def, runItems]
      simp only [if_neg hc]
    | cons d input =>
      rw [checkFormat.eq_def, runItems]
      simp only [if_neg hc, hrun]

end Format

section Numbers
variable {llim ulim ndig : Nat}

theorem pNdigit_eq_some {n a v : Nat} {s r : Str} : pNdigit n s a = some (v, r) ↔
    ∃ f, s = f ++ r ∧ f.length = n ∧ (∀ c ∈ f, c.isDigit) ∧ v = Nat.ofDigitChars 10 f a := by
  induction n generalizing s a with
  | zero =>
    constructor
    · intro h
      obtain ⟨rfl, rfl⟩ := Prod.mk.inj (Option.some_inj.mp h)
      exact ⟨[], rfl, rfl, (fun c hc => by cases hc), rfl⟩
    · rintro ⟨f, rfl, hlen, -, rfl⟩
      obtain rfl := List.length_eq_zero_iff.mp hlen
      rfl
  | succ n ih =>
    cases s with
    | nil =>
      refine ⟨(fun h => by cases h), ?_⟩
      rintro ⟨f, hs, hlen, -, -⟩
      obtain ⟨rfl, -⟩ := List.append_eq_nil_iff.mp hs.symm
      cases hlen
    | cons c s =>
      rw [pNdigit]
      by_cases hc : c.isDigit
      · rw [if_pos hc, ih]
        constructor
        · rintro ⟨f, rfl, rfl, hf, rfl⟩
          exact ⟨c :: f, rfl, rfl, List.forall_mem_cons.mpr ⟨hc, hf⟩, rfl⟩
        · rintro ⟨f, hs, hlen, hf, rfl⟩
          cases f with
          | nil => cases hlen
          | cons d f =>
            obtain ⟨rfl, rfl⟩ := List.cons.inj hs
            exact ⟨f, rfl, Nat.succ.inj hlen, (List.forall_mem_cons.mp hf).2, rfl⟩
      · rw [if_neg hc]
        refine ⟨(fun h => by cases h), ?_⟩
        rintro ⟨f, hs, hlen, hf, -⟩
        cases f with
        | nil => cases hlen
        | cons d f =>
          obtain ⟨rfl, -⟩ := List.cons.inj hs
          exact absurd (hf c List.mem_cons_self) hc

theorem pDate_eq_some {s r : Str} :
    pDate llim ulim ndig s = some r ↔ ∃ f, s = f ++ r ∧ IsNumber llim ulim ndig f := by
  rw [pDate]
  constructor
  · intro h
    cases hn : pNdigit ndig s 0 with
    | none => simp [hn] at h
    | some x =>
      obtain ⟨v, ptr⟩ := x
      obtain ⟨f, rfl, hlen, hf, rfl⟩ := pNdigit_eq_some.mp hn
      simp only [hn] at h
      by_cases hv : llim ≤ Nat.ofDigitChars 10 f 0 ∧ Nat.ofDigitChars 10 f 0 ≤ ulim
      · rw [if_pos hv] at h
        obtain rfl := Option.some_inj.mp h
        exact ⟨f, rfl, hlen, hf, hv⟩
      · rw [if_neg hv] at h
        cases h
  · rintro ⟨f, rfl, hlen, hf, hv⟩
    have hn : pNdigit ndig (f ++ r) 0 = some (Nat.ofDigitChars 10 f 0, r) :=
      pNdigit_eq_some.mpr ⟨f, rfl, hlen, hf, rfl⟩
    simp only [hn, if_pos hv]

theorem scanSpec_pDate : ScanSpec (fun s => some (pDate llim ulim ndig s))
    (fun f _ => IsNumber llim ulim ndig f) (fun _ => False) :=
  ⟨fun s => by simp, fun s r _ => by rw [Option.some_inj, pDate_eq_some]⟩

end Numbers

namespace Ckdate

theorem scanSpec_pDlm : ScanSpec pDlm (fun f _ => IsDlm f) (· = []) where
  undefined s := by cases s <;> simp [pDlm]
  taken s r hs := by
    obtain ⟨c, s, rfl⟩ := List.exists_cons_of_ne_nil hs
    rw [pDlm, Option.some_inj]
    constructor
    · intro h
      by_cases hc : c = delim1 ∨ c = delim2
      · rw [if_pos hc] at h
        obtain rfl := Option.some_inj.mp h
        exact ⟨[c], rfl, by simpa [IsDlm] using hc⟩
      · rw [if_neg hc] at h
        cases h
    · rintro ⟨f, hf, rfl | rfl⟩
      · obtain ⟨rfl, rfl⟩ := List.cons.inj hf
        exact if_pos (.inl rfl)
      · obtain ⟨rfl, rfl⟩ := List.cons.inj hf
        exact if_pos (.inr rfl)

theorem sound_pMonth {mnth : List Str} {mlen : Nat} (h : pMonth mnth mlen s = some (some r)) :
    ∃ f, s = f ++ r ∧ IsMonth mnth f := by
  rw [pMonth] at h
  split at h
  · cases h
  · obtain ⟨m, hm, rfl⟩ := Option.map_eq_some_iff.mp (Option.some_inj.mp h)
    refine ⟨s.take m.length, (List.take_append_drop _ _).symm, ?_⟩
    have hfound : m <+: ((s.take mlen).takeWhile Char.isAlpha).map Char.toUpper :=
      List.isPrefixOf_iff_prefix.mp (by simpa using List.find?_some hm)
    have hletters : ((s.take mlen).takeWhile Char.isAlpha).map Char.toUpper <+:
        s.map Char.toUpper :=
      ((List.takeWhile_prefix _).trans (List.take_prefix _ _)).map _
    have htake := List.prefix_iff_eq_take.mp (hfound.trans hletters)
    rw [IsMonth, List.map_take, ← htake]
    exact List.mem_of_find?_eq_some hm

theorem isAlpha_of_toUpper {c : Char} (h : c.toUpper.isAlpha = true) : c.isAlpha = true := by
  by_cases hlow : c.isLower = true
  · exact (Bool.or_eq_true _ _).mpr (.inr hlow)
  · have hsame : c.toUpper = c := by
      delta Char.toUpper
      rw [dif_neg]
      intro hc
      exact hlow (Bool.and_eq_true_iff.mpr ⟨decide_eq_true hc.1, decide_eq_true hc.2⟩)
    rwa [hsame] at h

/-- Names of months are made of letters, and none of them starts with another one. -/
structure Names (mnth : List Str) (mlen : Nat) : Prop where
  letters : ∀ m ∈ mnth, ∀ c ∈ m, c.isAlpha = true
  length : ∀ m ∈ mnth, m.length ≤ mlen
  apart : ∀ m ∈ mnth, ∀ n ∈ mnth, m.isPrefixOf n = true → m = n

theorem amonth_names : Names amonth 3 :=
  ⟨by decide +kernel, by decide, by decide +kernel⟩

theorem fmonth_names : Names fmonth 9 :=
  ⟨by decide +kernel, by decide, by decide +kernel⟩

theorem Names.prefix_letters {mnth : List Str} (hn : Names mnth mlen) (hf : IsMonth mnth f)
    (r : Str) :
    f.map Char.toUpper <+: (((f ++ r).take mlen).takeWhile Char.isAlpha).map Char.toUpper := by
  have hlen : f.length ≤ mlen := by
    have := hn.length _ hf
    rwa [List.length_map] at this
  have halpha : ∀ c ∈ f, c.isAlpha = true := fun c hc =>
    isAlpha_of_toUpper (hn.letters _ hf _ (List.mem_map_of_mem hc))
  rw [List.take_append, List.take_of_length_le hlen, List.takeWhile_append_of_pos halpha]
  exact (List.prefix_append _ _).map _

theorem complete_pMonth {mnth : List Str} (hn : Names mnth mlen) (hf : IsMonth mnth f) (r : Str)
    (hshort : ((((f ++ r).take mlen).takeWhile Char.isAlpha).map Char.toUpper).length ≠ mlim) :
    pMonth mnth mlen (f ++ r) = some (some r) := by
  rw [pMonth, if_neg hshort]
  have hprefix := hn.prefix_letters hf r
  cases hfind : mnth.find? fun m =>
      m.isPrefixOf ((((f ++ r).take mlen).takeWhile Char.isAlpha).map Char.toUpper) with
  | none =>
    have := List.find?_eq_none.mp hfind _ hf
    exact absurd (List.isPrefixOf_iff_prefix.mpr hprefix) this
  | some m =>
    have hm := List.mem_of_find?_eq_some hfind
    have hfound : m <+: (((f ++ r).take mlen).takeWhile Char.isAlpha).map Char.toUpper :=
      List.isPrefixOf_iff_prefix.mp (by simpa using List.find?_some hfind)
    have heq : m = f.map Char.toUpper := by
      rcases List.prefix_or_prefix_of_prefix hfound hprefix with h | h
      · exact hn.apart _ hm _ hf (List.isPrefixOf_iff_prefix.mpr h)
      · exact (hn.apart _ hf _ hm (List.isPrefixOf_iff_prefix.mpr h)).symm
    rw [heq, Option.map_some, List.length_map, List.drop_left]

theorem scanSpec_pMonth {mnth : List Str} (hn : Names mnth mlen) :
    ScanSpec (pMonth mnth mlen) (fun f _ => IsMonth mnth f)
      (fun s => (((s.take mlen).takeWhile Char.isAlpha).map Char.toUpper).length = mlim) where
  undefined s := by
    rw [pMonth]
    split <;> simp_all
  taken s r hs := by
    refine ⟨sound_pMonth, ?_⟩
    rintro ⟨f, rfl, hf⟩
    exact complete_pMonth hn hf r hs

theorem rest_of_length_one {c : Char} {s f r : Str} (hs : c :: s = f ++ r) (hf : f.length = 1) :
    r = s := by
  obtain ⟨x, rfl⟩ := List.length_eq_one_iff.mp hf
  exact (List.cons.inj hs).2.symm

theorem pEday_blank {d : Char} {s : Str} (hd : d.isDigit = true) :
    pEday (' ' :: d :: s) = pDate 1 9 1 (d :: s) := by simp [pEday, hd]

theorem ne_blank {c : Char} (hc : c.isDigit = true) : c ≠ ' ' := by
  rintro rfl
  revert hc
  decide

theorem pEday_two {c d : Char} {s : Str} (hc : c.isDigit = true) (hd : d.isDigit = true) :
    pEday (c :: d :: s) = pDate 10 31 2 (c :: d :: s) := by simp [pEday, ne_blank hc, hc, hd]

theorem pEday_one {c : Char} {s : Str} (hc : c.isDigit = true) (hs : ¬ HeadDigit s) :
    pEday (c :: s) = pDate 1 9 1 (c :: s) := by
  cases s with
  | nil => simp [pEday, ne_blank hc, hc]
  | cons d s =>
    rw [headDigit_cons] at hs
    simp [pEday, ne_blank hc, hc, hs]

theorem pEday_sound {s r : Str} (h : pEday s = some r) :
    ∃ f, s = f ++ r ∧ IsEday f ∧ (f.length = 1 → ¬ HeadDigit r) := by
  cases s with
  | nil => simp [pEday] at h
  | cons c s =>
    by_cases hblank : c = ' '
    · subst hblank
      cases s with
      | nil => simp [pEday] at h
      | cons d s =>
        by_cases hd : d.isDigit
        · rw [pEday_blank hd] at h
          obtain ⟨f, hs, hf⟩ := pDate_eq_some.mp h
          refine ⟨' ' :: f, congrArg _ hs, .inr (.inr ⟨f, rfl, hf⟩), fun hlen => ?_⟩
          rw [List.length_cons, hf.1] at hlen
          cases hlen
        · simp [pEday, hd] at h
    · by_cases hc : c.isDigit
      · by_cases hs : HeadDigit s
        · cases s with
          | nil =>
            obtain ⟨x, hx, -⟩ := hs
            cases hx
          | cons d s =>
            rw [pEday_two hc ((headDigit_cons d s).mp hs)] at h
            obtain ⟨f, hs, hf⟩ := pDate_eq_some.mp h
            refine ⟨f, hs, .inr (.inl hf), fun hlen => ?_⟩
            rw [hf.1] at hlen
            cases hlen
        · rw [pEday_one hc hs] at h
          obtain ⟨f, hs', hf⟩ := pDate_eq_some.mp h
          exact ⟨f, hs', .inl hf, fun hlen => rest_of_length_one hs' hlen ▸ hs⟩
      · simp [pEday, hblank, hc] at h

theorem pEday_complete {f r : Str} (hf : IsEday f) (hall : f.length = 1 → ¬ HeadDigit r) :
    pEday (f ++ r) = some r := by
  rcases hf with hf | hf | ⟨g, rfl, hg⟩
  · obtain ⟨a, rfl⟩ := List.length_eq_one_iff.mp hf.1
    have heq : pEday ([a] ++ r) = pDate 1 9 1 ([a] ++ r) :=
      pEday_one (hf.2.1 a List.mem_cons_self) (hall rfl)
    exact heq.trans (pDate_eq_some.mpr ⟨_, rfl, hf⟩)
  · obtain ⟨a, b, rfl⟩ := List.length_eq_two.mp hf.1
    have heq : pEday ([a, b] ++ r) = pDate 10 31 2 ([a, b] ++ r) :=
      pEday_two (hf.2.1 a (by simp)) (hf.2.1 b (by simp))
    exact heq.trans (pDate_eq_some.mpr ⟨_, rfl, hf⟩)
  · obtain ⟨b, rfl⟩ := List.length_eq_one_iff.mp hg.1
    have heq : pEday (' ' :: [b] ++ r) = pDate 1 9 1 ([b] ++ r) :=
      pEday_blank (hg.2.1 b List.mem_cons_self)
    exact heq.trans (pDate_eq_some.mpr ⟨_, rfl, hg⟩)

theorem scanSpec_pEday : ScanSpec (fun s => some (pEday s))
    (fun f r => IsEday f ∧ (f.length = 1 → ¬ HeadDigit r)) (fun _ => False) where
  undefined s := by simp
  taken s r _ := by
    rw [Option.some_inj]
    refine ⟨pEday_sound, ?_⟩
    rintro ⟨f, rfl, hf, hall⟩
    exact pEday_complete hf hall

theorem mem_letters {c : Char} : c ∈ letters ↔ c = 'd' ∨ c = 'e' ∨ c = 'm' ∨ c = 'y' ∨ c = 'Y' ∨
    c = 'D' ∨ c = 'h' ∨ c = 'b' ∨ c = 'B' := by
  simp only [letters, List.mem_cons, List.not_mem_nil, or_false]

theorem takes_iff {c : Char} (hc : c ≠ 'e') (f r : Str) : Takes c f r ↔ IsField c f :=
  and_iff_left fun he => absurd he hc

theorem length_letters (s : Str) : (((s.take 9).takeWhile Char.isAlpha).map Char.toUpper).length =
    mlim ↔ mlim ≤ (s.takeWhile Char.isAlpha).length := by
  rw [List.length_map, ← List.take_takeWhile, List.length_take]
  show min 9 _ = 9 ↔ 9 ≤ _
  omega

theorem short_amonth (s : Str) :
    False ↔ (((s.take 3).takeWhile Char.isAlpha).map Char.toUpper).length = mlim := by
  have hle : ((s.take 3).takeWhile Char.isAlpha).length ≤ 3 :=
    ((List.takeWhile_prefix _).length_le).trans (List.length_take_le 3 s)
  refine ⟨False.elim, fun h => ?_⟩
  rw [List.length_map] at h
  exact absurd (h ▸ hle) (by decide)

theorem scanSpec_date : ScanSpec (scan 'D') (Takes 'D') (Short 'D') := by
  have hnum (llim ulim : Nat) := @scanSpec_pDate llim ulim 2
  refine ((hnum 1 12).seq (scanSpec_pDlm.seq ((hnum 1 31).seq
    (scanSpec_pDlm.seq (hnum 0 99))))).congr (takes_iff (by decide)) fun s => ?_
  simp only [Short, FieldSeq, and_false, exists_false, false_or, or_false]

/-- The switch of `ckdate_val` takes the valid fields. -/
theorem scanSpec {c : Char} (hc : c ∈ letters) : ScanSpec (scan c) (Takes c) (Short c) := by
  rcases mem_letters.mp hc with rfl | rfl | rfl | rfl | rfl | rfl | rfl | rfl | rfl
  · exact (@scanSpec_pDate 1 31 2).congr (takes_iff (by decide)) fun _ => Iff.rfl
  · exact scanSpec_pEday.congr (fun f r => and_congr_right fun _ => by simp) fun _ => Iff.rfl
  · exact (@scanSpec_pDate 1 12 2).congr (takes_iff (by decide)) fun _ => Iff.rfl
  · exact (@scanSpec_pDate 0 99 2).congr (takes_iff (by decide)) fun _ => Iff.rfl
  · exact (@scanSpec_pDate 1970 9999 4).congr (takes_iff (by decide)) fun _ => Iff.rfl
  · exact scanSpec_date
  · exact (scanSpec_pMonth amonth_names).congr (takes_iff (by decide)) short_amonth
  · exact (scanSpec_pMonth amonth_names).congr (takes_iff (by decide)) short_amonth
  · exact (scanSpec_pMonth fmonth_names).congr (takes_iff (by decide)) fun s =>
      (length_letters s).symm

/-- How far the scan can be ahead of a division into fields: not at all, or by a digit that more
digits follow. -/
def Near (g r : Str) : Prop := g = [] ∨ ∃ d, d.isDigit = true ∧ g = [d] ∧ HeadDigit r

/-- The scan is too far ahead for the two to come to the end at once. -/
def Far (g r : Str) : Prop := 2 ≤ g.length ∨ ∃ d, d.isDigit = true ∧ g = [d] ∧ ¬ HeadDigit r

theorem near_or_far {d : Char} (hd : d.isDigit = true) (r : Str) : Near [d] r ∨ Far [d] r := by
  by_cases h : HeadDigit r
  · exact .inl (.inr ⟨d, hd, rfl, h⟩)
  · exact .inr (.inr ⟨d, hd, rfl, h⟩)

/-- The scan takes the field `p` and leaves `r`, behind which the division is by `g`; this one is
left with `m`. -/
structure Step (g p r m : Str) : Prop where
  far : Far g (p ++ r) → ∃ g', m = g' ++ r ∧ Far g' r
  near : Near g (p ++ r) → ∃ g', m = g' ++ r ∧ (Near g' r ∨ Far g' r)

section Steps
variable {f g p r m : Str}

theorem eq_drop_append (h : f ++ m = g ++ (p ++ r)) (hlen : f.length ≤ g.length + p.length) :
    f = (g ++ p).take f.length ∧ m = (g ++ p).drop f.length ++ r := by
  have hle : f.length ≤ (g ++ p).length := by rw [List.length_append]; exact hlen
  rw [← List.append_assoc] at h
  constructor
  · have := congrArg (List.take f.length) h
    rwa [List.take_left, List.take_append_of_le_length hle] at this
  · have := congrArg (List.drop f.length) h
    rwa [List.drop_left, List.drop_append_of_le_length hle] at this

theorem step_same_length (hlen : f.length = p.length) (hp : 2 ≤ p.length)
    (h : f ++ m = g ++ (p ++ r))
    (hdigit : ∀ d, d.isDigit = true → f = (d :: p).take p.length → ∀ c ∈ p, c.isDigit = true) :
    Step g p r m := by
  obtain ⟨hf, hm⟩ := eq_drop_append h (by omega)
  rw [hlen] at hf hm
  have hsize : ((g ++ p).drop p.length).length = g.length := by
    rw [List.length_drop, List.length_append]
    omega
  constructor
  · rintro (hg | ⟨d, hd, rfl, hr⟩)
    · exact ⟨_, hm, .inl (hsize ▸ hg)⟩
    · refine absurd ?_ hr
      cases p with
      | nil => cases hp
      | cons c p =>
        rw [List.cons_append, headDigit_cons]
        exact hdigit d hd hf c List.mem_cons_self
  · rintro (rfl | ⟨d, hd, rfl, hr⟩)
    · refine ⟨[], ?_, .inl (.inl rfl)⟩
      rw [hm, List.nil_append, List.drop_length]
    · obtain ⟨x, hx⟩ := List.length_eq_one_iff.mp hsize
      refine ⟨[x], hx ▸ hm, near_or_far ?_ r⟩
      have hmem : x ∈ d :: p := List.mem_of_mem_drop (hx ▸ List.mem_singleton_self x)
      rcases List.mem_cons.mp hmem with rfl | hmem
      · exact hd
      · exact hdigit d hd hf x hmem

theorem step_number {llim ulim ndig : Nat} (hn : 2 ≤ ndig) (hf : IsNumber llim ulim ndig f)
    (hp : IsNumber llim ulim ndig p) (h : f ++ m = g ++ (p ++ r)) : Step g p r m :=
  step_same_length (hf.1.trans hp.1.symm) (hp.1.symm ▸ hn) h fun _ _ _ => hp.2.1

theorem two_digits {llim ulim : Nat} (h : IsNumber llim ulim 2 f) :
    ∃ a b, f = [a, b] ∧ a.isDigit = true ∧ b.isDigit = true := by
  obtain ⟨a, b, rfl⟩ := List.length_eq_two.mp h.1
  exact ⟨a, b, rfl, h.2.1 a (by simp), h.2.1 b (by simp)⟩

theorem date_shape (h : IsField 'D' f) : f.length = 8 ∧ ∃ a b x t, f = a :: b :: x :: t ∧
    b.isDigit = true ∧ x.isDigit = false := by
  obtain ⟨m, f, rfl, hm, s, f, rfl, hs, d, f, rfl, hd, t, y, rfl, ht, hy⟩ := h
  obtain ⟨a, b, rfl, -, hb⟩ := two_digits hm
  have hdlm {s : Str} (h : IsDlm s) : ∃ x, s = [x] ∧ x.isDigit = false := by
    rcases h with rfl | rfl
    · exact ⟨_, rfl, by decide⟩
    · exact ⟨_, rfl, by decide⟩
  obtain ⟨x, rfl, hx⟩ := hdlm hs
  obtain ⟨z, rfl, -⟩ := hdlm ht
  refine ⟨?_, a, b, x, _, rfl, hb, hx⟩
  simp only [List.length_append, List.length_cons, List.length_nil, hd.1, hy.1]

theorem step_date (hf : IsField 'D' f) (hp : IsField 'D' p) (h : f ++ m = g ++ (p ++ r)) :
    Step g p r m := by
  obtain ⟨hflen, a, b, x, t, hfeq, -, hx⟩ := date_shape hf
  obtain ⟨hplen, a', b', x', t', hpeq, hb', -⟩ := date_shape hp
  refine step_same_length (hflen.trans hplen.symm) (by omega) h fun d _ heq => ?_
  -- the delimiter of the one would be the second digit of the other
  rw [hplen, hpeq, hfeq] at heq
  simp only [List.take_succ_cons, List.cons.injEq] at heq
  obtain ⟨-, -, rfl, -⟩ := heq
  rw [hb'] at hx
  cases hx

theorem toUpper_of_isDigit {c : Char} (h : c.isDigit = true) : c.toUpper = c := by
  delta Char.toUpper
  rw [dif_neg]
  rintro ⟨hlow, -⟩
  simp only [Char.isDigit, Bool.and_eq_true, decide_eq_true_eq, UInt32.le_iff_toNat_le] at h hlow
  have := Nat.le_trans hlow h.2
  exact absurd this (by decide)

theorem month_head {mnth : List Str} (hnames : mnth = amonth ∨ mnth = fmonth)
    (h : IsMonth mnth f) : ∃ c t, f = c :: t ∧ c.isDigit = false := by
  have hletter : ∀ n ∈ amonth ++ fmonth, n.head?.map Char.isDigit = some false := by
    decide +kernel
  have hmem : f.map Char.toUpper ∈ amonth ++ fmonth := by
    rcases hnames with rfl | rfl
    · exact List.mem_append_left _ h
    · exact List.mem_append_right _ h
  have hhead := hletter _ hmem
  cases f with
  | nil => cases hhead
  | cons c t =>
    have hdigit : c.toUpper.isDigit = false := Option.some_inj.mp hhead
    refine ⟨c, t, rfl, ?_⟩
    cases hc : c.isDigit with
    | false => rfl
    | true =>
      rw [toUpper_of_isDigit hc, hc] at hdigit
      cases hdigit

theorem amonth_length (h : IsMonth amonth f) : f.length = 3 := by
  have hlen : ∀ n ∈ amonth, n.length = 3 := by decide
  exact (List.length_map _).symm.trans (hlen _ h)

theorem step_amonth (hf : IsMonth amonth f) (hp : IsMonth amonth p)
    (h : f ++ m = g ++ (p ++ r)) : Step g p r m := by
  have hlen := amonth_length hp
  refine step_same_length ((amonth_length hf).trans hlen.symm) (by omega) h fun d hd heq => ?_
  obtain ⟨c, t, rfl, hc⟩ := month_head (.inl rfl) hf
  rw [hlen] at heq
  obtain ⟨rfl, -⟩ := List.cons.inj heq
  rw [hd] at hc
  cases hc

theorem fmonth_apart : ∀ n ∈ fmonth, ∀ n' ∈ fmonth, ∀ i ∈ List.range n.length,
    (n.drop i).isPrefixOf n' ∨ n'.isPrefixOf (n.drop i) → i = 0 ∧ n = n' := by
  decide +kernel

theorem step_fmonth (hf : IsMonth fmonth f) (hp : IsMonth fmonth p)
    (h : f ++ m = g ++ (p ++ r)) : Step g p r m := by
  have hshort : ∀ n ∈ fmonth, 2 ≤ n.length := by decide
  have hplen : 2 ≤ p.length := by simpa using hshort _ hp
  by_cases hle : f.length ≤ g.length
  · obtain ⟨-, hm⟩ := eq_drop_append h (by omega)
    have hfar : Far ((g ++ p).drop f.length) r := by
      refine .inl ?_
      rw [List.length_drop, List.length_append]
      omega
    exact ⟨fun _ => ⟨_, hm, hfar⟩, fun _ => ⟨_, hm, .inr hfar⟩⟩
  · -- the name of the division reaches into the one that is taken, so it is the same
    have hmap : (f.map Char.toUpper).drop g.length ++ m.map Char.toUpper =
        p.map Char.toUpper ++ r.map Char.toUpper := by
      have := congrArg (fun t => (t.map Char.toUpper).drop g.length) h
      simp only [List.map_append] at this
      rwa [List.drop_append_of_le_length (by rw [List.length_map]; omega),
        List.drop_left' (List.length_map _)] at this
    have hmeet : ((f.map Char.toUpper).drop g.length).isPrefixOf (p.map Char.toUpper) ∨
        (p.map Char.toUpper).isPrefixOf ((f.map Char.toUpper).drop g.length) := by
      rw [List.isPrefixOf_iff_prefix, List.isPrefixOf_iff_prefix]
      exact List.prefix_or_prefix_of_prefix ⟨_, hmap⟩ (List.prefix_append _ _)
    obtain ⟨hg, hname⟩ := fmonth_apart _ hf _ hp g.length
      (List.mem_range.mpr (by rw [List.length_map]; omega)) hmeet
    obtain rfl := List.length_eq_zero_iff.mp hg
    have hlen : f.length = p.length := by simpa using congrArg List.length hname
    rw [List.nil_append] at h
    obtain ⟨-, rfl⟩ := List.append_inj h hlen
    refine ⟨fun hfar => ?_, fun _ => ⟨[], rfl, .inl (.inl rfl)⟩⟩
    rcases hfar with hfar | ⟨d, -, hd, -⟩
    · cases hfar
    · cases hd

theorem eday_shape (h : IsEday f) : (∃ a, a.isDigit = true ∧ f = [a]) ∨
    (∃ a b, a.isDigit = true ∧ b.isDigit = true ∧ f = [a, b]) ∨
      ∃ b, b.isDigit = true ∧ f = [' ', b] := by
  have hone {g : Str} (hg : IsNumber 1 9 1 g) : ∃ a, a.isDigit = true ∧ g = [a] := by
    obtain ⟨a, rfl⟩ := List.length_eq_one_iff.mp hg.1
    exact ⟨a, hg.2.1 a List.mem_cons_self, rfl⟩
  rcases h with h | h | ⟨g, rfl, h⟩
  · exact .inl (hone h)
  · obtain ⟨a, b, rfl, ha, hb⟩ := two_digits h
    exact .inr (.inl ⟨a, b, ha, hb, rfl⟩)
  · obtain ⟨b, hb, rfl⟩ := hone h
    exact .inr (.inr ⟨b, hb, rfl⟩)

theorem eday_length (h : IsEday f) : 1 ≤ f.length ∧ f.length ≤ 2 := by
  rcases eday_shape h with ⟨a, -, rfl⟩ | ⟨a, b, -, -, rfl⟩ | ⟨b, -, rfl⟩
  · simp
  · simp
  · simp

/-- A day with all digits that can be part of it is far behind a division that has not come
to it. -/
theorem far_eday (hp : IsEday p) (hall : p.length = 1 → ¬ HeadDigit r) : Far p r := by
  rcases eday_shape hp with ⟨a, ha, rfl⟩ | ⟨a, b, -, -, rfl⟩ | ⟨b, -, rfl⟩
  · exact .inr ⟨a, ha, rfl, hall rfl⟩
  · exact .inl (Nat.le_refl _)
  · exact .inl (Nat.le_refl _)

theorem step_eday_aligned (hf : IsEday f) (hp : IsEday p) (hall : p.length = 1 → ¬ HeadDigit r)
    (h : f ++ m = p ++ r) : ∃ g', m = g' ++ r ∧ (Near g' r ∨ Far g' r) := by
  have hblank : ' '.isDigit = false := by decide
  rcases eday_shape hf with ⟨a, ha, rfl⟩ | ⟨a, b, ha, hb, rfl⟩ | ⟨b, hb, rfl⟩
  · rcases eday_shape hp with ⟨x, hx, rfl⟩ | ⟨x, y, hx, hy, rfl⟩ | ⟨y, hy, rfl⟩
    · exact ⟨[], (List.cons.inj h).2, .inl (.inl rfl)⟩
    · exact ⟨[y], (List.cons.inj h).2, near_or_far hy r⟩
    · obtain ⟨rfl, -⟩ := List.cons.inj h
      rw [hblank] at ha
      cases ha
  · rcases eday_shape hp with ⟨x, hx, rfl⟩ | ⟨x, y, hx, hy, rfl⟩ | ⟨y, hy, rfl⟩
    · obtain ⟨-, hr⟩ := List.cons.inj h
      exact absurd ⟨b, congrArg List.head? hr.symm, hb⟩ (hall rfl)
    · exact ⟨[], (List.cons.inj (List.cons.inj h).2).2, .inl (.inl rfl)⟩
    · obtain ⟨rfl, -⟩ := List.cons.inj h
      rw [hblank] at ha
      cases ha
  · rcases eday_shape hp with ⟨x, hx, rfl⟩ | ⟨x, y, hx, hy, rfl⟩ | ⟨y, hy, rfl⟩
    · obtain ⟨rfl, -⟩ := List.cons.inj h
      rw [hblank] at hx
      cases hx
    · obtain ⟨rfl, -⟩ := List.cons.inj h
      rw [hblank] at hx
      cases hx
    · exact ⟨[], (List.cons.inj (List.cons.inj h).2).2, .inl (.inl rfl)⟩

theorem step_eday_behind {d : Char} (hd : d.isDigit = true) (hf : IsEday f) (hp : IsEday p)
    (hall : p.length = 1 → ¬ HeadDigit r) (h : f ++ m = d :: (p ++ r)) :
    (∃ g', m = g' ++ r ∧ Far g' r) ∨
      HeadDigit (p ++ r) ∧ ∃ g', m = g' ++ r ∧ (Near g' r ∨ Far g' r) := by
  have hblank : ' '.isDigit = false := by decide
  rcases eday_shape hf with ⟨a, ha, rfl⟩ | ⟨a, b, ha, hb, rfl⟩ | ⟨b, hb, rfl⟩
  · exact .inl ⟨p, (List.cons.inj h).2, far_eday hp hall⟩
  · obtain ⟨-, htail⟩ := List.cons.inj h
    refine .inr ⟨⟨b, congrArg List.head? htail.symm, hb⟩, ?_⟩
    rcases eday_shape hp with ⟨x, hx, rfl⟩ | ⟨x, y, hx, hy, rfl⟩ | ⟨y, hy, rfl⟩
    · exact ⟨[], (List.cons.inj htail).2, .inl (.inl rfl)⟩
    · exact ⟨[y], (List.cons.inj htail).2, near_or_far hy r⟩
    · obtain ⟨rfl, -⟩ := List.cons.inj htail
      rw [hblank] at hb
      cases hb
  · obtain ⟨rfl, -⟩ := List.cons.inj h
    rw [hblank] at hd
    cases hd

theorem step_eday (hf : IsEday f) (hp : IsEday p) (hall : p.length = 1 → ¬ HeadDigit r)
    (h : f ++ m = g ++ (p ++ r)) : Step g p r m := by
  have hflen := eday_length hf
  have hplen := eday_length hp
  constructor
  · rintro (hg | ⟨d, hd, rfl, hr⟩)
    · obtain ⟨-, hm⟩ := eq_drop_append h (by omega)
      rw [List.drop_append_of_le_length (by omega)] at hm
      refine ⟨_, hm, ?_⟩
      by_cases hsize : g.length = f.length ∧ p.length = 1
      · rw [List.drop_of_length_le (by omega), List.nil_append]
        exact far_eday hp hall
      · refine .inl ?_
        rw [List.length_append, List.length_drop]
        omega
    · rcases step_eday_behind hd hf hp hall h with hfar | ⟨hdigit, -⟩
      · exact hfar
      · exact absurd hdigit hr
  · rintro (rfl | ⟨d, hd, rfl, hr⟩)
    · exact step_eday_aligned hf hp hall h
    · rcases step_eday_behind hd hf hp hall h with ⟨g', hm, hfar⟩ | ⟨-, hnear⟩
      · exact ⟨g', hm, .inr hfar⟩
      · exact hnear

theorem step_field {c : Char} (hc : c ∈ letters) (hf : IsField c f) (hp : IsField c p)
    (hall : c = 'e' → p.length = 1 → ¬ HeadDigit r) (h : f ++ m = g ++ (p ++ r)) :
    Step g p r m := by
  rcases mem_letters.mp hc with rfl | rfl | rfl | rfl | rfl | rfl | rfl | rfl | rfl
  · exact step_number (by decide) hf hp h
  · exact step_eday hf hp (hall rfl) h
  · exact step_number (by decide) hf hp h
  · exact step_number (by decide) hf hp h
  · exact step_number (by decide) hf hp h
  · exact step_date hf hp h
  · exact step_amonth hf hp h
  · exact step_amonth hf hp h
  · exact step_fmonth hf hp h

end Steps

def IsItem (item : FormatItem) : Prop :=
  (∃ c ∈ letters, item = .directive c) ∨ ∃ c ∈ delims, item = .literal c

theorem delims_noDigit : ∀ c ∈ delims, c.isDigit = false := by decide

theorem far_absurd {fmt : List FormatItem} (hfmt : ∀ item ∈ fmt, IsItem item) {g r : Str}
    (hfar : Far g r) (hloose : Loose scan fmt r) (hmatch : Matches IsField fmt (g ++ r)) :
    False := by
  induction fmt generalizing g r with
  | nil =>
    obtain ⟨rfl, -⟩ := List.append_eq_nil_iff.mp hmatch
    rcases hfar with hg | ⟨d, -, hd, -⟩
    · cases hg
    · cases hd
  | cons item fmt ih =>
    obtain ⟨hitem, hrest⟩ := List.forall_mem_cons.mp hfmt
    rcases hitem with ⟨c, hc, rfl⟩ | ⟨c, hc, rfl⟩
    · obtain ⟨r', htaken, hr'⟩ := hloose
      obtain ⟨f, m, hm, hf, hmrest⟩ := hmatch
      obtain ⟨p, rfl, hp, hall⟩ := (scanSpec hc).sound htaken
      obtain ⟨g', rfl, hfar'⟩ := (step_field hc hf hp hall hm.symm).far hfar
      exact ih hrest hfar' hr' hmrest
    · obtain ⟨d, r', rfl, hr'⟩ := hloose
      obtain ⟨m, hm, hmrest⟩ := hmatch
      rcases hfar with hg | ⟨x, hx, rfl, -⟩
      · cases g with
        | nil => cases hg
        | cons x g =>
          obtain ⟨-, rfl⟩ := List.cons.inj hm
          refine ih hrest (g := g ++ [d]) (.inl ?_) hr' ?_
          · simpa using hg
          · simpa using hmrest
      · obtain ⟨rfl, -⟩ := List.cons.inj hm
        rw [delims_noDigit x hc] at hx
        cases hx

/-- If the scan comes to the end of a text that matches, then what it takes are valid fields. -/
theorem exact_of_near {fmt : List FormatItem} (hfmt : ∀ item ∈ fmt, IsItem item) {g r : Str}
    (hnear : Near g r) (hloose : Loose scan fmt r) (hmatch : Matches IsField fmt (g ++ r)) :
    Exact scan IsField fmt r := by
  induction fmt generalizing g r with
  | nil => exact hloose
  | cons item fmt ih =>
    obtain ⟨hitem, hrest⟩ := List.forall_mem_cons.mp hfmt
    rcases hitem with ⟨c, hc, rfl⟩ | ⟨c, hc, rfl⟩
    · obtain ⟨r', htaken, hr'⟩ := hloose
      obtain ⟨f, m, hm, hf, hmrest⟩ := hmatch
      obtain ⟨p, rfl, hp, hall⟩ := (scanSpec hc).sound htaken
      obtain ⟨g', rfl, hnext⟩ := (step_field hc hf hp hall hm.symm).near hnear
      refine ⟨p, r', rfl, hp, htaken, ?_⟩
      rcases hnext with hnear' | hfar
      · exact ih hrest hnear' hr' hmrest
      · exact (far_absurd hrest hfar hr' hmrest).elim
    · obtain ⟨d, r', rfl, hr'⟩ := hloose
      obtain ⟨m, hm, hmrest⟩ := hmatch
      rcases hnear with rfl | ⟨x, hx, rfl, -⟩
      · obtain ⟨rfl, rfl⟩ := List.cons.inj hm
        exact ⟨r', rfl, ih hrest (.inl rfl) hr' hmrest⟩
      · obtain ⟨rfl, -⟩ := List.cons.inj hm
        rw [delims_noDigit x hc] at hx
        cases hx

end Ckdate

section Value
variable {letters delims : Str} {scan : Char → Str → Option (Option Str)}
  {field : Char → Str → Prop} {fmt input : Str}

/-- Where the loop over a format gives the right answer. -/
theorem checkFormat_iff {takes : Char → Str → Str → Prop} {short : Char → Str → Prop}
    (h : fmtcheck letters delims false fmt = false)
    (hspec : ScanSpecs scan takes short (formatItems fmt))
    (hexact : Loose scan (formatItems fmt) input → Matches field (formatItems fmt) input →
      Exact scan field (formatItems fmt) input) :
    (∃ n : Int, (checkFormat scan fmt input).map (fun valid => if valid then 0 else 1) = some n ∧
      (n = 0 ↔ Matches field (formatItems fmt) input)) ↔
      ¬ EndsEarly takes short (formatItems fmt) input ∧
        ¬ Replaced takes field (formatItems fmt) input ∧
        (Matches field (formatItems fmt) input →
          Reads (fun c f r => takes c f r ∧ field c f) (fun c d => d = c) (formatItems fmt) input
            []) := by
  have hdecides : (∃ n : Int, (checkFormat scan fmt input).map
        (fun valid => if valid then 0 else 1) = some n ∧
        (n = 0 ↔ Matches field (formatItems fmt) input)) ↔
      ∃ b, runItems scan (formatItems fmt) input = some b ∧
        (b = true ↔ Matches field (formatItems fmt) input) := by
    rw [(fmtcheck_items scan h).1 input]
    cases runItems scan (formatItems fmt) input with
    | none => simp
    | some valid => cases valid <;> simp
  rw [hdecides, runItems_decides_iff hexact, overruns_iff hspec]
  apply and_congr_right
  intro hends
  rw [misreads_iff hspec hends, exact_iff hspec hends]

end Value

namespace Ckdate

/-- The items of the format that `ckdate_val` uses. -/
def items (fmt : Option Str) : List FormatItem := formatItems (fmt.getD defaultFormat)

/-- `_fmtcheck` accepts the format, or there is none. -/
def Accepts (fmt : Option Str) : Prop := fmt.any (fmtcheck letters delims false) = false

theorem Accepts.getD {fmt : Option Str} (h : Accepts fmt) :
    fmtcheck letters delims false (fmt.getD defaultFormat) = false := by
  cases fmt with
  | none => decide
  | some fmt => exact h

theorem ckdateVal_decides {fmt : Option Str} (h : Accepts fmt) (input : Str) :
    (∃ n, ckdateVal fmt input = some n ∧ (n = 0 ↔ Matches IsField (items fmt) input)) ↔
      ¬ EndsEarly Takes Short (items fmt) input ∧ ¬ Replaced Takes IsField (items fmt) input ∧
        (Matches IsField (items fmt) input →
          Reads Takes (fun c d => d = c) (items fmt) input []) := by
  have hitems := (fmtcheck_items scan h.getD).2
  have hspec : ScanSpecs scan Takes Short (items fmt) := by
    intro c hc
    rcases hitems _ hc with ⟨d, hd, heq⟩ | ⟨d, -, heq⟩
    · obtain rfl := FormatItem.directive.inj heq
      exact scanSpec hd
    · cases heq
  have htakes : (fun c f r => Takes c f r ∧ IsField c f) = Takes := by
    funext c f r
    exact propext (and_iff_left_of_imp And.left)
  rw [ckdateVal, if_neg (by rw [show fmt.any _ = false from h]; decide)]
  have hexact (hloose : Loose scan (items fmt) input) (hmatch : Matches IsField (items fmt) input) :
      Exact scan IsField (items fmt) input := exact_of_near hitems (.inl rfl) hloose hmatch
  have hiff := checkFormat_iff h.getD hspec hexact
  rw [htakes] at hiff
  exact hiff

end Ckdate

end Pkgtools
