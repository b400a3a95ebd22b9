import Pkgtools.CLib.Text

namespace CLib
set_option autoImplicit true

/-- A part of a format: a directive, or a character that stands for itself. -/
inductive FormatItem where
  | directive (c : Char)
  | literal (c : Char)
  deriving DecidableEq, Repr

/-- Scan a text by a format. A scanner of a directive returns what is left of the text, if it fits;
it is undefined (`none`) where it reads something that is not there. A literal takes any character
but the end of the text. -/
def runItems (scan : Char → Str → Option (Option Str)) : List FormatItem → Str → Option Bool
  | [], s => some s.isEmpty
  | .directive c :: fmt, s =>
    match scan c s with
    | none => none
    | some none => some false
    | some (some r) => runItems scan fmt r
  | .literal _ :: fmt, s =>
    match s with
    | [] => none
    | _ :: r => runItems scan fmt r

/-- The text is one valid field for each directive and the character itself for each literal. -/
def Matches (field : Char → Str → Prop) : List FormatItem → Str → Prop
  | [], s => s = []
  | .directive c :: fmt, s => ∃ f r, s = f ++ r ∧ field c f ∧ Matches field fmt r
  | .literal c :: fmt, s => ∃ r, s = c :: r ∧ Matches field fmt r

/-- The text is what the scanner takes for each directive, and any character for each literal. -/
def Loose (scan : Char → Str → Option (Option Str)) : List FormatItem → Str → Prop
  | [], s => s = []
  | .directive c :: fmt, s => ∃ r, scan c s = some (some r) ∧ Loose scan fmt r
  | .literal _ :: fmt, s => ∃ d r, s = d :: r ∧ Loose scan fmt r

/-- The scan comes to a directive or a literal that reads something that is not there. -/
def Overruns (scan : Char → Str → Option (Option Str)) : List FormatItem → Str → Prop
  | [], _ => False
  | .directive c :: fmt, s =>
    scan c s = none ∨ ∃ r, scan c s = some (some r) ∧ Overruns scan fmt r
  | .literal _ :: fmt, s => s = [] ∨ ∃ d r, s = d :: r ∧ Overruns scan fmt r

/-- The text is what the scanner takes for each directive, a valid field, and the character itself
for each literal. -/
def Exact (scan : Char → Str → Option (Option Str)) (field : Char → Str → Prop) :
    List FormatItem → Str → Prop
  | [], s => s = []
  | .directive c :: fmt, s =>
    ∃ f r, s = f ++ r ∧ field c f ∧ scan c s = some (some r) ∧ Exact scan field fmt r
  | .literal c :: fmt, s => ∃ r, s = c :: r ∧ Exact scan field fmt r

/-- The scan gets through the whole text, but on the way a directive takes what is no field of it,
or a literal takes another character. -/
def Misreads (scan : Char → Str → Option (Option Str)) (field : Char → Str → Prop) :
    List FormatItem → Str → Prop
  | [], _ => False
  | .directive c :: fmt, s => ∃ r, scan c s = some (some r) ∧
    ((¬ ∃ f, s = f ++ r ∧ field c f) ∧ Loose scan fmt r ∨ Misreads scan field fmt r)
  | .literal c :: fmt, s => ∃ d r, s = d :: r ∧
    (d ≠ c ∧ Loose scan fmt r ∨ Misreads scan field fmt r)

section Items
variable {scan : Char → Str → Option (Option Str)} {field : Char → Str → Prop}
  {fmt : List FormatItem} {s : Str}

theorem Exact.toMatches (h : Exact scan field fmt s) : Matches field fmt s := by
  induction fmt generalizing s with
  | nil => exact h
  | cons item fmt ih =>
    cases item with
    | directive c =>
      obtain ⟨f, r, hs, hf, -, hr⟩ := h
      exact ⟨f, r, hs, hf, ih hr⟩
    | literal c =>
      obtain ⟨r, hs, hr⟩ := h
      exact ⟨r, hs, ih hr⟩

theorem Exact.toLoose (h : Exact scan field fmt s) : Loose scan fmt s := by
  induction fmt generalizing s with
  | nil => exact h
  | cons item fmt ih =>
    cases item with
    | directive c =>
      obtain ⟨f, r, -, -, hscan, hr⟩ := h
      exact ⟨r, hscan, ih hr⟩
    | literal c =>
      obtain ⟨r, hs, hr⟩ := h
      exact ⟨c, r, hs, ih hr⟩

theorem runItems_true_iff : runItems scan fmt s = some true ↔ Loose scan fmt s := by
  induction fmt generalizing s with
  | nil => rw [runItems, Loose, Option.some_inj, List.isEmpty_iff]
  | cons item fmt ih =>
    cases item with
    | directive c =>
      rw [runItems, Loose]
      match hscan : scan c s with
      | none => simp
      | some none => simp
      | some (some r) => simp [ih]
    | literal c =>
      cases s with
      | nil => simp [runItems, Loose]
      | cons d r => simp [runItems, Loose, ih]

theorem runItems_none_iff : runItems scan fmt s = none ↔ Overruns scan fmt s := by
  induction fmt generalizing s with
  | nil => simp [runItems, Overruns]
  | cons item fmt ih =>
    cases item with
    | directive c =>
      rw [runItems, Overruns]
      match hscan : scan c s with
      | none => simp
      | some none => simp
      | some (some r) => simp [ih]
    | literal c =>
      cases s with
      | nil => simp [runItems, Overruns]
      | cons d r => simp [runItems, Overruns, ih]

theorem Misreads.toLoose (h : Misreads scan field fmt s) : Loose scan fmt s := by
  induction fmt generalizing s with
  | nil => exact h.elim
  | cons item fmt ih =>
    cases item with
    | directive c =>
      obtain ⟨r, hscan, ⟨-, hr⟩ | hr⟩ := h
      · exact ⟨r, hscan, hr⟩
      · exact ⟨r, hscan, ih hr⟩
    | literal c =>
      obtain ⟨d, r, hs, ⟨-, hr⟩ | hr⟩ := h
      · exact ⟨d, r, hs, hr⟩
      · exact ⟨d, r, hs, ih hr⟩

theorem Misreads.not_exact (h : Misreads scan field fmt s) : ¬ Exact scan field fmt s := by
  induction fmt generalizing s with
  | nil => exact h.elim
  | cons item fmt ih =>
    cases item with
    | directive c =>
      obtain ⟨r, hscan, h⟩ := h
      rintro ⟨f, r', hs, hf, hscan', hr'⟩
      obtain rfl : r = r' := Option.some_inj.mp (Option.some_inj.mp (hscan.symm.trans hscan'))
      rcases h with ⟨hno, -⟩ | hr
      · exact hno ⟨f, hs, hf⟩
      · exact ih hr hr'
    | literal c =>
      obtain ⟨d, r, rfl, h⟩ := h
      rintro ⟨r', hs, hr'⟩
      obtain ⟨rfl, rfl⟩ := List.cons.inj hs
      rcases h with ⟨hne, -⟩ | hr
      · exact hne rfl
      · exact ih hr hr'

theorem Loose.exact_or_misreads (h : Loose scan fmt s) :
    Exact scan field fmt s ∨ Misreads scan field fmt s := by
  induction fmt generalizing s with
  | nil => exact .inl h
  | cons item fmt ih =>
    cases item with
    | directive c =>
      obtain ⟨r, hscan, hr⟩ := h
      by_cases hfield : ∃ f, s = f ++ r ∧ field c f
      · obtain ⟨f, hs, hf⟩ := hfield
        rcases ih hr with hexact | hmisread
        · exact .inl ⟨f, r, hs, hf, hscan, hexact⟩
        · exact .inr ⟨r, hscan, .inr hmisread⟩
      · exact .inr ⟨r, hscan, .inl ⟨hfield, hr⟩⟩
    | literal c =>
      obtain ⟨d, r, hs, hr⟩ := h
      by_cases hd : d = c
      · rcases ih hr with hexact | hmisread
        · exact .inl ⟨r, hd ▸ hs, hexact⟩
        · exact .inr ⟨d, r, hs, .inr hmisread⟩
      · exact .inr ⟨d, r, hs, .inl ⟨hd, hr⟩⟩

/-- The scan is defined and decides whether the text matches just if it does not come to something
that is not there, misreads nothing, and takes the fields of a text that matches. -/
theorem runItems_decides_iff (hexact : Loose scan fmt s → Matches field fmt s →
    Exact scan field fmt s) :
    (∃ b, runItems scan fmt s = some b ∧ (b = true ↔ Matches field fmt s)) ↔
      ¬ Overruns scan fmt s ∧ ¬ Misreads scan field fmt s ∧
        (Matches field fmt s → Exact scan field fmt s) := by
  constructor
  · rintro ⟨b, hrun, hb⟩
    have hloose : Loose scan fmt s ↔ Matches field fmt s := by
      rw [← runItems_true_iff, hrun, Option.some_inj]
      exact hb
    refine ⟨fun h => ?_, fun h => ?_, fun h => hexact (hloose.mpr h) h⟩
    · rw [← runItems_none_iff, hrun] at h
      cases h
    · exact h.not_exact (hexact h.toLoose (hloose.mp h.toLoose))
  · rintro ⟨hdefined, hmisread, hmatches⟩
    cases hrun : runItems scan fmt s with
    | none => exact absurd (runItems_none_iff.mp hrun) hdefined
    | some b =>
      refine ⟨b, rfl, fun hb => ?_, fun h => ?_⟩
      · have hloose := runItems_true_iff.mp (hrun.trans (congrArg some hb))
        exact (hloose.exact_or_misreads.resolve_right hmisread).toMatches
      · have := runItems_true_iff.mpr (hmatches h).toLoose
        exact Option.some_inj.mp (hrun.symm.trans this)

end Items

/-- The text up to `r` is what `takes` allows for each directive, and an admitted character for each
literal. What a directive takes can depend on what follows. -/
def Reads (takes : Char → Str → Str → Prop) (admits : Char → Char → Prop) :
    List FormatItem → Str → Str → Prop
  | [], s, r => s = r
  | .directive c :: fmt, s, r => ∃ f t, s = f ++ t ∧ takes c f t ∧ Reads takes admits fmt t r
  | .literal c :: fmt, s, r => ∃ d t, s = d :: t ∧ admits c d ∧ Reads takes admits fmt t r

/-- The text can be read, with any characters for the literals, up to an item at which `P` holds of
the item, the items behind it and what is left of the text. -/
def Reaches (takes : Char → Str → Str → Prop) (P : FormatItem → List FormatItem → Str → Prop)
    (fmt : List FormatItem) (s : Str) : Prop :=
  ∃ fmt₁ item fmt₂ r, fmt = fmt₁ ++ item :: fmt₂ ∧ Reads takes (fun _ _ => True) fmt₁ s r ∧
    P item fmt₂ r

/-- Too little is left for an item: nothing for a literal. -/
def ShortAt (short : Char → Str → Prop) : FormatItem → Str → Prop
  | .directive c, s => short c s
  | .literal _, s => s = []

/-- What stands in front of `r` is taken for an item that it does not belong to. -/
def WrongAt (takes : Char → Str → Str → Prop) (field : Char → Str → Prop) :
    FormatItem → Str → Str → Prop
  | .directive c, s, r => ∃ f, s = f ++ r ∧ takes c f r ∧ ¬ field c f
  | .literal c, s, r => ∃ d, s = d :: r ∧ d ≠ c

def EndsEarly (takes : Char → Str → Str → Prop) (short : Char → Str → Prop) :
    List FormatItem → Str → Prop :=
  Reaches takes fun item _ s => ShortAt short item s

def Replaced (takes : Char → Str → Str → Prop) (field : Char → Str → Prop) :
    List FormatItem → Str → Prop :=
  Reaches takes fun item fmt s =>
    ∃ r, WrongAt takes field item s r ∧ Reads takes (fun _ _ => True) fmt r []

/-- What a scanner takes in front of the rest, and where it reads something that is not there. -/
structure ScanSpec (sc : Str → Option (Option Str)) (takes : Str → Str → Prop)
    (short : Str → Prop) : Prop where
  undefined : ∀ s, sc s = none ↔ short s
  taken : ∀ s r, ¬ short s → (sc s = some (some r) ↔ ∃ f, s = f ++ r ∧ takes f r)

section Reads
variable {scan : Char → Str → Option (Option Str)} {takes : Char → Str → Str → Prop}
  {field : Char → Str → Prop} {short : Char → Str → Prop}
  {P : FormatItem → List FormatItem → Str → Prop} {fmt : List FormatItem} {s : Str}

theorem Matches.reads (h : Matches field fmt s)
    (htakes : ∀ c, .directive c ∈ fmt → ∀ f r, field c f → takes c f r) :
    Reads (fun c f r => takes c f r ∧ field c f) (fun c d => d = c) fmt s [] := by
  induction fmt generalizing s with
  | nil => exact h
  | cons item fmt ih =>
    have hrest := fun c hc => htakes c (List.mem_cons_of_mem _ hc)
    cases item with
    | directive c =>
      obtain ⟨f, r, hs, hf, hr⟩ := h
      exact ⟨f, r, hs, ⟨htakes c List.mem_cons_self f r hf, hf⟩, ih hr hrest⟩
    | literal c =>
      obtain ⟨r, hs, hr⟩ := h
      exact ⟨c, r, hs, rfl, ih hr hrest⟩

theorem not_reaches_nil : ¬ Reaches takes P [] s := by
  rintro ⟨fmt₁, item, fmt₂, r, hfmt, -⟩
  exact absurd hfmt.symm (List.append_ne_nil_of_right_ne_nil _ (List.cons_ne_nil _ _))

theorem reaches_directive : Reaches takes P (.directive c :: fmt) s ↔
    P (.directive c) fmt s ∨ ∃ f t, s = f ++ t ∧ takes c f t ∧ Reaches takes P fmt t := by
  constructor
  · rintro ⟨fmt₁, item, fmt₂, r, hfmt, hr, hp⟩
    cases fmt₁ with
    | nil =>
      obtain ⟨rfl, rfl⟩ := List.cons.inj hfmt
      obtain rfl : s = r := hr
      exact .inl hp
    | cons item' fmt₁ =>
      obtain ⟨rfl, rfl⟩ := List.cons.inj hfmt
      obtain ⟨f, t, hs, ht, hr⟩ := hr
      exact .inr ⟨f, t, hs, ht, fmt₁, item, fmt₂, r, rfl, hr, hp⟩
  · rintro (hp | ⟨f, t, hs, ht, fmt₁, item, fmt₂, r, rfl, hr, hp⟩)
    · exact ⟨[], _, fmt, s, rfl, rfl, hp⟩
    · exact ⟨.directive c :: fmt₁, item, fmt₂, r, rfl, ⟨f, t, hs, ht, hr⟩, hp⟩

theorem reaches_literal : Reaches takes P (.literal c :: fmt) s ↔
    P (.literal c) fmt s ∨ ∃ d t, s = d :: t ∧ Reaches takes P fmt t := by
  constructor
  · rintro ⟨fmt₁, item, fmt₂, r, hfmt, hr, hp⟩
    cases fmt₁ with
    | nil =>
      obtain ⟨rfl, rfl⟩ := List.cons.inj hfmt
      obtain rfl : s = r := hr
      exact .inl hp
    | cons item' fmt₁ =>
      obtain ⟨rfl, rfl⟩ := List.cons.inj hfmt
      obtain ⟨d, t, hs, -, hr⟩ := hr
      exact .inr ⟨d, t, hs, fmt₁, item, fmt₂, r, rfl, hr, hp⟩
  · rintro (hp | ⟨d, t, hs, fmt₁, item, fmt₂, r, rfl, hr, hp⟩)
    · exact ⟨[], _, fmt, s, rfl, rfl, hp⟩
    · exact ⟨.literal c :: fmt₁, item, fmt₂, r, rfl, ⟨d, t, hs, trivial, hr⟩, hp⟩

def ScanSpecs (scan : Char → Str → Option (Option Str)) (takes : Char → Str → Str → Prop)
    (short : Char → Str → Prop) (fmt : List FormatItem) : Prop :=
  ∀ c, .directive c ∈ fmt → ScanSpec (scan c) (takes c) (short c)

theorem ScanSpecs.tail (h : ScanSpecs scan takes short (item :: fmt)) :
    ScanSpecs scan takes short fmt := fun c hc => h c (List.mem_cons_of_mem _ hc)

theorem overruns_iff (h : ScanSpecs scan takes short fmt) :
    Overruns scan fmt s ↔ EndsEarly takes short fmt s := by
  induction fmt generalizing s with
  | nil => exact ⟨False.elim, fun h => absurd h not_reaches_nil⟩
  | cons item fmt ih =>
    have ih := fun s => ih (s := s) h.tail
    cases item with
    | directive c =>
      obtain ⟨hundef, htaken⟩ := h c List.mem_cons_self
      rw [Overruns, EndsEarly, reaches_directive, hundef]
      by_cases hshort : short c s
      · exact iff_of_true (.inl hshort) (.inl hshort)
      · simp only [htaken s _ hshort, ih]
        constructor
        · rintro (hs | ⟨r, ⟨f, hs, hf⟩, hr⟩)
          · exact absurd hs hshort
          · exact .inr ⟨f, r, hs, hf, hr⟩
        · rintro (hs | ⟨f, r, hs, hf, hr⟩)
          · exact absurd hs hshort
          · exact .inr ⟨r, ⟨f, hs, hf⟩, hr⟩
    | literal c =>
      rw [Overruns, EndsEarly, reaches_literal]
      simp only [ih]
      exact Iff.rfl

theorem not_endsEarly_directive (h : ¬ EndsEarly takes short (.directive c :: fmt) s) :
    ¬ short c s ∧ ∀ f t, s = f ++ t → takes c f t → ¬ EndsEarly takes short fmt t := by
  rw [EndsEarly, reaches_directive] at h
  exact ⟨fun hs => h (.inl hs), fun f t hs hf hr => h (.inr ⟨f, t, hs, hf, hr⟩)⟩

theorem not_endsEarly_literal (h : ¬ EndsEarly takes short (.literal c :: fmt) s) :
    ∀ d t, s = d :: t → ¬ EndsEarly takes short fmt t := by
  rw [EndsEarly, reaches_literal] at h
  exact fun d t hs hr => h (.inr ⟨d, t, hs, hr⟩)

theorem loose_iff (h : ScanSpecs scan takes short fmt) (hends : ¬ EndsEarly takes short fmt s) :
    Loose scan fmt s ↔ Reads takes (fun _ _ => True) fmt s [] := by
  induction fmt generalizing s with
  | nil => exact Iff.rfl
  | cons item fmt ih =>
    have ih := fun s => ih (s := s) h.tail
    cases item with
    | directive c =>
      obtain ⟨-, htaken⟩ := h c List.mem_cons_self
      obtain ⟨hshort, hends⟩ := not_endsEarly_directive hends
      rw [Loose, Reads]
      constructor
      · rintro ⟨r, hr, hloose⟩
        obtain ⟨f, hs, hf⟩ := (htaken s r hshort).mp hr
        exact ⟨f, r, hs, hf, (ih r (hends f r hs hf)).mp hloose⟩
      · rintro ⟨f, r, hs, hf, hr⟩
        exact ⟨r, (htaken s r hshort).mpr ⟨f, hs, hf⟩, (ih r (hends f r hs hf)).mpr hr⟩
    | literal c =>
      have hends := not_endsEarly_literal hends
      rw [Loose, Reads]
      constructor
      · rintro ⟨d, r, hs, hloose⟩
        exact ⟨d, r, hs, trivial, (ih r (hends d r hs)).mp hloose⟩
      · rintro ⟨d, r, hs, -, hr⟩
        exact ⟨d, r, hs, (ih r (hends d r hs)).mpr hr⟩

theorem misreads_iff (h : ScanSpecs scan takes short fmt)
    (hends : ¬ EndsEarly takes short fmt s) :
    Misreads scan field fmt s ↔ Replaced takes field fmt s := by
  induction fmt generalizing s with
  | nil => exact ⟨False.elim, fun h => absurd h not_reaches_nil⟩
  | cons item fmt ih =>
    have ih := fun s => ih (s := s) h.tail
    cases item with
    | directive c =>
      obtain ⟨-, htaken⟩ := h c List.mem_cons_self
      obtain ⟨hshort, hends⟩ := not_endsEarly_directive hends
      rw [Misreads, Replaced, reaches_directive]
      constructor
      · rintro ⟨r, hr, hmis⟩
        obtain ⟨f, hs, hf⟩ := (htaken s r hshort).mp hr
        have hends := hends f r hs hf
        rcases hmis with ⟨hno, hloose⟩ | hmis
        · refine .inl ⟨r, ⟨f, hs, hf, fun hfield => hno ⟨f, hs, hfield⟩⟩, ?_⟩
          exact (loose_iff h.tail hends).mp hloose
        · exact .inr ⟨f, r, hs, hf, (ih r hends).mp hmis⟩
      · rintro (⟨r, ⟨f, hs, hf, hno⟩, hr⟩ | ⟨f, r, hs, hf, hrep⟩)
        · have hends := hends f r hs hf
          refine ⟨r, (htaken s r hshort).mpr ⟨f, hs, hf⟩,
            .inl ⟨?_, (loose_iff h.tail hends).mpr hr⟩⟩
          rintro ⟨g, hg, hfield⟩
          obtain rfl := List.append_cancel_right (hs.symm.trans hg)
          exact hno hfield
        · exact ⟨r, (htaken s r hshort).mpr ⟨f, hs, hf⟩, .inr ((ih r (hends f r hs hf)).mpr hrep)⟩
    | literal c =>
      have hends := not_endsEarly_literal hends
      rw [Misreads, Replaced, reaches_literal]
      constructor
      · rintro ⟨d, r, hs, ⟨hne, hloose⟩ | hmis⟩
        · exact .inl ⟨r, ⟨d, hs, hne⟩, (loose_iff h.tail (hends d r hs)).mp hloose⟩
        · exact .inr ⟨d, r, hs, (ih r (hends d r hs)).mp hmis⟩
      · rintro (⟨r, ⟨d, hs, hne⟩, hr⟩ | ⟨d, r, hs, hrep⟩)
        · exact ⟨d, r, hs, .inl ⟨hne, (loose_iff h.tail (hends d r hs)).mpr hr⟩⟩
        · exact ⟨d, r, hs, .inr ((ih r (hends d r hs)).mpr hrep)⟩

theorem exact_iff (h : ScanSpecs scan takes short fmt) (hends : ¬ EndsEarly takes short fmt s) :
    Exact scan field fmt s ↔
      Reads (fun c f r => takes c f r ∧ field c f) (fun c d => d = c) fmt s [] := by
  induction fmt generalizing s with
  | nil => exact Iff.rfl
  | cons item fmt ih =>
    have ih := fun s => ih (s := s) h.tail
    cases item with
    | directive c =>
      obtain ⟨-, htaken⟩ := h c List.mem_cons_self
      obtain ⟨hshort, hends⟩ := not_endsEarly_directive hends
      rw [Exact, Reads]
      constructor
      · rintro ⟨f, r, hs, hfield, hr, hexact⟩
        obtain ⟨g, hg, hf⟩ := (htaken s r hshort).mp hr
        obtain rfl := List.append_cancel_right (hs.symm.trans hg)
        exact ⟨f, r, hs, ⟨hf, hfield⟩, (ih r (hends f r hs hf)).mp hexact⟩
      · rintro ⟨f, r, hs, ⟨hf, hfield⟩, hr⟩
        exact ⟨f, r, hs, hfield, (htaken s r hshort).mpr ⟨f, hs, hf⟩,
          (ih r (hends f r hs hf)).mpr hr⟩
    | literal c =>
      have hnext := not_endsEarly_literal hends
      rw [Exact, Reads]
      constructor
      · rintro ⟨r, hs, hexact⟩
        exact ⟨c, r, hs, rfl, (ih r (hnext c r hs)).mp hexact⟩
      · rintro ⟨d, r, hs, hd, hr⟩
        obtain rfl : d = c := hd
        exact ⟨r, hs, (ih r (hnext d r hs)).mpr hr⟩

end Reads

def thenScan (x : Option (Option Str)) (k : Str → Option (Option Str)) : Option (Option Str) :=
  match x with
  | none => none
  | some none => some none
  | some (some r) => k r

def FieldSeq (A B : Str → Prop) (f : Str) : Prop := ∃ a b, f = a ++ b ∧ A a ∧ B b

theorem fieldSeq_assoc (A B C : Str → Prop) :
    FieldSeq (FieldSeq A B) C = FieldSeq A (FieldSeq B C) := by
  funext f
  apply propext
  constructor
  · rintro ⟨_, c, rfl, ⟨a, b, rfl, ha, hb⟩, hc⟩
    exact ⟨a, b ++ c, List.append_assoc a b c, ha, b, c, rfl, hb, hc⟩
  · rintro ⟨a, _, rfl, ha, b, c, rfl, hb, hc⟩
    exact ⟨a ++ b, c, (List.append_assoc a b c).symm, ⟨a, b, rfl, ha, hb⟩, hc⟩

theorem ScanSpec.sound (h : ScanSpec sc T S) (hr : sc s = some (some r)) :
    ∃ f, s = f ++ r ∧ T f r := by
  refine (h.taken s r fun hs => ?_).mp hr
  rw [(h.undefined s).mpr hs] at hr
  cases hr

theorem ScanSpec.congr (h : ScanSpec sc T S) (hT : ∀ f r, T' f r ↔ T f r) (hS : ∀ s, S' s ↔ S s) :
    ScanSpec sc T' S' where
  undefined s := (h.undefined s).trans (hS s).symm
  taken s r hs := by simp only [hT, h.taken s r fun hs' => hs ((hS s).mpr hs')]

theorem ScanSpec.seq (h : ScanSpec sc (fun f _ => A f) S) (h' : ScanSpec sc' T S') :
    ScanSpec (fun s => thenScan (sc s) sc') (fun f r => ∃ a b, f = a ++ b ∧ A a ∧ T b r)
      (fun s => S s ∨ FieldSeq A S' s) where
  undefined s := by
    by_cases hshort : S s
    · have hnone : sc s = none := (h.undefined s).mpr hshort
      simp only [hnone, thenScan, true_iff]
      exact .inl hshort
    · have htaken := fun r => h.taken s r hshort
      constructor
      · intro hnone
        match hsc : sc s with
        | none => exact absurd ((h.undefined s).mp hsc) hshort
        | some none => simp [hsc, thenScan] at hnone
        | some (some t) =>
          obtain ⟨a, rfl, ha⟩ := (htaken t).mp hsc
          refine .inr ⟨a, t, rfl, ha, (h'.undefined t).mp ?_⟩
          simpa [hsc, thenScan] using hnone
      · rintro (hs | ⟨a, t, rfl, ha, ht⟩)
        · exact absurd hs hshort
        · simp only [(htaken t).mpr ⟨a, rfl, ha⟩, thenScan]
          exact (h'.undefined t).mpr ht
  taken s r hshort := by
    have htaken := fun t => h.taken s t fun hs => hshort (.inl hs)
    constructor
    · intro hr
      match hsc : sc s with
      | none => simp [hsc, thenScan] at hr
      | some none => simp [hsc, thenScan] at hr
      | some (some t) =>
        obtain ⟨a, rfl, ha⟩ := (htaken t).mp hsc
        have hr : sc' t = some (some r) := by simpa [hsc, thenScan] using hr
        obtain ⟨b, rfl, hb⟩ := (h'.taken t r fun ht => hshort (.inr ⟨a, t, rfl, ha, ht⟩)).mp hr
        exact ⟨a ++ b, (List.append_assoc _ _ _).symm, a, b, rfl, ha, hb⟩
    · rintro ⟨f, rfl, a, b, rfl, ha, hb⟩
      have hs : a ++ b ++ r = a ++ (b ++ r) := List.append_assoc _ _ _
      simp only [(htaken (b ++ r)).mpr ⟨a, hs, ha⟩, thenScan]
      exact (h'.taken (b ++ r) r fun ht => hshort (.inr ⟨a, b ++ r, hs, ha, ht⟩)).mpr ⟨b, rfl, hb⟩

end CLib
