import Pkgtools.CLib.RecordReader

namespace Pkgtools
open CLib
set_option autoImplicit true

def NVERS : Nat := 50

def depLineSize : Nat := 256

/-- The global variables that `getline` fills in. -/
structure DepState where
  type : Char
  abbr : Str
  name : Str
  alist : List (Option Str)
  vlist : List (Option Str)
  nlist : Nat
  deriving DecidableEq

def DepState.init : DepState :=
  ⟨nul, [], [], List.replicate NVERS none, List.replicate NVERS none, 0⟩

/-- `sscanf` with `%c %128s %[^\n]`; not defined if the name does not fit its buffer. -/
def scanDefinition : Str → Option (Char × Str × Str)
  | [] => some (nul, [], [])
  | type :: s =>
    let s := s.dropWhile isspace
    let abbr := (s.takeWhile (! isspace ·)).take 128
    let name := if abbr = [] then [] else
      ((s.drop abbr.length).dropWhile isspace).takeWhile (· ≠ '\n')
    if name.length < 128 then some (type, abbr, name) else none

/-- The architecture of a version line, none for one that is not closed, and what is behind it. -/
def readArch (pt : Str) : Option (Option Str × Str) :=
  if pt.head? = some '(' then
    if ')' ∈ pt then
      some (some ((pt.takeWhile (· ≠ ')')).drop 1), (pt.dropWhile (· ≠ ')')).drop 1)
    else none
  else some (none, pt)

def readVersion (pt : Str) : Option Str :=
  let pt := pt.dropWhile isspace
  if pt = [] then none else some (pt.takeWhile (· ≠ '\n'))

/-- `list[found] = s`, for a string that has been read; not defined behind the array. -/
def storeVersion (list : List (Option Str)) (found : Nat) : Option Str → Option (List (Option Str))
  | none => some list
  | some s => if found < list.length then some (list.set found (some s)) else none

/-- The body of the loop of `getline` for one line: the loop goes on with `found` and the variables,
or a value is returned. -/
def depLine (found : Int) (g : DepState) (line : Str) : Option (Except Int (Int × DepState)) :=
  let pt := line.dropWhile isspace
  if pt = [] ∨ pt.head? = some '#' then some (.ok (found, g))
  else if pt = line then
    (scanDefinition line).map fun (type, abbr, name) => .ok (found + 1, { g with type, abbr, name })
  else if found < 0 then some (.error 0)
  else
    match readArch pt with
    | none => some (.error (-1))
    | some (arch, pt) =>
      (storeVersion g.alist found.toNat arch).bind fun alist =>
      (storeVersion g.vlist found.toNat (readVersion pt)).map fun vlist =>
      .ok (found + 1, { g with alist, vlist, nlist := g.nlist + 1 })

/-- The loop of `getline`: the value returned, the variables and the rest of the file. -/
def getlineLoop : Nat → Int → DepState → Str → Option (Int × DepState × Str)
  | 0, _, _, _ => none
  | fuel + 1, found, g, file =>
    if 0 ≤ found ∧ file.head?.any (! isspace ·) then some (1, g, file)
    else
      match fgets depLineSize file with
      | none => some (if 0 ≤ found then 1 else 0, g, file)
      | some (line, file) =>
        match depLine found g (line.takeWhile (· ≠ nul)) with
        | none => none
        | some (.error ret) => some (ret, g, file)
        | some (.ok (found, g)) => getlineLoop fuel found g file

def freeVersions (nlist : Nat) (list : List (Option Str)) : List (Option Str) :=
  list.mapIdx fun i s => if i < nlist ∨ i = 0 then none else s

def getline (g : DepState) (file : Str) : Option (Int × DepState × Str) :=
  getlineLoop (file.length + 1) (-1)
    ⟨nul, [], [], freeVersions g.nlist g.alist, freeVersions g.nlist g.vlist, 0⟩ file

/-- A dependency as the callers see it. -/
structure Dependency where
  type : Char
  abbr : Str
  name : Str
  versions : List (Option Str × Option Str)
  deriving DecidableEq

def DepState.dependency (g : DepState) : Dependency :=
  ⟨g.type, g.abbr, g.name, (g.alist.zip g.vlist).take g.nlist⟩

/-- The loop `while (getline (fp))` of `dockdeps` and `ckpreq`: the dependencies that it handles. -/
def dependencies : Nat → DepState → Str → Option (List Dependency)
  | 0, _, _ => none
  | fuel + 1, g, file =>
    (getline g file).bind fun (ret, g, file) =>
    if ret = 0 then some [] else (dependencies fuel g file).map (g.dependency :: ·)

inductive BodyLine
  | skipped (l : Str)
  | version (indent : Str) (arch : Option Str) (gap : Str) (vers : Option Str)
  | unclosed (indent s : Str)

def BodyLine.text : BodyLine → Str
  | .skipped l => l
  | .version indent arch gap vers =>
    indent ++ (arch.elim [] (fun a => '(' :: (a ++ [')'])) ++ (gap ++ vers.getD []))
  | .unclosed indent s => indent ++ '(' :: s

/-- Blank, or `#` behind white space. -/
def IsSkipped (l : Str) : Prop :=
  l.dropWhile isspace = [] ∨ (l.dropWhile isspace).head? = some '#'

instance (l : Str) : Decidable (IsSkipped l) := inferInstanceAs (Decidable (_ ∨ _))

structure ShortLine (l : Str) : Prop where
  short : l.length < depLineSize
  plain : ∀ c ∈ l, c ≠ '\n' ∧ c ≠ nul

def Blanks (s : Str) : Prop := ∀ c ∈ s, isspace c

instance (s : Str) : Decidable (Blanks s) := inferInstanceAs (Decidable (∀ c ∈ s, _))

/-- `[(arch)] [version]` behind white space, or a line that is skipped and does not stand in column
one. -/
def BodyLine.Valid : BodyLine → Prop
  | .skipped l => IsSkipped l ∧ ∀ c ∈ l.head?, isspace c
  | .version indent arch gap vers => indent ≠ [] ∧ Blanks indent ∧ Blanks gap ∧
      (∀ a ∈ arch, ')' ∉ a) ∧ (∀ v ∈ vers, ∃ c s, v = c :: s ∧ isspace c = false ∧
        (arch = none → c ≠ '#' ∧ c ≠ '(')) ∧ (arch = none → vers ≠ none)
  | .unclosed indent s => indent ≠ [] ∧ Blanks indent ∧ ')' ∉ s

/-- A definition: `type abbrev name` and the lines of its versions. -/
structure Definition where
  type : Char
  gap : Str
  abbr : Str
  gap' : Str
  name : Str
  body : List BodyLine

namespace Definition

def head (d : Definition) : Str := d.type :: (d.gap ++ (d.abbr ++ (d.gap' ++ d.name)))

def lines (d : Definition) : List Str := d.head :: d.body.map (·.text)

structure Valid (d : Definition) : Prop where
  type : isspace d.type = false ∧ d.type ≠ '#'
  gap : d.gap ≠ [] ∧ Blanks d.gap
  abbr : d.abbr ≠ [] ∧ d.abbr.length ≤ 128 ∧ ∀ c ∈ d.abbr, isspace c = false
  gap' : (d.name ≠ [] → d.gap' ≠ []) ∧ Blanks d.gap'
  name : d.name.length < 128 ∧ ∀ c ∈ d.name.head?, isspace c = false
  body : ∀ l ∈ d.body, l.Valid
  short : ∀ l ∈ d.lines, ShortLine l

end Definition

/-- The versions in front of the first `(` that is not closed. -/
def bodyVersions : List BodyLine → List (Option Str × Option Str)
  | [] => []
  | .skipped _ :: body => bodyVersions body
  | .version _ arch _ vers :: body => (arch, vers) :: bodyVersions body
  | .unclosed _ _ :: _ => []

/-- Each `(` is closed. -/
def BodyClosed (body : List BodyLine) : Prop :=
  ∀ l ∈ body, match l with
    | .unclosed _ _ => False
    | _ => True

namespace Definition

def versions (d : Definition) : List (Option Str × Option Str) := bodyVersions d.body

def Closed (d : Definition) : Prop := BodyClosed d.body

/-- The dependency that is defined, with the versions in front of a `(` that is not closed. -/
def dependency (d : Definition) : Dependency := ⟨d.type, d.abbr, d.name, d.versions⟩

end Definition

inductive DepItem
  | skipped (l : Str)
  | definition (d : Definition)

def DepItem.lines : DepItem → List Str
  | .skipped l => [l]
  | .definition d => d.lines

def DepItem.Valid : DepItem → Prop
  | .skipped l => IsSkipped l ∧ ShortLine l
  | .definition d => d.Valid

/-- Lines with a newline between them: an empty last line stands for a newline at the end. -/
def joinLines (ls : List Str) : Str := ['\n'].intercalate ls

def itemLines (items : List DepItem) : List Str := items.flatMap (·.lines)

def depFile (items : List DepItem) : Str := joinLines (itemLines items)

def definitions (items : List DepItem) : List Definition :=
  items.filterMap fun
    | .skipped _ => none
    | .definition d => some d

/-- The callers handle each definition once and in its order with all of its versions, and no
definition with a `(` that is not closed. -/
def ReadsDepend (items : List DepItem) (deps : List Dependency) : Prop :=
  ((∀ d ∈ definitions items, d.Closed) → deps = (definitions items).map (·.dependency)) ∧
    ∀ front d back, definitions items = front ++ d :: back → (∀ e ∈ front, e.Closed) →
      ¬ d.Closed → ¬ front.map (·.dependency) ++ [d.dependency] <+: deps

section Lines
variable {l eol : Str} {ls : List Str} {found found' : Int} {g g' : DepState} {fuel : Nat}

theorem joinLines_singleton (l : Str) : joinLines [l] = l := by
  rw [joinLines, List.intercalate_singleton]

theorem joinLines_cons (hne : ls ≠ []) (l : Str) :
    joinLines (l :: ls) = l ++ '\n' :: joinLines ls := by
  rw [joinLines, List.intercalate_cons_of_ne_nil hne, List.append_assoc, List.singleton_append,
    joinLines]

theorem head?_joinLines (c : Char) (l : Str) (ls : List Str) :
    (joinLines ((c :: l) :: ls)).head? = some c := by
  by_cases hne : ls = []
  · subst hne
    rw [joinLines_singleton, List.head?_cons]
  · rw [joinLines_cons hne, List.cons_append, List.head?_cons]

theorem length_joinLines_le (l : Str) (ls : List Str) :
    l.length + (joinLines ls).length ≤ (joinLines (l :: ls)).length := by
  by_cases hne : ls = []
  · subst hne
    rw [joinLines_singleton]
    exact Nat.le_refl _
  · rw [joinLines_cons hne, List.length_append, List.length_cons]
    omega

theorem length_joinLines_append_le (ks ls : List Str) :
    (joinLines ls).length ≤ (joinLines (ks ++ ls)).length := by
  induction ks with
  | nil => exact Nat.le_refl _
  | cons k ks ih => exact (ih.trans (Nat.le_add_left _ _)).trans (length_joinLines_le k _)

theorem ShortLine.notMem (h : ShortLine l) : '\n' ∉ l := fun hm => (h.plain _ hm).1 rfl

theorem ShortLine.takeWhile (h : ShortLine l) (heol : eol = [] ∨ eol = ['\n']) :
    (l ++ eol).takeWhile (· ≠ nul) = l ++ eol := by
  rw [List.takeWhile_eq_self_iff]
  intro c hc
  rw [decide_eq_true_iff]
  rcases List.mem_append.mp hc with hc | hc
  · exact (h.plain c hc).2
  · obtain rfl | rfl := heol
    · cases hc
    · rw [List.mem_singleton.mp hc]
      decide

theorem depLine_empty (heol : eol = [] ∨ eol = ['\n']) :
    depLine found g eol = some (.ok (found, g)) := by
  obtain rfl | rfl := heol
  · rfl
  · rfl

/-- The end of a line that filled the buffer is read as an empty line. -/
theorem getlineLoop_newline (s : Str) :
    getlineLoop (fuel + 1) found g ('\n' :: s) = getlineLoop fuel found g s := by
  have hfgets : fgets depLineSize ('\n' :: s) = some (['\n'], s) := rfl
  rw [getlineLoop, if_neg (fun h => Bool.false_ne_true h.2), hfgets]
  simp only
  rw [show ['\n'].takeWhile (fun c : Char => decide (c ≠ nul)) = ['\n'] from rfl,
    depLine_empty (.inr rfl)]

/-- The loop reads a line and does what its body does for the line and its end. -/
theorem getlineLoop_read (fuel : Nat) (hl : ShortLine l) (hne : joinLines (l :: ls) ≠ [])
    (hstay : ¬ (0 ≤ found ∧ l.head?.any (! isspace ·))) :
    ∃ eol file, (eol = [] ∨ eol = ['\n']) ∧
      (file = joinLines ls ∨ file = '\n' :: joinLines ls) ∧
      file.length < (joinLines (l :: ls)).length ∧
      getlineLoop (fuel + 1) found g (joinLines (l :: ls)) =
        match depLine found g (l ++ eol) with
        | none => none
        | some (.error ret) => some (ret, g, file)
        | some (.ok (found, g)) => getlineLoop fuel found g file := by
  have hbuf : depLineSize - 1 = 255 := rfl
  have hshort : l.length ≤ 255 := Nat.le_of_lt_succ hl.short
  have hfgets {s t u : Str} (hs : s ≠ []) (h : takeLine 255 s = (t, u)) :
      fgets depLineSize s = some (t, u) := by rw [fgets, if_neg hs, hbuf, h]
  have hplain := hl.takeWhile (.inl rfl)
  rw [List.append_nil] at hplain
  by_cases hls : ls = []
  · subst hls
    rw [joinLines_singleton] at hne ⊢
    refine ⟨[], [], .inl rfl, .inl rfl, List.length_pos_iff.mpr hne, ?_⟩
    rw [getlineLoop, if_neg hstay, hfgets hne (takeLine_short hl.notMem hshort)]
    simp only [hplain, List.append_nil]
  · rw [joinLines_cons hls] at hne ⊢
    have hhead : ¬ (0 ≤ found ∧ (l ++ '\n' :: joinLines ls).head?.any (! isspace ·)) := by
      cases l with
      | nil => exact fun h => Bool.false_ne_true h.2
      | cons c l => exact hstay
    rw [getlineLoop, if_neg hhead, List.length_append, List.length_cons]
    by_cases hlt : l.length < 255
    · refine ⟨['\n'], joinLines ls, .inr rfl, .inl rfl, by omega, ?_⟩
      rw [hfgets hne (takeLine_line hl.notMem hlt _)]
      simp only [hl.takeWhile (.inr rfl)]
    · have hlen : 255 = l.length := by omega
      refine ⟨[], _, .inl rfl, .inr rfl, ?_, ?_⟩
      · rw [List.length_cons]
        omega
      · have htake := takeLine_full hl.notMem ('\n' :: joinLines ls)
        rw [← hlen] at htake
        rw [hfgets hne htake]
        simp only [hplain, List.append_nil]

theorem getlineLoop_line (hl : ShortLine l) (hfuel : (joinLines (l :: ls)).length < fuel)
    (hstay : ¬ (0 ≤ found ∧ l.head?.any (! isspace ·)))
    (hstep : ∀ eol, eol = [] ∨ eol = ['\n'] →
      depLine found g (l ++ eol) = some (.ok (found', g'))) :
    ∃ fuel', (joinLines ls).length < fuel' ∧
      getlineLoop fuel found g (joinLines (l :: ls)) =
        getlineLoop fuel' found' g' (joinLines ls) := by
  obtain ⟨fuel, rfl⟩ : ∃ k, fuel = k + 1 := ⟨fuel - 1, by omega⟩
  by_cases hne : joinLines (l :: ls) = []
  · -- An empty last line is the end of the file.
    have hls : ls = [] := by
      by_contra h
      rw [joinLines_cons h] at hne
      exact absurd hne (by simp)
    subst hls
    rw [joinLines_singleton] at hne
    subst hne
    obtain ⟨rfl, rfl⟩ : found = found' ∧ g = g' := by
      have h := hstep [] (.inl rfl)
      rw [List.append_nil, depLine_empty (.inl rfl)] at h
      cases h
      exact ⟨rfl, rfl⟩
    exact ⟨fuel + 1, Nat.succ_pos _, rfl⟩
  · obtain ⟨eol, file, heol, hfile, hlen, hread⟩ := getlineLoop_read fuel hl hne hstay
    rw [hread, hstep eol heol]
    obtain rfl | rfl := hfile
    · exact ⟨fuel, by omega, rfl⟩
    · rw [List.length_cons] at hlen
      obtain ⟨fuel, rfl⟩ : ∃ k, fuel = k + 1 := ⟨fuel - 1, by omega⟩
      exact ⟨fuel, by omega, getlineLoop_newline _⟩

theorem dropWhile_line (heol : eol = [] ∨ eol = ['\n']) (l : Str) :
    (l ++ eol).dropWhile isspace =
      if l.dropWhile isspace = [] then [] else l.dropWhile isspace ++ eol := by
  have hend : eol.dropWhile isspace = [] := by
    obtain rfl | rfl := heol
    · rfl
    · rfl
  rw [List.dropWhile_append, hend]
  simp only [List.isEmpty_iff]

theorem depLine_skipped (h : IsSkipped l) (heol : eol = [] ∨ eol = ['\n']) :
    depLine found g (l ++ eol) = some (.ok (found, g)) := by
  rw [depLine, dropWhile_line heol, if_pos]
  by_cases hnil : l.dropWhile isspace = []
  · exact .inl (if_pos hnil)
  · obtain h | h := h
    · exact absurd h hnil
    · right
      rw [if_neg hnil, List.head?_append, h]
      rfl

theorem getlineLoop_skipped (found : Int) (g : DepState) (h : IsSkipped l) (hl : ShortLine l)
    (hfuel : (joinLines (l :: ls)).length < fuel)
    (hstay : ¬ (0 ≤ found ∧ l.head?.any (! isspace ·))) :
    ∃ fuel', (joinLines ls).length < fuel' ∧
      getlineLoop fuel found g (joinLines (l :: ls)) = getlineLoop fuel' found g (joinLines ls) :=
  getlineLoop_line hl hfuel hstay fun _ => depLine_skipped h

theorem dropWhile_blanks {b s : Str} (hb : Blanks b) (hs : ∀ c ∈ s.head?, isspace c = false) :
    (b ++ s).dropWhile isspace = s := by
  rw [List.dropWhile_append_of_pos hb]
  cases s with
  | nil => rfl
  | cons c s => exact List.dropWhile_cons_of_neg (by rw [hs c rfl]; decide)

theorem takeWhile_newline {s : Str} (hs : '\n' ∉ s) (heol : eol = [] ∨ eol = ['\n']) :
    (s ++ eol).takeWhile (· ≠ '\n') = s := by
  have hne : ∀ c ∈ s, decide (c ≠ '\n') = true := by
    intro c hc
    rw [decide_eq_true_iff]
    rintro rfl
    exact hs hc
  rw [List.takeWhile_append_of_pos hne]
  obtain rfl | rfl := heol
  · rw [List.takeWhile_nil, List.append_nil]
  · rw [List.takeWhile_cons_of_neg (by decide), List.append_nil]

theorem readVersion_eq {b : Str} {v : Option Str} (hb : Blanks b)
    (hv : ∀ s ∈ v, (∃ c t, s = c :: t ∧ isspace c = false) ∧ '\n' ∉ s)
    (heol : eol = [] ∨ eol = ['\n']) : readVersion (b ++ v.getD [] ++ eol) = v := by
  rw [readVersion, dropWhile_line heol]
  cases v with
  | none =>
    have hnil : ∀ c ∈ ([] : Str).head?, isspace c = false := fun c h =>
      absurd h (Option.not_mem_none c)
    rw [Option.getD_none, dropWhile_blanks hb hnil]
    rfl
  | some s =>
    obtain ⟨⟨c, t, rfl, hc⟩, hs⟩ := hv s rfl
    have hhead : ∀ d ∈ (c :: t).head?, isspace d = false := by
      rintro d ⟨⟩
      exact hc
    rw [Option.getD_some, dropWhile_blanks hb hhead,
      if_neg (List.cons_ne_nil _ _), takeWhile_newline hs heol]
    rfl

theorem depLine_head {d : Definition} (h : d.Valid) (heol : eol = [] ∨ eol = ['\n']) :
    depLine found g (d.head ++ eol) =
      some (.ok (found + 1, { g with type := d.type, abbr := d.abbr, name := d.name })) := by
  have hdrop : (d.head ++ eol).dropWhile isspace = d.head ++ eol :=
    List.dropWhile_cons_of_neg (by rw [h.type.1]; decide)
  have hmem : '\n' ∉ d.head := (h.short d.head List.mem_cons_self).notMem
  have hname : '\n' ∉ d.name := fun hm => hmem (by simp [Definition.head, hm])
  have habbr : ∀ c ∈ (d.abbr ++ (d.gap' ++ (d.name ++ eol))).head?, isspace c = false := by
    obtain ⟨c, s, hcs⟩ := List.exists_cons_of_ne_nil h.abbr.1
    intro e he
    rw [hcs] at he
    exact Option.some.inj he ▸ h.abbr.2.2 c (hcs ▸ List.mem_cons_self)
  -- The abbreviation ends at white space or with the line.
  have hbreak : (d.gap' ++ (d.name ++ eol)).takeWhile (! isspace ·) = [] := by
    rcases hg : d.gap' with _ | ⟨c, s⟩
    · have hnil : d.name = [] := by_contra fun hne => h.gap'.1 hne hg
      rw [hnil]
      obtain rfl | rfl := heol
      · rfl
      · rfl
    · have hc : isspace c := h.gap'.2 c (hg ▸ List.mem_cons_self)
      exact List.takeWhile_cons_of_neg (by rw [hc]; decide)
  have htake : (d.abbr ++ (d.gap' ++ (d.name ++ eol))).takeWhile (! isspace ·) = d.abbr := by
    rw [List.takeWhile_append_of_pos fun c hc => by rw [h.abbr.2.2 c hc]; rfl, hbreak,
      List.append_nil]
  have hrest : ((d.gap' ++ (d.name ++ eol)).dropWhile isspace).takeWhile (· ≠ '\n') = d.name := by
    rw [← List.append_assoc, dropWhile_line heol, dropWhile_blanks h.gap'.2 h.name.2]
    by_cases hnil : d.name = []
    · rw [if_pos hnil, hnil]
      rfl
    · rw [if_neg hnil, takeWhile_newline hname heol]
  have hscan : scanDefinition (d.head ++ eol) = some (d.type, d.abbr, d.name) := by
    have happ : d.head ++ eol = d.type :: (d.gap ++ (d.abbr ++ (d.gap' ++ (d.name ++ eol)))) := by
      simp [Definition.head]
    rw [happ, scanDefinition]
    simp only [dropWhile_blanks h.gap.2 habbr, htake, List.take_of_length_le h.abbr.2.1,
      if_neg h.abbr.1, List.drop_left, hrest, if_pos h.name.1]
  have hne : ¬ (d.head ++ eol = [] ∨ (d.head ++ eol).head? = some '#') := by
    rintro (h' | h')
    · cases h'
    · exact h.type.2 (Option.some.inj h')
  rw [depLine]
  simp only [hdrop]
  rw [if_neg hne, if_pos trivial, hscan]
  rfl

theorem depLine_indented {line s : Str} {n : Nat} (hdrop : line.dropWhile isspace = c :: s)
    (hc : isspace c = false ∧ c ≠ '#') (hline : ∀ d ∈ line.head?, isspace d) :
    depLine n g line =
      match readArch (c :: s) with
      | none => some (.error (-1))
      | some (arch, pt) =>
        (storeVersion g.alist n arch).bind fun alist =>
        (storeVersion g.vlist n (readVersion pt)).map fun vlist =>
        .ok (n + 1, { g with alist, vlist, nlist := g.nlist + 1 }) := by
  have hne : ¬ (c :: s = [] ∨ (c :: s).head? = some '#') := by
    rintro (h | h)
    · cases h
    · exact hc.2 (Option.some.inj h)
  have hindent : c :: s ≠ line := by
    intro h
    have hspace := hline c (by rw [← h]; rfl)
    rw [hc.1] at hspace
    cases hspace
  have hpos : ¬ (n : Int) < 0 := by omega
  rw [depLine]
  simp only [hdrop]
  rw [if_neg hne, if_neg hindent, if_neg hpos, Int.toNat_natCast]

theorem head?_blanks {b s : Str} (hne : b ≠ []) (hb : Blanks b) :
    ∀ c ∈ (b ++ s).head?, isspace c := by
  obtain ⟨c, b, rfl⟩ := List.exists_cons_of_ne_nil hne
  rintro d ⟨⟩
  exact hb c List.mem_cons_self

theorem readArch_closed {a s : Str} (ha : ')' ∉ a) :
    readArch ('(' :: (a ++ ')' :: s)) = some (some a, s) := by
  have hne : ∀ c ∈ '(' :: a, decide (c ≠ ')') = true := by
    intro c hc
    rw [decide_eq_true_iff]
    rintro rfl
    rcases List.mem_cons.mp hc with h | h
    · cases h
    · exact ha h
  rw [readArch, List.head?_cons, if_pos rfl, if_pos (by simp), ← List.cons_append,
    List.takeWhile_append_of_pos hne, List.dropWhile_append_of_pos hne,
    List.takeWhile_cons_of_neg (by decide), List.dropWhile_cons_of_neg (by decide)]
  simp

theorem depLine_version {indent gap : Str} {arch vers : Option Str} {n : Nat}
    (h : (BodyLine.version indent arch gap vers).Valid)
    (hl : ShortLine (BodyLine.version indent arch gap vers).text)
    (heol : eol = [] ∨ eol = ['\n']) :
    depLine n g ((BodyLine.version indent arch gap vers).text ++ eol) =
      (storeVersion g.alist n arch).bind fun alist =>
      (storeVersion g.vlist n vers).map fun vlist =>
      .ok (n + 1, { g with alist, vlist, nlist := g.nlist + 1 }) := by
  obtain ⟨hne, hindent, hgap, harch, hvers, hsome⟩ := h
  have hmem := hl.notMem
  have hv : ∀ s ∈ vers, (∃ c t, s = c :: t ∧ isspace c = false) ∧ '\n' ∉ s := by
    intro s hs
    obtain ⟨c, t, hct, hc, -⟩ := hvers s hs
    refine ⟨⟨c, t, hct, hc⟩, fun hm => hmem ?_⟩
    rw [Option.mem_def] at hs
    simp [BodyLine.text, hs, hm]
  have hhead {s : Str} : ∀ c ∈ (indent ++ s).head?, isspace c := head?_blanks hne hindent
  cases arch with
  | some a =>
    have happ : (BodyLine.version indent (some a) gap vers).text ++ eol =
        indent ++ '(' :: (a ++ ')' :: (gap ++ vers.getD [] ++ eol)) := by
      simp [BodyLine.text]
    have hparen {s : Str} : ∀ c ∈ ('(' :: s).head?, isspace c = false := by
      rintro c ⟨⟩
      rfl
    rw [happ, depLine_indented (dropWhile_blanks hindent hparen) (by decide) hhead,
      readArch_closed (harch a rfl)]
    simp only [readVersion_eq hgap hv heol]
  | none =>
    obtain ⟨v, rfl⟩ := Option.ne_none_iff_exists'.mp (hsome rfl)
    obtain ⟨c, t, rfl, hc, hplain⟩ := hvers v rfl
    obtain ⟨hhash, hparen⟩ := hplain rfl
    have happ : (BodyLine.version indent none gap (some (c :: t))).text ++ eol =
        (indent ++ gap) ++ c :: (t ++ eol) := by
      simp [BodyLine.text]
    have hblanks : Blanks (indent ++ gap) := fun d hd =>
      (List.mem_append.mp hd).elim (hindent d) (hgap d)
    have hfirst {s : Str} : ∀ d ∈ (c :: s).head?, isspace d = false := by
      rintro d ⟨⟩
      exact hc
    have harch : readArch (c :: (t ++ eol)) = some (none, c :: (t ++ eol)) :=
      if_neg fun h => hparen (Option.some.inj h)
    have hvers : readVersion (c :: (t ++ eol)) = some (c :: t) :=
      readVersion_eq (b := []) (fun _ h => absurd h List.not_mem_nil) hv heol
    rw [happ, depLine_indented (dropWhile_blanks hblanks hfirst) ⟨hc, hhash⟩
      (by rw [List.append_assoc]; exact hhead), harch]
    simp only [hvers]

/-- An architecture that is not closed makes `getline` return a value that is not zero. -/
theorem depLine_unclosed {indent s : Str} {n : Nat} (h : (BodyLine.unclosed indent s).Valid)
    (heol : eol = [] ∨ eol = ['\n']) :
    depLine n g ((BodyLine.unclosed indent s).text ++ eol) = some (.error (-1)) := by
  obtain ⟨hne, hindent, hs⟩ := h
  have hparen {s : Str} : ∀ c ∈ ('(' :: s).head?, isspace c = false := by
    rintro c ⟨⟩
    rfl
  have harch : readArch ('(' :: (s ++ eol)) = none := by
    rw [readArch, List.head?_cons, if_pos rfl, if_neg]
    intro hm
    rcases List.mem_cons.mp hm with h | hm
    · cases h
    · rcases List.mem_append.mp hm with h | h
      · exact hs h
      · obtain rfl | rfl := heol
        · cases h
        · exact absurd (List.mem_singleton.mp h) (by decide)
  rw [BodyLine.text, List.append_assoc, List.cons_append,
    depLine_indented (dropWhile_blanks hindent hparen) (by decide) (head?_blanks hne hindent),
      harch]

end Lines

def DepState.reading (type : Char) (abbr name : Str) (ps : List (Option Str × Option Str)) :
    DepState :=
  let unused := List.replicate (NVERS - ps.length) none
  ⟨type, abbr, name, ps.map (·.1) ++ unused, ps.map (·.2) ++ unused, ps.length⟩

section Reading
variable {type : Char} {abbr name : Str} {ps : List (Option Str × Option Str)}

theorem dependency_reading :
    (DepState.reading type abbr name ps).dependency = ⟨type, abbr, name, ps⟩ := by
  have hzip : (ps.map (·.1)).zip (ps.map (·.2)) = ps := by
    rw [List.zip_map', List.map_id'']
    exact fun p => rfl
  rw [DepState.dependency, DepState.reading]
  simp only
  rw [List.zip_append (by simp), hzip, List.take_left]

theorem storeVersion_reading (f : Option Str × Option Str → Option Str)
    (p : Option Str × Option Str) (h : ps.length < NVERS) :
    storeVersion (ps.map f ++ List.replicate (NVERS - ps.length) none) ps.length (f p) =
      some ((ps ++ [p]).map f ++ List.replicate (NVERS - (ps ++ [p]).length) none) := by
  obtain ⟨k, hk⟩ : ∃ k, NVERS - ps.length = k + 1 := ⟨NVERS - ps.length - 1, by omega⟩
  have hk' : NVERS - (ps ++ [p]).length = k := by
    rw [List.length_append, List.length_singleton]
    omega
  rw [hk, hk', List.replicate_succ, List.map_append, List.map_singleton, List.append_assoc,
    List.singleton_append]
  cases f p with
  | none => rfl
  | some s =>
    rw [storeVersion, if_pos (by simp), List.set_append_right _ _ (by rw [List.length_map]),
      List.length_map, Nat.sub_self, List.set_cons_zero]

theorem storeVersion_full (f : Option Str × Option Str → Option Str) (s : Str)
    (h : NVERS ≤ ps.length) :
    storeVersion (ps.map f ++ List.replicate (NVERS - ps.length) none) ps.length (some s) =
      none := by
  rw [storeVersion, if_neg]
  rw [List.length_append, List.length_map, List.length_replicate]
  omega

theorem freeVersions_reading (f : Option Str × Option Str → Option Str) (h : ps.length ≤ NVERS) :
    freeVersions ps.length (ps.map f ++ List.replicate (NVERS - ps.length) none) =
      List.replicate NVERS none := by
  rw [List.eq_replicate_iff]
  constructor
  · rw [freeVersions, List.length_mapIdx, List.length_append, List.length_map,
      List.length_replicate]
    omega
  · intro s hs
    obtain ⟨i, hi, rfl⟩ := List.mem_mapIdx.mp hs
    by_cases hlt : i < ps.length
    · exact if_pos (.inl hlt)
    · rw [List.getElem_append_right (by rw [List.length_map]; omega), List.getElem_replicate,
        ite_self]

theorem getline_reading (h : ps.length ≤ NVERS) (file : Str) :
    getline (.reading type abbr name ps) file =
      getlineLoop (file.length + 1) (-1) (.reading nul [] [] []) file := by
  rw [getline, DepState.reading]
  simp only
  rw [freeVersions_reading _ h, freeVersions_reading _ h]
  rfl

end Reading

section Body
variable {type : Char} {abbr name : Str} {ps : List (Option Str × Option Str)} {ls : List Str}
  {body : List BodyLine} {fuel : Nat}

theorem stay_of_space {l : Str} {found : Int} (h : ∀ c ∈ l.head?, isspace c) :
    ¬ (0 ≤ found ∧ l.head?.any (! isspace ·)) := by
  rintro ⟨-, hany⟩
  cases l with
  | nil => cases hany
  | cons c l =>
    have hc : (! isspace c) = true := hany
    rw [h c rfl] at hc
    cases hc

theorem BodyLine.Valid.head {l : BodyLine} (h : l.Valid) : ∀ c ∈ l.text.head?, isspace c := by
  cases l with
  | skipped l => exact h.2
  | version indent arch gap vers => exact head?_blanks h.1 h.2.1
  | unclosed indent s => exact head?_blanks h.1 h.2.1

theorem BodyLine.text_ne_nil (indent s : Str) : (BodyLine.unclosed indent s).text ≠ [] := by
  simp [BodyLine.text]

theorem joinLines_ne_nil {l : Str} (hne : l ≠ []) (ls : List Str) : joinLines (l :: ls) ≠ [] := by
  have hlen := length_joinLines_le l ls
  have hpos := List.length_pos_iff.mpr hne
  exact List.length_pos_iff.mp (by omega)

/-- A line with a version: it is stored if there is room, and else the store is not defined. -/
theorem getlineLoop_version (type : Char) (abbr name : Str) {indent gap : Str}
    {arch vers : Option Str}
    (h : (BodyLine.version indent arch gap vers).Valid)
    (hl : ShortLine (BodyLine.version indent arch gap vers).text)
    (hfuel : (joinLines ((BodyLine.version indent arch gap vers).text :: ls)).length < fuel) :
    (ps.length = NVERS → getlineLoop fuel ps.length (.reading type abbr name ps)
      (joinLines ((BodyLine.version indent arch gap vers).text :: ls)) = none) ∧
    (ps.length < NVERS → ∃ fuel', (joinLines ls).length < fuel' ∧
      getlineLoop fuel ps.length (.reading type abbr name ps)
        (joinLines ((BodyLine.version indent arch gap vers).text :: ls)) =
      getlineLoop fuel' (ps ++ [(arch, vers)]).length
        (.reading type abbr name (ps ++ [(arch, vers)])) (joinLines ls)) := by
  constructor
  · intro hfull
    obtain ⟨fuel, rfl⟩ : ∃ k, fuel = k + 1 := ⟨fuel - 1, by omega⟩
    have hne : (BodyLine.version indent arch gap vers).text ≠ [] := by simp [BodyLine.text, h.1]
    obtain ⟨eol, file, heol, -, -, hread⟩ := getlineLoop_read fuel hl
      (joinLines_ne_nil hne ls) (stay_of_space h.head)
    rw [hread, depLine_version h hl heol]
    cases arch with
    | some a =>
      have halist := storeVersion_full (·.1) a (Nat.le_of_eq hfull.symm)
      simp only [DepState.reading, halist, Option.bind_none]
    | none =>
      obtain ⟨v, rfl⟩ := Option.ne_none_iff_exists'.mp (h.2.2.2.2.2 rfl)
      have hvlist := storeVersion_full (·.2) v (Nat.le_of_eq hfull.symm)
      have halist (l : List (Option Str)) (n : Nat) : storeVersion l n none = some l := rfl
      simp only [DepState.reading, halist, hvlist, Option.bind_some, Option.map_none]
  · intro hroom
    refine getlineLoop_line hl hfuel (stay_of_space h.head) fun eol heol => ?_
    have halist := storeVersion_reading (·.1) (arch, vers) hroom
    have hvlist := storeVersion_reading (·.2) (arch, vers) hroom
    rw [depLine_version h hl heol]
    simp only [DepState.reading, halist, hvlist, Option.bind_some, Option.map_some]
    simp

theorem bodyClosed_cons {l : BodyLine} (h : ∀ indent s, l ≠ .unclosed indent s) :
    BodyClosed (l :: body) ↔ BodyClosed body := by
  rw [BodyClosed, List.forall_mem_cons, and_iff_right, BodyClosed]
  cases l with
  | skipped l => trivial
  | version indent arch gap vers => trivial
  | unclosed indent s => exact absurd rfl (h indent s)

/-- The lines of a definition: there is no room for more than `NVERS` versions, and otherwise they
are read up to a `(` that is not closed. -/
theorem getlineLoop_body (type : Char) (abbr name : Str)
    (ps : List (Option Str × Option Str)) (hbody : ∀ l ∈ body, l.Valid ∧ ShortLine l.text)
    (hps : ps.length ≤ NVERS)
    (hfuel : (joinLines (body.map (·.text) ++ ls)).length < fuel) :
    (NVERS < (ps ++ bodyVersions body).length →
      getlineLoop fuel ps.length (.reading type abbr name ps)
        (joinLines (body.map (·.text) ++ ls)) = none) ∧
    ((ps ++ bodyVersions body).length ≤ NVERS → BodyClosed body →
      ∃ fuel', (joinLines ls).length < fuel' ∧
        getlineLoop fuel ps.length (.reading type abbr name ps)
          (joinLines (body.map (·.text) ++ ls)) =
        getlineLoop fuel' (ps ++ bodyVersions body).length
          (.reading type abbr name (ps ++ bodyVersions body)) (joinLines ls)) ∧
    ((ps ++ bodyVersions body).length ≤ NVERS → ¬ BodyClosed body →
      ∃ rest, getlineLoop fuel ps.length (.reading type abbr name ps)
        (joinLines (body.map (·.text) ++ ls)) =
        some (-1, .reading type abbr name (ps ++ bodyVersions body), rest)) := by
  induction body generalizing ps fuel with
  | nil =>
    rw [bodyVersions, List.append_nil]
    refine ⟨fun h => absurd hps (Nat.not_le_of_lt h), fun _ _ => ⟨fuel, hfuel, rfl⟩, fun _ h => ?_⟩
    exact absurd (fun l hl => absurd hl List.not_mem_nil) h
  | cons l body ih =>
    obtain ⟨⟨hvalid, hshort⟩, hrest⟩ := List.forall_mem_cons.mp hbody
    rw [List.map_cons, List.cons_append] at hfuel ⊢
    cases l with
    | skipped l =>
      rw [show (BodyLine.skipped l).text = l from rfl] at hfuel hshort ⊢
      obtain ⟨fuel', hfuel', hline⟩ := getlineLoop_skipped ps.length
        (.reading type abbr name ps) hvalid.1 hshort hfuel (stay_of_space hvalid.head)
      rw [hline, bodyVersions, bodyClosed_cons (by rintro _ _ ⟨⟩)]
      exact ih ps hrest hps hfuel'
    | version indent arch gap vers =>
      obtain ⟨hfull, hroom⟩ := getlineLoop_version type abbr name hvalid hshort hfuel
      rw [bodyVersions, bodyClosed_cons (by rintro _ _ ⟨⟩), ← List.singleton_append,
        ← List.append_assoc]
      by_cases hlt : ps.length < NVERS
      · obtain ⟨fuel', hfuel', hline⟩ := hroom hlt
        have hps' : (ps ++ [(arch, vers)]).length ≤ NVERS := by
          rw [List.length_append, List.length_singleton]
          omega
        rw [hline]
        exact ih _ hrest hps' hfuel'
      · have heq : ps.length = NVERS := by omega
        have hmore : ¬ (ps ++ [(arch, vers)] ++ bodyVersions body).length ≤ NVERS := by
          rw [List.length_append, List.length_append, List.length_singleton]
          omega
        exact ⟨fun _ => hfull heq, fun h => absurd h hmore, fun h => absurd h hmore⟩
    | unclosed indent s =>
      have hopen : ¬ BodyClosed (.unclosed indent s :: body) := fun h => h _ List.mem_cons_self
      rw [bodyVersions, List.append_nil]
      refine ⟨fun h => absurd hps (Nat.not_le_of_lt h), fun _ h => absurd h hopen, fun _ _ => ?_⟩
      obtain ⟨fuel, rfl⟩ : ∃ k, fuel = k + 1 := ⟨fuel - 1, by omega⟩
      have hne := joinLines_ne_nil (BodyLine.text_ne_nil indent s) (body.map (·.text) ++ ls)
      obtain ⟨eol, file, heol, -, -, hread⟩ := getlineLoop_read fuel hshort hne
        (stay_of_space hvalid.head)
      rw [hread, depLine_unclosed hvalid heol]
      exact ⟨file, rfl⟩

end Body

section Items
variable {items : List DepItem} {g : DepState} {fuel : Nat}

/-- Behind a definition, lines in its range are skipped, and the value is returned at the next
definition, at a `#` in column one or at the end of the file. -/
theorem getlineLoop_behind (g : DepState) (hitems : ∀ i ∈ items, i.Valid) (n : Nat)
    (hfuel : (depFile items).length < fuel) :
    ∃ items', (∀ i ∈ items', i.Valid) ∧ definitions items' = definitions items ∧
      (depFile items').length ≤ (depFile items).length ∧
      getlineLoop fuel n g (depFile items) =
        some (1, g, depFile items') := by
  induction items generalizing fuel with
  | nil =>
    obtain ⟨fuel, rfl⟩ : ∃ k, fuel = k + 1 := ⟨fuel - 1, by omega⟩
    refine ⟨[], hitems, rfl, Nat.le_refl _, ?_⟩
    have hnil : depFile [] = [] := rfl
    have hpos : (0 : Int) ≤ n := by omega
    rw [hnil, getlineLoop, if_neg (fun h => Bool.false_ne_true h.2)]
    simp only [fgets, if_true, hpos]
  | cons i items ih =>
    by_cases hstay : (depFile (i :: items)).head?.any (! isspace ·)
    · obtain ⟨fuel, rfl⟩ : ∃ k, fuel = k + 1 := ⟨fuel - 1, by omega⟩
      refine ⟨i :: items, hitems, rfl, Nat.le_refl _, ?_⟩
      rw [getlineLoop, if_pos ⟨by omega, hstay⟩]
    · cases i with
      | skipped l =>
        obtain ⟨⟨hskipped, hshort⟩, hrest⟩ := List.forall_mem_cons.mp hitems
        have hl : ¬ ((0 : Int) ≤ n ∧ l.head?.any (! isspace ·)) := by
          rintro ⟨-, h⟩
          refine hstay ?_
          cases l with
          | nil => cases h
          | cons c l => exact (congrArg _ (head?_joinLines c l _)).trans h
        obtain ⟨fuel', hfuel', hline⟩ := getlineLoop_skipped n g hskipped hshort hfuel hl
        obtain ⟨items', hvalid, hdefs, hlen, hrun⟩ := ih hrest hfuel'
        refine ⟨items', hvalid, hdefs, hlen.trans ?_, hline.trans hrun⟩
        exact (Nat.le_add_left _ _).trans (length_joinLines_le l _)
      | definition d =>
        have hd : d.Valid := hitems _ List.mem_cons_self
        refine absurd ?_ hstay
        have htype : (! isspace d.type) = true := by rw [hd.type.1]; rfl
        exact (congrArg _ (head?_joinLines d.type _ _)).trans htype

theorem getlineLoop_nil (found : Int) :
    getlineLoop (fuel + 1) found g [] = some (if 0 ≤ found then 1 else 0, g, []) := by
  rw [getlineLoop, if_neg fun h => Bool.false_ne_true h.2]
  rfl

theorem getlineLoop_search (g : DepState) (hitems : ∀ i ∈ items, i.Valid)
    (hfuel : (depFile items).length < fuel) :
    (definitions items = [] → ∃ rest, getlineLoop fuel (-1) g (depFile items) =
      some (0, g, rest)) ∧
    (∀ d ds, definitions items = d :: ds → d.Valid ∧ ∃ items' fuel',
      (∀ i ∈ items', i.Valid) ∧ definitions items' = ds ∧
      (depFile items').length < (depFile items).length ∧
      (joinLines (d.body.map (·.text) ++ itemLines items')).length < fuel' ∧
      getlineLoop fuel (-1) g (depFile items) =
        getlineLoop fuel' 0 { g with type := d.type, abbr := d.abbr, name := d.name }
          (joinLines (d.body.map (·.text) ++ itemLines items'))) := by
  induction items generalizing fuel with
  | nil =>
    obtain ⟨fuel, rfl⟩ : ∃ k, fuel = k + 1 := ⟨fuel - 1, by omega⟩
    exact ⟨fun _ => ⟨[], getlineLoop_nil _⟩, fun d ds h => absurd h nofun⟩
  | cons i items ih =>
    obtain ⟨hi, hrest⟩ := List.forall_mem_cons.mp hitems
    have hstay {l : Str} : ¬ ((0 : Int) ≤ -1 ∧ l.head?.any (! isspace ·)) := fun h =>
      absurd h.1 (by decide)
    cases i with
    | skipped l =>
      obtain ⟨fuel', hfuel', hline⟩ := getlineLoop_skipped (-1) g hi.1 hi.2 hfuel hstay
      obtain ⟨hnone, hsome⟩ := ih hrest hfuel'
      have hdefs : definitions (.skipped l :: items) = definitions items := rfl
      have hle : (depFile items).length ≤
          (depFile (.skipped l :: items)).length :=
        (Nat.le_add_left _ _).trans (length_joinLines_le l _)
      have hlines : depFile (.skipped l :: items) =
        joinLines (l :: itemLines items) := rfl
      rw [hdefs]
      constructor
      · intro h
        obtain ⟨rest, hrun⟩ := hnone h
        exact ⟨rest, hline.trans hrun⟩
      · intro d ds h
        obtain ⟨hd, items', fuel'', hvalid, hds, hlt, hfuel'', hrun⟩ := hsome d ds h
        exact ⟨hd, items', fuel'', hvalid, hds, hlt.trans_le hle, hfuel'', hline.trans hrun⟩
    | definition d =>
      constructor
      · exact fun h => absurd h nofun
      · rintro d ds ⟨⟩
        have hshort : ShortLine d.head := hi.short _ List.mem_cons_self
        obtain ⟨fuel', hfuel', hline⟩ := getlineLoop_line hshort hfuel hstay fun eol heol =>
          depLine_head hi heol
        refine ⟨hi, items, fuel', hrest, rfl, ?_, hfuel', hline⟩
        have hlen := length_joinLines_le d.head (d.body.map (·.text) ++ itemLines items)
        have happ := length_joinLines_append_le (d.body.map (·.text)) (itemLines items)
        have hpos : 0 < d.head.length := Nat.succ_pos _
        show (joinLines (itemLines items)).length <
          (joinLines (d.head :: (d.body.map (·.text) ++ itemLines items))).length
        omega

end Items

section Calls
variable {items : List DepItem} {type : Char} {abbr name : Str}
  {ps : List (Option Str × Option Str)} {fuel : Nat}

/-- One call: the next definition with its versions, or nothing at the end of the file. -/
theorem getline_items (hitems : ∀ i ∈ items, i.Valid) (hps : ps.length ≤ NVERS) :
    (definitions items = [] → ∃ g rest,
      getline (.reading type abbr name ps) (depFile items) = some (0, g, rest)) ∧
    (∀ d ds, definitions items = d :: ds →
      (NVERS < d.versions.length →
        getline (.reading type abbr name ps) (depFile items) = none) ∧
      (d.versions.length ≤ NVERS → d.Closed → ∃ items', (∀ i ∈ items', i.Valid) ∧
        definitions items' = ds ∧
        (depFile items').length < (depFile items).length ∧
        getline (.reading type abbr name ps) (depFile items) =
          some (1, .reading d.type d.abbr d.name d.versions, depFile items')) ∧
      (d.versions.length ≤ NVERS → ¬ d.Closed → ∃ rest,
        getline (.reading type abbr name ps) (depFile items) =
          some (-1, .reading d.type d.abbr d.name d.versions, rest))) := by
  rw [getline_reading hps]
  obtain ⟨hnone, hsome⟩ := getlineLoop_search (.reading nul [] [] []) hitems
    (Nat.lt_succ_self _)
  constructor
  · intro h
    obtain ⟨rest, hrun⟩ := hnone h
    exact ⟨_, rest, hrun⟩
  · intro d ds h
    obtain ⟨hd, items', fuel, hvalid, hds, hlt, hfuel, hrun⟩ := hsome d ds h
    have hbody : ∀ l ∈ d.body, l.Valid ∧ ShortLine l.text := fun l hl =>
      ⟨hd.body l hl, hd.short _ (List.mem_cons_of_mem _ (List.mem_map_of_mem hl))⟩
    obtain ⟨hfull, hclosed, hopen⟩ := getlineLoop_body d.type d.abbr d.name [] hbody
      (Nat.zero_le _) hfuel
    rw [List.nil_append] at hfull hclosed hopen
    rw [hrun]
    refine ⟨hfull, fun hlen hc => ?_, hopen⟩
    obtain ⟨fuel', hfuel', hloop⟩ := hclosed hlen hc
    obtain ⟨items'', hvalid', hdefs, hle, hbehind⟩ := getlineLoop_behind
      (.reading d.type d.abbr d.name d.versions) hvalid d.versions.length hfuel'
    exact ⟨items'', hvalid', hdefs.trans hds, hle.trans_lt hlt, hloop.trans hbehind⟩

theorem dependencies_call {g g' : DepState} {file file' : Str} {ret : Int}
    (h : getline g file = some (ret, g', file')) :
    dependencies (fuel + 1) g file =
      if ret = 0 then some [] else (dependencies fuel g' file').map (g'.dependency :: ·) := by
  rw [dependencies, h]
  rfl

theorem dependencies_front {front back : List Definition} (hitems : ∀ i ∈ items, i.Valid)
    (hps : ps.length ≤ NVERS) (hdefs : definitions items = front ++ back)
    (hfront : ∀ d ∈ front, d.Closed ∧ d.versions.length ≤ NVERS)
    (hfuel : (depFile items).length < fuel) :
    ∃ items' type' abbr' name' ps' fuel', (∀ i ∈ items', i.Valid) ∧ ps'.length ≤ NVERS ∧
      definitions items' = back ∧ (depFile items').length < fuel' + 1 ∧
      dependencies fuel (.reading type abbr name ps) (depFile items) =
        (dependencies (fuel' + 1) (.reading type' abbr' name' ps') (depFile items')).map
          (front.map (·.dependency) ++ ·) := by
  induction front generalizing items type abbr name ps fuel with
  | nil =>
    obtain ⟨fuel, rfl⟩ : ∃ k, fuel = k + 1 := ⟨fuel - 1, by omega⟩
    refine ⟨items, type, abbr, name, ps, fuel, hitems, hps, hdefs, hfuel, ?_⟩
    exact Option.map_id'.symm
  | cons d front ih =>
    obtain ⟨⟨hclosed, hlen⟩, hfront⟩ := List.forall_mem_cons.mp hfront
    obtain ⟨fuel, rfl⟩ : ∃ k, fuel = k + 1 := ⟨fuel - 1, by omega⟩
    obtain ⟨items', hvalid, hdefs', hlt, hcall⟩ :=
      ((getline_items hitems hps).2 d _ hdefs).2.1 hlen hclosed
    obtain ⟨items'', type', abbr', name', ps', fuel', hvalid', hps', hback, hfuel', hrun⟩ :=
      @ih items' d.type d.abbr d.name d.versions fuel hvalid hlen hdefs' hfront (by omega)
    refine ⟨items'', type', abbr', name', ps', fuel', hvalid', hps', hback, hfuel', ?_⟩
    rw [dependencies_call hcall, if_neg (by decide), hrun, dependency_reading, Option.map_map]
    rfl

/-- The dependencies of a file are read as they are defined if each `(` is closed and no definition
has more than `NVERS` versions, and in no other file. -/
theorem dependencies_exact_iff (hitems : ∀ i ∈ items, i.Valid) :
    (∃ deps, dependencies ((depFile items).length + 1) .init (depFile items) = some deps ∧
        ReadsDepend items deps) ↔
      ∀ d ∈ definitions items, d.Closed ∧ d.versions.length ≤ NVERS := by
  have hinit : DepState.init = .reading nul [] [] [] := rfl
  have hrun {front back : List Definition} (hdefs : definitions items = front ++ back)
      (hfront : ∀ d ∈ front, d.Closed ∧ d.versions.length ≤ NVERS) :=
    @dependencies_front items nul [] [] [] _ front back hitems (Nat.zero_le _) hdefs hfront
      (Nat.lt_succ_self _)
  rw [hinit]
  constructor
  · rintro ⟨deps, hdeps, -, hopen⟩
    by_contra hbad
    obtain ⟨front, d, back, hdefs, hfront, hd⟩ : ∃ front d back,
        definitions items = front ++ d :: back ∧
        (∀ e ∈ front, e.Closed ∧ e.versions.length ≤ NVERS) ∧
        ¬ (d.Closed ∧ d.versions.length ≤ NVERS) :=
        (forall_or_exists_first _ _).resolve_left hbad
    obtain ⟨items', type, abbr, name, ps, fuel, hvalid, hps, hback, -, heq⟩ := hrun hdefs hfront
    rw [hdeps] at heq
    obtain ⟨rest, hrest, hsplit⟩ := Option.map_eq_some_iff.mp heq.symm
    obtain ⟨hfull, -, hstop⟩ := (getline_items hvalid hps).2 d back hback
    by_cases hlen : d.versions.length ≤ NVERS
    · have hc : ¬ d.Closed := fun h => hd ⟨h, hlen⟩
      obtain ⟨file, hcall⟩ := hstop hlen hc
      rw [dependencies_call hcall, if_neg (by decide), dependency_reading] at hrest
      obtain ⟨tail, -, rfl⟩ := Option.map_eq_some_iff.mp hrest
      refine hopen front d back hdefs (fun e he => (hfront e he).1) hc ⟨tail, ?_⟩
      rw [← hsplit, List.append_assoc]
      rfl
    · rw [dependencies, hfull (Nat.lt_of_not_le hlen)] at hrest
      cases hrest
  · intro h
    obtain ⟨items', type, abbr, name, ps, fuel, hvalid, hps, hback, hfuel, heq⟩ :=
      hrun (List.append_nil _).symm h
    obtain ⟨g, rest, hcall⟩ := (getline_items hvalid hps).1 hback
    rw [dependencies_call hcall, if_pos rfl, Option.map_some, List.append_nil] at heq
    refine ⟨_, heq, fun _ => rfl, fun front d back hdefs _ hc => ?_⟩
    exact absurd (h d (by rw [hdefs]; simp)).1 hc

end Calls

theorem dependencies_exact_iff_sample :
    dependencies 14 .init "P a A\n (i) 1\n".toList =
      some [⟨'P', "a".toList, "A".toList, [(some "i".toList, some "1".toList)]⟩] := by
  have hvalid : ∀ i ∈ [DepItem.definition ⟨'P', " ".toList, "a".toList, " ".toList, "A".toList,
      [.version " ".toList (some "i".toList) " ".toList (some "1".toList)]⟩, .skipped []],
      i.Valid := by
    have hversion : (BodyLine.version " ".toList (some "i".toList) " ".toList
        (some "1".toList)).Valid := by
      refine ⟨by decide, by decide, by decide, ?_, ?_, nofun⟩
      · rintro a ⟨⟩
        decide
      · rintro v ⟨⟩
        exact ⟨'1', [], rfl, rfl, nofun⟩
    simp only [List.forall_mem_cons, List.not_mem_nil, false_imp_iff, implies_true, and_true]
    refine ⟨⟨by decide, by decide, by decide, by decide, ⟨by decide, ?_⟩, ?_, ?_⟩, by decide,
      by decide, by decide⟩
    · rintro c ⟨⟩
      rfl
    · rintro l (_ | ⟨_, ⟨⟩⟩)
      exact hversion
    · rintro l (_ | ⟨_, _ | ⟨_, ⟨⟩⟩⟩)
      · exact ⟨by decide, by decide⟩
      · exact ⟨by decide, by decide⟩
  obtain ⟨deps, hdeps, hall, -⟩ := (dependencies_exact_iff hvalid).mpr (by
    rintro d (_ | ⟨_, ⟨⟩⟩)
    refine ⟨?_, by decide⟩
    rintro l (_ | ⟨_, ⟨⟩⟩)
    trivial)
  rw [hall (by
    rintro d (_ | ⟨_, ⟨⟩⟩) l (_ | ⟨_, ⟨⟩⟩)
    trivial)] at hdeps
  exact hdeps

/-- A dependency with an architecture that is not closed is handled without it. -/
theorem dependencies_unclosed :
    ¬ ∀ items : List DepItem, (∀ i ∈ items, i.Valid) →
      ∃ deps, dependencies ((depFile items).length + 1) .init (depFile items) = some deps ∧
        ReadsDepend items deps := by
  intro h
  have hvalid : ∀ i ∈ [DepItem.definition ⟨'P', " ".toList, "a".toList, " ".toList, "A".toList,
      [.unclosed " ".toList "i".toList]⟩], i.Valid := by
    simp only [List.forall_mem_cons, List.not_mem_nil, false_imp_iff, implies_true, and_true]
    refine ⟨by decide, by decide, by decide, by decide, ⟨by decide, ?_⟩, ?_, ?_⟩
    · rintro c ⟨⟩
      rfl
    · rintro l (_ | ⟨_, ⟨⟩⟩)
      exact ⟨by decide, by decide, by decide⟩
    · rintro l (_ | ⟨_, _ | ⟨_, ⟨⟩⟩⟩)
      · exact ⟨by decide, by decide⟩
      · exact ⟨by decide, by decide⟩
  obtain ⟨deps, hdeps, -, hopen⟩ := h _ hvalid
  have hrun : dependencies 10 .init "P a A\n (i".toList =
    some [⟨'P', "a".toList, "A".toList, []⟩] := by decide
  obtain rfl := Option.some.inj (hrun.symm.trans hdeps)
  exact hopen [] _ [] rfl (fun e he => absurd he List.not_mem_nil)
    (fun hc => hc _ List.mem_cons_self) (List.prefix_refl _)

end Pkgtools
