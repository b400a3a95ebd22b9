import Pkgtools.CLib.Text

namespace CLib
set_option autoImplicit true

def isClass (name : Str) (c : Char) : Bool :=
  if name = "alpha".toList then c.isAlpha
  else if name = "digit".toList then c.isDigit
  else if name = "alnum".toList then c.isAlphanum
  else if name = "upper".toList then c.isUpper
  else if name = "lower".toList then c.isLower
  else if name = "space".toList then isspace c
  else if name = "blank".toList then c == ' ' || c == '\t'
  else if name = "print".toList then decide (' ' ≤ c ∧ c ≤ '~')
  else if name = "graph".toList then decide ('!' ≤ c ∧ c ≤ '~')
  else if name = "punct".toList then decide ('!' ≤ c ∧ c ≤ '~') && !c.isAlphanum
  else if name = "cntrl".toList then decide (c < ' ') || c == '\x7f'
  else if name = "xdigit".toList then
    c.isDigit || decide ('a' ≤ c ∧ c ≤ 'f') || decide ('A' ≤ c ∧ c ≤ 'F')
  else false

/-- `[:name:]` at the start of a pattern: the name and the pattern behind it. -/
def classElement (p : Str) : Option (Str × Str) :=
  match p with
  | '[' :: ':' :: q =>
    let name := q.takeWhile (· != ':')
    match q.drop name.length with
    | ':' :: ']' :: q => some (name, q)
    | _ => none
  | _ => none

def bracketChar : Str → Option (Char × Str)
  | [] => none
  | ['\\'] => none
  | '\\' :: d :: p => some (d, p)
  | d :: p => some (d, p)

/-- Whether `c` is in the range that starts with `lo`, and the pattern behind the range. -/
def bracketRange (c lo : Char) (p : Str) : Bool × Str :=
  match p with
  | '-' :: d :: q =>
    if d = ']' then (c == lo, p)
    else match bracketChar (d :: q) with
      | some (hi, q) => (decide (lo ≤ c ∧ c ≤ hi), q)
      | none => (c == lo, p)
  | p => (c == lo, p)

/-- The elements of a bracket expression: whether one of them holds `c`, and the pattern behind the
closing bracket. A bracket in front of the first element is no closing bracket. -/
def bracketElements (c : Char) : Nat → Bool → Bool → Str → Option (Bool × Str)
  | 0, _, _, _ => none
  | f + 1, first, ok, p =>
    if p.head? = some ']' ∧ first = false then some (ok, p.tail)
    else match classElement p with
      | some (name, q) => bracketElements c f false (ok || isClass name c) q
      | none =>
        match bracketChar p with
        | none => none
        | some (lo, q) =>
          let (hit, q) := bracketRange c lo q
          bracketElements c f false (ok || hit) q

/-- The bracket expression behind `[`. -/
def rangematch (c : Char) (p : Str) : Option (Bool × Str) :=
  if p.head? = some '!' ∨ p.head? = some '^' then
    (bracketElements c p.length true false p.tail).map fun (ok, q) => (!ok, q)
  else bracketElements c (p.length + 1) true false p

/-- `fnmatch` without flags; every step consumes a byte of the pattern or of the string. -/
def fnmatchFuel : Nat → Str → Str → Bool
  | 0, _, _ => false
  | _ + 1, [], s => s.isEmpty
  | f + 1, d :: p, [] => d == '*' && fnmatchFuel f p []
  | f + 1, d :: p, c :: t =>
    if d = '*' then fnmatchFuel f p (c :: t) || fnmatchFuel f (d :: p) t
    else if d = '?' then fnmatchFuel f p t
    else if d = '[' then
      match rangematch c p with
      | some (ok, q) => ok && fnmatchFuel f q t
      | none => c == '[' && fnmatchFuel f p t
    else if d = '\\' then
      match p with
      | [] => c == '\\' && fnmatchFuel f p t
      | e :: q => c == e && fnmatchFuel f q t
    else c == d && fnmatchFuel f p t

def fnmatch (p s : Str) : Bool := fnmatchFuel (p.length + s.length + 1) p s

theorem fnmatchFuel_self (hp : ∀ c ∈ p, c ≠ '[' ∧ c ≠ '\\') (hf : p.length + p.length < f) :
    fnmatchFuel f p p := by
  induction p generalizing f with
  | nil =>
    cases f with
    | zero => exact absurd hf (Nat.not_lt_zero _)
    | succ f => rfl
  | cons d p ih =>
    simp only [List.length_cons] at hf
    have hd := hp d List.mem_cons_self
    have hp' : ∀ c ∈ p, c ≠ '[' ∧ c ≠ '\\' := fun c hc => hp c (List.mem_cons_of_mem _ hc)
    obtain ⟨g, rfl⟩ : ∃ g, f = g + 1 + 1 := ⟨f - 2, by omega⟩
    have h := ih hp' (show p.length + p.length < g + 1 by omega)
    by_cases hs : d = '*'
    · -- the star takes its own character and then nothing
      have hstar : fnmatchFuel (g + 1) (d :: p) p := by
        have h := ih hp' (show p.length + p.length < g by omega)
        cases p with
        | nil => simp [fnmatchFuel, hs, h]
        | cons c t => simp [fnmatchFuel, hs, h]
      rw [fnmatchFuel.eq_def]
      simp only [if_pos hs, hstar, Bool.or_true]
    · simp [fnmatchFuel, hs, hd.1, hd.2, h]

theorem fnmatch_self (hp : ∀ c ∈ p, c ≠ '[' ∧ c ≠ '\\') : fnmatch p p :=
  fnmatchFuel_self hp (Nat.lt_succ_self _)

/-- `fnmatch` with `FNM_PATHNAME`: a slash is matched by a slash of the pattern only. -/
def fnmatchPathnameFuel : Nat → Str → Str → Bool
  | 0, _, _ => false
  | _ + 1, [], s => s.isEmpty
  | f + 1, d :: p, [] => d == '*' && fnmatchPathnameFuel f p []
  | f + 1, d :: p, c :: t =>
    if d = '*' then
      fnmatchPathnameFuel f p (c :: t) || c != '/' && fnmatchPathnameFuel f (d :: p) t
    else if d = '?' then c != '/' && fnmatchPathnameFuel f p t
    else if d = '[' then
      match rangematch c p with
      | some (ok, q) => c != '/' && ok && fnmatchPathnameFuel f q t
      | none => c == '[' && fnmatchPathnameFuel f p t
    else if d = '\\' then
      match p with
      | [] => c == '\\' && fnmatchPathnameFuel f p t
      | e :: q => c == e && fnmatchPathnameFuel f q t
    else c == d && fnmatchPathnameFuel f p t

def fnmatchPathname (p s : Str) : Bool := fnmatchPathnameFuel (p.length + s.length + 1) p s

def isPatternChar (c : Char) : Bool := c == '*' || c == '?' || c == '[' || c == '\\'

/-- A pattern without such characters matches its own text only. -/
theorem fnmatchFuel_plain (hp : ∀ c ∈ p, isPatternChar c = false) (hf : p.length + s.length < f) :
    fnmatchFuel f p s = decide (p = s) := by
  induction p generalizing f s with
  | nil =>
    obtain ⟨g, rfl⟩ : ∃ g, f = g + 1 := ⟨f - 1, by omega⟩
    cases s <;> rfl
  | cons d p ih =>
    obtain ⟨g, rfl⟩ : ∃ g, f = g + 1 := ⟨f - 1, by omega⟩
    have hd := hp d List.mem_cons_self
    simp only [isPatternChar, Bool.or_eq_false_iff, beq_eq_false_iff_ne] at hd
    obtain ⟨⟨⟨h₁, h₂⟩, h₃⟩, h₄⟩ := hd
    have hp' : ∀ c ∈ p, isPatternChar c = false := fun c hc => hp c (List.mem_cons_of_mem _ hc)
    simp only [List.length_cons] at hf
    cases s with
    | nil => simp [fnmatchFuel, h₁]
    | cons c s =>
      rw [List.length_cons] at hf
      simp [fnmatchFuel, h₁, h₂, h₃, h₄, ih hp' (show p.length + s.length < g by omega)]
      grind

theorem fnmatchPathnameFuel_plain (hp : ∀ c ∈ p, isPatternChar c = false)
    (hf : p.length + s.length < f) : fnmatchPathnameFuel f p s = decide (p = s) := by
  induction p generalizing f s with
  | nil =>
    obtain ⟨g, rfl⟩ : ∃ g, f = g + 1 := ⟨f - 1, by omega⟩
    cases s <;> rfl
  | cons d p ih =>
    obtain ⟨g, rfl⟩ : ∃ g, f = g + 1 := ⟨f - 1, by omega⟩
    have hd := hp d List.mem_cons_self
    simp only [isPatternChar, Bool.or_eq_false_iff, beq_eq_false_iff_ne] at hd
    obtain ⟨⟨⟨h₁, h₂⟩, h₃⟩, h₄⟩ := hd
    have hp' : ∀ c ∈ p, isPatternChar c = false := fun c hc => hp c (List.mem_cons_of_mem _ hc)
    simp only [List.length_cons] at hf
    cases s with
    | nil => simp [fnmatchPathnameFuel, h₁]
    | cons c s =>
      rw [List.length_cons] at hf
      simp [fnmatchPathnameFuel, h₁, h₂, h₃, h₄, ih hp' (show p.length + s.length < g by omega)]
      grind

theorem fnmatch_plain (hp : ∀ c ∈ p, isPatternChar c = false) (s : Str) :
    fnmatch p s = decide (p = s) := fnmatchFuel_plain hp (Nat.lt_succ_self _)

theorem fnmatchPathname_plain (hp : ∀ c ∈ p, isPatternChar c = false) (s : Str) :
    fnmatchPathname p s = decide (p = s) := fnmatchPathnameFuel_plain hp (Nat.lt_succ_self _)

end CLib
