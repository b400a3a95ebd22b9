import Mathlib.Data.List.Basic
import Mathlib.Order.Basic
import Mathlib.Order.Lattice

namespace CLib
set_option autoImplicit true

section Place
variable {ε : Type}

def flagged (es : List (ε × Bool)) : List ε := (es.filter Prod.snd).map Prod.fst

/-- The scan for the next entry with its flag set; it does not stop at the end of the array. -/
def nextFlagged : List (ε × Bool) → Option (ε × List (ε × Bool))
  | [] => none
  | (e, true) :: es => some (e, es)
  | (_, false) :: es => nextFlagged es

/-- Go over the entries that compare less than a line, up to one that compares equal: those gone
over, whether there was one, and the rest. The comparison is of the line with the entry. -/
def catchUp (cmp : ε → Int) : List (ε × Bool) → List ε × Bool × List (ε × Bool)
  | [] => ([], false, [])
  | (_, false) :: es => catchUp cmp es
  | (e, true) :: es =>
    if 0 ≤ cmp e then
      if cmp e = 0 then ([e], true, es)
      else
        let (out, found, rest) := catchUp cmp es
        (e :: out, found, rest)
    else ([], false, (e, true) :: es)

/-- Find the place of a line among the entries that are left. It is undefined where the scan runs
over the end of the array. -/
def place (cmp : ε → Int) (es : List (ε × Bool)) : Option (List ε × Bool × List (ε × Bool)) :=
  if es = [] then some ([], false, [])
  else (nextFlagged es).map fun (e, es) =>
    if cmp e < 0 then ([], false, (e, true) :: es)
    else if cmp e = 0 then ([e], true, es)
    else catchUp cmp ((e, true) :: es)

theorem flagged_cons_true (e : ε) (es : List (ε × Bool)) :
    flagged ((e, true) :: es) = e :: flagged es := rfl

theorem flagged_pairwise {R : ε → ε → Prop} {es : List (ε × Bool)}
    (h : es.Pairwise fun x y => R x.1 y.1) : (flagged es).Pairwise R := by
  rw [flagged, List.pairwise_map]
  exact h.filter _

theorem mem_flagged {es : List (ε × Bool)} (h : e ∈ flagged es) : (e, true) ∈ es := by
  obtain ⟨x, hx, rfl⟩ := List.mem_map.mp h
  obtain ⟨hmem, hflag⟩ := List.mem_filter.mp hx
  rwa [← hflag]

theorem nextFlagged_eq_none {es : List (ε × Bool)} : nextFlagged es = none ↔ flagged es = [] := by
  induction es with
  | nil => exact iff_of_true rfl rfl
  | cons x es ih =>
    obtain ⟨e, b⟩ := x
    cases b with
    | true => exact iff_of_false (by simp [nextFlagged]) (by simp [flagged])
    | false => exact ih

theorem nextFlagged_eq_some {es es' : List (ε × Bool)} (h : nextFlagged es = some (e, es')) :
    flagged es = e :: flagged es' ∧ ((e, true) :: es') <:+ es := by
  induction es with
  | nil => cases h
  | cons x es ih =>
    obtain ⟨x, b⟩ := x
    cases b with
    | true =>
      obtain ⟨rfl, rfl⟩ := Prod.mk.inj (Option.some.inj h)
      exact ⟨rfl, List.suffix_refl _⟩
    | false => exact ⟨(ih h).1, (ih h).2.trans (List.suffix_cons _ _)⟩

/-- The place of a line: the entries before it that are gone over, and the one it matches. -/
structure Placed (cmp : ε → Int) (es : List (ε × Bool)) (out : List ε) (found : Bool)
    (rest : List (ε × Bool)) : Prop where
  split : flagged es = out ++ flagged rest
  suffix : rest <:+ es
  hit : found = true → ∃ before e, out = before ++ [e] ∧ cmp e = 0 ∧ (∀ x ∈ before, 0 < cmp x) ∧
    ((e, true) :: rest) <:+ es
  miss : found = false → (∀ x ∈ out, 0 < cmp x) ∧
    (rest = [] ∨ ∃ e after, flagged rest = e :: after ∧ cmp e < 0)

theorem catchUp_placed (cmp : ε → Int) (es : List (ε × Bool)) :
    Placed cmp es (catchUp cmp es).1 (catchUp cmp es).2.1 (catchUp cmp es).2.2 := by
  induction es with
  | nil => exact ⟨rfl, List.suffix_refl _, nofun, fun _ => ⟨by simp [catchUp], .inl rfl⟩⟩
  | cons x es ih =>
    obtain ⟨e, b⟩ := x
    cases b with
    | false =>
      refine ⟨ih.split, ih.suffix.trans (List.suffix_cons _ _), fun hf => ?_, ih.miss⟩
      obtain ⟨before, e', hout, hzero, hbefore, hsuf⟩ := ih.hit hf
      exact ⟨before, e', hout, hzero, hbefore, hsuf.trans (List.suffix_cons _ _)⟩
    | true =>
      rw [catchUp]
      split
      · split
        · rename_i hz
          exact ⟨rfl, List.suffix_cons _ _,
            fun _ => ⟨[], e, rfl, hz, by simp, List.suffix_refl _⟩, nofun⟩
        · rename_i hle hz
          have hpos : 0 < cmp e := by omega
          refine ⟨?_, ih.suffix.trans (List.suffix_cons _ _), fun hf => ?_, fun hf => ?_⟩
          · rw [flagged_cons_true, ih.split]
            rfl
          · obtain ⟨before, e', hout, hzero, hbefore, hsuf⟩ := ih.hit hf
            exact ⟨e :: before, e', congrArg (e :: ·) hout, hzero,
              List.forall_mem_cons.mpr ⟨hpos, hbefore⟩, hsuf.trans (List.suffix_cons _ _)⟩
          · obtain ⟨hout, hrest⟩ := ih.miss hf
            exact ⟨List.forall_mem_cons.mpr ⟨hpos, hout⟩, hrest⟩
      · rename_i hneg
        exact ⟨rfl, List.suffix_refl _, nofun,
          fun _ => ⟨by simp, .inr ⟨e, flagged es, rfl, Int.not_le.mp hneg⟩⟩⟩

theorem place_placed {cmp : ε → Int} {es : List (ε × Bool)}
    (h : place cmp es = some (out, found, rest)) : Placed cmp es out found rest := by
  rw [place] at h
  split at h
  · rename_i hnil
    obtain ⟨rfl, rfl, rfl⟩ : [] = out ∧ false = found ∧ [] = rest := by simpa using h
    exact ⟨by rw [hnil]; rfl, List.nil_suffix, nofun, fun _ => ⟨by simp, .inl rfl⟩⟩
  · obtain ⟨⟨e, es'⟩, hnext, hx⟩ := Option.map_eq_some_iff.mp h
    obtain ⟨hflag, hsuf⟩ := nextFlagged_eq_some hnext
    simp only at hx
    split at hx
    · rename_i hneg
      obtain ⟨rfl, rfl, rfl⟩ : [] = out ∧ false = found ∧ (e, true) :: es' = rest := by
        simpa using hx
      exact ⟨hflag, hsuf, nofun, fun _ => ⟨by simp, .inr ⟨e, flagged es', rfl, hneg⟩⟩⟩
    · split at hx
      · rename_i hz
        obtain ⟨rfl, rfl, rfl⟩ : [e] = out ∧ true = found ∧ es' = rest := by simpa using hx
        exact ⟨hflag, (List.suffix_cons _ _).trans hsuf,
          fun _ => ⟨[], e, rfl, hz, by simp, hsuf⟩, nofun⟩
      · have hc := catchUp_placed cmp ((e, true) :: es')
        rw [hx] at hc
        refine ⟨hflag.trans hc.split, hc.suffix.trans hsuf, fun hf => ?_, hc.miss⟩
        obtain ⟨before, e', hout, hzero, hbefore, hs⟩ := hc.hit hf
        exact ⟨before, e', hout, hzero, hbefore, hs.trans hsuf⟩

/-- The scan runs over the end exactly if there are entries left, but none with its flag set. -/
theorem place_eq_none {cmp : ε → Int} {es : List (ε × Bool)} :
    place cmp es = none ↔ es ≠ [] ∧ flagged es = [] := by
  rw [place]
  split
  · rename_i h
    exact iff_of_false (by simp) fun hn => hn.1 h
  · rename_i h
    rw [Option.map_eq_none_iff, nextFlagged_eq_none]
    exact ⟨fun hn => ⟨h, hn⟩, fun hn => hn.2⟩

end Place

section Merge
variable {α ε κ : Type} (cmp : α → Option (ε → Int))

/-- The merge of sorted lines with sorted entries: in front of each line the entries that come
before it are put, and an entry that a line matches takes its place. Lines without a comparison are
kept. -/
def mergeFlagged : List α → List (ε × Bool) → Option (List (α ⊕ ε))
  | [], es => some ((flagged es).map .inr)
  | l :: ls, es => match cmp l with
    | none => (mergeFlagged ls es).map (.inl l :: ·)
    | some k => (place k es).bind fun (out, found, rest) =>
      (mergeFlagged ls rest).map (out.map .inr ++ (if found then [] else [.inl l]) ++ ·)

def dropFlagged : List α → List (ε × Bool) → Option (List α)
  | [], _ => some []
  | l :: ls, es => match cmp l with
    | none => (dropFlagged ls es).map (l :: ·)
    | some k => (place k es).bind fun (_, found, rest) =>
      (dropFlagged ls rest).map ((if found then [] else [l]) ++ ·)

variable [LinearOrder κ] (lineKey : α → κ) (entKey : ε → κ)

/-- What the comparison of a line with an entry says about their keys. A line without a comparison
is before all entries. -/
structure KeyOrder (lines : List α) (F : List ε) : Prop where
  equal : ∀ l ∈ lines, ∀ e ∈ F, ∀ k, cmp l = some k → k e = 0 → lineKey l = entKey e
  greater : ∀ l ∈ lines, ∀ e ∈ F, ∀ k, cmp l = some k → entKey e < lineKey l → 0 < k e
  least : ∀ l ∈ lines, ∀ e ∈ F, cmp l = none → lineKey l ≤ entKey e

/-- The comparisons of a line lead to its place: if an entry has its key they stop at a match, and
else they stop at the first entry behind it. -/
def Right (F : List ε) (l : α) : Prop :=
  match cmp l with
  | none => ∀ e ∈ F, entKey e ≠ lineKey l
  | some k =>
    ((∃ e ∈ F, entKey e = lineKey l) →
      ∃ before e after, F = before ++ e :: after ∧ k e = 0 ∧ ∀ x ∈ before, 0 < k x) ∧
    ((∀ e ∈ F, entKey e ≠ lineKey l) → ∀ before e after, F = before ++ e :: after →
      (∀ x ∈ before, entKey x < lineKey l) → lineKey l < entKey e → k e < 0)

/-- The comparisons of a line stop at the last entry, with a match. -/
def Exhausts (F : List ε) (k : ε → Int) : Prop :=
  ∃ init e, F = init ++ [e] ∧ k e = 0 ∧ ∀ x ∈ init, 0 < k x

/-- The last entry of the array has its flag set, or no line is compared after the entries with
their flag set are used up. -/
def InTime (lines : List α) (es : List (ε × Bool)) : Prop :=
  (∀ x, es.getLast? = some x → x.2 = true) ∨
    (flagged es = [] → ∀ l ∈ lines, cmp l = none) ∧
    ∀ A l B k, lines = A ++ l :: B → cmp l = some k → Exhausts (flagged es) k →
      ∀ m ∈ B, cmp m = none

def kept (lines : List α) (F : List ε) : List α :=
  lines.filter fun l => ∀ e ∈ F, entKey e ≠ lineKey l

/-- The merge is defined and gives the entries and the lines without an entry of their key, each
once and in the order of the keys. -/
def Merges (lines : List α) (es : List (ε × Bool)) : Prop :=
  ∃ out, mergeFlagged cmp lines es = some out ∧
    out.Pairwise (fun x y => x.elim lineKey entKey ≤ y.elim lineKey entKey) ∧
    out.Perm ((kept lineKey entKey lines (flagged es)).map .inl ++ (flagged es).map .inr)

variable {cmp lineKey entKey} {lines : List α} {es rest : List (ε × Bool)} {F F' out : List ε}
  {l m : α} {k : ε → Int}

theorem split_behind (h : out ++ F' = before ++ e :: after) (he : e ∉ out) :
    ∃ before', before = out ++ before' ∧ F' = before' ++ e :: after := by
  rcases List.append_eq_append_iff.mp h with ⟨t, ht, hF⟩ | ⟨t, ht, hF⟩
  · exact ⟨t, ht, hF⟩
  · cases t with
    | nil => exact ⟨[], by rw [ht, List.append_nil, List.append_nil], by simpa using hF.symm⟩
    | cons x t =>
      obtain ⟨rfl, -⟩ := List.cons.inj hF
      exact absurd (by rw [ht]; simp) he

/-- Where the comparisons of a line lead, if they lead to its place. -/
theorem Placed.keys (h : Placed k es out found rest) (hk : cmp l = some k)
    (ho : KeyOrder cmp lineKey entKey [l] (flagged es))
    (hs : (flagged es).Pairwise fun x y => entKey x ≤ entKey y)
    (hr : Right cmp lineKey entKey (flagged es) l) :
    (∀ x ∈ out, entKey x ≤ lineKey l) ∧ (∀ x ∈ flagged rest, lineKey l ≤ entKey x) ∧
      (found = true ↔ ∃ e ∈ flagged es, entKey e = lineKey l) ∧
      (found = false → ∀ x ∈ flagged rest, lineKey l < entKey x) := by
  have hsplit := h.split
  cases found with
  | true =>
    obtain ⟨before, e, rfl, hzero, -, -⟩ := h.hit rfl
    have hmem : e ∈ flagged es := by rw [hsplit]; simp
    have heq := ho.equal l List.mem_cons_self e hmem k hk hzero
    rw [hsplit, List.append_assoc, List.pairwise_append] at hs
    obtain ⟨-, htail, hcross⟩ := hs
    refine ⟨fun x hx => ?_, fun x hx => ?_, iff_of_true rfl ⟨e, hmem, heq.symm⟩, nofun⟩
    · rcases List.mem_append.mp hx with hx | hx
      · rw [heq]
        exact hcross x hx e (by simp)
      · rw [List.mem_singleton.mp hx, heq]
    · rw [heq]
      exact (List.pairwise_cons.mp htail).1 x hx
  | false =>
    obtain ⟨hpos, hstop⟩ := h.miss rfl
    have hr' := hr
    simp only [Right, hk] at hr'
    have hnone : ∀ e ∈ flagged es, entKey e ≠ lineKey l := by
      by_contra hex
      push Not at hex
      obtain ⟨before, e, after, hF, hzero, hbefore⟩ := hr'.1 hex
      have he : e ∉ out := by
        intro hm
        have := hpos e hm
        omega
      obtain ⟨before', rfl, hrest⟩ := split_behind (hsplit.symm.trans hF) he
      rcases hstop with rfl | ⟨e', after', hrest', hneg⟩
      · cases before' <;> cases hrest
      · rw [hrest'] at hrest
        cases before' with
        | nil =>
          obtain ⟨rfl, -⟩ := List.cons.inj hrest
          omega
        | cons x before' =>
          obtain ⟨rfl, -⟩ := List.cons.inj hrest
          have := hbefore e' (by simp)
          omega
    have hout : ∀ x ∈ out, entKey x ≤ lineKey l := by
      by_contra hex
      push Not at hex
      obtain ⟨y, hy, hlt⟩ := hex
      -- the first entry behind the line would have stopped the comparisons
      have hfind : (out.find? fun x => decide (lineKey l < entKey x)).isSome := by
        rw [List.find?_isSome]
        exact ⟨y, hy, decide_eq_true hlt⟩
      obtain ⟨x, hx⟩ := Option.isSome_iff_exists.mp hfind
      obtain ⟨hxlt, before, after, hF, hbefore⟩ := List.find?_eq_some_iff_append.mp hx
      have hbefore' : ∀ z ∈ before, entKey z < lineKey l := by
        intro z hz
        have hle : ¬ lineKey l < entKey z := by simpa using hbefore z hz
        refine lt_of_le_of_ne (not_lt.mp hle) (hnone z ?_)
        rw [hsplit, hF]
        simp [hz]
      have hneg := hr'.2 hnone before x (after ++ flagged rest)
        (by rw [hsplit, hF]; simp) hbefore' (of_decide_eq_true hxlt)
      have := hpos x (by rw [hF]; simp)
      omega
    have hrest : ∀ x ∈ flagged rest, lineKey l < entKey x := by
      rcases hstop with rfl | ⟨e, after, hrest, hneg⟩
      · simp [flagged]
      · have hmem : e ∈ flagged es := by rw [hsplit, hrest]; simp
        have hlt : lineKey l < entKey e := by
          refine lt_of_le_of_ne (not_lt.mp fun hlt => ?_) (hnone e hmem).symm
          have := ho.greater l List.mem_cons_self e hmem k hk hlt
          omega
        rw [hsplit, hrest, List.pairwise_append] at hs
        rw [hrest]
        refine List.forall_mem_cons.mpr ⟨hlt, fun x hx => lt_of_lt_of_le hlt ?_⟩
        exact (List.pairwise_cons.mp hs.2.1).1 x hx
    refine ⟨hout, fun x hx => le_of_lt (hrest x hx), iff_of_false nofun ?_, fun _ => hrest⟩
    rintro ⟨e, he, heq⟩
    exact hnone e he heq

theorem KeyOrder.mono (h : KeyOrder cmp lineKey entKey lines F)
    (hl : ∀ x ∈ lines', x ∈ lines) (hF : ∀ e ∈ F', e ∈ F) :
    KeyOrder cmp lineKey entKey lines' F' :=
  ⟨fun l hl' e he => h.equal l (hl l hl') e (hF e he),
    fun l hl' e he => h.greater l (hl l hl') e (hF e he),
    fun l hl' e he => h.least l (hl l hl') e (hF e he)⟩

/-- Entries before a line do not matter for its place. -/
theorem right_behind (ho : KeyOrder cmp lineKey entKey [m] (out ++ F'))
    (hout : ∀ x ∈ out, entKey x < lineKey m) :
    Right cmp lineKey entKey (out ++ F') m ↔ Right cmp lineKey entKey F' m := by
  have hne : (∀ e ∈ out ++ F', entKey e ≠ lineKey m) ↔ ∀ e ∈ F', entKey e ≠ lineKey m := by
    rw [List.forall_mem_append]
    exact and_iff_right fun x hx => (hout x hx).ne
  have hex : (∃ e ∈ out ++ F', entKey e = lineKey m) ↔ ∃ e ∈ F', entKey e = lineKey m := by
    constructor
    · rintro ⟨e, he, heq⟩
      rcases List.mem_append.mp he with he | he
      · exact absurd heq (hout e he).ne
      · exact ⟨e, he, heq⟩
    · rintro ⟨e, he, heq⟩
      exact ⟨e, List.mem_append_right _ he, heq⟩
  cases hk : cmp m with
  | none => simp only [Right, hk, hne]
  | some k =>
    have hpos : ∀ x ∈ out, 0 < k x := fun x hx =>
      ho.greater m List.mem_cons_self x (List.mem_append_left _ hx) k hk (hout x hx)
    simp only [Right, hk, hne, hex]
    refine and_congr (imp_congr_right fun _ => ⟨?_, ?_⟩) (imp_congr_right fun _ => ⟨?_, ?_⟩)
    · rintro ⟨before, e, after, hF, hzero, hbefore⟩
      have he : e ∉ out := by
        intro hm
        have := hpos e hm
        omega
      obtain ⟨before', rfl, hF'⟩ := split_behind hF he
      exact ⟨before', e, after, hF', hzero, fun x hx => hbefore x (List.mem_append_right _ hx)⟩
    · rintro ⟨before, e, after, hF, hzero, hbefore⟩
      exact ⟨out ++ before, e, after, by rw [hF, List.append_assoc], hzero,
        List.forall_mem_append.mpr ⟨hpos, hbefore⟩⟩
    · intro h before e after hF hbefore hlt
      exact h (out ++ before) e after (by rw [hF, List.append_assoc])
        (List.forall_mem_append.mpr ⟨hout, hbefore⟩) hlt
    · intro h before e after hF hbefore hlt
      have he : e ∉ out := fun hm => lt_asymm hlt (hout e hm)
      obtain ⟨before', rfl, hF'⟩ := split_behind hF he
      exact h before' e after hF' (fun x hx => hbefore x (List.mem_append_right _ hx)) hlt

/-- Entries that are gone over do not matter for a later line that uses up the last one. -/
theorem exhausts_behind (hpos : ∀ x ∈ out, 0 < k x) :
    Exhausts (out ++ F') k ↔ Exhausts F' k := by
  constructor
  · rintro ⟨init, e, hF, hzero, hinit⟩
    have he : e ∉ out := by
      intro hm
      have := hpos e hm
      omega
    obtain ⟨init', rfl, hF'⟩ := split_behind hF he
    exact ⟨init', e, hF', hzero, fun x hx => hinit x (List.mem_append_right _ hx)⟩
  · rintro ⟨init, e, rfl, hzero, hinit⟩
    exact ⟨out ++ init, e, by rw [List.append_assoc], hzero,
      List.forall_mem_append.mpr ⟨hpos, hinit⟩⟩

theorem getLast?_suffix (h : rest <:+ es) (hne : rest ≠ []) : es.getLast? = rest.getLast? := by
  obtain ⟨pre, rfl⟩ := h
  exact List.getLast?_append_of_ne_nil pre hne

variable {found : Bool} {ls : List α}

/-- No two lines have the key of one entry, and the lines are in the order of their keys. -/
def Apart (lineKey : α → κ) (entKey : ε → κ) (lines : List α) (F : List ε) : Prop :=
  lines.Pairwise fun l m =>
    lineKey l ≤ lineKey m ∧ ∀ e ∈ F, entKey e = lineKey l → lineKey l ≠ lineKey m

theorem Placed.before_later (h : Placed k es out found rest) (hk : cmp l = some k)
    (ho : KeyOrder cmp lineKey entKey [l] (flagged es))
    (hs : (flagged es).Pairwise fun x y => entKey x ≤ entKey y)
    (hr : Right cmp lineKey entKey (flagged es) l)
    (ha : Apart lineKey entKey (l :: ls) (flagged es)) (hm : m ∈ ls) :
    ∀ x ∈ out, entKey x < lineKey m := by
  intro x hx
  obtain ⟨hle, hne⟩ := (List.pairwise_cons.mp ha).1 m hm
  have hxl := (h.keys hk ho hs hr).1 x hx
  refine lt_of_le_of_ne (hxl.trans hle) fun heq => ?_
  have hlm : lineKey l = lineKey m := le_antisymm hle (heq ▸ hxl)
  refine hne x ?_ (heq.trans hlm.symm) hlm
  rw [h.split]
  exact List.mem_append_left _ hx

theorem mem_tail_of_split {A B : List α} (h : l :: ls = A ++ m :: B) :
    A = [] ∧ l = m ∧ ls = B ∨ ∃ A', A = l :: A' ∧ ls = A' ++ m :: B := by
  cases A with
  | nil =>
    obtain ⟨rfl, rfl⟩ := List.cons.inj h
    exact .inl ⟨rfl, rfl, rfl⟩
  | cons x A =>
    obtain ⟨rfl, htail⟩ := List.cons.inj h
    exact .inr ⟨A, rfl, htail⟩

theorem inTime_of_last (h : ∀ x, es.getLast? = some x → x.2 = true) : InTime cmp lines es :=
  .inl h

/-- A line at whose place there are entries left takes nothing away from later lines. -/
theorem inTime_behind_of_left (h : Placed k es out found rest) (hk : cmp l = some k)
    (hpos : ∀ m ∈ ls, ∀ k', cmp m = some k' → ∀ x ∈ out, 0 < k' x)
    (hne : rest ≠ []) : InTime cmp (l :: ls) es ↔ InTime cmp ls rest := by
  have hF : flagged es ≠ [] := by
    intro hnil
    have hsplit := h.split
    rw [hnil] at hsplit
    obtain ⟨hout, hrest⟩ := List.append_eq_nil_iff.mp hsplit.symm
    cases found with
    | true =>
      obtain ⟨before, e, rfl, -, -, -⟩ := h.hit rfl
      simp at hout
    | false =>
      rcases (h.miss rfl).2 with hr | ⟨e, after, hr, -⟩
      · exact hne hr
      · rw [hrest] at hr
        cases hr
  have hlater : ∀ m ∈ ls, ∀ k', cmp m = some k' →
      (Exhausts (flagged es) k' ↔ Exhausts (flagged rest) k') := by
    intro m hm k' hk'
    rw [h.split]
    exact exhausts_behind (hpos m hm k' hk')
  have hthis : Exhausts (flagged es) k ↔ flagged rest = [] := by
    constructor
    · rintro ⟨init, e, hF, hzero, hinit⟩
      cases found with
      | true =>
        obtain ⟨before, e', rfl, hzero', -, -⟩ := h.hit rfl
        have hsplit := h.split
        rw [hF] at hsplit
        rcases List.eq_nil_or_concat (flagged rest) with hr | ⟨r, x, hr⟩
        · exact hr
        · rw [hr, List.concat_eq_append, ← List.append_assoc] at hsplit
          obtain ⟨hi, -⟩ := List.append_inj' hsplit rfl
          have := hinit e' (by rw [hi]; simp)
          omega
      | false =>
        rcases (h.miss rfl).2 with hr | ⟨x, after, hr, hneg⟩
        · exact absurd hr hne
        · have hx : x ∈ init ++ [e] := by rw [← hF, h.split, hr]; simp
          rcases List.mem_append.mp hx with hx | hx
          · have := hinit x hx
            omega
          · rw [List.mem_singleton.mp hx] at hneg
            omega
    · intro hr
      cases found with
      | true =>
        obtain ⟨before, e, rfl, hzero, hbefore, -⟩ := h.hit rfl
        exact ⟨before, e, by rw [h.split, hr, List.append_nil], hzero, hbefore⟩
      | false =>
        rcases (h.miss rfl).2 with hr' | ⟨x, after, hr', -⟩
        · exact absurd hr' hne
        · rw [hr] at hr'
          cases hr'
  refine or_congr (by rw [getLast?_suffix h.suffix hne]) ⟨?_, ?_⟩
  · rintro ⟨-, hall⟩
    refine ⟨fun hr => hall [] l ls k rfl hk (hthis.mpr hr), fun A m B k' hls hk' hex => ?_⟩
    exact hall (l :: A) m B k' (congrArg (l :: ·) hls) hk'
      ((hlater m (by rw [hls]; simp) k' hk').mpr hex)
  · rintro ⟨hnone, hall⟩
    refine ⟨fun hnil => absurd hnil hF, fun A m B k' hls hk' hex => ?_⟩
    rcases mem_tail_of_split hls with ⟨rfl, rfl, rfl⟩ | ⟨A', rfl, hls'⟩
    · obtain rfl : k' = k := Option.some.inj (hk'.symm.trans hk)
      exact hnone (hthis.mp hex)
    · exact hall A' m B k' hls' hk' ((hlater m (by rw [hls']; simp) k' hk').mp hex)

/-- That the entries are not used up too early does not change at a line. -/
theorem inTime_behind (h : Placed k es out found rest) (hk : cmp l = some k)
    (hpos : ∀ m ∈ ls, ∀ k', cmp m = some k' → ∀ x ∈ out, 0 < k' x)
    (hleft : es = [] ∨ flagged es ≠ []) : InTime cmp (l :: ls) es ↔ InTime cmp ls rest := by
  by_cases hne : rest = []
  · subst hne
    refine iff_of_true ?_ (inTime_of_last (by simp))
    cases found with
    | true =>
      obtain ⟨before, e, -, -, -, hsuf⟩ := h.hit rfl
      refine inTime_of_last fun x hx => ?_
      rw [getLast?_suffix hsuf (by simp)] at hx
      obtain rfl : (e, true) = x := by simpa using hx
      rfl
    | false =>
      rcases hleft with rfl | hF
      · exact inTime_of_last (by simp)
      · refine .inr ⟨fun hnil => absurd hnil hF, fun A m B k' hls hk' hex => ?_⟩
        obtain ⟨init, e, hF', hzero, -⟩ := hex
        have he : e ∈ out := by
          have hsplit : flagged es = out := by simpa [flagged] using h.split
          rw [← hsplit, hF']
          simp
        have : 0 < k' e := by
          rcases mem_tail_of_split hls with ⟨-, rfl, -⟩ | ⟨A', -, hls'⟩
          · obtain rfl : k' = k := Option.some.inj (hk'.symm.trans hk)
            exact (h.miss rfl).1 e he
          · exact hpos m (by rw [hls']; simp) k' hk' e he
        omega
  · exact inTime_behind_of_left h hk hpos hne

theorem inTime_cons_none (hk : cmp l = none) : InTime cmp (l :: ls) es ↔ InTime cmp ls es := by
  refine or_congr_right (and_congr (imp_congr_right fun _ => ?_) ⟨?_, ?_⟩)
  · rw [List.forall_mem_cons]
    exact and_iff_right hk
  · intro h A m B k' hls hk' hex
    exact h (l :: A) m B k' (congrArg (l :: ·) hls) hk' hex
  · intro h A m B k' hls hk' hex
    rcases mem_tail_of_split hls with ⟨-, rfl, -⟩ | ⟨A', -, hls'⟩
    · rw [hk] at hk'
      cases hk'
    · exact h A' m B k' hls' hk' hex

/-- If the scan runs over the end at a line, the entries were used up too early. -/
theorem not_inTime_of_place (hk : cmp l = some k) (hp : place k es = none) :
    ¬ InTime cmp (l :: ls) es := by
  obtain ⟨hne, hnil⟩ := place_eq_none.mp hp
  rintro (hlast | ⟨hnone, -⟩)
  · rcases List.eq_nil_or_concat es with rfl | ⟨init, x, rfl⟩
    · exact hne rfl
    · have hx : x.2 = true := hlast x (by simp)
      have hmem : x ∈ (init.concat x).filter Prod.snd :=
        List.mem_filter.mpr ⟨by simp, hx⟩
      rw [flagged, List.map_eq_nil_iff] at hnil
      rw [hnil] at hmem
      cases hmem
  · have := hnone hnil l List.mem_cons_self
    rw [hk] at this
    cases this

theorem kept_cons : kept lineKey entKey (l :: ls) F =
    (if ∀ e ∈ F, entKey e ≠ lineKey l then [l] else []) ++ kept lineKey entKey ls F := by
  rw [kept, List.filter_cons]
  by_cases h : ∀ e ∈ F, entKey e ≠ lineKey l
  · rw [if_pos (decide_eq_true h), if_pos h]
    rfl
  · rw [if_neg (by rwa [decide_eq_true_iff]), if_neg h]
    rfl

theorem kept_behind (hout : ∀ m ∈ ls, ∀ x ∈ out, entKey x < lineKey m) :
    kept lineKey entKey ls (out ++ F') = kept lineKey entKey ls F' := by
  refine List.filter_congr fun m hm => decide_eq_decide.mpr ?_
  rw [List.forall_mem_append]
  exact and_iff_right fun x hx => (hout m hm x hx).ne

theorem mem_merged {o : List (α ⊕ ε)}
    (h : o.Perm ((kept lineKey entKey lines F).map .inl ++ F.map .inr)) :
    (∀ l, .inl l ∈ o → l ∈ lines ∧ ∀ e ∈ F, entKey e ≠ lineKey l) ∧ ∀ e, .inr e ∈ o → e ∈ F := by
  refine ⟨fun l hl => ?_, fun e he => ?_⟩
  · have hmem := h.mem_iff.mp hl
    simpa [kept] using hmem
  · have hmem := h.mem_iff.mp he
    simpa using hmem

theorem merges_cons_none (hk : cmp l = none) (ho : KeyOrder cmp lineKey entKey [l] (flagged es))
    (hr : Right cmp lineKey entKey (flagged es) l) (hle : ∀ m ∈ ls, lineKey l ≤ lineKey m) :
    Merges cmp lineKey entKey (l :: ls) es ↔ Merges cmp lineKey entKey ls es := by
  have hr' : ∀ e ∈ flagged es, entKey e ≠ lineKey l := by simpa [Right, hk] using hr
  have hmerge : mergeFlagged cmp (l :: ls) es = (mergeFlagged cmp ls es).map (.inl l :: ·) := by
    rw [mergeFlagged, hk]
  have hperm : ∀ o : List (α ⊕ ε),
      (.inl l :: o).Perm ((kept lineKey entKey (l :: ls) (flagged es)).map .inl ++
        (flagged es).map .inr) ↔
      o.Perm ((kept lineKey entKey ls (flagged es)).map .inl ++ (flagged es).map .inr) := by
    intro o
    rw [kept_cons, if_pos hr']
    exact List.perm_cons _
  constructor
  · rintro ⟨o, ho', hsort, hp⟩
    rw [hmerge] at ho'
    obtain ⟨o', hls, rfl⟩ := Option.map_eq_some_iff.mp ho'
    exact ⟨o', hls, (List.pairwise_cons.mp hsort).2, (hperm o').mp hp⟩
  · rintro ⟨o, hls, hsort, hp⟩
    refine ⟨.inl l :: o, by rw [hmerge, hls]; rfl, List.pairwise_cons.mpr ⟨?_, hsort⟩,
      (hperm o).mpr hp⟩
    rintro (m | e) hx
    · exact hle m ((mem_merged hp).1 m hx).1
    · exact ho.least l List.mem_cons_self e ((mem_merged hp).2 e hx) hk

/-- A line at its place is put there, or the entry of its key in its stead. -/
theorem merges_cons_some (hk : cmp l = some k) (hp : place k es = some (out, found, rest))
    (ho : KeyOrder cmp lineKey entKey [l] (flagged es))
    (hs : (flagged es).Pairwise fun x y => entKey x ≤ entKey y)
    (hr : Right cmp lineKey entKey (flagged es) l)
    (ha : Apart lineKey entKey (l :: ls) (flagged es)) :
    Merges cmp lineKey entKey (l :: ls) es ↔ Merges cmp lineKey entKey ls rest := by
  have h := place_placed hp
  obtain ⟨hout, hrest, hfound, -⟩ := h.keys hk ho hs hr
  have hlater : ∀ m ∈ ls, ∀ x ∈ out, entKey x < lineKey m :=
    fun m hm => h.before_later hk ho hs hr ha hm
  have hle : ∀ m ∈ ls, lineKey l ≤ lineKey m :=
    fun m hm => ((List.pairwise_cons.mp ha).1 m hm).1
  let own : List (α ⊕ ε) := if found then [] else [.inl l]
  have hmerge : mergeFlagged cmp (l :: ls) es =
      (mergeFlagged cmp ls rest).map ((out.map .inr ++ own) ++ ·) := by
    rw [mergeFlagged, hk]
    simp only [hp, Option.bind_some, own]
  have hown : own = (if ∀ e ∈ flagged es, entKey e ≠ lineKey l then [l] else []).map .inl := by
    cases found with
    | true =>
      obtain ⟨e, he, heq⟩ := hfound.mp rfl
      rw [if_neg fun hn => hn e he heq]
      rfl
    | false =>
      rw [if_pos fun e he heq => nomatch hfound.mpr ⟨e, he, heq⟩]
      rfl
  have hperm : ∀ o : List (α ⊕ ε),
      ((out.map Sum.inr ++ own) ++ o).Perm
        ((kept lineKey entKey (l :: ls) (flagged es)).map Sum.inl ++ (flagged es).map Sum.inr) ↔
      o.Perm ((kept lineKey entKey ls (flagged rest)).map .inl ++ (flagged rest).map .inr) := by
    intro o
    have hswap : (out.map Sum.inr ++ own ++
        ((kept lineKey entKey ls (flagged rest)).map Sum.inl ++ (flagged rest).map Sum.inr)).Perm
        (own ++ (kept lineKey entKey ls (flagged rest)).map Sum.inl ++
          (out.map Sum.inr ++ (flagged rest).map Sum.inr)) := by
      simp only [List.append_assoc]
      refine List.perm_append_comm_assoc _ _ _ |>.trans (List.Perm.append_left own ?_)
      exact List.perm_append_comm_assoc _ _ _
    rw [kept_cons, List.map_append, ← hown, h.split, kept_behind hlater, List.map_append]
    exact ⟨fun hp' => (List.perm_append_left_iff _).mp (hp'.trans hswap.symm),
      fun hp' => ((List.perm_append_left_iff _).mpr hp').trans hswap⟩
  have hhead : ∀ x ∈ (out.map .inr ++ own : List (α ⊕ ε)), x.elim lineKey entKey ≤ lineKey l := by
    intro x hx
    rcases List.mem_append.mp hx with hx | hx
    · obtain ⟨e, he, rfl⟩ := List.mem_map.mp hx
      exact hout e he
    · rw [hown] at hx
      obtain ⟨y, hy, rfl⟩ := List.mem_map.mp hx
      split at hy
      · rw [List.mem_singleton.mp hy]
        exact le_refl _
      · cases hy
  constructor
  · rintro ⟨o, ho', hsort, hp'⟩
    rw [hmerge] at ho'
    obtain ⟨o', hls, rfl⟩ := Option.map_eq_some_iff.mp ho'
    exact ⟨o', hls, (List.pairwise_append.mp hsort).2.1, (hperm o').mp hp'⟩
  · rintro ⟨o, hls, hsort, hp'⟩
    refine ⟨(out.map .inr ++ own) ++ o, by rw [hmerge, hls]; rfl,
      List.pairwise_append.mpr ⟨?_, hsort, fun x hx y hy => (hhead x hx).trans ?_⟩,
      (hperm o).mpr hp'⟩
    · refine List.pairwise_append.mpr ⟨?_, ?_, fun x hx y hy => ?_⟩
      · rw [List.pairwise_map]
        rw [h.split, List.pairwise_append] at hs
        exact hs.1
      · rw [hown]
        split
        · exact List.pairwise_singleton _ _
        · exact List.Pairwise.nil
      · refine (hhead x (List.mem_append_left _ hx)).trans ?_
        rw [hown] at hy
        obtain ⟨z, hz, rfl⟩ := List.mem_map.mp hy
        split at hz
        · rw [List.mem_singleton.mp hz]
          exact le_refl _
        · cases hz
    · cases y with
      | inl m => exact hle m ((mem_merged hp').1 m hy).1
      | inr e => exact hrest e ((mem_merged hp').2 e hy)

/-- If the merge is right, then the comparisons of the first line lead to its place. -/
theorem right_of_merges (ho : KeyOrder cmp lineKey entKey [l] (flagged es))
    (h : Merges cmp lineKey entKey (l :: ls) es) : Right cmp lineKey entKey (flagged es) l := by
  obtain ⟨o, hmerge, hsort, hperm⟩ := h
  cases hk : cmp l with
  | none =>
    rw [mergeFlagged, hk] at hmerge
    obtain ⟨o', -, rfl⟩ := Option.map_eq_some_iff.mp hmerge
    simp only [Right, hk]
    exact ((mem_merged hperm).1 l List.mem_cons_self).2
  | some k =>
    rw [mergeFlagged, hk] at hmerge
    obtain ⟨⟨out, found, rest⟩, hp, hbind⟩ := Option.bind_eq_some_iff.mp hmerge
    obtain ⟨o', -, rfl⟩ := Option.map_eq_some_iff.mp hbind
    have hpl := place_placed hp
    simp only [Right, hk]
    cases found with
    | true =>
      obtain ⟨before, e, rfl, hzero, hbefore, -⟩ := hpl.hit rfl
      have hF : flagged es = before ++ e :: flagged rest := by
        rw [hpl.split, List.append_assoc]
        rfl
      have heq := ho.equal l List.mem_cons_self e (by rw [hF]; simp) k hk hzero
      exact ⟨fun _ => ⟨before, e, flagged rest, hF, hzero, hbefore⟩,
        fun hne => absurd heq.symm (hne e (by rw [hF]; simp))⟩
    | false =>
      have hne : ∀ e ∈ flagged es, entKey e ≠ lineKey l :=
        ((mem_merged hperm).1 l (by simp)).2
      refine ⟨fun ⟨e, he, heq⟩ => absurd heq (hne e he), fun _ before e after hF hbefore hlt => ?_⟩
      have he : e ∉ out := by
        intro hm
        -- it would stand in front of the line
        have hcross := (List.pairwise_append.mp (List.pairwise_append.mp hsort).1).2.2
        have hle : entKey e ≤ lineKey l :=
          hcross (.inr e) (List.mem_map_of_mem hm) (.inl l) (by simp)
        exact absurd hlt (not_lt.mpr hle)
      obtain ⟨before', rfl, hrest⟩ := split_behind (hpl.split.symm.trans hF) he
      rcases (hpl.miss rfl).2 with rfl | ⟨x, after', hrest', hneg⟩
      · cases before' <;> cases hrest
      · rw [hrest'] at hrest
        cases before' with
        | nil =>
          obtain ⟨rfl, -⟩ := List.cons.inj hrest
          exact hneg
        | cons y before' =>
          obtain ⟨rfl, -⟩ := List.cons.inj hrest
          have hmem : x ∈ flagged es := by rw [hF]; simp
          have := ho.greater l List.mem_cons_self x hmem k hk (hbefore x (by simp))
          omega

/-- The lines after one at its place have the entries that are left in place of all. -/
theorem right_later (h : Placed k es out found rest) (hk : cmp l = some k)
    (ho : KeyOrder cmp lineKey entKey (l :: ls) (flagged es))
    (hs : (flagged es).Pairwise fun x y => entKey x ≤ entKey y)
    (hr : Right cmp lineKey entKey (flagged es) l)
    (ha : Apart lineKey entKey (l :: ls) (flagged es)) (hm : m ∈ ls) :
    Right cmp lineKey entKey (flagged es) m ↔ Right cmp lineKey entKey (flagged rest) m := by
  have ho' : KeyOrder cmp lineKey entKey [m] (flagged es) :=
    ho.mono (fun x hx => by rw [List.mem_singleton.mp hx]; exact List.mem_cons_of_mem _ hm)
      fun _ => id
  have hl : KeyOrder cmp lineKey entKey [l] (flagged es) :=
    ho.mono (fun x hx => by rw [List.mem_singleton.mp hx]; exact List.mem_cons_self) fun _ => id
  have hbefore := h.before_later hk hl hs hr ha hm
  rw [h.split] at ho' ⊢
  exact right_behind ho' hbefore

/-- What is left after a line at its place is as all was before. -/
structure Left (cmp : α → Option (ε → Int)) (lineKey : α → κ) (entKey : ε → κ)
    (lines : List α) (es : List (ε × Bool)) : Prop where
  order : KeyOrder cmp lineKey entKey lines (flagged es)
  sorted : (flagged es).Pairwise fun x y => entKey x ≤ entKey y
  apart : Apart lineKey entKey lines (flagged es)

theorem Left.head (h : Left cmp lineKey entKey (l :: ls) es) :
    KeyOrder cmp lineKey entKey [l] (flagged es) :=
  h.order.mono (fun x hx => by rw [List.mem_singleton.mp hx]; exact List.mem_cons_self) fun _ => id

theorem Left.tail (h : Left cmp lineKey entKey (l :: ls) es) :
    Left cmp lineKey entKey ls es :=
  ⟨h.order.mono (fun _ => List.mem_cons_of_mem _) fun _ => id, h.sorted,
    (List.pairwise_cons.mp h.apart).2⟩

theorem Left.step (h : Left cmp lineKey entKey (l :: ls) es)
    (hp : Placed k es out found rest) : Left cmp lineKey entKey ls rest := by
  have hmem : ∀ e ∈ flagged rest, e ∈ flagged es := by
    intro e he
    rw [hp.split]
    exact List.mem_append_right _ he
  have hs := h.sorted
  rw [hp.split, List.pairwise_append] at hs
  refine ⟨h.order.mono (fun _ => List.mem_cons_of_mem _) hmem, hs.2.1, ?_⟩
  refine (List.pairwise_cons.mp h.apart).2.imp fun hlm => ?_
  exact ⟨hlm.1, fun e he => hlm.2 e (hmem e he)⟩

theorem Left.passed (h : Left cmp lineKey entKey (l :: ls) es) (hk : cmp l = some k)
    (hp : Placed k es out found rest) (hr : Right cmp lineKey entKey (flagged es) l) :
    ∀ m ∈ ls, ∀ k', cmp m = some k' → ∀ x ∈ out, 0 < k' x := by
  intro m hm k' hk' x hx
  have hmem : x ∈ flagged es := by
    rw [hp.split]
    exact List.mem_append_left _ hx
  exact h.order.greater m (List.mem_cons_of_mem _ hm) x hmem k' hk'
    (hp.before_later hk h.head h.sorted hr h.apart hm x hx)

/-- The merge is right exactly if the comparisons of every line lead to its place, and the entries
with their flag set are not used up too early. -/
theorem merges_iff (h : Left cmp lineKey entKey lines es) :
    Merges cmp lineKey entKey lines es ↔
      (∀ l ∈ lines, Right cmp lineKey entKey (flagged es) l) ∧ InTime cmp lines es := by
  induction lines generalizing es with
  | nil =>
    refine iff_of_true ⟨(flagged es).map .inr, rfl, ?_, List.Perm.refl _⟩
      ⟨nofun, .inr ⟨fun _ => nofun, fun A l B k hA => ?_⟩⟩
    · rw [List.pairwise_map]
      exact h.sorted
    · cases A <;> cases hA
  | cons l ls ih =>
    have hle : ∀ m ∈ ls, lineKey l ≤ lineKey m :=
      fun m hm => ((List.pairwise_cons.mp h.apart).1 m hm).1
    by_cases hr : Right cmp lineKey entKey (flagged es) l
    · rw [List.forall_mem_cons, and_iff_right hr]
      cases hk : cmp l with
      | none =>
        rw [merges_cons_none hk h.head hr hle, inTime_cons_none hk]
        exact ih h.tail
      | some k =>
        cases hp : place k es with
        | none =>
          refine iff_of_false ?_ fun hn => not_inTime_of_place hk hp hn.2
          rintro ⟨o, ho, -⟩
          rw [mergeFlagged, hk] at ho
          simp [hp] at ho
        | some r =>
          obtain ⟨out, found, rest⟩ := r
          have hpl := place_placed hp
          have hleft : es = [] ∨ flagged es ≠ [] := by
            by_contra hn
            push Not at hn
            rw [place_eq_none.mpr hn] at hp
            cases hp
          rw [merges_cons_some hk hp h.head h.sorted hr h.apart,
            inTime_behind hpl hk (h.passed hk hpl hr) hleft, ih (h.step hpl)]
          refine and_congr_left fun _ => forall₂_congr fun m hm => ?_
          exact (right_later hpl hk h.order h.sorted hr h.apart hm).symm
    · refine iff_of_false (fun hm => hr (right_of_merges h.head hm)) fun hn => ?_
      exact hr (hn.1 l List.mem_cons_self)

/-- If the comparisons of every line lead to its place, then exactly the lines without an entry of
their key are kept. -/
theorem dropFlagged_eq_kept (h : Left cmp lineKey entKey lines es)
    (hr : ∀ l ∈ lines, Right cmp lineKey entKey (flagged es) l) (ht : InTime cmp lines es) :
    dropFlagged cmp lines es = some (kept lineKey entKey lines (flagged es)) := by
  induction lines generalizing es with
  | nil => rfl
  | cons l ls ih =>
    have hrl := hr l List.mem_cons_self
    cases hk : cmp l with
    | none =>
      have hrl' : ∀ e ∈ flagged es, entKey e ≠ lineKey l := by simpa [Right, hk] using hrl
      rw [dropFlagged, hk, kept_cons, if_pos hrl']
      simp only
      rw [ih h.tail (fun m hm => hr m (List.mem_cons_of_mem _ hm)) ((inTime_cons_none hk).mp ht)]
      rfl
    | some k =>
      cases hp : place k es with
      | none => exact absurd ht (not_inTime_of_place hk hp)
      | some r =>
        obtain ⟨out, found, rest⟩ := r
        have hpl := place_placed hp
        have hleft : es = [] ∨ flagged es ≠ [] := by
          by_contra hn
          push Not at hn
          rw [place_eq_none.mpr hn] at hp
          cases hp
        have hrest : ∀ m ∈ ls, Right cmp lineKey entKey (flagged rest) m := fun m hm =>
          (right_later hpl hk h.order h.sorted hrl h.apart hm).mp (hr m (List.mem_cons_of_mem _ hm))
        have htail := ih (h.step hpl) hrest
          ((inTime_behind hpl hk (h.passed hk hpl hrl) hleft).mp ht)
        have hfound := (hpl.keys hk h.head h.sorted hrl).2.2.1
        have hkept : kept lineKey entKey ls (flagged es) =
            kept lineKey entKey ls (flagged rest) := by
          rw [hpl.split]
          exact kept_behind fun m hm => hpl.before_later hk h.head h.sorted hrl h.apart hm
        rw [dropFlagged, hk, kept_cons, hkept]
        simp only [hp, Option.bind_some, htail, Option.map_some]
        cases found with
        | true =>
          obtain ⟨e, he, heq⟩ := hfound.mp rfl
          have hflag : ¬ ∀ e ∈ flagged es, entKey e ≠ lineKey l := fun hn => hn e he heq
          rw [if_neg hflag]
          rfl
        | false =>
          have hfree : ∀ e ∈ flagged es, entKey e ≠ lineKey l :=
            fun e he heq => nomatch hfound.mpr ⟨e, he, heq⟩
          rw [if_pos hfree]
          rfl

/-- A merge puts every entry and keeps at least the lines without an entry of their key. -/
theorem mergeFlagged_perm {o : List (α ⊕ ε)} (ho : KeyOrder cmp lineKey entKey lines (flagged es))
    (h : mergeFlagged cmp lines es = some o) :
    ∃ left, (kept lineKey entKey lines (flagged es)).Sublist left ∧ left.Sublist lines ∧
      o.Perm (left.map .inl ++ (flagged es).map .inr) := by
  induction lines generalizing es o with
  | nil =>
    obtain rfl := Option.some.inj h
    exact ⟨[], List.Sublist.refl _, List.Sublist.refl _, List.Perm.refl _⟩
  | cons l ls ih =>
    rw [mergeFlagged] at h
    cases hk : cmp l with
    | none =>
      rw [hk] at h
      obtain ⟨o', hls, rfl⟩ := Option.map_eq_some_iff.mp h
      obtain ⟨left, hkept, hsub, hperm⟩ :=
        ih (ho.mono (fun _ => List.mem_cons_of_mem _) fun _ => id) hls
      refine ⟨l :: left, ?_, hsub.cons_cons l, hperm.cons _⟩
      rw [kept_cons]
      split
      · exact hkept.cons_cons l
      · exact hkept.cons l
    | some k =>
      rw [hk] at h
      obtain ⟨⟨out, found, rest⟩, hp, hbind⟩ := Option.bind_eq_some_iff.mp h
      obtain ⟨o', hls, rfl⟩ := Option.map_eq_some_iff.mp hbind
      have hpl := place_placed hp
      have hmem : ∀ e ∈ flagged rest, e ∈ flagged es := by
        intro e he
        rw [hpl.split]
        exact List.mem_append_right _ he
      obtain ⟨left, hkept, hsub, hperm⟩ := ih (ho.mono (fun _ => List.mem_cons_of_mem _) hmem) hls
      have hkept' : (kept lineKey entKey ls (flagged es)).Sublist left := by
        refine List.Sublist.trans (List.monotone_filter_right _ fun m hm => ?_) hkept
        exact decide_eq_true fun e he => of_decide_eq_true hm e (hmem e he)
      have hentries : (flagged es).map (Sum.inr : ε → α ⊕ ε) =
          out.map Sum.inr ++ (flagged rest).map Sum.inr := by rw [hpl.split, List.map_append]
      cases found with
      | true =>
        obtain ⟨before, e, rfl, hzero, -, -⟩ := hpl.hit rfl
        have he : e ∈ flagged es := by rw [hpl.split]; simp
        have heq := ho.equal l List.mem_cons_self e he k hk hzero
        refine ⟨left, ?_, hsub.cons l, ?_⟩
        · rw [kept_cons, if_neg fun hn => hn e he heq.symm]
          exact hkept'
        · rw [hentries, if_pos rfl, List.append_nil]
          exact (hperm.append_left _).trans (List.perm_append_comm_assoc _ _ _)
      | false =>
        refine ⟨l :: left, ?_, hsub.cons_cons l, ?_⟩
        · rw [kept_cons]
          split
          · exact hkept'.cons_cons l
          · exact hkept'.cons l
        · rw [hentries, if_neg nofun, List.append_assoc]
          refine (List.Perm.append_left _ (hperm.cons _)).trans ?_
          exact List.perm_append_comm_assoc _ (Sum.inl l :: left.map Sum.inl) _

theorem merges_of_length {o : List (α ⊕ ε)} (ho : KeyOrder cmp lineKey entKey lines (flagged es))
    (h : mergeFlagged cmp lines es = some o)
    (hs : o.Pairwise fun x y => x.elim lineKey entKey ≤ y.elim lineKey entKey)
    (hl : o.length = (kept lineKey entKey lines (flagged es)).length + (flagged es).length) :
    Merges cmp lineKey entKey lines es := by
  obtain ⟨left, hkept, -, hperm⟩ := mergeFlagged_perm ho h
  have hlen := hperm.length_eq
  rw [List.length_append, List.length_map, List.length_map] at hlen
  rw [← hkept.eq_of_length (by omega)] at hperm
  exact ⟨o, h, hs, hperm⟩

theorem mergeFlagged_unflagged {o : List (α ⊕ ε)} (hF : flagged es = [])
    (h : mergeFlagged cmp lines es = some o) : o = lines.map .inl := by
  induction lines generalizing es o with
  | nil =>
    rw [mergeFlagged, hF] at h
    exact (Option.some.inj h).symm
  | cons l ls ih =>
    rw [mergeFlagged] at h
    cases hk : cmp l with
    | none =>
      rw [hk] at h
      obtain ⟨o', hls, rfl⟩ := Option.map_eq_some_iff.mp h
      rw [ih hF hls]
      rfl
    | some k =>
      rw [hk] at h
      obtain ⟨⟨out, found, rest⟩, hp, hbind⟩ := Option.bind_eq_some_iff.mp h
      obtain ⟨o', hls, rfl⟩ := Option.map_eq_some_iff.mp hbind
      have hpl := place_placed hp
      obtain ⟨rfl, hrest⟩ := List.append_eq_nil_iff.mp (hpl.split.symm.trans hF)
      cases found with
      | true =>
        obtain ⟨before, e, hout, -⟩ := hpl.hit rfl
        simp at hout
      | false =>
        rw [ih hrest hls]
        rfl

end Merge

end CLib
