import Pkgtools.CLib.Fnmatch
import Pkgtools.CLib.Words

namespace Pkgtools
open CLib
set_option autoImplicit true

/-- A rule of the special contents file that ends with `*`. -/
def isWildRule (rule : Str) : Bool := rule.getLast? = some '*'

/-- `match`: a rule that ends with `*` gives the beginning of the path. For another rule the path is
taken as the pattern and the rule as the text. -/
def ruleMatch (pc pcrule : Str) : Bool :=
  if isWildRule pcrule then pcrule.dropLast.isPrefixOf pc
  else fnmatchPathname pc pcrule || fnmatch pc pcrule

/-- The array of rules, some of them freed, and the position in it. -/
structure SpecialRules where
  ppcSC : List (Option Str)
  piX : Nat
  deriving DecidableEq, Repr

/-- The loop of `search_special_contents`, with the rounds that are left. -/
def searchLoop (pcpath : Str) : (rounds : Nat) → SpecialRules → Bool × SpecialRules
  | 0, st => (false, st)
  | n + 1, st =>
    match st.ppcSC[st.piX]? with
    | none => (false, st)
    | some none => searchLoop pcpath n { st with piX := st.piX + 1 }
    | some (some rule) =>
      if pcpath < rule then (isWildRule rule && ruleMatch pcpath rule, st)
      else if pcpath = rule then
        (ruleMatch pcpath rule, if isWildRule rule then st else { st with piX := st.piX + 1 })
      else if ruleMatch pcpath rule then (true, st)
      else searchLoop pcpath n ⟨st.ppcSC.set st.piX none, st.piX + 1⟩

/-- `search_special_contents`. -/
def searchSpecialContents (pcpath : Str) (st : SpecialRules) : Bool × SpecialRules :=
  searchLoop pcpath (st.ppcSC.length - st.piX) st

def searches : List Str → SpecialRules → List Bool
  | [], _ => []
  | p :: ps, st => (searchSpecialContents p st).1 :: searches ps (searchSpecialContents p st).2

section OnePass
variable {rules paths : List Str}

/-- The search, over the rules that are left. -/
def searchRest (p : Str) : List Str → Bool × List Str
  | [] => (false, [])
  | r :: rs =>
    if p < r then (isWildRule r && ruleMatch p r, r :: rs)
    else if p = r then (ruleMatch p r, if isWildRule r then r :: rs else rs)
    else if ruleMatch p r then (true, r :: rs)
    else searchRest p rs

def SpecialRules.Left (st : SpecialRules) (rs : List Str) : Prop :=
  st.ppcSC.drop st.piX = rs.map some

theorem SpecialRules.Left.head {st : SpecialRules} (h : st.Left (r :: rs)) :
    st.ppcSC[st.piX]? = some (some r) ∧ st.piX < st.ppcSC.length := by
  have hhead : (st.ppcSC.drop st.piX)[0]? = some (some r) := by rw [h]; rfl
  rw [List.getElem?_drop, Nat.add_zero] at hhead
  exact ⟨hhead, (List.getElem?_eq_some_iff.mp hhead).1⟩

theorem SpecialRules.Left.next {st : SpecialRules} (h : st.Left (r :: rs)) :
    st.ppcSC.drop (st.piX + 1) = rs.map some := by
  rw [← List.drop_drop, h]
  rfl

theorem searchLoop_left (p : Str) {st : SpecialRules} (h : st.Left rs) (n : Nat)
    (hn : rs.length ≤ n) :
    (searchLoop p n st).1 = (searchRest p rs).1 ∧
      (searchLoop p n st).2.Left (searchRest p rs).2 := by
  induction rs generalizing st n with
  | nil =>
    have hend : st.ppcSC[st.piX]? = none := by
      rw [List.getElem?_eq_none_iff, ← List.drop_eq_nil_iff, h, List.map_nil]
    cases n with
    | zero => exact ⟨rfl, h⟩
    | succ n =>
      rw [searchLoop, hend]
      exact ⟨rfl, h⟩
  | cons r rs ih =>
    obtain ⟨n, rfl⟩ : ∃ k, n = k + 1 := ⟨n - 1, by rw [List.length_cons] at hn; omega⟩
    rw [List.length_cons] at hn
    obtain ⟨hhead, hlt⟩ := h.head
    rw [searchLoop, hhead, searchRest]
    dsimp only
    split
    · exact ⟨rfl, h⟩
    · split
      · refine ⟨rfl, ?_⟩
        split
        · exact h
        · exact h.next
      · split
        · exact ⟨rfl, h⟩
        · refine ih ?_ n (by omega)
          rw [SpecialRules.Left, List.drop_set_of_lt (Nat.lt_succ_self _)]
          exact h.next

def searchesRest : List Str → List Str → List Bool
  | [], _ => []
  | p :: ps, rs => (searchRest p rs).1 :: searchesRest ps (searchRest p rs).2

theorem searches_left {st : SpecialRules} (h : st.Left rs) (ps : List Str) :
    searches ps st = searchesRest ps rs := by
  induction ps generalizing st rs with
  | nil => rfl
  | cons p ps ih =>
    have hlen : rs.length ≤ st.ppcSC.length - st.piX := by
      have := congrArg List.length h
      rw [List.length_drop, List.length_map] at this
      omega
    obtain ⟨h₁, h₂⟩ := searchLoop_left p h _ hlen
    rw [searches, searchesRest, searchSpecialContents, h₁, ih h₂]

/-- Rules without a `*` at the end match their own text only; the path is no pattern. -/
def PlainMatch (p : Str) (rules : List Str) : Prop :=
  ∀ r ∈ rules, isWildRule r = false → (ruleMatch p r ↔ p = r)

/-- A rule with a `*` that is not greater than the path matches it. -/
def Covered (p : Str) (rules : List Str) : Prop := ∃ r ∈ rules, isWildRule r ∧ r ≤ p ∧ ruleMatch p r

theorem ruleMatch_wild (h : isWildRule r) : ∃ q, r = q ++ ['*'] ∧ ∀ p, ruleMatch p r ↔ q <+: p := by
  obtain ⟨q, rfl⟩ := List.getLast?_eq_some_iff.mp (of_decide_eq_true h)
  refine ⟨q, rfl, fun p => ?_⟩
  rw [ruleMatch, if_pos h, List.dropLast_concat, List.isPrefixOf_iff_prefix]

theorem ruleMatch_wild_self (h : isWildRule r) : ruleMatch r r := by
  obtain ⟨q, rfl, hq⟩ := ruleMatch_wild h
  exact (hq _).mpr (List.prefix_append _ _)

/-- A rule with a `*` that the paths have gone past does not match a later path. -/
theorem ruleMatch_past (h : isWildRule r) (hlt : r < q) (hno : ruleMatch q r = false)
    (hle : q ≤ p) :
    ruleMatch p r = false := by
  obtain ⟨s, rfl, hs⟩ := ruleMatch_wild h
  refine Bool.eq_false_iff.mpr fun hm => ?_
  obtain ⟨u, rfl⟩ := (hs p).mp hm
  exact Bool.eq_false_iff.mp hno ((hs q).mpr (prefix_of_between hlt.le hle))

theorem searchRest_consumed (p : Str) (rs : List Str) :
    ∃ B, rs = B ++ (searchRest p rs).2 ∧
      ∀ b ∈ B, b ≤ p ∧ (isWildRule b → b < p ∧ ruleMatch p b = false) := by
  induction rs with
  | nil => exact ⟨[], rfl, nofun⟩
  | cons r rs ih =>
    rw [searchRest]
    split
    · exact ⟨[], rfl, nofun⟩
    · rename_i hge
      split
      · rename_i he
        cases hw : isWildRule r with
        | true => exact ⟨[], rfl, nofun⟩
        | false =>
          refine ⟨[r], rfl, fun b hb => ?_⟩
          obtain rfl := List.mem_singleton.mp hb
          refine ⟨he ▸ le_rfl, fun hw' => ?_⟩
          rw [hw] at hw'
          cases hw'
      · rename_i hne
        have hlt : r < p := lt_of_le_of_ne (not_lt.mp hge) (Ne.symm hne)
        split
        · exact ⟨[], rfl, nofun⟩
        · rename_i hm
          obtain ⟨B, hB, hall⟩ := ih
          refine ⟨r :: B, by rw [List.cons_append, ← hB], fun b hb => ?_⟩
          rcases List.mem_cons.mp hb with rfl | hb
          · exact ⟨hlt.le, fun _ => ⟨hlt, Bool.eq_false_iff.mpr hm⟩⟩
          · exact hall b hb

theorem searchRest_covered (hs : rs.Pairwise (· ≤ ·)) (h : Covered p rs) :
    (searchRest p rs).1 = true := by
  induction rs with
  | nil =>
    obtain ⟨r, hr, -⟩ := h
    cases hr
  | cons r rs ih =>
    obtain ⟨hr, hs⟩ := List.pairwise_cons.mp hs
    obtain ⟨w, hw, hwild, hle, hm⟩ := h
    rw [searchRest]
    rcases List.mem_cons.mp hw with rfl | hmem
    · rw [if_neg (not_lt.mpr hle), hm]
      split
      · rfl
      · rfl
    · have hrw := hr w hmem
      rw [if_neg (not_lt.mpr (hrw.trans hle))]
      split
      · rename_i he
        -- the rule equals the path, so it is the one with the star
        have : r = w := le_antisymm hrw (he ▸ hle)
        rw [this]
        exact hm
      · split
        · rfl
        · exact ih hs ⟨w, hmem, hwild, hle, hm⟩

theorem searchRest_uncovered (hs : rs.Pairwise (· ≤ ·)) (hp : PlainMatch p rs)
    (h : ¬ Covered p rs) :
    ((searchRest p rs).1 = true ↔ 0 < rs.count p ∨ (rs.find? (p < ·)).any (ruleMatch p)) ∧
      (searchRest p rs).2.count p = rs.count p - 1 := by
  induction rs with
  | nil => exact ⟨by simp [searchRest], rfl⟩
  | cons r rs ih =>
    obtain ⟨hr, hs⟩ := List.pairwise_cons.mp hs
    have hr' := hp r List.mem_cons_self
    rw [searchRest]
    rcases lt_trichotomy p r with hlt | rfl | hgt
    · -- the first rule greater than the path
      have hcount : (r :: rs).count p = 0 := by
        refine List.count_eq_zero.mpr fun hm => ?_
        rcases List.mem_cons.mp hm with he | hm
        · exact absurd hlt (he ▸ lt_irrefl _)
        · exact absurd (hr p hm) (not_le.mpr hlt)
      have hfind : (r :: rs).find? (p < ·) = some r := List.find?_cons_of_pos (by simpa using hlt)
      rw [if_pos hlt, hcount, hfind]
      refine ⟨?_, rfl⟩
      simp only [Nat.lt_irrefl, false_or, Option.any_some, Bool.and_eq_true, and_iff_right_iff_imp]
      intro hm
      by_contra hw
      exact absurd ((hr' (Bool.eq_false_iff.mpr hw)).mp hm) hlt.ne
    · have hw : isWildRule p = false := Bool.eq_false_iff.mpr fun hw =>
        h ⟨p, List.mem_cons_self, hw, le_rfl, ruleMatch_wild_self hw⟩
      rw [if_neg (lt_irrefl _), if_pos rfl, (hr' hw).mpr rfl, hw, List.count_cons_self]
      exact ⟨⟨fun _ => .inl (Nat.succ_pos _), fun _ => rfl⟩, rfl⟩
    · have hno : ruleMatch p r = false := by
        refine Bool.eq_false_iff.mpr fun hm => ?_
        cases hw : isWildRule r with
        | true => exact h ⟨r, List.mem_cons_self, hw, hgt.le, hm⟩
        | false => exact absurd ((hr' hw).mp hm) hgt.ne'
      rw [if_neg (not_lt.mpr hgt.le), if_neg hgt.ne', hno, if_neg Bool.false_ne_true,
        List.count_cons_of_ne hgt.ne, List.find?_cons_of_neg (by simpa using hgt.le)]
      refine ih hs (fun x hx => hp x (List.mem_cons_of_mem _ hx)) ?_
      rintro ⟨x, hx, hrest⟩
      exact h ⟨x, List.mem_cons_of_mem _ hx, hrest⟩

/-- The rules that were passed over by the searches for some paths, and those that are left. -/
structure Passed (rules done rs : List Str) : Prop where
  split : ∃ A, rules = A ++ rs ∧ (∀ a ∈ A, ∃ q ∈ done, a ≤ q) ∧
    (∀ a ∈ A, isWildRule a → ∃ q ∈ done, a < q ∧ ruleMatch q a = false) ∧
    ∀ p, (∀ q ∈ done, q ≤ p) → ¬ Covered p rules → A.count p = min (done.count p) (rules.count p)

theorem Passed.nil (rules : List Str) : Passed rules [] rules :=
  ⟨[], rfl, nofun, nofun, fun p _ _ => by simp⟩

theorem Passed.covered_iff (h : Passed rules done rs) (hp : ∀ q ∈ done, q ≤ p) :
    Covered p rs ↔ Covered p rules := by
  obtain ⟨A, rfl, -, hwild, -⟩ := h.split
  constructor
  · rintro ⟨r, hr, hrest⟩
    exact ⟨r, List.mem_append_right _ hr, hrest⟩
  · rintro ⟨r, hr, hw, hle, hm⟩
    rcases List.mem_append.mp hr with hr | hr
    · obtain ⟨q, hq, hlt, hno⟩ := hwild r hr hw
      rw [ruleMatch_past hw hlt hno (hp q hq)] at hm
      cases hm
    · exact ⟨r, hr, hw, hle, hm⟩

theorem Passed.find_eq (h : Passed rules done rs) (hp : ∀ q ∈ done, q ≤ p) :
    rs.find? (p < ·) = rules.find? (p < ·) := by
  obtain ⟨A, rfl, hA, -⟩ := h.split
  have hnone : A.find? (p < ·) = none := by
    refine List.find?_eq_none.mpr fun a ha => ?_
    obtain ⟨q, hq, hle⟩ := hA a ha
    simpa using hle.trans (hp q hq)
  rw [List.find?_append, hnone, Option.none_or]

/-- What is left for a path that no rule with a `*` covers: the copies of it that were not used. -/
theorem Passed.count_eq (h : Passed rules done rs) (hp : ∀ q ∈ done, q ≤ p)
    (hc : ¬ Covered p rules) :
    rs.count p = rules.count p - done.count p := by
  obtain ⟨A, hsplit, -, -, hcount⟩ := h.split
  have hA := hcount p hp hc
  have := congrArg (List.count p) hsplit
  rw [List.count_append] at this
  omega

theorem Passed.next (h : Passed rules done rs) (hs : rules.Pairwise (· ≤ ·))
    (hm : PlainMatch p rules)
    (hp : ∀ q ∈ done, q ≤ p) : Passed rules (done ++ [p]) (searchRest p rs).2 := by
  obtain ⟨B, hB, hconsumed⟩ := searchRest_consumed p rs
  have hleft := h.count_eq hp
  obtain ⟨A, hsplit, hA, hwild, hcount⟩ := h.split
  have hrs : rs.Pairwise (· ≤ ·) := (List.pairwise_append.mp (hsplit ▸ hs)).2.1
  have hplain : PlainMatch p rs := fun r hr => hm r (hsplit ▸ List.mem_append_right _ hr)
  refine ⟨A ++ B, by rw [List.append_assoc, ← hB, ← hsplit], ?_, ?_, ?_⟩
  · intro a ha
    rcases List.mem_append.mp ha with ha | ha
    · obtain ⟨q, hq, hle⟩ := hA a ha
      exact ⟨q, List.mem_append_left _ hq, hle⟩
    · exact ⟨p, List.mem_append_right _ (List.mem_singleton_self p), (hconsumed a ha).1⟩
  · intro a ha hw
    rcases List.mem_append.mp ha with ha | ha
    · obtain ⟨q, hq, hlt⟩ := hwild a ha hw
      exact ⟨q, List.mem_append_left _ hq, hlt⟩
    · exact ⟨p, List.mem_append_right _ (List.mem_singleton_self p), (hconsumed a ha).2 hw⟩
  · intro x hx hc
    have hA := hcount x (fun q hq => hx q (List.mem_append_left _ hq)) hc
    have hpx := hx p (List.mem_append_right _ (List.mem_singleton_self p))
    have hB' := congrArg (List.count x) hB
    rw [List.count_append] at hB'
    rw [List.count_append, List.count_append, hA]
    by_cases he : p = x
    · subst he
      have hused := (searchRest_uncovered hrs hplain ((h.covered_iff hp).not.mpr hc)).2
      rw [List.count_singleton_self]
      have := hleft hc
      omega
    · -- what was passed over is not greater than the path
      have hzero : B.count x = 0 := List.count_eq_zero.mpr fun hx' =>
        he (le_antisymm hpx (hconsumed x hx').1)
      rw [hzero, List.count_singleton, if_neg (by simpa using he)]
      omega

/-- The search finds what the plain one finds for a path that follows others: no rule matches; or
one with a `*` does that is not greater; or there are more rules that equal it than paths before it;
or the first greater rule matches. -/
def FoundInPass (rules before : List Str) (p : Str) : Prop :=
  rules.any (ruleMatch p) = false ∨ Covered p rules ∨ before.count p < rules.count p ∨
    (rules.find? (p < ·)).any (ruleMatch p)

theorem Passed.search_iff (h : Passed rules done rs) (hs : rules.Pairwise (· ≤ ·))
    (hm : PlainMatch p rules) (hp : ∀ q ∈ done, q ≤ p) :
    (searchRest p rs).1 = rules.any (ruleMatch p) ↔ FoundInPass rules done p := by
  obtain ⟨A, hsplit, -⟩ := h.split
  have hrs : rs.Pairwise (· ≤ ·) := (List.pairwise_append.mp (hsplit ▸ hs)).2.1
  have hplain : PlainMatch p rs := fun r hr => hm r (hsplit ▸ List.mem_append_right _ hr)
  by_cases hc : Covered p rules
  · rw [searchRest_covered hrs ((h.covered_iff hp).mpr hc)]
    obtain ⟨r, hr, hw, hle, hmatch⟩ := hc
    exact iff_of_true (List.any_eq_true.mpr ⟨r, hr, hmatch⟩).symm
      (.inr (.inl ⟨r, hr, hw, hle, hmatch⟩))
  · obtain ⟨hres, -⟩ := searchRest_uncovered hrs hplain ((h.covered_iff hp).not.mpr hc)
    rw [h.count_eq hp hc, h.find_eq hp, Nat.sub_pos_iff_lt] at hres
    have hany : (searchRest p rs).1 = true → rules.any (ruleMatch p) = true := by
      intro htrue
      rw [List.any_eq_true]
      rcases hres.mp htrue with hcount | hfind
      · have hmem : p ∈ rules := List.count_pos_iff.mp (by omega)
        refine ⟨p, hmem, (hm p hmem ?_).mpr rfl⟩
        exact Bool.eq_false_iff.mpr fun hw => hc ⟨p, hmem, hw, le_rfl, ruleMatch_wild_self hw⟩
      · obtain ⟨r, hr, hmatch⟩ := (Option.any_eq_true _ _).mp hfind
        exact ⟨r, List.mem_of_find?_eq_some hr, hmatch⟩
    rw [FoundInPass, or_iff_right hc, ← hres]
    cases h₁ : (searchRest p rs).1 with
    | true => simp [hany h₁]
    | false => simp

theorem Passed.searches_iff (h : Passed rules done rs) (hs : rules.Pairwise (· ≤ ·))
    (hpaths : (done ++ ps).Pairwise (· ≤ ·)) (hm : ∀ p ∈ ps, PlainMatch p rules) :
    searchesRest ps rs = ps.map (fun p => rules.any (ruleMatch p)) ↔
      ∀ i p, ps[i]? = some p → FoundInPass rules (done ++ ps.take i) p := by
  induction ps generalizing done rs with
  | nil => simp [searchesRest]
  | cons p ps ih =>
    have hp : ∀ q ∈ done, q ≤ p := fun q hq =>
      (List.pairwise_append.mp hpaths).2.2 q hq p List.mem_cons_self
    have hmp := hm p List.mem_cons_self
    have hnext := ih (h.next hs hmp hp) (by rw [List.append_assoc]; exact hpaths)
      fun q hq => hm q (List.mem_cons_of_mem _ hq)
    rw [searchesRest, List.map_cons, List.cons.injEq, h.search_iff hs hmp hp, hnext]
    constructor
    · rintro ⟨hfirst, hrest⟩ i q hq
      cases i with
      | zero =>
        obtain rfl := Option.some.inj hq
        rw [List.take_zero, List.append_nil]
        exact hfirst
      | succ i =>
        have := hrest i q hq
        rw [List.append_assoc] at this
        exact this
    · intro hall
      refine ⟨?_, fun i q hq => ?_⟩
      · have := hall 0 p rfl
        rw [List.take_zero, List.append_nil] at this
        exact this
      · rw [List.append_assoc]
        exact hall (i + 1) q hq

/-- A path without the characters of a pattern is matched by rules with its own text. -/
theorem plainMatch_of_plain (hp : ∀ c ∈ p, isPatternChar c = false) (rules : List Str) :
    PlainMatch p rules := by
  intro r _ hw
  rw [ruleMatch, if_neg (Bool.eq_false_iff.mp hw), fnmatch_plain hp, fnmatchPathname_plain hp,
    Bool.or_self, decide_eq_true_eq]

/-- The one-pass search agrees with the plain one, for paths that are no patterns, when every path
is found that way. -/
theorem searches_agree_iff (hrules : rules.Pairwise (· ≤ ·))
    (hpaths : paths.Pairwise (· ≤ ·)) (hplain : ∀ p ∈ paths, PlainMatch p rules) :
    searches paths ⟨rules.map some, 0⟩ = paths.map (fun p => rules.any (ruleMatch p)) ↔
      ∀ i p, paths[i]? = some p → FoundInPass rules (paths.take i) p := by
  rw [searches_left (show SpecialRules.Left ⟨rules.map some, 0⟩ rules from rfl)]
  exact (Passed.nil rules).searches_iff hrules hpaths hplain

/-- A rule with a `*` and one without. -/
theorem searches_agree_iff_sample :
    searches ["/a".toList, "/b/c".toList] ⟨["/a".toList, "/b*".toList].map some, 0⟩ =
      ["/a".toList, "/b/c".toList].map fun p => ["/a".toList, "/b*".toList].any (ruleMatch p) := by
  refine (searches_agree_iff (by decide +kernel) (by decide +kernel) ?_).mpr ?_
  · intro p hp
    refine plainMatch_of_plain ?_ _
    rcases List.mem_pair.mp hp with rfl | rfl <;> decide
  · intro i p hp
    match i, hp with
    | 0, hp =>
      obtain rfl := Option.some.inj hp
      exact .inr (.inr (.inl (by decide +kernel)))
    | 1, hp =>
      obtain rfl := Option.some.inj hp
      exact .inr (.inl ⟨"/b*".toList, by decide, by decide +kernel, by decide +kernel,
        by decide +kernel⟩)

/-- The search stops at a rule that sorts between the path and the rule that matches it. -/
theorem searches_stop_early :
    ¬ ∀ rules paths : List Str, (∀ r ∈ rules, r ≠ []) → rules.Pairwise (· ≤ ·) →
      paths.Pairwise (· ≤ ·) →
        searches paths ⟨rules.map some, 0⟩ = paths.map fun p => rules.any (ruleMatch p) := by
  intro h
  have hstop := h ["/a#".toList, "/a*".toList] ["/a!x".toList] (by decide) (by decide +kernel)
    (by decide +kernel)
  exact absurd hstop (by decide +kernel)

end OnePass

end Pkgtools
