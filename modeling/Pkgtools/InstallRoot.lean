import Pkgtools.CLib.Words
import Pkgtools.Entry

namespace Pkgtools
open CLib
set_option autoImplicit true

/-- `isdot`: a component `.` is next. -/
def isdot : Str → Bool
  | ['.'] => true
  | '.' :: '/' :: _ => true
  | _ => false

/-- `isdotdot`: a component `..` is next. -/
def isdotdot : Str → Bool
  | ['.', '.'] => true
  | '.' :: '.' :: '/' :: _ => true
  | _ => false

/-- Count the components `..` that follow each other: their number and the text behind them. -/
def countLevels : (fuel : Nat) → (level : Nat) → (last : Str) → Nat × Str
  | 0, level, last => (level, last)
  | fuel + 1, level, last =>
    if isdotdot last then countLevels fuel (level + 1) (last.drop 3) else (level, last)

/-- Go back to the slash in front, or to the start of the file. The text before the position is
given in reverse, from the character at the position on. -/
def backUpTo : Str → Str
  | c :: d :: pre => if c = '/' then c :: d :: pre else backUpTo (d :: pre)
  | pre => pre

/-- Go back as many components; nothing is left to go back over if it returns nothing. -/
def backLevels : (level : Nat) → Str → Option Str
  | 0, pre => some pre
  | level + 1, pre => if pre.length ≤ 1 then none else backLevels level (backUpTo pre.tail)

/-- The loop of `canonize`, with the text in front of the position in reverse. Every round takes
something from the text behind it. -/
def canonizeLoop : (fuel : Nat) → (pre pt : Str) → Str
  | 0, pre, pt => pre.reverse ++ pt
  | _ + 1, pre, [] =>
    if 1 < pre.length ∧ pre.head? = some '/' then pre.tail.reverse else pre.reverse
  | fuel + 1, pre, c :: s =>
    if isdot (c :: s) then canonizeLoop fuel pre (s.drop 1)
    else if isdotdot (c :: s) then
      let (level, last) := countLevels (c :: s).length 0 (c :: s)
      match backLevels level pre with
      | none => pre.reverse ++ c :: s
      | some pre => canonizeLoop fuel (if pre.head? = some '/' then pre else pre.tail) last
    else
      let word := (c :: s).takeWhile (· ≠ '/')
      match (c :: s).dropWhile (· ≠ '/') with
      | [] => canonizeLoop fuel (word.reverse ++ pre) []
      | d :: s => canonizeLoop fuel (d :: word.reverse ++ pre) (s.dropWhile (· = '/'))

/-- `canonize`. -/
def canonize (file : Str) : Str := canonizeLoop (file.length + 1) [] file

/-- The static variables for the install root. -/
structure RootState where
  installRoot : Option Str
  installRootExists : Bool
  installRootLen : Nat
  irAccessed : Bool
  deriving DecidableEq, Repr

/-- `set_inst_root`. -/
def setInstRoot (path : Str) (st : RootState) : Bool × RootState :=
  let other := st.installRootExists ∧ st.installRoot ≠ some path
  if other ∧ st.irAccessed then (false, st)
  else
    let st := if other then { st with installRootExists := false, installRoot := none } else st
    if path = [] then (true, { st with installRootExists := false })
    else if path.head? ≠ some '/' then (false, st)
    else
      let root := canonize (strlcpy pathMax path)
      (true, { st with
        installRoot := some root
        installRootExists := true
        installRootLen := if root.length = 1 then 0 else root.length })

/-- `fixpath`: the root with the path behind it. A slash at the end of the root is overwritten. -/
def fixpath (path : Str) (st : RootState) : Option Str × RootState :=
  if path = [] then
    if st.installRootExists then (st.installRoot, { st with irAccessed := true }) else (none, st)
  else if st.installRootExists then
    let root := st.installRoot.getD []
    let npath := if path = ['/'] then root
      else (if root.getLast? = some '/' then root.dropLast else root) ++ path
    (some npath, { st with irAccessed := true })
  else (some path, st)

/-- `orig_path_ptr`; undefined where the process quits. -/
def origPathPtr (path : Str) (st : RootState) : Option (Option Str) :=
  if path = [] then some none
  else if st.installRootExists = false then some (some (canonize path))
  else if ((st.installRoot.getD []).take st.installRootLen).isPrefixOf path then
    match path.drop st.installRootLen with
    | [] => some (some (canonize ['/']))
    | c :: s =>
      if c = '/' then some (some (canonize (c :: s)))
      -- back one character
      else if 0 < st.installRootLen ∧ path[st.installRootLen - 1]? = some '/' then
        some (some (canonize ('/' :: c :: s)))
      else none
  else some (some (canonize path))

/-- An absolute path that `canonize` leaves as it is. -/
structure Canonical (path : Str) : Prop where
  absolute : path.head? = some '/'
  fixed : canonize path = path

def components (path : Str) : List Str := words (· == '/') path

def Outside (root path : Str) : Prop := ¬ components root <+: components path

instance (root path : Str) : Decidable (Outside root path) := inferInstanceAs (Decidable (¬ _))

section Canonize

theorem isdotdot_length (h : isdotdot s) : 2 ≤ s.length := by
  unfold isdotdot at h
  split at h
  · simp
  · simp
  · cases h

theorem countLevels_length (fuel level : Nat) (s : Str) : (countLevels fuel level s).2.length ≤
    s.length := by
  induction fuel generalizing level s with
  | zero => exact le_rfl
  | succ fuel ih =>
    rw [countLevels]
    split
    · refine (ih _ _).trans ?_
      rw [List.length_drop]
      omega
    · exact le_rfl

theorem backUp_suffix (pre : Str) : backUpTo pre <:+ pre := by
  fun_induction backUpTo pre with
  | case1 d pre => exact List.suffix_rfl
  | case2 c d pre hc ih => exact ih.trans (List.suffix_cons _ _)
  | case3 pre h => exact List.suffix_rfl

theorem backUp_ne_nil (h : pre ≠ []) : backUpTo pre ≠ [] := by
  fun_induction backUpTo pre with
  | case1 d pre => exact h
  | case2 c d pre hc ih => exact ih (List.cons_ne_nil _ _)
  | case3 pre => exact h

theorem backLevels_suffix (h : backLevels level pre = some pre') :
    pre' <:+ pre ∧ (pre ≠ [] → pre' ≠ []) := by
  induction level generalizing pre with
  | zero =>
    obtain rfl := Option.some.inj h
    exact ⟨List.suffix_rfl, id⟩
  | succ level ih =>
    rw [backLevels] at h
    split at h
    · cases h
    · rename_i hlen
      obtain ⟨hs, hne⟩ := ih h
      refine ⟨hs.trans ((backUp_suffix _).trans (List.tail_suffix _)),
        fun _ => hne (backUp_ne_nil ?_)⟩
      intro he
      have := congrArg List.length he
      rw [List.length_tail, List.length_nil] at this
      omega

theorem length_canonizeLoop (fuel : Nat) (pre pt : Str) :
    (canonizeLoop fuel pre pt).length ≤ pre.length + pt.length := by
  induction fuel generalizing pre pt with
  | zero => rw [canonizeLoop, List.length_append, List.length_reverse]
  | succ fuel ih =>
    cases pt with
    | nil =>
      rw [canonizeLoop]
      split <;> simp
    | cons c s =>
      rw [canonizeLoop]
      split
      · refine (ih _ _).trans ?_
        rw [List.length_drop, List.length_cons]
        omega
      · split
        · have hlast := countLevels_length (c :: s).length 0 (c :: s)
          dsimp only
          split
          · rw [List.length_append, List.length_reverse]
          · rename_i pre' hpre'
            have hpre := (backLevels_suffix hpre').1.length_le
            refine (ih _ _).trans (Nat.add_le_add ?_ hlast)
            split
            · exact hpre
            · rw [List.length_tail]
              omega
        · have hsplit := congrArg List.length
            (List.takeWhile_append_dropWhile (p := (· ≠ '/')) (l := c :: s))
          rw [List.length_append] at hsplit
          dsimp only
          split
          · rename_i hd
            rw [hd] at hsplit
            refine (ih _ _).trans ?_
            rw [List.length_append, List.length_reverse]
            omega
          · rename_i d s' hd
            rw [hd, List.length_cons] at hsplit
            have hskip := (List.dropWhile_suffix (l := s') (· = '/')).length_le
            refine (ih _ _).trans ?_
            rw [List.length_append, List.length_cons, List.length_reverse]
            omega

theorem getLast_append_pre (h : pre.getLast? = some '/') (word : Str) :
    (word ++ pre).getLast? = some '/' := by
  rw [List.getLast?_append, h, Option.some_or]

theorem getLast_of_suffix {pre pre' : Str} (h : pre.getLast? = some '/') (hs : pre' <:+ pre)
    (hne : pre' ≠ []) : pre'.getLast? = some '/' := by
  obtain ⟨word, rfl⟩ := hs
  cases hl : pre'.getLast? with
  | none => exact absurd (List.getLast?_eq_none_iff.mp hl) hne
  | some c => rw [List.getLast?_append, hl, Option.some_or] at h; exact h

theorem head_canonizeLoop (fuel : Nat) (h : pre.getLast? = some '/') (pt : Str) :
    (canonizeLoop fuel pre pt).head? = some '/' := by
  have hne {pre : Str} (h : pre.getLast? = some '/') : pre ≠ [] := by
    rintro rfl
    cases h
  have hhead {pre : Str} (h : pre.getLast? = some '/') (s : Str) :
      (pre.reverse ++ s).head? = some '/' := by
    rw [List.head?_append, List.head?_reverse, h, Option.some_or]
  induction fuel generalizing pre pt with
  | zero => exact hhead h pt
  | succ fuel ih =>
    cases pt with
    | nil =>
      rw [canonizeLoop]
      split
      · rename_i hcut
        rw [List.head?_reverse]
        refine getLast_of_suffix h (List.tail_suffix _) ?_
        intro he
        have := congrArg List.length he
        rw [List.length_tail, List.length_nil] at this
        omega
      · rw [List.head?_reverse]
        exact h
    | cons c s =>
      rw [canonizeLoop]
      split
      · exact ih h _
      · split
        · dsimp only
          split
          · exact hhead h _
          · rename_i pre' hpre'
            obtain ⟨hs, hne'⟩ := backLevels_suffix hpre'
            have hlast := getLast_of_suffix h hs (hne' (hne h))
            refine ih ?_ _
            split
            · exact hlast
            · rename_i hslash
              refine getLast_of_suffix hlast (List.tail_suffix _) ?_
              intro he
              -- a single character that is left is the first slash
              obtain ⟨d, rfl⟩ : ∃ d, pre' = [d] := by
                cases pre' with
                | nil => cases hlast
                | cons d pre' => exact ⟨d, by rw [List.tail_cons] at he; rw [he]⟩
              exact hslash hlast
        · dsimp only
          split
          · exact ih (getLast_append_pre h _) _
          · rename_i d s' hd
            exact ih (getLast_append_pre h (d :: _)) _

theorem canonizeLoop_slash (fuel : Nat) (pre s : Str) :
    canonizeLoop (fuel + 1) pre ('/' :: s) =
      canonizeLoop fuel ('/' :: pre) (s.dropWhile (· = '/')) := by
  rw [canonizeLoop]
  simp [isdot, isdotdot]

theorem head_canonize (h : path.head? = some '/') : (canonize path).head? = some '/' := by
  cases path with
  | nil => cases h
  | cons c s =>
    obtain rfl := Option.some.inj h
    rw [canonize, List.length_cons, canonizeLoop_slash]
    exact head_canonizeLoop _ rfl _

theorem Canonical.single_slash (h : Canonical ('/' :: c :: s)) : c ≠ '/' := by
  rintro rfl
  have hlen := congrArg List.length h.fixed
  rw [canonize, List.length_cons, canonizeLoop_slash] at hlen
  have hle := length_canonizeLoop (('/' :: s).length + 1) ['/'] (('/' :: s).dropWhile (· = '/'))
  have hskip := (List.dropWhile_suffix (l := s) (· = '/')).length_le
  rw [hlen] at hle
  simp only [List.length_cons, List.length_nil, List.dropWhile_cons] at hle
  simp only [decide_true, if_true] at hle
  omega

theorem Canonical.exists_cons (h : Canonical path) : ∃ s, path = '/' :: s := by
  cases path with
  | nil => exact absurd h.absolute nofun
  | cons c s => exact ⟨s, by rw [Option.some.inj h.absolute]⟩

theorem canonize_root : canonize ['/'] = ['/'] := by decide

theorem countLevels_lt (h : isdotdot s) (fuel : Nat) : (countLevels (fuel + 1) 0 s).2.length <
    s.length := by
  have hlen := isdotdot_length h
  rw [countLevels, if_pos h]
  refine (countLevels_length _ _ _).trans_lt ?_
  rw [List.length_drop]
  omega

/-- A component of a path that `canonize` has nothing to do with. -/
structure PlainComponent (comp : Str) : Prop where
  nonempty : comp ≠ []
  noSlash : '/' ∉ comp
  notDot : comp ≠ ['.']
  notDotdot : comp ≠ ['.', '.']

def slashed (comps : List Str) : Str := comps.flatMap ('/' :: ·)

theorem takeWhile_of_isdot (h : isdot s) : s.takeWhile (· ≠ '/') = ['.'] := by
  unfold isdot at h
  split at h
  · rfl
  · rfl
  · cases h

theorem takeWhile_of_isdotdot (h : isdotdot s) : s.takeWhile (· ≠ '/') = ['.', '.'] := by
  unfold isdotdot at h
  split at h
  · rfl
  · rfl
  · cases h

theorem PlainComponent.split (h : PlainComponent comp) (comps : List Str) :
    (comp ++ slashed comps).takeWhile (· ≠ '/') = comp ∧
      (comp ++ slashed comps).dropWhile (· ≠ '/') = slashed comps := by
  have hall : ∀ c ∈ comp, decide (c ≠ '/') = true := fun c hc =>
    decide_eq_true fun he => h.noSlash (he ▸ hc)
  have hnext : (slashed comps).takeWhile (· ≠ '/') = [] ∧
      (slashed comps).dropWhile (· ≠ '/') = slashed comps := by
    cases comps with
    | nil => exact ⟨rfl, rfl⟩
    | cons d ds => exact ⟨rfl, rfl⟩
  rw [List.takeWhile_append_of_pos hall, List.dropWhile_append_of_pos hall, hnext.1, hnext.2,
    List.append_nil]
  exact ⟨rfl, rfl⟩

theorem PlainComponent.dropWhile_slash (h : PlainComponent comp) (s : Str) :
    (comp ++ s).dropWhile (· = '/') = comp ++ s := by
  cases comp with
  | nil => exact absurd rfl h.nonempty
  | cons c comp =>
    have hc : c ≠ '/' := fun he => h.noSlash (he ▸ List.mem_cons_self)
    simp [hc]

theorem canonizeLoop_component (h : PlainComponent comp) (comps : List Str) (fuel : Nat)
    (pre : Str) :
    canonizeLoop (fuel + 1) pre (comp ++ slashed comps) =
      match slashed comps with
      | [] => canonizeLoop fuel (comp.reverse ++ pre) []
      | d :: s => canonizeLoop fuel (d :: comp.reverse ++ pre) (s.dropWhile (· = '/')) := by
  obtain ⟨htake, hdrop⟩ := h.split comps
  have hdot : isdot (comp ++ slashed comps) = false := by
    refine Bool.eq_false_iff.mpr fun hd => h.notDot ?_
    rw [← htake, takeWhile_of_isdot hd]
  have hdotdot : isdotdot (comp ++ slashed comps) = false := by
    refine Bool.eq_false_iff.mpr fun hd => h.notDotdot ?_
    rw [← htake, takeWhile_of_isdotdot hd]
  obtain ⟨c, s, hcs⟩ : ∃ c s, comp ++ slashed comps = c :: s := by
    obtain ⟨c, s, rfl⟩ := List.exists_cons_of_ne_nil h.nonempty
    exact ⟨c, s ++ slashed comps, rfl⟩
  rw [hcs] at htake hdrop hdot hdotdot ⊢
  rw [canonizeLoop, hdot, hdotdot, htake, hdrop]
  cases slashed comps <;> rfl

theorem canonizeLoop_plain (h : PlainComponent comp) (hs : ∀ c ∈ comps, PlainComponent c)
    (hfuel : (comp ++ slashed comps).length < fuel) (pre : Str) :
    canonizeLoop fuel pre (comp ++ slashed comps) = pre.reverse ++ (comp ++ slashed comps) := by
  have hpos := List.length_pos_iff.mpr h.nonempty
  induction comps generalizing comp fuel pre with
  | nil =>
    obtain ⟨fuel, rfl⟩ : ∃ k, fuel = k + 1 + 1 := by
      rw [List.length_append] at hfuel
      exact ⟨fuel - 2, by omega⟩
    rw [canonizeLoop_component h]
    have hlast : (comp.reverse ++ pre).head? ≠ some '/' := by
      intro hl
      obtain ⟨c, s, hcs⟩ := List.exists_cons_of_ne_nil (List.reverse_ne_nil_iff.mpr h.nonempty)
      rw [hcs] at hl
      refine h.noSlash (List.mem_reverse.mp ?_)
      rw [hcs, ← Option.some.inj hl]
      exact List.mem_cons_self
    change canonizeLoop (fuel + 1) (comp.reverse ++ pre) [] = _
    rw [canonizeLoop, if_neg fun hc => hlast hc.2]
    simp [slashed]
  | cons next comps ih =>
    obtain ⟨fuel, rfl⟩ : ∃ k, fuel = k + 1 := ⟨fuel - 1, by omega⟩
    have hn := hs next List.mem_cons_self
    have hslashed : slashed (next :: comps) = '/' :: (next ++ slashed comps) := rfl
    rw [hslashed, List.length_append, List.length_cons] at hfuel
    rw [canonizeLoop_component h, hslashed]
    dsimp only
    rw [hn.dropWhile_slash, ih hn (fun c hc => hs c (List.mem_cons_of_mem _ hc)) (by omega) _
      (List.length_pos_iff.mpr hn.nonempty)]
    simp

theorem canonical_of_components (hs : ∀ c ∈ comps, PlainComponent c) (hne : comps ≠ []) :
    Canonical (slashed comps) := by
  cases comps with
  | nil => exact absurd rfl hne
  | cons comp comps =>
    have hc := hs comp List.mem_cons_self
    have hslashed : slashed (comp :: comps) = '/' :: (comp ++ slashed comps) := rfl
    refine ⟨rfl, ?_⟩
    rw [hslashed, canonize, List.length_cons, canonizeLoop_slash, hc.dropWhile_slash,
      canonizeLoop_plain hc (fun c h => hs c (List.mem_cons_of_mem _ h)) (Nat.lt_succ_self _)]
    rfl

end Canonize

section Root
variable {root : Str} {st st' : RootState}

/-- What `set_inst_root` leaves behind: a root that begins with a slash, and its length. -/
structure RootState.Rooted (st : RootState) (root : Str) : Prop where
  installed : st.installRoot = some root
  set : st.installRootExists = true
  len : st.installRootLen = if root.length = 1 then 0 else root.length
  absolute : root.head? = some '/'

theorem setInstRoot_rooted (h : setInstRoot path st = (true, st')) (hne : path ≠ []) :
    st'.Rooted (canonize (strlcpy pathMax path)) := by
  rw [setInstRoot] at h
  simp only [if_neg hne] at h
  split at h
  · cases h
  · split at h
    · cases h
    · rename_i habs
      obtain ⟨-, rfl⟩ := Prod.mk.inj h
      refine ⟨rfl, rfl, rfl, head_canonize ?_⟩
      cases path with
      | nil => exact absurd rfl hne
      | cons c s => exact not_not.mp habs

def trimRoot (root : Str) : Str := if root.getLast? = some '/' then root.dropLast else root

theorem fixpath_rooted (h : st.Rooted root) (hp : path ≠ []) :
    (fixpath path st).1 = some (if path = ['/'] then root else trimRoot root ++ path) := by
  rw [fixpath, if_neg hp, if_pos h.set, h.installed]
  rfl

theorem trimRoot_cases (h : root.head? = some '/') :
    root.getLast? ≠ some '/' ∧ trimRoot root = root ∨ root = trimRoot root ++ ['/'] := by
  by_cases hl : root.getLast? = some '/'
  · obtain ⟨r, rfl⟩ := List.getLast?_eq_some_iff.mp hl
    exact .inr (by rw [trimRoot, if_pos hl, List.dropLast_concat])
  · exact .inl ⟨hl, by rw [trimRoot, if_neg hl]⟩

theorem RootState.Rooted.length_pos (h : st.Rooted root) : 0 < root.length := by
  cases root with
  | nil => exact absurd h.absolute nofun
  | cons c s => exact Nat.succ_pos _

theorem RootState.Rooted.cases (h : st.Rooted root) :
    root = ['/'] ∧ st.installRootLen = 0 ∨ 1 < root.length ∧ st.installRootLen = root.length := by
  have hpos := h.length_pos
  by_cases hlen : root.length = 1
  · obtain ⟨c, rfl⟩ := List.length_eq_one_iff.mp hlen
    have := h.absolute
    obtain rfl := Option.some.inj this
    exact .inl ⟨rfl, by rw [h.len, if_pos hlen]⟩
  · exact .inr ⟨by omega, by rw [h.len, if_neg hlen]⟩

/-- What `orig_path_ptr` does with a path behind the root. -/
theorem origPathPtr_rooted (h : st.Rooted root) (hlen : st.installRootLen = root.length)
    (rest : Str) : origPathPtr (root ++ rest) st =
      match rest with
      | [] => some (some ['/'])
      | c :: s =>
        if c = '/' then some (some (canonize (c :: s)))
        else if root.getLast? = some '/' then some (some (canonize ('/' :: c :: s)))
        else none := by
  have hpos := h.length_pos
  have hne : root ++ rest ≠ [] := by
    intro he
    rw [(List.append_eq_nil_iff.mp he).1] at hpos
    exact absurd hpos (Nat.lt_irrefl 0)
  have hlast : (root ++ rest)[root.length - 1]? = root.getLast? := by
    rw [List.getElem?_append_left (by omega), List.getLast?_eq_getElem?]
  rw [origPathPtr, if_neg hne, h.set, h.installed, hlen, Option.getD_some, List.take_length,
    List.isPrefixOf_iff_prefix.mpr (List.prefix_append root rest), List.drop_left, hlast,
    canonize_root]
  cases rest <;> simp [hpos]

/-- Stripping the root inverts prepending it. -/
theorem origPathPtr_fixpath (h : st.Rooted root) (hp : Canonical path) :
    ((fixpath path st).1.bind fun npath => origPathPtr npath st) = some (some path) := by
  obtain ⟨s, rfl⟩ := hp.exists_cons
  rw [fixpath_rooted h (List.cons_ne_nil _ _), Option.bind_some]
  obtain ⟨rfl, hlen⟩ | ⟨hroot, hlen⟩ := h.cases
  · have hfix : (if '/' :: s = ['/'] then ['/'] else trimRoot ['/'] ++ '/' :: s) = '/' :: s := by
      split
      · rename_i hs
        exact hs.symm
      · rfl
    rw [hfix, origPathPtr, if_neg (List.cons_ne_nil _ _), h.set, hlen]
    simp [hp.fixed]
  · split
    · rename_i hs
      have := origPathPtr_rooted h hlen []
      rw [List.append_nil] at this
      rw [this, hs]
    · rename_i hs
      obtain ⟨hl, ht⟩ | hroot := trimRoot_cases h.absolute
      · rw [ht, origPathPtr_rooted h hlen]
        dsimp only
        rw [if_pos rfl, hp.fixed]
      · cases s with
        | nil => exact absurd rfl hs
        | cons c s =>
          have hc := hp.single_slash
          have hl : root.getLast? = some '/' := by
            rw [hroot, List.getLast?_concat]
          have hsplit : trimRoot root ++ '/' :: c :: s = root ++ c :: s := by
            conv_rhs => rw [hroot]
            rw [List.append_assoc, List.singleton_append]
          rw [hsplit, origPathPtr_rooted h hlen]
          dsimp only
          rw [if_neg hc, if_pos hl, hp.fixed]

theorem components_append (a b : Str) :
    components (a ++ '/' :: b) = components a ++ components b := by
  rw [components, words, List.splitOnP_append_cons _ _ (by rfl), List.filter_append]
  rfl

/-- A path outside of the root is returned as it is if the root is no prefix of its text. -/
theorem origPathPtr_outside_iff (h : st.Rooted root) (hq : Canonical path)
    (hout : Outside root path) :
    origPathPtr path st = some (some path) ↔ ¬ root <+: path := by
  obtain ⟨rfl, hlen⟩ | ⟨hroot, hlen⟩ := h.cases
  · exact absurd (List.nil_prefix : [] <+: components path) hout
  · constructor
    · rintro heq ⟨rest, rfl⟩
      rw [origPathPtr_rooted h hlen] at heq
      cases rest with
      | nil =>
        rw [List.append_nil] at hout
        exact hout List.prefix_rfl
      | cons c s =>
        dsimp only at heq
        split at heq
        · rename_i hc
          rw [hc, Outside, components_append] at hout
          exact hout (List.prefix_append _ _)
        · split at heq
          · rename_i hl
            obtain ⟨r, rfl⟩ := List.getLast?_eq_some_iff.mp hl
            rw [Outside, List.append_assoc, List.singleton_append, components_append,
              components_append] at hout
            exact hout (List.prefix_append_right_inj _ |>.mpr List.nil_prefix)
          · cases heq
    · intro hpre
      obtain ⟨s, rfl⟩ := hq.exists_cons
      have hno : root.isPrefixOf ('/' :: s) = false :=
        Bool.eq_false_iff.mpr fun hp => hpre (List.isPrefixOf_iff_prefix.mp hp)
      rw [origPathPtr, if_neg (List.cons_ne_nil _ _), h.set, h.installed, hlen, Option.getD_some,
        List.take_length, hno]
      simp [hq.fixed]

/-- Stripping the install root inverts prepending it, and leaves a path outside of the root alone if
the text of the root is no prefix of it. -/
theorem origPathPtr_inverts_iff (hset : setInstRoot dir st = (true, st')) (hdir : dir ≠ [])
    (hp : Canonical p) (hq : Canonical q) :
    (((fixpath p st').1.bind fun npath => origPathPtr npath st') = some (some p) ∧
      (Outside (canonize (strlcpy pathMax dir)) q → origPathPtr q st' = some (some q))) ↔
    (Outside (canonize (strlcpy pathMax dir)) q → ¬ canonize (strlcpy pathMax dir) <+: q) := by
  have hroot := setInstRoot_rooted hset hdir
  constructor
  · intro h hout
    exact (origPathPtr_outside_iff hroot hq hout).mp (h.2 hout)
  · intro h
    exact ⟨origPathPtr_fixpath hroot hp, fun hout =>
      (origPathPtr_outside_iff hroot hq hout).mpr (h hout)⟩

def freshRoot : RootState := ⟨none, false, 0, false⟩

/-- The state with a root `/a`. -/
def sampleInstRoot : RootState := ⟨some "/a".toList, true, 2, false⟩

theorem canonical_samples : Canonical "/a/b".toList ∧ Canonical "/c".toList ∧
    Canonical "/ab".toList :=
  ⟨⟨rfl, by decide⟩, ⟨rfl, by decide⟩, ⟨rfl, by decide⟩⟩

theorem origPathPtr_inverts_iff_plain :
    setInstRoot "/a".toList freshRoot = (true, sampleInstRoot) ∧
    ((fixpath "/a/b".toList sampleInstRoot).1.bind fun npath => origPathPtr npath sampleInstRoot) =
      some (some "/a/b".toList) ∧
    origPathPtr "/c".toList sampleInstRoot = some (some "/c".toList) := by
  have hset : setInstRoot "/a".toList freshRoot = (true, sampleInstRoot) := by decide +kernel
  have h := (origPathPtr_inverts_iff hset (by decide) canonical_samples.1
    canonical_samples.2.1).mpr fun _ => by decide +kernel
  exact ⟨hset, h.1, h.2 (by decide +kernel)⟩

/-- A path that shares only its text with the root makes the process quit. -/
theorem origPathPtr_quits :
    ¬ ∀ (dir : Str) (st st' : RootState), dir ≠ [] → setInstRoot dir st = (true, st') →
      ∀ p q, Canonical p → Canonical q →
        ((fixpath p st').1.bind fun npath => origPathPtr npath st') = some (some p) ∧
        (Outside (canonize (strlcpy pathMax dir)) q → origPathPtr q st' = some (some q)) := by
  intro h
  have hset : setInstRoot "/a".toList freshRoot = (true, sampleInstRoot) := by decide +kernel
  have hq := (h "/a".toList freshRoot sampleInstRoot (by decide) hset "/c".toList "/ab".toList
    canonical_samples.2.1 canonical_samples.2.2).2 (by decide +kernel)
  exact absurd hq (by decide +kernel)

end Root

end Pkgtools
