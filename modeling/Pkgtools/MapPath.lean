import Pkgtools.CLib.Tokens
import Pkgtools.InstallRoot

namespace Pkgtools
open CLib
set_option autoImplicit true

/-- `mode`: a variable with this initial letter is bound now (0: all, 1: lower case, the build
variables, 2: upper case, the install variables). -/
def mappathMode (flag : Int) (c : Char) : Bool :=
  flag == 0 || (flag == 1 && c.isLower) || (flag == 2 && c.isUpper)

/-- The size of `varname`. -/
def varnameSize : Nat := 64

/-- The loop of `mappath` over the rest of the path, with the character in front of it (none at the
start of the path), the text in the buffer and the value to return. A name that is too long for
`varname` has no result. -/
def mappathLoop (flag : Int) (getenv : Str → Option Str) :
    Nat → Option Char → Str → Str → Nat → Option (Str × Nat)
  | 0, _, _, _, _ => none
  | _ + 1, _, [], copy, retvalue => some (copy, retvalue)
  | fuel + 1, prev, c :: pt, copy, retvalue =>
    if c = '$' ∧ pt.head?.any Char.isAlpha ∧ (prev = none ∨ prev = some '/') then
      if mappathMode flag (pt.head?.getD nul) then
        let varname := pt.takeWhile (! · == '/')
        let token := (getenv varname).getD []
        if varnameSize ≤ varname.length then none
        else if token ≠ [] then
          mappathLoop flag getenv fuel varname.getLast? (pt.dropWhile (! · == '/')) (copy ++ token)
            retvalue
        else mappathLoop flag getenv fuel (some c) pt (copy ++ [c]) 1
      else
        mappathLoop flag getenv fuel (some c) pt (copy ++ [c])
          (if flag = 2 then 1
            else if flag = 1 ∧ (pt.head?.getD nul).isLower then 1 else retvalue)
    else if c = '/' then
      let rest := pt.dropWhile (· == '/')
      -- `pt > path`: the loop over the slashes may have moved `pt`
      if rest = [] ∧ (prev ≠ none ∨ pt ≠ []) then some (copy, retvalue)
      else mappathLoop flag getenv fuel (some c) rest (copy ++ [c]) retvalue
    else mappathLoop flag getenv fuel (some c) pt (copy ++ [c]) retvalue

/-- `mappath`: the new path and the value returned, if the path fits into the buffer. -/
def mappath (flag : Int) (getenv : Str → Option Str) (path : Str) : Option (Str × Nat) :=
  (mappathLoop flag getenv (path.length + 1) none path [] 0).bind fun r =>
    if r.1.length < pathMax then some r else none

/-- The name of a component `$name`. -/
def varName : Str → Option Str
  | '$' :: c :: s => if c.isAlpha then some (c :: s) else none
  | _ => none

section Mapped
variable (flag : Int) (getenv : Str → Option Str)

def Binds (name : Str) : Prop := mappathMode flag (name.head?.getD nul)

instance (name : Str) : Decidable (Binds flag name) := inferInstanceAs (Decidable (_ = _))

def boundValue (w : Str) : Option Str :=
  (varName w).bind fun name =>
    if Binds flag name ∧ (getenv name).getD [] ≠ [] then getenv name else none

def mappedComponent (w : Str) : Str := (boundValue flag getenv w).getD w

/-- A variable that has to be resolved now and has no value: every variable is due that is bound
now, and at install time every variable at all. -/
def Unresolved (w : Str) : Prop :=
  (∃ name ∈ varName w, Binds flag name ∨ flag = 2) ∧ boundValue flag getenv w = none

instance (w : Str) : Decidable (Unresolved flag getenv w) :=
  inferInstanceAs (Decidable (_ ∧ _))

/-- The path with single slashes, none at the end, and its variables replaced. -/
def mapped (path : Str) : Str :=
  (if path.head? = some '/' then ['/'] else []) ++
    ['/'].intercalate ((components path).map (mappedComponent flag getenv))

section Loop
variable {flag : Int} {getenv : Str → Option Str} {w b pt copy : Str} {prev : Option Char}
  {ret fuel : Nat}

theorem atBreak_slash (h : AtBreak (· == '/') b) : b = [] ∨ ∃ s, b = '/' :: s := by
  cases b with
  | nil => exact .inl rfl
  | cons c s =>
    rw [atBreak_cons, beq_iff_eq] at h
    exact .inr ⟨s, by rw [h]⟩

theorem mappathLoop_plain (hw : ∀ c ∈ w, (c == '/') = false) (hd : d ≠ '/') (b : Str) :
    ∃ e ≠ '/', mappathLoop flag getenv (fuel + w.length) (some d) (w ++ b) copy ret =
      mappathLoop flag getenv fuel (some e) b (copy ++ w) ret := by
  induction w generalizing d copy with
  | nil => exact ⟨d, hd, by rw [List.length_nil, Nat.add_zero, List.nil_append, List.append_nil]⟩
  | cons c w ih =>
    have hc : c ≠ '/' := beq_eq_false_iff_ne.mp (hw c List.mem_cons_self)
    obtain ⟨e, he, heq⟩ := @ih (copy ++ [c]) c (fun x hx => hw x (List.mem_cons_of_mem _ hx)) hc
    refine ⟨e, he, ?_⟩
    rw [List.length_cons, ← Nat.add_assoc, List.cons_append, mappathLoop, if_neg, if_neg hc, heq,
      List.append_assoc, List.singleton_append]
    rintro ⟨-, -, h | h⟩
    · cases h
    · exact hd (Option.some.inj h)

theorem varName_eq_some (h : varName w = some name) :
    ∃ c s, w = '$' :: c :: s ∧ name = c :: s ∧ c.isAlpha := by
  unfold varName at h
  split at h
  · rename_i c s
    split at h
    · rename_i hc
      exact ⟨c, s, rfl, (Option.some.inj h).symm, hc⟩
    · cases h
  · cases h

theorem varName_dollar (hc : c.isAlpha) : varName ('$' :: c :: s) = some (c :: s) := by
  rw [varName, if_pos hc]

theorem mappathLoop_unnamed (hw : IsWord (· == '/') w) (hb : AtBreak (· == '/') b)
    (hname : varName w = none) :
    ∃ e ≠ '/', mappathLoop flag getenv (fuel + w.length) prev (w ++ b) copy ret =
      mappathLoop flag getenv fuel (some e) b (copy ++ w) ret := by
  cases w with
  | nil => exact absurd rfl hw.1
  | cons c w =>
    have hc : c ≠ '/' := beq_eq_false_iff_ne.mp (hw.2 c List.mem_cons_self)
    obtain ⟨e, he, heq⟩ := @mappathLoop_plain flag getenv w (copy ++ [c]) ret fuel c
      (fun x hx => hw.2 x (List.mem_cons_of_mem _ hx)) hc b
    refine ⟨e, he, ?_⟩
    rw [List.length_cons, ← Nat.add_assoc, List.cons_append, mappathLoop, if_neg, if_neg hc, heq,
      List.append_assoc, List.singleton_append]
    rintro ⟨rfl, halpha, -⟩
    cases w with
    | nil =>
      obtain rfl | ⟨s, rfl⟩ := atBreak_slash hb
      · cases halpha
      · cases halpha
    | cons d w =>
      rw [varName_dollar halpha] at hname
      cases hname

theorem boundValue_of_unnamed (h : varName w = none) : boundValue flag getenv w = none := by
  rw [boundValue, h, Option.bind_none]

theorem takeWhile_name (hw : IsWord (· == '/') w) (hb : AtBreak (· == '/') b) :
    (w ++ b).takeWhile (! · == '/') = w ∧ (w ++ b).dropWhile (! · == '/') = b := by
  have h := eq_takeWhile_of_atBreak hw.2 hb
  have happ := List.takeWhile_append_dropWhile (p := (! · == '/')) (l := w ++ b)
  rw [h] at happ
  exact ⟨h, List.append_cancel_left happ⟩

theorem mappathLoop_component (hw : IsWord (· == '/') w) (hb : AtBreak (· == '/') b)
    (hprev : prev = none ∨ prev = some '/')
    (hsize : ∀ name ∈ varName w, Binds flag name → name.length < varnameSize) :
    ∃ e ≠ '/', ∃ fuel' ≥ fuel,
      mappathLoop flag getenv (fuel + w.length) prev (w ++ b) copy ret =
        mappathLoop flag getenv fuel' (some e) b (copy ++ mappedComponent flag getenv w)
          (if Unresolved flag getenv w then 1 else ret) := by
  rcases hname : varName w with _ | name
  · obtain ⟨e, he, heq⟩ := @mappathLoop_unnamed flag getenv w b copy prev ret fuel hw hb hname
    refine ⟨e, he, fuel, le_rfl, ?_⟩
    rw [heq, mappedComponent, boundValue_of_unnamed hname, Option.getD_none, if_neg]
    rintro ⟨⟨name, h, -⟩, -⟩
    rw [hname] at h
    cases h
  · obtain ⟨c, s, rfl, rfl, hc⟩ := varName_eq_some hname
    have hsw : IsWord (· == '/') (c :: s) :=
      ⟨List.cons_ne_nil _ _, fun d hd => hw.2 d (List.mem_cons_of_mem _ hd)⟩
    obtain ⟨htake, hdrop⟩ := takeWhile_name hsw hb
    by_cases hval : Binds flag (c :: s) ∧ (getenv (c :: s)).getD [] ≠ []
    · obtain ⟨value, hget⟩ : ∃ v, getenv (c :: s) = some v := by
        cases h : getenv (c :: s) with
        | none => rw [h] at hval; exact absurd rfl hval.2
        | some v => exact ⟨v, rfl⟩
      have hbound : boundValue flag getenv ('$' :: c :: s) = some value := by
        rw [boundValue, hname, Option.bind_some, if_pos hval, hget]
      have hlast : (c :: s).getLast (List.cons_ne_nil _ _) ≠ '/' :=
        beq_eq_false_iff_ne.mp (hsw.2 _ (List.getLast_mem _))
      refine ⟨_, hlast, fuel + (c :: s).length, Nat.le_add_right _ _, ?_⟩
      rw [List.length_cons, ← Nat.add_assoc, List.cons_append, mappathLoop, if_pos ⟨rfl, hc, hprev⟩,
        if_pos (show mappathMode flag ((c :: s ++ b).head?.getD nul) = true from hval.1)]
      simp only [htake, hdrop]
      rw [if_neg (not_le.mpr (hsize _ hname hval.1)), if_pos hval.2, mappedComponent, hbound,
        Option.getD_some, hget, Option.getD_some, List.getLast?_eq_some_getLast, if_neg]
      rintro ⟨-, h⟩
      rw [hbound] at h
      cases h
    · have hbound : boundValue flag getenv ('$' :: c :: s) = none := by
        rw [boundValue, hname, Option.bind_some, if_neg hval]
      obtain ⟨e, he, heq⟩ := @mappathLoop_plain flag getenv (c :: s) (copy ++ ['$'])
        (if Unresolved flag getenv ('$' :: c :: s) then 1 else ret) fuel '$' hsw.2
          (show '$' ≠ '/' by decide) b
      refine ⟨e, he, fuel, le_rfl, ?_⟩
      rw [mappedComponent, hbound, Option.getD_none, List.append_cons, ← heq, List.length_cons,
        ← Nat.add_assoc, List.cons_append, mappathLoop, if_pos ⟨rfl, hc, hprev⟩]
      by_cases hbind : Binds flag (c :: s)
      · have hempty : (getenv (c :: s)).getD [] = [] := by_contra fun h => hval ⟨hbind, h⟩
        rw [if_pos (show mappathMode flag ((c :: s ++ b).head?.getD nul) = true from hbind)]
        simp only [htake]
        rw [if_neg (not_le.mpr (hsize _ hname hbind)), if_neg (not_not.mpr hempty),
          if_pos ⟨⟨_, hname, .inl hbind⟩, hbound⟩]
      · rw [if_neg (show ¬ mappathMode flag ((c :: s ++ b).head?.getD nul) = true from hbind)]
        by_cases hflag : flag = 2
        · rw [if_pos hflag, if_pos ⟨⟨_, hname, .inr hflag⟩, hbound⟩]
        · rw [if_neg hflag, if_neg, if_neg]
          · rintro ⟨⟨name, h, hdue⟩, -⟩
            obtain rfl := Option.some.inj (hname.symm.trans h)
            exact hdue.elim hbind hflag
          · rintro ⟨rfl, hlower⟩
            exact hbind (by simp [Binds, mappathMode] at hlower ⊢; exact hlower)

theorem mappathLoop_break (hpt : AtBreak (· == '/') pt) :
    mappathLoop flag getenv (fuel + 1) (some d) pt copy ret =
      if pt.dropWhile (· == '/') = [] then some (copy, ret)
      else mappathLoop flag getenv fuel (some '/') (pt.dropWhile (· == '/')) (copy ++ ['/'])
        ret := by
  obtain rfl | ⟨s, rfl⟩ := atBreak_slash hpt
  · rfl
  · rw [mappathLoop, if_neg (fun h => absurd h.1 (by decide)), if_pos rfl,
      List.dropWhile_cons_of_pos (by rfl)]
    by_cases hnil : s.dropWhile (· == '/') = []
    · rw [if_pos ⟨hnil, .inl nofun⟩, if_pos hnil]
    · rw [if_neg (fun h => hnil h.1), if_neg hnil]

/-- Where a component is next, the components follow with their values and single slashes. -/
theorem mappathLoop_components (hne : pt ≠ []) (hpt : pt.head?.any (· == '/') = false)
    (hprev : prev = none ∨ prev = some '/') (hfuel : pt.length < fuel)
    (hsize : ∀ w ∈ components pt, ∀ name ∈ varName w, Binds flag name →
      name.length < varnameSize) :
    mappathLoop flag getenv fuel prev pt copy ret =
      some (copy ++ ['/'].intercalate ((components pt).map (mappedComponent flag getenv)),
        if ∃ w ∈ components pt, Unresolved flag getenv w then 1 else ret) := by
  induction hn : pt.length using Nat.strong_induction_on generalizing pt prev copy ret fuel with
  | _ n ih =>
    obtain ⟨w, b, rfl, hw, hb⟩ := exists_word hne hpt
    rw [components, words_word_append hw hb, ← words_dropWhile] at hsize ⊢
    rw [List.length_append] at hfuel hn
    have hpos := List.length_pos_iff.mpr hw.1
    obtain ⟨e, he, fuel', hfuel', heq⟩ := @mappathLoop_component flag getenv w b copy
      prev ret (fuel - w.length) hw hb hprev (hsize w List.mem_cons_self)
    obtain ⟨fuel', rfl⟩ : ∃ m, fuel' = m + 1 := ⟨fuel' - 1, by omega⟩
    rw [show fuel - w.length + w.length = fuel by omega] at heq
    rw [heq, mappathLoop_break hb]
    by_cases hnil : b.dropWhile (· == '/') = []
    · rw [if_pos hnil, hnil]
      simp [words]
    · have hhead := head?_dropWhile (· == '/') b
      have hlt : (b.dropWhile (· == '/')).length < b.length := by
        obtain rfl | ⟨s, rfl⟩ := atBreak_slash hb
        · exact absurd rfl hnil
        · rw [List.dropWhile_cons_of_pos (by rfl), List.length_cons]
          exact Nat.lt_succ_of_le (List.dropWhile_suffix _).length_le
      rw [if_neg hnil, ih _ (by omega) hnil hhead (.inr rfl) (by omega)
        (fun v hv => hsize v (List.mem_cons_of_mem _ hv)) rfl, ← components]
      have hcomps : components (b.dropWhile (· == '/')) ≠ [] := by
        obtain ⟨v, r, hvr, hv, hr⟩ := exists_word hnil hhead
        rw [hvr, components, words_word_append hv hr]
        exact List.cons_ne_nil _ _
      rw [List.map_cons, List.intercalate_cons_of_ne_nil (by simpa using hcomps)]
      simp only [List.append_assoc, List.mem_cons, exists_eq_or_imp]
      by_cases h₁ : Unresolved flag getenv w
      · simp only [h₁, if_true, true_or, ite_self]
      · simp only [h₁, if_false, false_or]

/-- The path of two or more slashes: the loop ends in front of the last one. -/
def OnlySlashes (path : Str) : Prop := 2 ≤ path.length ∧ ∀ c ∈ path, c = '/'

instance (path : Str) : Decidable (OnlySlashes path) := inferInstanceAs (Decidable (_ ∧ _))

/-- Other paths are mapped as a whole. -/
theorem mappathLoop_eq (hno : ¬ OnlySlashes path)
    (hsize : ∀ w ∈ components path, ∀ name ∈ varName w, Binds flag name →
      name.length < varnameSize) :
    mappathLoop flag getenv (path.length + 1) none path [] 0 =
      some (mapped flag getenv path,
        if ∃ w ∈ components path, Unresolved flag getenv w then 1 else 0) := by
  cases path with
  | nil => rfl
  | cons c s =>
    by_cases hc : c = '/'
    · subst hc
      have hcomps : components ('/' :: s) = components (s.dropWhile (· == '/')) := by
        rw [components, @words_cons (· == '/') _ rfl, ← words_dropWhile, components]
      have hmap : mapped flag getenv ('/' :: s) = ['/'] ++
          ['/'].intercalate ((components ('/' :: s)).map (mappedComponent flag getenv)) := by
        rw [mapped, List.head?_cons, if_pos rfl]
      rw [hmap, mappathLoop, if_neg (fun h => absurd h.1 (by decide)), if_pos rfl]
      rw [hcomps] at hsize ⊢
      have hle := (List.dropWhile_suffix (· == '/') (l := s)).length_le
      by_cases hnil : s.dropWhile (· == '/') = []
      · obtain rfl : s = [] := by
          by_contra hne
          refine hno ⟨Nat.succ_le_succ (List.length_pos_iff.mpr hne), ?_⟩
          rw [List.forall_mem_cons]
          exact ⟨rfl, fun c hc => beq_iff_eq.mp (List.dropWhile_eq_nil_iff.mp hnil c hc)⟩
        rfl
      · rw [if_neg fun h => hnil h.1, mappathLoop_components hnil (head?_dropWhile _ s) (.inr rfl)
          (by rw [List.length_cons]; omega) hsize]
        rfl
    · have hhead : (c :: s).head?.any (· == '/') = false := beq_eq_false_iff_ne.mpr hc
      rw [mappathLoop_components (List.cons_ne_nil _ _) hhead (.inl rfl) (Nat.lt_succ_self _) hsize,
        mapped, List.head?_cons, if_neg (fun h => hc (Option.some.inj h))]

theorem mappathLoop_onlySlashes (h : OnlySlashes path) (n : Nat) :
    mappathLoop flag getenv (n + 1) none path [] 0 = some ([], 0) := by
  obtain ⟨hlen, hall⟩ := h
  match path, hlen with
  | c :: d :: s, _ =>
    obtain rfl := hall c List.mem_cons_self
    have hnil : (d :: s).dropWhile (· == '/') = [] := List.dropWhile_eq_nil_iff.mpr fun x hx =>
      beq_iff_eq.mpr (hall x (List.mem_cons_of_mem _ hx))
    rw [mappathLoop, if_neg (fun h => absurd h.1 (by decide)), if_pos rfl]
    exact if_pos ⟨hnil, .inr (List.cons_ne_nil _ _)⟩

theorem mapped_onlySlashes (h : OnlySlashes path) : mapped flag getenv path ≠ [] := by
  obtain ⟨hlen, hall⟩ := h
  match path, hlen with
  | c :: d :: s, _ =>
    obtain rfl := hall c List.mem_cons_self
    rw [mapped, List.head?_cons, if_pos rfl]
    exact List.cons_ne_nil _ _

/-- The path is mapped and the return value tells whether a variable that is due was left
unresolved, for every path but those of two or more slashes and nothing else. -/
theorem mappath_exact_iff (hlen : (mapped flag getenv path).length < pathMax)
    (hsize : ∀ w ∈ components path, ∀ name ∈ varName w, name.length < varnameSize) :
    (∃ r ret, mappath flag getenv path = some (r, ret) ∧ r = mapped flag getenv path ∧
        (path.head? = some '/' → r.head? = some '/') ∧
        (ret = 1 ↔ ∃ w ∈ components path, Unresolved flag getenv w)) ↔
      ¬ OnlySlashes path := by
  constructor
  · rintro ⟨r, ret, hr, hmap, -⟩ hslashes
    rw [mappath, mappathLoop_onlySlashes hslashes, Option.bind_some, if_pos (by decide)] at hr
    rw [← (Prod.mk.inj (Option.some.inj hr)).1] at hmap
    exact mapped_onlySlashes hslashes hmap.symm
  · intro hno
    refine ⟨mapped flag getenv path,
      if ∃ w ∈ components path, Unresolved flag getenv w then 1 else 0, ?_, rfl, fun habs => ?_, ?_⟩
    · rw [mappath, mappathLoop_eq hno fun w hw name hname _ => hsize w hw name hname,
        Option.bind_some, if_pos hlen]
    · rw [mapped, if_pos habs]
      rfl
    · split
      · rename_i h
        exact iff_of_true rfl h
      · rename_i h
        exact iff_of_false (by decide) h

end Loop
end Mapped

theorem mappath_exact_iff_variable :
    ∃ r ret, mappath 0 (fun name => if name = "A".toList then some "/x".toList else none)
        "$A//b/$C/".toList = some (r, ret) ∧ r = "/x/b/$C".toList ∧ ret = 1 := by
  obtain ⟨r, ret, hrun, hr, -, hret⟩ := (@mappath_exact_iff 0
    (fun name => if name = "A".toList then some "/x".toList else none) "$A//b/$C/".toList
      (by decide) (by decide)).mpr (by decide)
  exact ⟨r, ret, hrun, hr.trans (by decide), hret.mpr (by decide)⟩

/-- The root written with two slashes becomes the empty path. -/
theorem mappath_loses_root :
    ¬ ∀ (flag : Int) (getenv : Str → Option Str) (path : Str),
      (mapped flag getenv path).length < pathMax →
      (∀ w ∈ components path, ∀ name ∈ varName w, name.length < varnameSize) →
        ∃ r ret, mappath flag getenv path = some (r, ret) ∧ r = mapped flag getenv path ∧
          (path.head? = some '/' → r.head? = some '/') ∧
          (ret = 1 ↔ ∃ w ∈ components path, Unresolved flag getenv w) := by
  intro h
  obtain ⟨r, ret, hrun, hr, -⟩ := h 0 (fun _ => none) "//".toList (by decide) (by decide)
  rw [hr] at hrun
  have hfst : (mappath 0 (fun _ => none) "//".toList).map Prod.fst =
      some (mapped 0 (fun _ => none) "//".toList) := congrArg (Option.map Prod.fst) hrun
  exact absurd hfst (by decide)

end Pkgtools
