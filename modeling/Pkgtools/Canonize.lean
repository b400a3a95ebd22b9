import Mathlib.Data.List.Infix
import Pkgtools.CLib.Tokens
import Pkgtools.InstallRoot

namespace Pkgtools
open CLib
set_option autoImplicit true

/-- `canonize_name` of the parameter reader has the body of `canonize`. -/
def canonizeName (file : Str) : Str := canonize file

def enter (dir : List Str) (comp : Str) : List Str :=
  if comp = ['.'] then dir else if comp = ['.', '.'] then dir.dropLast else dir ++ [comp]

/-- The directories that a path leads through from the root. -/
def location (path : Str) : List Str := (components path).foldl enter []

/-- No part of the path in front has more `..` than ordinary components. -/
def NoEscape (path : Str) : Prop :=
  ∀ comps, comps <+: components path →
    comps.count ['.', '.'] ≤ comps.countP fun c => c ≠ ['.'] ∧ c ≠ ['.', '.']

instance (path : Str) : Decidable (NoEscape path) :=
  decidable_of_iff (∀ comps ∈ (components path).inits,
    comps.count ['.', '.'] ≤ comps.countP fun c => c ≠ ['.'] ∧ c ≠ ['.', '.'])
    (forall_congr' fun _ => by rw [List.mem_inits])

/-- The text ends in a component `.` or `..`. -/
def EndsInDots (a : Str) : Prop := ['/', '.'] <:+ a ∨ ['/', '.', '.'] <:+ a

instance (a : Str) : Decidable (EndsInDots a) := inferInstanceAs (Decidable (_ ∨ _))

/-- A place of the path where an empty component is behind `.` or `..`. -/
def Detour (path a : Str) : Prop := EndsInDots a ∧ a ++ ['/', '/'] <+: path

instance (path a : Str) : Decidable (Detour path a) := inferInstanceAs (Decidable (_ ∧ _))

def Clean (path : Str) : Prop :=
  path = ['/'] ∨ ∃ comps ≠ [], (∀ c ∈ comps, PlainComponent c) ∧ path = slashed comps

section Detours
variable {a q w : Str} {c : Char}

theorem not_endsInDots_slash (q : Str) : ¬ EndsInDots (q ++ ['/']) := by
  rintro (⟨t, h⟩ | ⟨t, h⟩)
  · have := congrArg List.getLast? h
    simp at this
  · have := congrArg List.getLast? h
    simp at this

theorem detour_concat :
    Detour (q ++ [c]) a ↔ Detour q a ∨ c = '/' ∧ q = a ++ ['/'] ∧ EndsInDots a := by
  have hsplit : a ++ ['/', '/'] = q ++ [c] ↔ c = '/' ∧ q = a ++ ['/'] := by
    rw [show a ++ ['/', '/'] = a ++ ['/'] ++ ['/'] by simp]
    constructor
    · intro h
      obtain ⟨hq, hc⟩ := List.append_inj' h rfl
      exact ⟨(List.cons.inj hc).1.symm, hq.symm⟩
    · rintro ⟨rfl, rfl⟩
      rfl
  rw [Detour, List.prefix_concat_iff, hsplit, Detour]
  tauto

theorem detour_append_word (hw : '/' ∉ w) : Detour (q ++ w) a ↔ Detour q a := by
  induction w generalizing q with
  | nil => rw [List.append_nil]
  | cons c w ih =>
    rw [List.append_cons, ih fun h => hw (List.mem_cons_of_mem _ h), detour_concat, or_iff_left]
    rintro ⟨rfl, -⟩
    exact hw List.mem_cons_self

theorem detour_append_slashes (hq : ¬ EndsInDots q) (hq' : ∀ a, q = a ++ ['/'] → ¬ EndsInDots a)
    (ht : ∀ c ∈ t, c = '/') : Detour (q ++ t) a ↔ Detour q a := by
  induction t generalizing q with
  | nil => rw [List.append_nil]
  | cons c t ih =>
    obtain rfl := ht c List.mem_cons_self
    rw [List.append_cons, ih (not_endsInDots_slash q) (fun b hb => ?_)
      (fun c hc => ht c (List.mem_cons_of_mem _ hc)), detour_concat, or_iff_left]
    · rintro ⟨-, he, hdots⟩
      exact hq' a he hdots
    obtain ⟨rfl, -⟩ := List.append_inj' hb rfl
    exact hq

theorem takeWhile_reverse_last (hw : '/' ∉ w) (q : Str) :
    (q ++ '/' :: w).reverse.takeWhile (! · == '/') = w.reverse := by
  rw [List.reverse_append, List.reverse_cons, List.append_assoc, List.singleton_append]
  refine @eq_takeWhile_of_atBreak (· == '/') _ _ (fun c hc => ?_) (atBreak_cons.mpr (by rfl))
  exact beq_eq_false_iff_ne.mpr fun h => hw (h ▸ List.mem_reverse.mp hc)

theorem endsInDots_iff (hw : '/' ∉ w) :
    EndsInDots (q ++ '/' :: w) ↔ w = ['.'] ∨ w = ['.', '.'] := by
  constructor
  · rintro (⟨t, h⟩ | ⟨t, h⟩)
    · have hlast := takeWhile_reverse_last hw q
      rw [← h, takeWhile_reverse_last (by decide)] at hlast
      exact .inl (List.reverse_injective hlast).symm
    · have hlast := takeWhile_reverse_last hw q
      rw [← h, takeWhile_reverse_last (by decide)] at hlast
      exact .inr (List.reverse_injective hlast).symm
  · rintro (rfl | rfl)
    · exact .inl (List.suffix_append _ _)
    · exact .inr (List.suffix_append _ _)

end Detours

section Stack
variable {D D' : Str → Prop} {S T : List Str} {w : Str}

/-- The components that stand in the text and those that should: they agree, or an empty one is in
front of all others, or more is wrong. `D` are the detours so far. -/
inductive Phase (D : Str → Prop) (S T : List Str) : Prop
  | same (h : S = T) (none : ∀ a, ¬ D a)
  | rooted (h : S = [] :: T) (a : Str) (root : location a = []) (only : ∀ b, D b ↔ b = a)
  | off (v : Str) (rest : List Str) (h : S = v :: rest) (deep : T.length ≤ rest.length)
      (deeper : v = [] → T.length < rest.length) (a : Str) (ha : D a)
      (more : location a = [] → ∃ b, D b ∧ b ≠ a)

theorem Phase.congr (h : Phase D S T) (hD : ∀ a, D' a ↔ D a) : Phase D' S T := by
  obtain rfl : D' = D := funext fun a => propext (hD a)
  exact h

theorem Phase.push (h : Phase D S T) (w : Str) : Phase D (S ++ [w]) (T ++ [w]) := by
  cases h with
  | same h none => exact .same (by rw [h]) none
  | rooted h a root only => exact .rooted (by rw [h]; rfl) a root only
  | off v rest h deep deeper a ha more =>
    refine .off v (rest ++ [w]) (by rw [h]; rfl) ?_ (fun hv => ?_) a ha more
    · rw [List.length_append, List.length_append]
      exact Nat.add_le_add_right deep _
    · rw [List.length_append, List.length_append]
      exact Nat.add_lt_add_right (deeper hv) _

theorem Phase.pop (h : Phase D S T) (hT : T ≠ []) :
    S ≠ [] ∧ Phase D S.dropLast T.dropLast := by
  have hpos := List.length_pos_iff.mpr hT
  cases h with
  | same h none => exact ⟨h ▸ hT, .same (by rw [h]) none⟩
  | rooted h a root only =>
    refine ⟨by rw [h]; exact List.cons_ne_nil _ _, .rooted ?_ a root only⟩
    rw [h, List.dropLast_cons_of_ne_nil hT]
  | off v rest h deep deeper a ha more =>
    have hrest : rest ≠ [] := List.length_pos_iff.mp (by omega)
    refine ⟨by rw [h]; exact List.cons_ne_nil _ _,
      .off v rest.dropLast (by rw [h, List.dropLast_cons_of_ne_nil hrest]) ?_ (fun hv => ?_) a ha
        more⟩
    · rw [List.length_dropLast, List.length_dropLast]
      omega
    · have := deeper hv
      rw [List.length_dropLast, List.length_dropLast]
      omega

theorem Phase.detour (h : Phase D S T) (hT : ∀ w ∈ T, w ≠ []) (hloc : location a = T)
    (hnew : ¬ D a) (hD : ∀ b, D' b ↔ D b ∨ b = a) : Phase D' (S ++ [[]]) T := by
  have ha : D' a := (hD a).mpr (.inr rfl)
  cases h with
  | same h none =>
    cases T with
    | nil =>
      refine .rooted (by rw [h]; rfl) a hloc fun b => ?_
      rw [hD, or_iff_right (none b)]
    | cons w T =>
      refine .off w (T ++ [[]]) (by rw [h]; rfl) (by simp)
        (fun hw => absurd hw (hT w List.mem_cons_self)) a ha fun hroot => ?_
      rw [hloc] at hroot
      cases hroot
  | rooted h b root only =>
    have hb : D b := (only b).mpr rfl
    refine .off [] (T ++ [[]]) (by rw [h]; rfl) (by simp) (by simp) a ha fun _ => ?_
    exact ⟨b, (hD b).mpr (.inl hb), fun he => hnew (he ▸ hb)⟩
  | off v rest h deep deeper b hb more =>
    refine .off v (rest ++ [[]]) (by rw [h]; rfl) ?_ (fun hv => ?_) b ((hD b).mpr (.inl hb))
      fun hroot => ?_
    · rw [List.length_append]
      exact deep.trans (Nat.le_add_right _ _)
    · rw [List.length_append]
      exact (deeper hv).trans_le (Nat.le_add_right _ _)
    · obtain ⟨b', hb', hne⟩ := more hroot
      exact ⟨b', (hD b').mpr (.inl hb'), hne⟩

/-- A text made of components: each behind a slash, or the root. -/
def shown (S : List Str) : Str := if S = [] then ['/'] else slashed S

theorem slashed_injective (hS : ∀ w ∈ S, '/' ∉ w) (hT : ∀ w ∈ T, '/' ∉ w)
    (h : slashed S = slashed T) : S = T := by
  induction S generalizing T with
  | nil =>
    cases T with
    | nil => rfl
    | cons v T => cases h
  | cons w S ih =>
    cases T with
    | nil => cases h
    | cons v T =>
      have hb (L : List Str) : AtBreak (· == '/') (slashed L) := by
        cases L with
        | nil => exact atBreak_nil _
        | cons u L => exact atBreak_cons.mpr (by rfl)
      have hsep {u : Str} (hu : '/' ∉ u) : ∀ c ∈ u, (c == '/') = false := fun c hc =>
        beq_eq_false_iff_ne.mpr fun he => hu (he ▸ hc)
      have htail : w ++ slashed S = v ++ slashed T := (List.cons.inj h).2
      have hw := eq_takeWhile_of_atBreak (hsep (hS w List.mem_cons_self)) (hb S)
      rw [htail, eq_takeWhile_of_atBreak (hsep (hT v List.mem_cons_self)) (hb T)] at hw
      subst hw
      rw [ih (fun u hu => hS u (List.mem_cons_of_mem _ hu))
        (fun u hu => hT u (List.mem_cons_of_mem _ hu)) (List.append_cancel_left htail)]

theorem shown_eq_iff (hS : ∀ w ∈ S, '/' ∉ w) (hT : ∀ w ∈ T, PlainComponent w) :
    shown S = shown T ↔ S = T ∨ S = [[]] ∧ T = [] := by
  have hroot {L : List Str} (h : slashed L = ['/']) : L = [[]] := by
    cases L with
    | nil => cases h
    | cons u L =>
      obtain ⟨rfl, hL⟩ := List.append_eq_nil_iff.mp (List.cons.inj h).2
      cases L with
      | nil => rfl
      | cons v L => cases hL
  constructor
  · intro h
    rw [shown, shown] at h
    split at h
    · rename_i hnil
      split at h
      · rename_i hnil'
        exact .inl (hnil.trans hnil'.symm)
      · have hT' := hroot h.symm
        exact absurd rfl (hT [] (hT' ▸ List.mem_singleton_self _)).nonempty
    · split at h
      · rename_i hnil
        exact .inr ⟨hroot h, hnil⟩
      · exact .inl (slashed_injective hS (fun w hw => (hT w hw).noSlash) h)
  · rintro (rfl | ⟨rfl, rfl⟩)
    · rfl
    · rfl

/-- The text is right if there is no detour, or a single one at the root that ends there. -/
theorem Phase.shown_iff (h : Phase D S T) (hS : ∀ w ∈ S, '/' ∉ w)
    (hT : ∀ w ∈ T, PlainComponent w) :
    shown S = shown T ↔ ∀ a, D a → location a = [] ∧ T = [] ∧ ∀ b, D b → b = a := by
  rw [shown_eq_iff hS hT]
  cases h with
  | same h none => exact iff_of_true (.inl h) fun a ha => absurd ha (none a)
  | rooted h a root only =>
    constructor
    · rintro (hST | ⟨-, hnil⟩)
      · have := congrArg List.length (h.symm.trans hST)
        rw [List.length_cons] at this
        omega
      · intro b hb
        rw [only] at hb
        subst hb
        exact ⟨root, hnil, fun b => (only b).mp⟩
    · intro hall
      obtain ⟨-, rfl, -⟩ := hall a ((only a).mpr rfl)
      exact .inr ⟨h, rfl⟩
  | off v rest h deep deeper a ha more =>
    refine iff_of_false ?_ fun hall => ?_
    · rintro (rfl | ⟨hS', rfl⟩)
      · rw [h, List.length_cons] at deep
        omega
      · rw [h] at hS'
        obtain ⟨rfl, rfl⟩ := List.cons.inj hS'
        exact absurd (deeper rfl) (Nat.lt_irrefl 0)
    · obtain ⟨root, -, only⟩ := hall a ha
      obtain ⟨b, hb, hne⟩ := more root
      exact hne (only b hb)

end Stack

section Location
variable {a q t w path : Str}

theorem components_slashes (ht : ∀ c ∈ t, c = '/') : components t = [] := by
  rw [components, ← words_dropWhile, List.dropWhile_eq_nil_iff.mpr fun c hc =>
    beq_iff_eq.mpr (ht c hc)]
  rfl

theorem location_slashes (ht : ∀ c ∈ t, c = '/') (q : Str) : location (q ++ t) = location q := by
  cases t with
  | nil => rw [List.append_nil]
  | cons c t =>
    obtain rfl := ht c List.mem_cons_self
    rw [location, components_append,
      components_slashes fun c hc => ht c (List.mem_cons_of_mem _ hc), List.append_nil, location]

theorem location_word (hw : IsWord (· == '/') w) (a : Str) :
    location (a ++ ['/'] ++ w) = enter (location (a ++ ['/'])) w := by
  have hslash := location_slashes (t := ['/']) (by simp) a
  rw [hslash, List.append_assoc, List.singleton_append, location, components_append,
    show components w = [w] from hw.words_eq, List.foldl_append, List.foldl_cons, List.foldl_nil,
    location]

theorem enter_plain (h : PlainComponent w) (dir : List Str) : enter dir w = dir ++ [w] := by
  rw [enter, if_neg h.notDot, if_neg h.notDotdot]

theorem plain_of_word (hw : IsWord (· == '/') w) (h : w ≠ ['.']) (h' : w ≠ ['.', '.']) :
    PlainComponent w :=
  ⟨hw.1, fun hm => beq_eq_false_iff_ne.mp (hw.2 _ hm) rfl, h, h'⟩

theorem PlainComponent.isWord (h : PlainComponent w) : IsWord (· == '/') w :=
  ⟨h.nonempty, fun _ hc => beq_eq_false_iff_ne.mpr fun he => h.noSlash (he ▸ hc)⟩

theorem foldl_enter_plain {comps dir : List Str} (hc : ∀ w ∈ comps, IsWord (· == '/') w)
    (hd : ∀ w ∈ dir, PlainComponent w) : ∀ w ∈ comps.foldl enter dir, PlainComponent w := by
  induction comps generalizing dir with
  | nil => exact hd
  | cons v comps ih =>
    refine ih (fun w hw => hc w (List.mem_cons_of_mem _ hw)) fun w hw => ?_
    rw [enter] at hw
    split at hw
    · exact hd w hw
    · rename_i hdot
      split at hw
      · exact hd w ((List.dropLast_sublist dir).subset hw)
      · rename_i hdotdot
        obtain hw | hw := List.mem_append.mp hw
        · exact hd w hw
        · obtain rfl := List.mem_singleton.mp hw
          exact plain_of_word (hc w List.mem_cons_self) hdot hdotdot

theorem location_plain (path : Str) : ∀ w ∈ location path, PlainComponent w :=
  foldl_enter_plain (fun _ hw => isWord_of_mem_words hw) nofun

/-- As long as there is no escape, the depth is the number of ordinary components less that of
`..`. -/
theorem length_foldl_enter {comps : List Str}
    (h : ∀ cs, cs <+: comps →
      cs.count ['.', '.'] ≤ cs.countP fun c => c ≠ ['.'] ∧ c ≠ ['.', '.']) :
    (comps.foldl enter []).length + comps.count ['.', '.'] =
      comps.countP fun c => c ≠ ['.'] ∧ c ≠ ['.', '.'] := by
  induction comps using List.reverseRecOn with
  | nil => rfl
  | append_singleton comps c ih =>
    have hrest := ih fun cs hcs => h cs (hcs.trans (List.prefix_append _ _))
    have hall := h _ List.prefix_rfl
    rw [List.count_append, List.countP_append] at hall ⊢
    rw [List.foldl_append, List.foldl_cons, List.foldl_nil, enter]
    by_cases hdot : c = ['.']
    · subst hdot
      rw [if_pos rfl]
      simpa using hrest
    · rw [if_neg hdot]
      by_cases hdotdot : c = ['.', '.']
      · subst hdotdot
        have hcount : [['.', '.']].count ['.', '.'] = 1 := rfl
        have hord : [['.', '.']].countP (fun c => c ≠ ['.'] ∧ c ≠ ['.', '.']) = 0 := rfl
        rw [hcount, hord] at hall ⊢
        rw [if_pos rfl, List.length_dropLast]
        omega
      · rw [if_neg hdotdot, List.length_append, List.length_singleton]
        have hcount : [c].count ['.', '.'] = 0 := List.count_eq_zero_of_not_mem (by
          simpa using Ne.symm hdotdot)
        have hord : [c].countP (fun c => c ≠ ['.'] ∧ c ≠ ['.', '.']) = 1 := by
          simp [hdot, hdotdot]
        rw [hcount, hord]
        omega

theorem NoEscape.location_ne_nil (h : NoEscape path) {b : Str}
    (hpath : path = a ++ ['/'] ++ (['.', '.'] ++ b)) (hb : AtBreak (· == '/') b) :
    location (a ++ ['/']) ≠ [] := by
  have hcomps : components path = components a ++ [['.', '.']] ++ components b := by
    rw [hpath, List.append_assoc, List.singleton_append, components_append,
      List.append_assoc, List.singleton_append]
    congr 1
    exact @words_word_append (· == '/') _ _ ⟨by decide, by decide⟩ hb
  have hlen := @length_foldl_enter (components a) fun cs hcs =>
    h cs (hcs.trans (by rw [hcomps, List.append_assoc]; exact List.prefix_append _ _))
  have hnext := h (components a ++ [['.', '.']]) (by rw [hcomps]; exact List.prefix_append _ _)
  rw [location_slashes (by simp), location]
  intro hnil
  rw [hnil] at hlen
  rw [List.count_append, List.countP_append] at hnext
  simp at hnext hlen
  omega

end Location

/-- The text in front of the position stands for the components `S`, the text behind it is `pt`, and
a slash is in front, behind dots if another one follows. -/
structure At (path : Str) (S : List Str) (pt : Str) : Prop where
  noSlash : ∀ w ∈ S, '/' ∉ w
  front : ∃ q, path = q ++ pt ∧ Phase (Detour q) S (location q) ∧
    (pt ≠ [] → ∃ a, q = a ++ ['/'] ∧ (pt.head? = some '/' → EndsInDots a))

section Steps
variable {path pt s w b : Str} {S S' : List Str} {fuel : Nat}

theorem ne_concat_slash (hw : IsWord (· == '/') w) (q a : Str) : q ++ w ≠ a ++ ['/'] := by
  intro h
  have hlast := congrArg List.getLast? h
  rw [List.getLast?_append_of_ne_nil _ hw.1, List.getLast?_concat,
    List.getLast?_eq_some_getLast hw.1] at hlast
  have hmem := List.getLast_mem hw.1
  rw [Option.some.inj hlast] at hmem
  exact beq_eq_false_iff_ne.mp (hw.2 _ hmem) rfl

theorem noSlash_of_isWord (hw : IsWord (· == '/') w) : '/' ∉ w :=
  fun h => beq_eq_false_iff_ne.mp (hw.2 _ h) rfl

theorem concat_slashes {t : Str} (ht : ∀ c ∈ t, c = '/') : ∃ t', '/' :: t = t' ++ ['/'] := by
  refine ⟨t, ?_⟩
  induction t with
  | nil => rfl
  | cons c t ih =>
    rw [ht c List.mem_cons_self, List.cons_append,
      ← ih fun c hc => ht c (List.mem_cons_of_mem _ hc)]

theorem takeWhile_slashes (s : Str) : ∀ c ∈ s.takeWhile (· = '/'), c = '/' := fun c hc => by
  simpa using List.mem_takeWhile_imp hc

theorem head?_dropWhile_slash (s : Str) : (s.dropWhile (· = '/')).head? ≠ some '/' := by
  induction s with
  | nil => exact nofun
  | cons c s ih =>
    rw [List.dropWhile_cons]
    split
    · exact ih
    · rename_i h
      exact fun he => h (by simpa using he)

theorem At.dots (h : At path S (w ++ b)) (hw : w = ['.'] ∨ w = ['.', '.'])
    (hb : AtBreak (· == '/') b) (hS' : ∀ v ∈ S', '/' ∉ v)
    (hphase : ∀ a, path = a ++ ['/'] ++ (w ++ b) → ∀ D, Phase D S (location (a ++ ['/'])) →
      Phase D S' (enter (location (a ++ ['/'])) w)) : At path S' (b.drop 1) := by
  have hword : IsWord (· == '/') w := by
    obtain rfl | rfl := hw
    · exact ⟨by decide, by decide⟩
    · exact ⟨by decide, by decide⟩
  obtain ⟨q, hpath, hq, hfront⟩ := h.front
  obtain ⟨a, rfl, -⟩ := hfront (by simp [hword.1])
  have hnext := hphase a hpath _ hq
  rw [← location_word hword] at hnext
  refine ⟨hS', ?_⟩
  cases b with
  | nil =>
    refine ⟨a ++ ['/'] ++ w, by rw [hpath, List.append_nil, List.drop_nil, List.append_nil], ?_,
      fun h => absurd rfl h⟩
    exact hnext.congr fun d => detour_append_word (noSlash_of_isWord hword)
  | cons c r =>
    obtain rfl : c = '/' := beq_iff_eq.mp (by simpa using atBreak_cons.mp hb)
    refine ⟨a ++ ['/'] ++ w ++ ['/'], by rw [hpath]; simp, ?_, fun _ => ⟨_, rfl, fun _ => ?_⟩⟩
    · rw [location_slashes (by simp)]
      refine hnext.congr fun d => ?_
      rw [detour_concat, detour_append_word (noSlash_of_isWord hword), or_iff_left]
      exact fun hd => ne_concat_slash hword _ _ hd.2.1
    · rw [List.append_assoc, List.singleton_append]
      exact (endsInDots_iff (noSlash_of_isWord hword)).mpr hw

theorem At.word (h : At path S (w ++ b)) (hw : PlainComponent w) (hb : AtBreak (· == '/') b) :
    At path (S ++ [w]) ((b.drop 1).dropWhile (· = '/')) := by
  have hword := hw.isWord
  obtain ⟨q, hpath, hq, hfront⟩ := h.front
  obtain ⟨a, rfl, -⟩ := hfront (by simp [hword.1])
  have hnext := hq.push w
  rw [← enter_plain hw (location _), ← location_word hword] at hnext
  refine ⟨fun v hv => ?_, ?_⟩
  · obtain hv | hv := List.mem_append.mp hv
    · exact h.noSlash v hv
    · exact List.mem_singleton.mp hv ▸ hw.noSlash
  · cases b with
    | nil =>
      refine ⟨a ++ ['/'] ++ w, by rw [hpath, List.append_nil]; simp, ?_, fun h => absurd rfl h⟩
      exact hnext.congr fun d => detour_append_word (noSlash_of_isWord hword)
    | cons c r =>
      obtain rfl : c = '/' := beq_iff_eq.mp (by simpa using atBreak_cons.mp hb)
      have ht := takeWhile_slashes r
      obtain ⟨t', ht'⟩ := concat_slashes ht
      refine ⟨a ++ ['/'] ++ w ++ ['/'] ++ r.takeWhile (· = '/'), ?_, ?_, fun _ =>
        ⟨a ++ ['/'] ++ w ++ t', ?_, fun he => absurd he (head?_dropWhile_slash r)⟩⟩
      · rw [hpath, List.drop_succ_cons, List.drop_zero, List.append_assoc _ (r.takeWhile _),
          List.takeWhile_append_dropWhile]
        simp
      · rw [location_slashes ht, location_slashes (by simp)]
        refine hnext.congr fun d => ?_
        rw [detour_append_slashes (not_endsInDots_slash _) _ ht, detour_concat,
          detour_append_word (noSlash_of_isWord hword), or_iff_left]
        · exact fun hd => ne_concat_slash hword _ _ hd.2.1
        · intro e he hdots
          obtain ⟨rfl, -⟩ := List.append_inj' he rfl
          rw [List.append_assoc, List.singleton_append, endsInDots_iff hw.noSlash] at hdots
          exact hdots.elim hw.notDot hw.notDotdot
      · rw [List.append_assoc _ ['/'], List.singleton_append, ht', List.append_assoc _ t']

theorem At.empty (h : At path S ('/' :: s)) : At path (S ++ [[]]) (s.dropWhile (· = '/')) := by
  obtain ⟨q, hpath, hq, hfront⟩ := h.front
  obtain ⟨a, rfl, hdots⟩ := hfront (List.cons_ne_nil _ _)
  have hdots := hdots rfl
  have ht := takeWhile_slashes s
  obtain ⟨t', ht'⟩ := concat_slashes ht
  refine ⟨fun v hv => ?_, a ++ ['/'] ++ ['/'] ++ s.takeWhile (· = '/'), ?_, ?_, fun _ =>
    ⟨a ++ ['/'] ++ t', ?_, fun he => absurd he (head?_dropWhile_slash s)⟩⟩
  · obtain hv | hv := List.mem_append.mp hv
    · exact h.noSlash v hv
    · rw [List.mem_singleton.mp hv]
      exact List.not_mem_nil
  · rw [hpath, List.append_assoc _ (s.takeWhile _), List.takeWhile_append_dropWhile]
    simp
  · rw [location_slashes ht, location_slashes (by simp)]
    refine hq.detour (a := a) (fun w hw => (location_plain _ w hw).nonempty)
      (location_slashes (by simp) a).symm ?_ fun d => ?_
    · rintro ⟨-, hpre⟩
      have := hpre.length_le
      simp at this
    · rw [detour_append_slashes (not_endsInDots_slash _) _ ht, detour_concat]
      · refine or_congr_right ⟨fun hd => ?_, fun hd => ?_⟩
        · exact (List.append_inj' hd.2.1 rfl).1.symm
        · subst hd
          exact ⟨rfl, rfl, hdots⟩
      · intro e he
        obtain ⟨rfl, -⟩ := List.append_inj' he rfl
        exact not_endsInDots_slash a
  · rw [List.append_assoc _ ['/'], List.singleton_append, ht', List.append_assoc _ t']

theorem backUpTo_word (hw : '/' ∉ w) (pre : Str) :
    backUpTo (w ++ '/' :: pre) = '/' :: pre := by
  induction w with
  | nil =>
    cases pre with
    | nil => rfl
    | cons c pre => rw [List.nil_append, backUpTo, if_pos rfl]
  | cons c w ih =>
    have hc : c ≠ '/' := fun h => hw (h ▸ List.mem_cons_self)
    have hrest := ih fun h => hw (List.mem_cons_of_mem _ h)
    obtain ⟨d, t, ht⟩ : ∃ d t, w ++ '/' :: pre = d :: t :=
      List.exists_cons_of_ne_nil (by simp)
    rw [ht] at hrest
    rw [List.cons_append, ht, backUpTo, if_neg hc, hrest]

def inFront (S : List Str) : Str := '/' :: (slashed S).reverse

theorem slashed_concat (S : List Str) (w : Str) : slashed (S ++ [w]) = slashed S ++ '/' :: w := by
  simp [slashed]

theorem backLevels_front (hS : ∀ w ∈ S, '/' ∉ w) (hne : S ≠ []) (level : Nat) :
    backLevels (level + 1) (inFront S) = backLevels level (inFront S.dropLast) := by
  obtain ⟨S, w, rfl⟩ := List.eq_nil_or_concat' S |>.resolve_left hne
  have hw : '/' ∉ w.reverse := by
    simpa using hS w (List.mem_append_right _ (List.mem_singleton_self w))
  have hfront : inFront (S ++ [w]) = '/' :: (w.reverse ++ '/' :: (slashed S).reverse) := by
    rw [inFront, slashed_concat, List.reverse_append, List.reverse_cons, List.append_assoc,
      List.singleton_append]
  rw [hfront, backLevels, if_neg, List.tail_cons, backUpTo_word hw, List.dropLast_concat, inFront]
  simp

theorem isdotdot_split (h : isdotdot pt) :
    ∃ b, pt = ['.', '.'] ++ b ∧ AtBreak (· == '/') b ∧ pt.drop 3 = b.drop 1 := by
  unfold isdotdot at h
  split at h
  · exact ⟨[], rfl, atBreak_nil _, rfl⟩
  · rename_i s
    exact ⟨'/' :: s, rfl, atBreak_cons.mpr (by rfl), rfl⟩
  · cases h

theorem isdot_split (h : isdot (c :: s)) :
    ∃ b, c :: s = ['.'] ++ b ∧ AtBreak (· == '/') b ∧ s.drop 1 = b.drop 1 := by
  unfold isdot at h
  split at h
  · rename_i heq
    obtain ⟨rfl, rfl⟩ := List.cons.inj heq
    exact ⟨[], rfl, atBreak_nil _, rfl⟩
  · rename_i r heq
    obtain ⟨rfl, rfl⟩ := List.cons.inj heq
    exact ⟨'/' :: r, rfl, atBreak_cons.mpr (by rfl), rfl⟩
  · cases h

theorem At.levels (h : At path S pt) (hdom : NoEscape path) (fuel level : Nat) :
    ∃ k S', (countLevels fuel level pt).1 = level + k ∧
      backLevels k (inFront S) = some (inFront S') ∧ At path S' (countLevels fuel level pt).2 := by
  induction fuel generalizing level S pt with
  | zero => exact ⟨0, S, rfl, rfl, h⟩
  | succ fuel ih =>
    rw [countLevels]
    split
    · rename_i hdd
      obtain ⟨b, rfl, hb, hdrop⟩ := isdotdot_split hdd
      have hpop : ∀ a, path = a ++ ['/'] ++ (['.', '.'] ++ b) → ∀ D,
          Phase D S (location (a ++ ['/'])) → S ≠ [] ∧
            Phase D S.dropLast (location (a ++ ['/'])).dropLast := fun a hpath D hD =>
        hD.pop (hdom.location_ne_nil hpath hb)
      have hne : S ≠ [] := by
        obtain ⟨q, hpath, hq, hfront⟩ := h.front
        obtain ⟨a, rfl, -⟩ := hfront (by simp)
        exact (hpop a hpath _ hq).1
      have hnext : At path S.dropLast (b.drop 1) := h.dots (.inr rfl) hb
        (fun v hv => h.noSlash v ((List.dropLast_sublist S).subset hv)) fun a hpath D hD => by
          rw [enter, if_neg (by decide), if_pos rfl]
          exact (hpop a hpath D hD).2
      rw [hdrop]
      obtain ⟨k, S', hk, hback, hat⟩ := ih hnext (level + 1)
      exact ⟨k + 1, S', by omega, by rw [backLevels_front h.noSlash hne, hback], hat⟩
    · exact ⟨0, S, rfl, rfl, h⟩

theorem shown_inFront (S : List Str) :
    (if 1 < (inFront S).length ∧ (inFront S).head? = some '/' then (inFront S).tail.reverse
      else (inFront S).reverse) = shown S := by
  rw [shown]
  by_cases hS : S = []
  · subst hS
    rfl
  · have hne : slashed S ≠ [] := by
      obtain ⟨w, S, rfl⟩ := List.exists_cons_of_ne_nil hS
      exact List.cons_ne_nil _ _
    have hlen := List.length_pos_iff.mpr hne
    rw [if_neg hS, inFront, if_pos ⟨by simpa using hlen, rfl⟩, List.tail_cons, List.reverse_reverse]

theorem inFront_concat (S : List Str) (w : Str) :
    inFront (S ++ [w]) = '/' :: (w.reverse ++ inFront S) := by
  rw [inFront, slashed_concat, List.reverse_append, List.reverse_cons, List.append_assoc,
    List.singleton_append, inFront]

theorem takeWhile_ne_slash (s : Str) :
    ∃ w b, s.takeWhile (· ≠ '/') = w ∧ s.dropWhile (· ≠ '/') = b ∧ s = w ++ b ∧
      (∀ c ∈ w, (c == '/') = false) ∧ AtBreak (· == '/') b := by
  have hfun : (fun c : Char => decide (c ≠ '/')) = fun c => ! c == '/' := by
    funext c
    simp [beq_eq_decide]
  refine ⟨_, _, rfl, rfl, List.takeWhile_append_dropWhile.symm, fun c hc => ?_, ?_⟩
  · rw [hfun] at hc
    exact @mem_takeWhile_not _ (· == '/') _ hc
  · rw [hfun]
    exact atBreak_dropWhile (· == '/') s

theorem plain_of_not_dots (hw : IsWord (· == '/') w) (hb : AtBreak (· == '/') b)
    (hdot : isdot (w ++ b) = false) (hdotdot : isdotdot (w ++ b) = false) : PlainComponent w := by
  have hbreak : b = [] ∨ ∃ r, b = '/' :: r := by
    cases b with
    | nil => exact .inl rfl
    | cons c r =>
      have hc := atBreak_cons.mp hb
      rw [beq_iff_eq] at hc
      exact .inr ⟨r, by rw [hc]⟩
  refine plain_of_word hw ?_ ?_
  · rintro rfl
    obtain rfl | ⟨r, rfl⟩ := hbreak
    · cases hdot
    · cases hdot
  · rintro rfl
    obtain rfl | ⟨r, rfl⟩ := hbreak
    · cases hdotdot
    · cases hdotdot

/-- The loop shows the components it has collected. -/
theorem At.canonizeLoop_eq (h : At path S pt) (hdom : NoEscape path) (hfuel : pt.length < fuel) :
    ∃ S', canonizeLoop fuel (inFront S) pt = shown S' ∧ At path S' [] := by
  induction fuel generalizing S pt with
  | zero => exact absurd hfuel (Nat.not_lt_zero _)
  | succ fuel ih =>
    cases pt with
    | nil => exact ⟨S, shown_inFront S, h⟩
    | cons c s =>
      rw [List.length_cons] at hfuel
      rw [canonizeLoop]
      by_cases hdot : isdot (c :: s)
      · obtain ⟨b, hcs, hb, hdrop⟩ := isdot_split hdot
        rw [hcs] at h
        have hnext := h.dots (.inl rfl) hb h.noSlash fun a _ D hD => by
          rwa [enter, if_pos rfl]
        rw [← hdrop] at hnext
        have hle := (List.drop_suffix 1 s).length_le
        rw [if_pos hdot]
        exact ih hnext (by omega)
      · rw [if_neg hdot]
        by_cases hdotdot : isdotdot (c :: s)
        · obtain ⟨k, S', hk, hback, hnext⟩ := h.levels hdom (c :: s).length 0
          have hlt := countLevels_lt hdotdot s.length
          rw [List.length_cons] at hlt
          rw [if_pos hdotdot]
          rw [Nat.zero_add] at hk
          simp only [hk, hback]
          rw [if_pos (show (inFront S').head? = some '/' from rfl)]
          exact ih hnext (by rw [List.length_cons]; omega)
        · rw [if_neg hdotdot]
          obtain ⟨w, b, htake, hdrop, hcs, hw, hb⟩ := takeWhile_ne_slash (c :: s)
          have hlen := congrArg List.length hcs
          rw [List.length_append, List.length_cons] at hlen
          simp only [htake, hdrop]
          rw [hcs] at h hdot hdotdot
          cases b with
          | nil =>
            have hne : w ≠ [] := by
              rintro rfl
              cases hcs
            have hplain := plain_of_not_dots ⟨hne, hw⟩ hb (by simpa using hdot)
              (by simpa using hdotdot)
            obtain ⟨fuel, rfl⟩ : ∃ m, fuel = m + 1 := ⟨fuel - 1, by omega⟩
            refine ⟨S ++ [w], ?_, h.word hplain hb⟩
            have hlast : (w.reverse ++ inFront S).head? ≠ some '/' := by
              rw [List.head?_append, List.head?_reverse, List.getLast?_eq_some_getLast hne,
                Option.some_or]
              intro he
              exact hplain.noSlash (Option.some.inj he ▸ List.getLast_mem hne)
            rw [canonizeLoop, if_neg fun hc => hlast hc.2, shown, if_neg (by simp), slashed_concat,
              inFront]
            simp
          | cons d r =>
            have hd := atBreak_cons.mp hb
            rw [beq_iff_eq] at hd
            subst hd
            rw [List.length_cons] at hlen
            have hskip := (List.dropWhile_suffix (l := r) (· = '/')).length_le
            dsimp only
            rw [List.cons_append, ← inFront_concat]
            by_cases hne : w = []
            · subst hne
              exact ih h.empty (by omega)
            · have hplain := plain_of_not_dots ⟨hne, hw⟩ hb (by simpa using hdot)
                (by simpa using hdotdot)
              exact ih (h.word hplain hb) (by omega)

theorem at_start (s : Str) : At ('/' :: s) [] (s.dropWhile (· = '/')) := by
  have ht := takeWhile_slashes s
  obtain ⟨t', ht'⟩ := concat_slashes ht
  refine ⟨nofun, [] ++ ['/'] ++ s.takeWhile (· = '/'), ?_, .same ?_ fun a ha => ?_, fun _ =>
    ⟨t', ht', fun he => absurd he (head?_dropWhile_slash s)⟩⟩
  · rw [List.nil_append, List.append_assoc, List.takeWhile_append_dropWhile]
    rfl
  · rw [location_slashes ht, location_slashes (by simp)]
    rfl
  · rw [detour_append_slashes (not_endsInDots_slash _) _ ht, detour_concat] at ha
    · obtain ⟨-, hpre⟩ | ⟨-, he, -⟩ := ha
      · have := hpre.length_le
        simp at this
      · simp at he
    · intro e he
      obtain ⟨rfl, -⟩ := List.append_inj' he rfl
      rintro (h | h)
      · have := h.length_le
        simp at this
      · have := h.length_le
        simp at this

theorem canonize_shown (habs : path.head? = some '/') (hdom : NoEscape path) :
    ∃ S, canonize path = shown S ∧ (∀ w ∈ S, '/' ∉ w) ∧ Phase (Detour path) S (location path) := by
  cases path with
  | nil => cases habs
  | cons c s =>
    obtain rfl := Option.some.inj habs
    have hle := (List.dropWhile_suffix (l := s) (· = '/')).length_le
    obtain ⟨S, hS, hat⟩ := (at_start s).canonizeLoop_eq hdom
      (show _ < s.length + 1 by omega)
    obtain ⟨q, hq, hphase, -⟩ := hat.front
    rw [List.append_nil] at hq
    subst hq
    refine ⟨S, ?_, hat.noSlash, hphase⟩
    rw [canonize, List.length_cons, canonizeLoop_slash]
    exact hS

theorem location_shown (hT : ∀ w ∈ S, PlainComponent w) : location (shown S) = S := by
  have hcomps : ∀ {L : List Str}, (∀ w ∈ L, PlainComponent w) → components (slashed L) = L := by
    intro L hL
    induction L with
    | nil => rfl
    | cons w L ih =>
      have hb : AtBreak (· == '/') (slashed L) := by
        cases L with
        | nil => exact atBreak_nil _
        | cons u L => exact atBreak_cons.mpr (by rfl)
      change components ([] ++ '/' :: (w ++ slashed L)) = w :: L
      rw [components_append, components, components,
        words_word_append (hL w List.mem_cons_self).isWord hb, ← components, ← components,
        ih fun v hv => hL v (List.mem_cons_of_mem _ hv)]
      rfl
  have hfold : ∀ {L dir : List Str}, (∀ w ∈ L, PlainComponent w) →
      L.foldl enter dir = dir ++ L := by
    intro L dir hL
    induction L generalizing dir with
    | nil => rw [List.foldl_nil, List.append_nil]
    | cons w L ih =>
      rw [List.foldl_cons, enter_plain (hL w List.mem_cons_self),
        ih fun v hv => hL v (List.mem_cons_of_mem _ hv), List.append_assoc, List.singleton_append]
  rw [shown]
  split
  · rename_i h
    rw [h]
    rfl
  · rw [location, hcomps hT, hfold hT, List.nil_append]

theorem clean_iff : Clean path ↔ ∃ S, (∀ w ∈ S, PlainComponent w) ∧ path = shown S := by
  constructor
  · rintro (rfl | ⟨comps, hne, hplain, rfl⟩)
    · exact ⟨[], nofun, rfl⟩
    · exact ⟨comps, hplain, (if_neg hne).symm⟩
  · rintro ⟨S, hS, rfl⟩
    by_cases hne : S = []
    · exact .inl (if_pos hne)
    · exact .inr ⟨S, hne, hS, if_neg hne⟩

theorem canonize_shown_self (hS : ∀ w ∈ S, PlainComponent w) : canonize (shown S) = shown S := by
  rw [shown]
  split
  · exact canonize_root
  · rename_i hne
    exact (canonical_of_components hS hne).fixed

end Steps

/-- A path is made canonical unless an empty component follows a `.` or `..`. One such place does no
harm if the path has led to the root there and leads to the root as a whole. -/
theorem canonize_exact_iff (habs : path.head? = some '/') (hdom : NoEscape path) :
    (Clean (canonize path) ∧ location (canonize path) = location path ∧
        canonize (canonize path) = canonize path ∧ canonizeName path = canonize path) ↔
      ∀ a, Detour path a →
        location a = [] ∧ location path = [] ∧ ∀ b, Detour path b → b = a := by
  obtain ⟨S, hS, hslash, hphase⟩ := canonize_shown habs hdom
  have hplain := location_plain path
  rw [← hphase.shown_iff hslash hplain, hS]
  constructor
  · rintro ⟨hclean, hloc, -⟩
    obtain ⟨T, hT, hshown⟩ := clean_iff.mp hclean
    rw [hshown, location_shown hT] at hloc
    rw [hshown, hloc]
  · intro hshown
    rw [hshown, location_shown hplain]
    exact ⟨clean_iff.mpr ⟨_, hplain, rfl⟩, rfl, canonize_shown_self hplain, by
      rw [canonizeName, hS, hshown]⟩

theorem canonize_exact_iff_dots :
    Clean (canonize "/a//./b/../c/".toList) ∧
      location (canonize "/a//./b/../c/".toList) = ["a".toList, "c".toList] := by
  obtain ⟨hclean, hloc, -⟩ := (@canonize_exact_iff "/a//./b/../c/".toList (by decide)
    (by decide)).mpr fun a ha =>
      absurd ha ((by decide : ∀ b ∈ "/a//./b/../c/".toList.inits, ¬ Detour _ b) a
        ((List.mem_inits _ _).mpr ((List.prefix_append a _).trans ha.2)))
  exact ⟨hclean, hloc.trans (by decide)⟩

/-- The slash behind `./` stays, and the path gets an empty component. -/
theorem canonize_keeps_empty :
    ¬ ∀ path : Str, path.head? = some '/' → NoEscape path →
      Clean (canonize path) ∧ location (canonize path) = location path ∧
        canonize (canonize path) = canonize path ∧ canonizeName path = canonize path := by
  intro h
  obtain ⟨-, -, hfixed, -⟩ := h "/.//x".toList (by decide) (by decide)
  exact absurd hfixed (by decide)

end Pkgtools
