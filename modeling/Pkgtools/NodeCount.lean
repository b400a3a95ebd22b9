import Mathlib.Data.List.Infix
import Pkgtools.SplPkgMap

namespace Pkgtools
open CLib
set_option autoImplicit true

/-- The loop of `allocnode` and `nodecount` for the next `n` characters from `pt`: the path is cut
at each `/`, the part in front is handed on as a string, and the `/` is put back. -/
def slashLoop (visit : σ → Str → σ) : (n pt : Nat) → Str → σ → σ × Str
  | 0, _, path, s => (s, path)
  | n + 1, pt, path, s =>
    if path[pt]? = some '/' then
      let cut := path.set pt nul
      slashLoop visit n (pt + 1) (cut.set pt '/') (visit s (cut.takeWhile (· ≠ nul)))
    else slashLoop visit n (pt + 1) path s

/-- The loop begins behind a leading `/`. -/
def overDirs (visit : σ → Str → σ) (path : Str) (s : σ) : σ × Str :=
  let pt := if path.head? = some '/' then 1 else 0
  slashLoop visit (path.length - pt) pt path s

/-- `allocnode` in the memory of its path. -/
def allocnodeIn (dirlist : List Str) (path : Str) : List Str × Str :=
  overDirs (fun dirlist dir => if dir ∈ dirlist then dirlist else dirlist ++ [dir]) path dirlist

/-- `nodecount` in the memory of its path. -/
def nodecountIn (dirlist : List Str) (path : Str) : Nat × Str :=
  overDirs (fun count dir => if dirlist.any fun entry => entry != dir then count else count + 1)
    path 0

/-- The directories in front of the last component of a path; the leading `/` is none. -/
def dirPrefixes (path : Str) : List Str :=
  path.inits.filter fun dir => dir ≠ [] ∧ dir ++ ['/'] <+: path

def Known (paths : List Str) (dir : Str) : Prop := ∃ path ∈ paths, dir ∈ dirPrefixes path

instance (paths : List Str) (dir : Str) : Decidable (Known paths dir) :=
  inferInstanceAs (Decidable (∃ path ∈ paths, _))

/-- The number of directories that a path adds to those of `paths`. -/
def newDirs (paths : List Str) (path : Str) : Nat :=
  (dirPrefixes path).countP fun dir => ¬ Known paths dir

/-- The list that the calls of `allocnode` leave, from the last reset on. -/
def allocated (paths : List Str) : List Str :=
  paths.foldl (fun dirlist path => (allocnodeIn dirlist path).1) []

section Cuts
variable {path : Str}

theorem cutsFrom_eq (done rest : Str) : cutsFrom done rest =
    (rest.inits.map (done ++ ·)).filter fun dir => dir ++ ['/'] <+: done ++ rest := by
  induction rest generalizing done with
  | nil =>
    have hno : ¬ done ++ ['/'] <+: done := fun h => by simpa using h.length_le
    simp [cutsFrom, hno]
  | cons c rest ih =>
    have hmap : (rest.inits.map (c :: ·)).map (done ++ ·) =
        rest.inits.map ((done ++ [c]) ++ ·) := by
      rw [List.map_map]
      apply List.map_congr_left
      intro u _
      simp
    have hcons : done ++ c :: rest = (done ++ [c]) ++ rest := by simp
    have hfirst : done ++ ['/'] <+: done ++ c :: rest ↔ c = '/' := by
      rw [List.prefix_append_right_inj, List.cons_prefix_cons]
      simp [eq_comm]
    rw [cutsFrom, ih, List.inits_cons, List.map_cons, hmap, List.append_nil]
    by_cases hc : c = '/'
    · rw [if_pos hc, List.filter_cons_of_pos (by simpa using hfirst.mpr hc), hcons]
    · rw [if_neg hc, List.filter_cons_of_neg (by simpa using mt hfirst.mp hc), hcons]

theorem dirCuts_eq (path : Str) : dirCuts path = dirPrefixes path := by
  have hnonempty (c : Char) (rest : Str) : dirPrefixes (c :: rest) =
      (rest.inits.map ([c] ++ ·)).filter fun dir => dir ++ ['/'] <+: [c] ++ rest := by
    rw [dirPrefixes, List.inits_cons, List.filter_cons_of_neg (by simp)]
    apply List.filter_congr
    intro dir hdir
    obtain ⟨u, -, rfl⟩ := List.mem_map.mp hdir
    simp
  cases path with
  | nil => rfl
  | cons c rest =>
    rw [hnonempty, ← cutsFrom_eq]
    by_cases hc : c = '/'
    · rw [hc]
      rfl
    · rw [dirCuts, cutsFrom, if_neg hc]
      · rfl
      · intro rest' h
        exact hc (List.cons.inj h).1

theorem nodup_dirPrefixes (path : Str) : (dirPrefixes path).Nodup := by
  apply List.Nodup.filter
  induction path with
  | nil => exact List.nodup_singleton _
  | cons c rest ih =>
    rw [List.inits_cons]
    refine List.nodup_cons.mpr ⟨?_, ih.map fun s t h => (List.cons.inj h).2⟩
    simp

/-- What the loop hands on, and that the path is put back. -/
theorem slashLoop_eq (visit : σ → Str → σ) (front rest : Str) (s : σ) (hn : NulFree front)
    (hr : NulFree rest) :
    slashLoop visit rest.length front.length (front ++ rest) s =
      ((cutsFrom front rest).foldl visit s, front ++ rest) := by
  induction rest generalizing front s with
  | nil => rfl
  | cons c rest ih =>
    have hget : (front ++ c :: rest)[front.length]? = some c := by simp
    have hnext := fun s => ih (front ++ [c]) s (by simp [NulFree, nul] at hn hr ⊢; tauto) hr.tail
    simp only [List.append_assoc, List.singleton_append, List.length_append, List.length_cons,
      List.length_nil, Nat.zero_add] at hnext
    rw [List.length_cons, slashLoop, hget, cutsFrom]
    by_cases hc : c = '/'
    · subst hc
      have hset (d e : Char) : (front ++ d :: rest).set front.length e = front ++ e :: rest := by
        rw [List.set_append_right _ _ (Nat.le_refl _), Nat.sub_self, List.set_cons_zero]
      have hcut : (front ++ nul :: rest).takeWhile (· ≠ nul) = front := by
        rw [List.takeWhile_append_of_pos, List.takeWhile_cons_of_neg (by simp), List.append_nil]
        intro d hd
        simpa using fun h : d = nul => hn (h ▸ hd)
      rw [if_pos rfl, if_pos rfl]
      simp only [hset, hcut]
      rw [hnext, List.foldl_cons]
    · rw [if_neg (by simpa using hc), if_neg hc, hnext]

theorem overDirs_eq (visit : σ → Str → σ) (s : σ) (h : NulFree path) :
    overDirs visit path s = ((dirCuts path).foldl visit s, path) := by
  have hnil : NulFree ([] : Str) := List.not_mem_nil
  cases path with
  | nil => rfl
  | cons c rest =>
    by_cases hc : c = '/'
    · subst hc
      exact slashLoop_eq visit ['/'] rest s (by decide) h.tail
    · have hcuts : dirCuts (c :: rest) = cutsFrom [] (c :: rest) := by
        rw [dirCuts]
        intro rest' h
        exact hc (List.cons.inj h).1
      rw [overDirs, if_neg (by simpa using hc), hcuts]
      exact slashLoop_eq visit [] (c :: rest) s hnil h

theorem allocnodeIn_eq (dirlist : List Str) (h : NulFree path) :
    allocnodeIn dirlist path = (allocnode dirlist path, path) := overDirs_eq _ _ h

theorem nodecountIn_eq (dirlist : List Str) (h : NulFree path) :
    nodecountIn dirlist path = (nodecount dirlist path, path) := by
  rw [nodecountIn, overDirs_eq _ _ h]
  have hcount (dirs : List Str) (k : Nat) :
      dirs.foldl (fun count dir => if dirlist.any fun entry => entry != dir then count
        else count + 1) k = k + dirs.countP fun dir => !dirlist.any fun entry => entry != dir := by
    induction dirs generalizing k with
    | nil => rfl
    | cons dir dirs ih =>
      rw [List.foldl_cons, ih, List.countP_cons]
      by_cases hd : (dirlist.any fun entry => entry != dir) = true
      · simp [hd]
      · simp only [hd, Bool.not_eq_true] at hd ⊢
        simp [Nat.add_assoc, Nat.add_comm]
  rw [hcount, Nat.zero_add, nodecount]

end Cuts

section Count
variable {paths : List Str} {path : Str} {dirlist dirs : List Str}

theorem mem_addDirs (dir : Str) : dir ∈ dirs.foldl
    (fun dirlist dir => if dir ∈ dirlist then dirlist else dirlist ++ [dir]) dirlist ↔
      dir ∈ dirlist ∨ dir ∈ dirs := by
  induction dirs generalizing dirlist with
  | nil => simp
  | cons d dirs ih =>
    rw [List.foldl_cons, ih]
    by_cases hd : d ∈ dirlist
    · rw [if_pos hd, List.mem_cons]
      constructor
      · rintro (h | h)
        · exact .inl h
        · exact .inr (.inr h)
      · rintro (h | rfl | h)
        · exact .inl h
        · exact .inl hd
        · exact .inr h
    · rw [if_neg hd, List.mem_append, List.mem_singleton, List.mem_cons, or_assoc]

theorem nodup_addDirs (h : dirlist.Nodup) : (dirs.foldl
    (fun dirlist dir => if dir ∈ dirlist then dirlist else dirlist ++ [dir]) dirlist).Nodup := by
  induction dirs generalizing dirlist with
  | nil => exact h
  | cons d dirs ih =>
    rw [List.foldl_cons]
    by_cases hd : d ∈ dirlist
    · rw [if_pos hd]
      exact ih h
    · rw [if_neg hd]
      apply ih
      rw [List.nodup_append]
      refine ⟨h, List.nodup_singleton d, ?_⟩
      rintro x hx y hy rfl
      exact hd (List.mem_singleton.mp hy ▸ hx)

theorem allocated_spec (hp : ∀ path ∈ paths, NulFree path) :
    (allocated paths).Nodup ∧ ∀ dir, dir ∈ allocated paths ↔ Known paths dir := by
  induction paths using List.reverseRecOn with
  | nil =>
    refine ⟨List.nodup_nil, ?_⟩
    intro dir
    simp [allocated, Known]
  | append_singleton paths path ih =>
    obtain ⟨hnodup, hmem⟩ := ih fun p h => hp p (List.mem_append_left _ h)
    have hstep : allocated (paths ++ [path]) = allocnode (allocated paths) path := by
      rw [allocated, List.foldl_append, List.foldl_cons, List.foldl_nil, ← allocated,
        allocnodeIn_eq _ (hp path (by simp))]
    rw [hstep, allocnode, dirCuts_eq]
    refine ⟨nodup_addDirs hnodup, ?_⟩
    intro dir
    rw [mem_addDirs, hmem]
    simp only [Known, List.mem_append, List.mem_singleton]
    constructor
    · rintro (⟨p, h, hd⟩ | hd)
      · exact ⟨p, .inl h, hd⟩
      · exact ⟨path, .inr rfl, hd⟩
    · rintro ⟨p, h | rfl, hd⟩
      · exact .inl ⟨p, h, hd⟩
      · exact .inr hd

theorem nodecount_singleton (e path : Str) :
    nodecount [e] path = (dirPrefixes path).count e := by
  rw [nodecount, dirCuts_eq, List.count]
  apply List.countP_congr
  intro dir _
  simp only [List.any_cons, List.any_nil, Bool.or_false, Bool.not_not, bne, beq_iff_eq]
  exact eq_comm

/-- With two known directories each one differs from an entry of the list. -/
theorem nodecount_eq_zero (hd : d ∈ dirlist) (he : e ∈ dirlist) (hne : d ≠ e) (path : Str) :
    nodecount dirlist path = 0 := by
  rw [nodecount, List.countP_eq_zero]
  intro dir _
  by_cases h : d = dir
  · simpa using ⟨e, he, fun h' => hne (h.trans h'.symm)⟩
  · simpa using ⟨d, hd, h⟩

theorem newDirs_eq_zero_iff : newDirs paths path = 0 ↔
    ∀ dir ∈ dirPrefixes path, Known paths dir := by
  simp [newDirs, List.countP_eq_zero]

theorem newDirs_singleton (h : ∀ dir, Known paths dir ↔ dir = e) :
    newDirs paths path + (dirPrefixes path).count e = (dirPrefixes path).length := by
  have hcongr : newDirs paths path = (dirPrefixes path).countP fun dir => ¬ (dir == e) := by
    apply List.countP_congr
    intro dir _
    simp [h]
  rw [hcongr, List.count, Nat.add_comm, List.length_eq_countP_add_countP (· == e)]

/-- Where the number of `nodecount` is right: no directory is known; or just one is, and the path
has none or has that one and one more; or several are known and the path has no other. -/
def CountsRight (paths : List Str) (path : Str) : Prop :=
  (∀ dir, ¬ Known paths dir) ∨
  (∃ e, (∀ dir, Known paths dir ↔ dir = e) ∧
    (dirPrefixes path = [] ∨ (dirPrefixes path).length = 2 ∧ e ∈ dirPrefixes path)) ∨
  (∃ d e, d ≠ e ∧ Known paths d ∧ Known paths e) ∧ ∀ dir ∈ dirPrefixes path, Known paths dir

theorem one_dir_iff (h : ∀ dir, Known paths dir ↔ dir = e) : CountsRight paths path ↔
    dirPrefixes path = [] ∨ (dirPrefixes path).length = 2 ∧ e ∈ dirPrefixes path := by
  constructor
  · rintro (hno | ⟨e', h', hpath⟩ | ⟨⟨d, d', hne, hd, hd'⟩, -⟩)
    · exact absurd ((h e).mpr rfl) (hno e)
    · obtain rfl : e' = e := (h e').mp ((h' e').mpr rfl)
      exact hpath
    · exact absurd (((h d).mp hd).trans ((h d').mp hd').symm) hne
  · exact fun hpath => .inr (.inl ⟨e, h, hpath⟩)

end Count

/-- `nodecount` leaves the path as it was, and counts the directories that the calls of `allocnode`
have not seen in these cases only. -/
theorem nodecount_exact_iff (paths : List Str) (path : Str) (hp : ∀ p ∈ paths, NulFree p)
    (h : NulFree path) :
    nodecountIn (allocated paths) path = (newDirs paths path, path) ↔ CountsRight paths path := by
  obtain ⟨hnodup, hmem⟩ := allocated_spec hp
  rw [nodecountIn_eq _ h, Prod.mk.injEq, eq_self, and_true]
  match hlist : allocated paths with
  | [] =>
    have hno (dir : Str) : ¬ Known paths dir := by
      rw [← hmem, hlist]
      exact List.not_mem_nil
    have hcount : nodecount [] path = newDirs paths path := by
      simp [nodecount, newDirs, dirCuts_eq, hno]
    exact iff_of_true hcount (.inl hno)
  | [e] =>
    have hone (dir : Str) : Known paths dir ↔ dir = e := by
      rw [← hmem, hlist, List.mem_singleton]
    have hsum : newDirs paths path + (dirPrefixes path).count e = (dirPrefixes path).length :=
      newDirs_singleton hone
    rw [one_dir_iff hone, nodecount_singleton]
    by_cases he : e ∈ dirPrefixes path
    · have hc := List.count_eq_one_of_mem (nodup_dirPrefixes path) he
      have hne := List.ne_nil_of_mem he
      simp only [he, hne, and_true, false_or]
      omega
    · have hc := List.count_eq_zero_of_not_mem he
      simp only [he, and_false, or_false, ← List.length_eq_zero_iff]
      omega
  | d :: e :: rest =>
    rw [hlist] at hnodup hmem
    have hne : d ≠ e := fun h => (List.nodup_cons.mp hnodup).1 (h ▸ List.mem_cons_self)
    have hd : Known paths d := (hmem d).mp (by simp)
    have he : Known paths e := (hmem e).mp (by simp)
    rw [nodecount_eq_zero (List.mem_cons_self) (by simp : e ∈ d :: e :: rest) hne path, eq_comm,
      newDirs_eq_zero_iff]
    constructor
    · exact fun hall => .inr (.inr ⟨⟨d, e, hne, hd, he⟩, hall⟩)
    · rintro (hno | ⟨e', h', -⟩ | ⟨-, hall⟩)
      · exact absurd hd (hno d)
      · exact absurd (((h' d).mp hd).trans ((h' e).mp he).symm) hne
      · exact hall

/-- Two files in directories of their own, and a third path with all of its directories known. -/
theorem nodecount_exact_iff_known :
    nodecountIn (allocated ["a/x".toList, "b/x".toList]) "a/y".toList =
      (newDirs ["a/x".toList, "b/x".toList] "a/y".toList, "a/y".toList) :=
  (nodecount_exact_iff _ _ (by decide) (by decide)).mpr
    (.inr (.inr ⟨⟨"a".toList, "b".toList, by decide, by decide, by decide⟩, by decide⟩))

/-- A third directory is not counted. -/
theorem nodecount_misses_third :
    (nodecountIn (allocated ["a/x".toList, "b/x".toList]) "c/y".toList).1 = 0 ∧
      newDirs ["a/x".toList, "b/x".toList] "c/y".toList = 1 := by
  decide

end Pkgtools
