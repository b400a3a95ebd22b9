import Mathlib.Data.List.GetD
import Pkgtools.ScanContents

namespace Pkgtools
open CLib
set_option autoImplicit true

/-- A line with a path in front and more behind it. -/
structure IsEntry (l : Str) : Prop where
  oneLine : OneLine l
  head : l.head? = some '/'
  stops : linePath l ≠ l

instance (l : Str) : Decidable (IsEntry l) :=
  decidable_of_iff (OneLine l ∧ l.head? = some '/' ∧ linePath l ≠ l)
    ⟨fun h => ⟨h.1, h.2.1, h.2.2⟩, fun h => ⟨h.oneLine, h.head, h.stops⟩⟩

/-- A contents file: entry lines that are sorted by path, and comments. -/
structure SortedFile (ls cs : List Str) : Prop where
  entry : ∀ l ∈ ls, IsEntry l
  sorted : ls.Pairwise fun l m => linePath l < linePath m
  comment : ∀ c ∈ cs, OneLine c ∧ c ≠ [] ∧ isSkipped c

theorem SortedFile.oneLine (h : SortedFile ls cs) : ∀ l ∈ ls ++ cs, OneLine l := by
  intro l hl
  rcases List.mem_append.mp hl with hl | hl
  · exact (h.entry l hl).oneLine
  · exact (h.comment l hl).1

theorem IsEntry.split (h : IsEntry l) : ∃ c T, l = linePath l ++ c :: T ∧ linePath l ≠ [] := by
  have hsplit : l = linePath l ++ l.dropWhile fun c => !isPkgPathSep c :=
    (List.takeWhile_append_dropWhile).symm
  obtain ⟨M, hM⟩ : ∃ M, l = '/' :: M := by
    cases l with
    | nil => cases h.head
    | cons c M => exact ⟨M, by rw [Option.some.inj h.head]⟩
  have hne : linePath l ≠ [] := by
    rw [linePath, hM]
    exact List.cons_ne_nil _ _
  cases hd : l.dropWhile fun c => !isPkgPathSep c with
  | nil =>
    rw [hd, List.append_nil] at hsplit
    exact absurd hsplit.symm h.stops
  | cons c T =>
    rw [hd] at hsplit
    exact ⟨c, T, hsplit, hne⟩

theorem IsEntry.two_le_length (h : IsEntry l) : 2 ≤ l.length := by
  obtain ⟨c, T, hsplit, hne⟩ := h.split
  have hpos := List.length_pos_iff.mpr hne
  rw [hsplit, List.length_append, List.length_cons]
  omega

theorem SortedFile.comment_head (h : SortedFile ls cs) (hc : c ∈ cs) : c.head? ≠ some '/' := by
  obtain ⟨-, hne, hsk⟩ := h.comment c hc
  cases c with
  | nil => exact absurd rfl hne
  | cons d c =>
    intro hd
    obtain rfl := Option.some.inj hd
    simp [isSkipped, isspace] at hsk

section Compare
variable {target P t : Str}

def Compares (target P : Str) (n : Int) : Prop :=
  n = 0 ∧ target = P ∨ 0 < n ∧ P < target ∨ n < 0 ∧ target < P

/-- `strncmp` over the length of a path, and then a comparison of the lengths, compares paths. -/
theorem strncmp_compares (ht : NulFree target) (hP : NulFree P) (t : Str) (k : Int) (hk : 0 < k) :
    Compares target P (if strncmp target (P ++ t) P.length = 0 ∧ P.length ≠ target.length then k
      else strncmp target (P ++ t) P.length) := by
  have hneg := strncmp_neg_iff ht hP t
  have hzero := strncmp_eq_zero_iff ht hP t
  split
  · rename_i h
    exact .inr (.inl ⟨hk, lt_of_prefix_of_length_ne (hzero.mp h.1) h.2.symm⟩)
  · rename_i h
    rcases lt_trichotomy (strncmp target (P ++ t) P.length) 0 with hn | hn | hn
    · exact .inr (.inr ⟨hn, hneg.mp hn⟩)
    · have hlen : P.length = target.length := by
        by_contra hne
        exact h ⟨hn, hne⟩
      exact .inl ⟨hn, ((hzero.mp hn).eq_of_length hlen).symm⟩
    · refine .inr (.inl ⟨hn, ?_⟩)
      rcases lt_trichotomy target P with hlt | rfl | hlt
      · have := hneg.mpr hlt
        omega
      · have := hzero.mpr (List.prefix_refl _)
        omega
      · exact hlt

theorem OneLine.linePath (h : OneLine l) : NulFree (linePath l) :=
  fun hm => h.2 ((List.takeWhile_sublist _).subset hm)

theorem linePath_append (l t : Str) :
    (l ++ '\n' :: t).takeWhile (fun c => !isPkgPathSep c) = linePath l ∧
      ∃ u, l ++ '\n' :: t = linePath l ++ u := by
  refine ⟨takeWhile_append_stop (by decide) l t, l.dropWhile (fun c => !isPkgPathSep c) ++ '\n' ::
    t, ?_⟩
  rw [linePath, ← List.append_assoc, List.takeWhile_append_dropWhile]

theorem compareEntry_line (ht : NulFree target) (hl : OneLine l)
    (hmem : mem.drop start = l ++ '\n' :: t) (hne : linePath l ≠ []) :
    Compares target (linePath l) (compareEntry (some target) mem (linePath l) start) := by
  obtain ⟨u, hu⟩ := (linePath_append l t).2
  have hpos : (0 : Int) < (linePath l).length := by
    have := List.length_pos_iff.mpr hne
    omega
  have := strncmp_compares ht (OneLine.linePath hl) u (linePath l).length hpos
  rw [compareEntry, hmem, hu]
  exact this

theorem comparePath_line (ht : NulFree target) (hl : OneLine l)
    (hmem : mem.drop start = l ++ '\n' :: t) (hne : target ≠ []) :
    match comparePath mem target start with
    | none => target = linePath l
    | some n => 0 < n ∧ linePath l < target ∨ n < 0 ∧ target < linePath l := by
  obtain ⟨hpath, u, hu⟩ := linePath_append l t
  have hpos : (0 : Int) < target.length := by
    have := List.length_pos_iff.mpr hne
    omega
  have hc := strncmp_compares ht (OneLine.linePath hl) u target.length hpos
  have hzero := strncmp_eq_zero_iff ht (OneLine.linePath hl) u
  rw [hu] at hpath
  simp only [comparePath, hmem, hu, hpath]
  by_cases h₀ : strncmp target (linePath l ++ u) (linePath l).length = 0
  · by_cases hlen : target.length = (linePath l).length
    · simp only [if_pos h₀, if_pos hlen]
      exact ((hzero.mp h₀).eq_of_length hlen.symm).symm
    · simp only [if_pos h₀, if_neg hlen]
      exact .inl ⟨hpos, lt_of_prefix_of_length_ne (hzero.mp h₀) hlen⟩
  · rw [if_neg (fun h => h₀ h.1)] at hc
    simp only [if_neg h₀]
    exact hc.resolve_left fun h => h₀ h.1

end Compare

section Watermarks

theorem backUp_spec (mem : Str) (plow p : Nat) (h : plow ≤ p) :
    plow ≤ backUp mem plow p ∧ backUp mem plow p ≤ p ∧
      (backUp mem plow p = plow ∨ isPathStart mem (backUp mem plow p)) := by
  induction p with
  | zero =>
    have : plow = 0 := by omega
    simp [backUp, this]
  | succ p ih =>
    rw [backUp]
    split
    · rename_i hc
      obtain ⟨h₁, h₂, h₃⟩ := ih (by omega)
      exact ⟨h₁, by omega, h₃⟩
    · rename_i hc
      refine ⟨h, Nat.le_refl _, ?_⟩
      by_cases hlt : plow < p + 1
      · right
        by_contra hs
        exact hc ⟨hlt, by simpa using hs⟩
      · left
        omega

/-- A slash behind a newline starts a line. -/
theorem isPathStart_line (ls : List Str) (hls : ∀ l ∈ ls, OneLine l) (hp : 0 < p)
    (h : isPathStart (unlines ls) p) :
    ∃ A l B, ls = A ++ l :: B ∧ p = (unlines A).length ∧ l.head? = some '/' := by
  simp only [isPathStart, Bool.and_eq_true, beq_iff_eq] at h
  obtain ⟨hslash, hnl⟩ := h
  induction ls generalizing p with
  | nil =>
    rw [unlines_nil, List.getD_nil] at hslash
    exact absurd hslash (by decide)
  | cons l ls ih =>
    have hl := hls l List.mem_cons_self
    rw [unlines_cons] at hslash hnl
    rcases Nat.lt_trichotomy p (l.length + 1) with hlt | rfl | hgt
    · -- inside the first line there is no newline
      rw [List.getD_append _ _ _ _ (by omega), List.getD_eq_getElem _ _ (by omega)] at hnl
      exact absurd (hnl ▸ List.getElem_mem _) hl.1
    · rw [List.getD_append_right _ _ _ _ (by omega), Nat.add_sub_cancel_left,
        List.getD_cons_succ] at hslash
      cases ls with
      | nil => exact absurd hslash (by decide)
      | cons m ls =>
        refine ⟨[l], m, ls, rfl, by simp [unlines_cons], ?_⟩
        rw [unlines_cons] at hslash
        cases m with
        | nil =>
          rw [List.nil_append, List.getD_cons_zero] at hslash
          exact absurd hslash (by decide)
        | cons c m =>
          rw [List.cons_append, List.getD_cons_zero] at hslash
          rw [List.head?_cons, hslash]
    · obtain ⟨q, rfl⟩ : ∃ q, p = q + (l.length + 1) := ⟨p - (l.length + 1), by omega⟩
      have hshift (i : Nat) : (l ++ '\n' :: unlines ls).getD (i + (l.length + 1)) nul =
          (unlines ls).getD i nul := by
        rw [List.getD_append_right _ _ _ _ (by omega),
          show i + (l.length + 1) - l.length = i + 1 by omega, List.getD_cons_succ]
      rw [hshift] at hslash
      rw [show q + (l.length + 1) - 1 = q - 1 + (l.length + 1) by omega, hshift] at hnl
      obtain ⟨A, m, B, rfl, hq, hm⟩ :=
        ih (fun l hl => hls l (List.mem_cons_of_mem _ hl)) (by omega) hslash hnl
      refine ⟨l :: A, m, B, rfl, ?_, hm⟩
      rw [unlines_cons, List.length_append, List.length_cons, ← hq]
      omega

/-- A position in the file at the start of an entry that is not behind the path looked for, at
or behind the first of the lines `ls`. -/
def NotAfter (before ls : List Str) (target : Str) (p : Nat) : Prop :=
  ∃ A l B, ls = A ++ l :: B ∧ p = (unlines (before ++ A)).length ∧ linePath l ≤ target

variable {before ls cs : List Str} {target : Str}

theorem length_unlines_le (A B : List Str) : (unlines A).length ≤ (unlines (A ++ B)).length := by
  rw [unlines_append, List.length_append]
  exact Nat.le_add_right _ _

/-- What backing up to a slash behind a newline finds is the start of one of the entries. -/
theorem entry_of_isPathStart (h : SortedFile (before ++ ls) cs)
    (hp : (unlines before).length < p) (hs : isPathStart (unlines (before ++ ls ++ cs)) p) :
    ∃ A l B, ls = A ++ l :: B ∧ p = (unlines (before ++ A)).length := by
  obtain ⟨A', l, B', hsplit, hpos, hl⟩ := isPathStart_line _ h.oneLine (by omega) hs
  rw [List.append_assoc] at hsplit
  rcases List.append_eq_append_iff.mp hsplit with ⟨A, rfl, hrest⟩ | ⟨C, rfl, -⟩
  · rcases List.append_eq_append_iff.mp hrest with ⟨C, rfl, hcs⟩ | ⟨C, hls, hcs⟩
    · exact absurd hl (h.comment_head (by rw [hcs]; simp))
    · cases C with
      | nil =>
        rw [List.nil_append] at hcs
        exact absurd hl (h.comment_head (by rw [← hcs]; simp))
      | cons m C =>
        obtain ⟨rfl, -⟩ := List.cons.inj hcs
        exact ⟨A, l, C, hls, hpos⟩
  · have := length_unlines_le A' C
    omega

theorem drop_unlines (before A B : List Str) (l : Str) (cs : List Str) :
    (unlines (before ++ (A ++ l :: B) ++ cs)).drop (unlines (before ++ A)).length =
      l ++ '\n' :: unlines (B ++ cs) := by
  have : before ++ (A ++ l :: B) ++ cs = (before ++ A) ++ (l :: (B ++ cs)) := by simp
  rw [this, unlines_append (before ++ A), List.drop_left, unlines_cons]

theorem comparePath_entry (h : SortedFile (before ++ ls) cs) (ht : NulFree target)
    (hne : target ≠ []) (hls : ls = A ++ l :: B) :
    match comparePath (unlines (before ++ ls ++ cs)) target (unlines (before ++ A)).length with
    | none => target = linePath l
    | some n => 0 < n ∧ linePath l < target ∨ n < 0 ∧ target < linePath l := by
  subst hls
  exact comparePath_line ht (h.entry l (by simp)).oneLine (drop_unlines before A B l cs) hne

/-- The binary search ends, at an entry that is not behind the path looked for. -/
theorem bisect_spec (h : SortedFile (before ++ ls) cs) (ht : NulFree target) (hne : target ≠ [])
    (f plow phigh : Nat) (hlow : NotAfter before ls target plow) (hf : phigh - plow < f) :
    ∃ p, bisect (unlines (before ++ ls ++ cs)) target f plow phigh = some p ∧
      NotAfter before ls target p := by
  induction f generalizing plow phigh with
  | zero => exact absurd hf (Nat.not_lt_zero _)
  | succ f ih =>
    rw [bisect]
    obtain ⟨h₁, h₂, h₃⟩ := backUp_spec (unlines (before ++ ls ++ cs)) plow
      (plow + (phigh - plow) / 2) (Nat.le_add_right _ _)
    generalize backUp (unlines (before ++ ls ++ cs)) plow (plow + (phigh - plow) / 2) = pm at *
    split
    · exact ⟨plow, rfl, hlow⟩
    · rename_i hlt
      have hbefore : (unlines before).length ≤ plow := by
        obtain ⟨A, l, B, -, rfl, -⟩ := hlow
        exact length_unlines_le before A
      have hstart := h₃.resolve_left (by omega)
      obtain ⟨A, l, B, hls, hpm⟩ := entry_of_isPathStart h (by omega) hstart
      have hcmp := comparePath_entry h ht hne hls
      rw [← hpm] at hcmp
      split
      · rename_i hnone
        rw [hnone] at hcmp
        exact ⟨pm, rfl, A, l, B, hls, hpm, le_of_eq hcmp.symm⟩
      · rename_i n hsome
        rw [hsome] at hcmp
        split
        · rename_i hn
          have hl : linePath l < target := by
            rcases hcmp with hcmp | hcmp
            · exact hcmp.2
            · omega
          exact ih pm phigh ⟨A, l, B, hls, hpm, le_of_lt hl⟩ (by omega)
        · exact ih plow pm hlow (by omega)

end Watermarks

section Narrow
variable {before ls cs : List Str} {target : Str} {v : Vfp}

/-- `narrowSearch` finds the start of an entry that is not behind the path looked for, or the start
position. -/
theorem narrowSearch_spec (h : SortedFile (before ++ l :: ls) cs)
    (ht : NulFree target) (hne : target ≠ [])
    (hv : v.Reads (unlines before) (unlines (l :: ls ++ cs))) :
    ∃ p, narrowSearch v target = some p ∧
      (p = v.curr ∨ NotAfter before (l :: ls) target p) := by
  have hmem : v.mem = unlines (before ++ l :: ls ++ cs) := by
    rw [hv.mem, List.append_assoc, unlines_append before]
  have hslash := (h.entry l (by simp)).head
  have hl := (h.entry l (by simp)).two_le_length
  have hrem : ¬ vfpGetBytesRemaining v ≤ 1 := by
    rw [hv.remaining, List.cons_append, unlines_cons, List.length_append, List.length_cons]
    omega
  have hderef : v.ptr.deref = '/' := by
    rw [hv.ptr_eq, List.cons_append, unlines_cons]
    cases l with
    | nil => cases hslash
    | cons c l => exact Option.some.inj hslash
  have hcurr : v.curr = (unlines (before ++ [])).length := by rw [hv.curr, List.append_nil]
  have hfirst := comparePath_entry (A := []) h ht hne rfl
  rw [← hcurr, ← hmem] at hfirst
  have hfuel : v.highWater.toNat - v.curr < v.mem.length + 1 := by
    rw [hv.highWater]
    omega
  have hhigh : v.curr ≤ v.highWater.toNat := by
    have hlen : v.mem.length = (unlines before).length + (unlines (l :: ls ++ cs)).length := by
      rw [hv.mem, List.length_append]
    rw [hv.highWater, hv.curr]
    rw [List.cons_append, unlines_cons, List.length_append, List.length_cons] at hlen
    omega
  simp only [narrowSearch, if_neg (not_or.mpr ⟨hne, hrem⟩), hderef, ne_eq, not_true_eq_false,
    if_false]
  split
  · exact ⟨_, rfl, .inl rfl⟩
  · rename_i n hsome
    rw [hsome] at hfirst
    split
    · exact ⟨_, rfl, .inl rfl⟩
    · rename_i hn
      -- the first entry is before the path looked for
      have hlt : linePath l < target := by
        rcases hfirst with hfirst | hfirst
        · exact hfirst.2
        · omega
      have hlow : NotAfter before (l :: ls) target v.curr := ⟨[], l, ls, rfl, hcurr, le_of_lt hlt⟩
      obtain ⟨p, hp, hafter⟩ := bisect_spec h ht hne _ _ _ hlow hfuel
      rw [← hmem] at hp
      obtain ⟨h₁, h₂, h₃⟩ := backUp_spec v.mem v.curr v.highWater.toNat hhigh
      split
      · rename_i hpm
        obtain ⟨A, m, B, hls, hpos⟩ :=
          entry_of_isPathStart (p := backUp v.mem v.curr v.highWater.toNat)
          h (by rw [← hv.curr]; exact hpm.1) (by rw [← hmem]; exact h₃.resolve_left (by omega))
        have hcmp := comparePath_entry h ht hne hls
        rw [← hpos, ← hmem] at hcmp
        split
        · rename_i hnone
          rw [hnone] at hcmp
          exact ⟨_, rfl, .inr ⟨A, m, B, hls, hpos, le_of_eq hcmp.symm⟩⟩
        · rename_i n' hsome'
          rw [hsome'] at hcmp
          split
          · rename_i hn'
            have hm : linePath m < target := by
              rcases hcmp with hcmp | hcmp
              · exact hcmp.2
              · omega
            exact ⟨_, rfl, .inr ⟨A, m, B, hls, hpos, le_of_lt hm⟩⟩
          · exact ⟨p, hp, .inr hafter⟩
      · exact ⟨p, hp, .inr hafter⟩

end Narrow

end Pkgtools
