import Pkgtools.EntryText

namespace Pkgtools
open CLib
set_option autoImplicit true

/-- A call that finds `L` as the first line it does not pass over returns what `L` determines, and
leaves the position behind `L`. -/
def LineLocal (L : Str) : Prop :=
  ∀ ept, ∃ ret ept', ∀ (stack : Str) (before skipped after : List Str) (cf : Vfp) (tmp : Option Vfp),
    (∀ l ∈ before ++ skipped ++ after, Printable l) → (∀ l ∈ skipped, isSkipped l) →
    cf.Reads (unlines before) (unlines (skipped ++ L :: after)) →
    (srchcfile stack ept (some ['*']) cf tmp).ret = ret ∧
    (srchcfile stack ept (some ['*']) cf tmp).ept = ept' ∧
    (srchcfile stack ept (some ['*']) cf tmp).cf.curr = (unlines (before ++ skipped ++ [L])).length

/-- The line does not end in front of a field that its parse goes on to. -/
def FieldsPresent (L : Str) : Prop := ∀ ept, (parseLine (initEntry ept) L).isSome

def outcome : Except Fail Cfent → Int × Cfent
  | .ok ept => (1, ept)
  | .error e => (-1, e.ept)

theorem lineLocal_of_present (hL : OneLine L) (hs : isSkipped L = false) (h₂ : 2 ≤ L.length)
    (hf : FieldsPresent L) : LineLocal L := by
  intro ept
  obtain ⟨r, hr⟩ := Option.isSome_iff_exists.mp (hf ept)
  refine ⟨(outcome r).1, (outcome r).2, ?_⟩
  intro stack before skipped after cf tmp hp hsk hcf
  rw [unlines_append, unlines_cons] at hcf
  have hls : ∀ l ∈ skipped, OneLine l ∧ isSkipped l := fun l hl =>
    ⟨(hp l (by simp [hl])).oneLine, hsk l hl⟩
  have hpos : (unlines (before ++ skipped ++ [L])).length =
      (unlines before).length + (unlines skipped).length + L.length + 1 := by
    simp only [unlines_append, unlines_cons, unlines_nil, List.length_append, List.length_cons,
      List.length_nil]
    omega
  rw [srchcfile_of_parseLine hcf hls hL hs h₂ hr, hpos]
  cases r with
  | error e => exact ⟨rfl, rfl, rfl⟩
  | ok e => exact ⟨rfl, rfl, rfl⟩

theorem two_le_of_lineLocal (hL : OneLine L) (hs : isSkipped L = false) (h : LineLocal L) :
    2 ≤ L.length := by
  obtain ⟨c, M, rfl, -⟩ := isSkipped_eq_false hs
  cases M with
  | cons d M =>
    rw [List.length_cons, List.length_cons]
    omega
  | nil =>
    -- a single character at the end of the file is taken for the end of the file
    obtain ⟨ret, ept', h⟩ := h zeroEntry
    have hfree : NulFree (unlines [[c]]) := nulFree_unlines (by simpa using hL)
    obtain ⟨-, -, hpos⟩ := h [] [] [] [] (vfpOpen [c, '\n']) none (by simp) (by simp)
      (vfpOpen_reads hfree)
    cases hpos

theorem present_of_lineLocal (hL : OneLine L) (hs : isSkipped L = false) (h₂ : 2 ≤ L.length)
    (h : LineLocal L) : FieldsPresent L := by
  intro ept
  by_contra hn
  rw [Option.not_isSome_iff_eq_none] at hn
  obtain ⟨ret, ept', h⟩ := h ept
  -- a next line that starts with a path is run into
  have hls : ∀ l ∈ [L, "/z".toList], OneLine l := by
    intro l hl
    rcases List.mem_cons.mp hl with rfl | hl
    · exact hL
    · rw [List.mem_singleton.mp hl]
      decide
  have hcf := vfpOpen_reads (nulFree_unlines hls)
  have hread : (vfpOpen (unlines [L, "/z".toList])).Reads []
      (L ++ '\n' :: unlines ["/z".toList]) := by
    rw [← unlines_cons]
    exact hcf
  obtain ⟨-, -, hpos⟩ := h [] [] [] ["/z".toList] _ none (by decide) (by simp) hcf
  have hR : unlines ["/z".toList] = '/' :: "z\n".toList := rfl
  obtain ⟨found, hstep, hB⟩ := (Search.step_line
    (s := ⟨vfpOpen (unlines [L, "/z".toList]), none, initEntry ept, 0, 0, false⟩) hread hL hs
    (fun _ => (rfl : compareEntry none _ _ _ = 0)) (.inr ⟨rfl, _, hR⟩) []).2 hn
  have hread' : (vfpOpen (unlines [L, "/z".toList])).Reads []
      (unlines [] ++ (L ++ '\n' :: unlines ["/z".toList])) := hread
  have hfound := srchcfile_any hread' (by simp) h₂ [] ept none hstep
  rw [hfound] at hpos
  rw [hpos] at hB
  simp only [List.nil_append, unlines_cons, unlines_nil, List.length_append, List.length_cons,
    List.length_nil] at hB
  omega

/-- The reader of the contents file keeps to a line exactly if the line has at least two characters
and all the fields that its parse goes on to. -/
theorem srchcfile_lineLocal_iff (hp : Printable L) (hs : isSkipped L = false) :
    LineLocal L ↔ 2 ≤ L.length ∧ FieldsPresent L := by
  constructor
  · intro h
    have h₂ := two_le_of_lineLocal hp.oneLine hs h
    exact ⟨h₂, present_of_lineLocal hp.oneLine hs h₂ h⟩
  · rintro ⟨h₂, hf⟩
    exact lineLocal_of_present hp.oneLine hs h₂ hf

theorem srchcfile_lineLocal_link : LineLocal (entryText sampleLink "/usr/adm".toList) := by
  refine (srchcfile_lineLocal_iff (by decide +kernel) sampleLink_writable.legible.found.1).mpr
    ⟨sampleLink_writable.legible.found.2, ?_⟩
  intro ept
  rw [parseLine_entryText sampleLink_writable.legible sampleLink_writable.numbered ept]
  rfl

/-- The words of the line behind one without a package list are taken for packages. -/
theorem srchcfile_takes_next_line :
    ¬ LineLocal "/a d none 0755 root sys".toList ∧
    (srchcfile [] zeroEntry (some ['*']) (vfpOpen (unlines
      ["/a d none 0755 root sys".toList, "/b d none 0755 root sys SUNWcsr".toList]))
        none).ept.pinfo.map
        (·.pkg) = ["/b", "d", "none", "0755", "root", "sys", "SUNWcsr"].map String.toList := by
  refine ⟨fun h => ?_, by decide +kernel⟩
  obtain ⟨ret, ept', h⟩ := h zeroEntry
  have hpos := (h [] [] [] ["/b d none 0755 root sys SUNWcsr".toList] (vfpOpen (unlines
    ["/a d none 0755 root sys".toList, "/b d none 0755 root sys SUNWcsr".toList])) none
    (by decide +kernel) (by simp) (vfpOpen_reads (nulFree_unlines (by decide +kernel)))).2.2
  have hcurr : (srchcfile [] zeroEntry (some ['*']) (vfpOpen (unlines
    ["/a d none 0755 root sys".toList, "/b d none 0755 root sys SUNWcsr".toList])) none).cf.curr =
      56 := by decide +kernel
  rw [hcurr] at hpos
  exact absurd hpos (by decide +kernel)

end Pkgtools
