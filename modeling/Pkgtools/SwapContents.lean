import Pkgtools.CLib.Directory
import Pkgtools.Vfp

namespace Pkgtools
open CLib
set_option autoImplicit true

/-- The names in the package administration directory that `swapcfile` works on. -/
inductive AdmFile where
  | contents
  | tContents
  | sContents
  deriving DecidableEq, Repr

/-- `RESULT_OK`, `RESULT_WRN` and `RESULT_ERR`. -/
inductive Result where
  | ok
  | wrn
  | err
  deriving DecidableEq, Repr

/-- How the system calls of `vfpWriteToFile` end: `open` fails, `vfpSafeWrite` fails and leaves
some leading bytes in the file, or everything is written. -/
inductive WriteOutcome where
  | openFails
  | short (k : Nat)
  | complete
  deriving DecidableEq, Repr

/-- The outcome of each fallible call that `swapcfile` makes, in the order of the source. -/
structure SwapOutcomes where
  closeContents : Bool
  writeT : WriteOutcome
  removeTAfterWrite : Bool
  removeStaleS : Bool
  linkS : Bool
  renameT : Bool
  restoreS : Bool
  removeT : Bool
  removeS : Bool
  statContents : Bool
  mallocVfp : Bool
  unlock : Bool

/-- `skip past all trailing newlines and null bytes`. -/
def skipTrailing (mem : Str) : Nat → Nat
  | 0 => 0
  | pe + 1 =>
    if mem.getD (pe + 1) nul = '\n' ∨ mem.getD (pe + 1) nul = nul then skipTrailing mem pe
    else pe + 1

/-- `remove trailing comments as long as there are lines in the file`. -/
def trimComments (v : Vfp) (pl : Nat) : Nat → Vfp
  | 0 => v
  | pe + 1 =>
    if v.mem.getD (pe + 1) nul ≠ '\n' then trimComments v (pe + 1) pe
    else if v.mem.getD pl nul ≠ '#' then v
    else trimComments (vfpSetLastCharPtr { v with mem := memWrite v.mem pl [nul] } pl) pl pe

/-- The two comment lines put at the end of a changed contents file. -/
def modifiedLine (prog pkginst timeb : Str) : Str :=
  strlcpy 256 ("# Last modified by ".toList ++ prog ++ " for ".toList ++ pkginst ++
    " package\n# ".toList ++ timeb)

/-- The temporary contents file with its trailing comments replaced by new ones. -/
def stampComments (tmp : Vfp) (line : Str) : Vfp :=
  vfpPuts (trimComments tmp tmp.curr (skipTrailing tmp.mem tmp.curr)) line

/-- The bytes `vfpWriteToFile` commits. -/
def Vfp.image (v : Vfp) : Str := v.mem.take (vfpGetModifiedLen v)

/-- The buffer-overflow test of `vfpWriteToFile` and `vfpCheckpointFile`. -/
def Vfp.tooBig (v : Vfp) : Bool := v.overflow || decide (vfpGetBytesAvailable v < 1)

def vfpWriteToFile (v : Vfp) (d : Directory AdmFile) (n : AdmFile) (o : WriteOutcome) :
    Bool × Directory AdmFile :=
  if v.tooBig then (false, d)
  else match o with
    | .openFails => (false, d)
    | .short k =>
      if v.image = [] then (true, d.create n []) else (false, d.create n (v.image.take k))
    | .complete => (true, d.create n v.image)

/-- `vfpCheckpointFile`, which keeps the in-memory image for the next `vfpCheckpointOpen`. -/
def vfpCheckpointFile (v : Vfp) (d : Directory AdmFile) (n : AdmFile) (stat malloc : Bool) :
    Option Vfp :=
  if v.tooBig then none
  else if stat ∧ (d.entry n).isSome ∧ malloc then some v else none

structure SwapResult where
  result : Result
  dir : Directory AdmFile
  /-- The module global `contentsVfp`. -/
  contentsVfp : Option Vfp

/-- `swapcfile` from the first `rename` on: a failed `rename` is reported and the old contents file
restored, and the function goes on. -/
def swapRename (tmp : Vfp) (d : Directory AdmFile) (retval : Result) (o : SwapOutcomes) :
    SwapResult :=
  let (renamed, d) := d.rename .tContents .contents o.renameT
  let d := if renamed then d
    else (((d.rename .sContents .contents o.restoreS).2).remove .tContents o.removeT).2
  let (removed, d) := d.remove .sContents o.removeS
  let retval := if removed then retval else .wrn
  let contentsVfp := vfpCheckpointFile tmp d .contents o.statContents o.mallocVfp
  ⟨if o.unlock then retval else .err, d, contentsVfp⟩

/-- `swapcfile`, with the program name and the text of the clock as parameters. -/
def swapcfile (tmp : Vfp) (pkginst : Option Str) (dbchg : Int) (prog timeb : Str)
    (d : Directory AdmFile) (o : SwapOutcomes) : SwapResult :=
  let dbchg := if pkginst = none then 0 else dbchg
  let retval := if o.closeContents then Result.ok else .wrn
  if dbchg = 0 ∧ tmp.modified = false then
    ⟨retval, d, vfpCheckpointFile tmp d .contents o.statContents o.mallocVfp⟩
  else
    let tmp := stampComments tmp (modifiedLine prog (pkginst.getD "<unknown>".toList) timeb)
    let (written, d) := vfpWriteToFile tmp d .tContents o.writeT
    if ¬ written then ⟨.err, (d.remove .tContents o.removeTAfterWrite).2, none⟩
    else
      let stale := (d.entry .sContents).isSome
      let (removed, d) := if stale then d.remove .sContents o.removeStaleS else (true, d)
      if ¬ removed then ⟨.err, (d.remove .tContents o.removeTAfterWrite).2, none⟩
      else
        let (linked, d) := d.link .contents .sContents o.linkS
        if ¬ linked then ⟨.err, (d.remove .tContents o.removeTAfterWrite).2, none⟩
        else swapRename tmp d retval o

/-- The administration directory between two operations: the contents file exists and the
temporary name is no second link to it. -/
structure AdmDir where
  dir : Directory AdmFile
  wf : dir.Wf
  contents : (dir.entry .contents).isSome
  unshared : dir.entry .contents ≠ dir.entry .tContents

/-- A reported success leaves the new image in the contents file, a reported error the old one. -/
def SwapAtomic (old : Option Str) (image : Str) (r : SwapResult) : Prop :=
  (r.result ≠ .err → r.dir.read .contents = some image) ∧
    (r.result = .err → r.dir.read .contents = old)

instance (old : Option Str) (image : Str) (r : SwapResult) : Decidable (SwapAtomic old image r) :=
  inferInstanceAs (Decidable ((_ → _) ∧ (_ → _)))

/-- Every call before the first `rename` succeeds. -/
def ReachesRename (tmp : Vfp) (d : Directory AdmFile) (o : SwapOutcomes) : Prop :=
  tmp.tooBig = false ∧ (o.writeT = .complete ∨ o.writeT ≠ .openFails ∧ tmp.image = []) ∧
    (d.entry .sContents = none ∨ o.removeStaleS) ∧ o.linkS

instance (tmp : Vfp) (d : Directory AdmFile) (o : SwapOutcomes) :
    Decidable (ReachesRename tmp d o) :=
  inferInstanceAs (Decidable (_ ∧ _ ∧ _ ∧ _))

theorem vfpWriteToFile_true (h : (vfpWriteToFile v d n o).1 = true) :
    vfpWriteToFile v d n o = (true, d.create n v.image) ∧ v.tooBig = false ∧
      (o = .complete ∨ o ≠ .openFails ∧ v.image = []) := by
  simp only [vfpWriteToFile] at h ⊢
  by_cases hb : v.tooBig
  · simp [hb] at h
  · simp only [hb, Bool.false_eq_true, if_false] at h ⊢
    cases o with
    | openFails => simp at h
    | complete => simp
    | short k =>
      by_cases he : v.image = []
      · simp [he]
      · simp [he] at h

theorem vfpWriteToFile_false (h : (vfpWriteToFile v d n o).1 = false) :
    (vfpWriteToFile v d n o).2 = d ∨ ∃ s, (vfpWriteToFile v d n o).2 = d.create n s := by
  simp only [vfpWriteToFile] at h ⊢
  by_cases hb : v.tooBig
  · simp [hb]
  · simp only [hb, Bool.false_eq_true, if_false] at h ⊢
    cases o with
    | openFails => simp
    | complete => simp at h
    | short k =>
      by_cases he : v.image = []
      · simp [he] at h
      · simp [he]

theorem vfpWriteToFile_reaches (hb : v.tooBig = false)
    (ho : o = .complete ∨ o ≠ .openFails ∧ v.image = []) : (vfpWriteToFile v d n o).1 = true := by
  rcases ho with rfl | ⟨hne, he⟩
  · simp [vfpWriteToFile, hb]
  · cases o with
    | openFails => exact absurd rfl hne
    | complete => simp [vfpWriteToFile, hb]
    | short k => simp [vfpWriteToFile, hb, he]

section Rename
variable {d : Directory AdmFile} {tmp : Vfp} {retval : Result} {o : SwapOutcomes}

theorem swapRename_result (hu : o.unlock = true) (hr : retval ≠ .err) :
    (swapRename tmp d retval o).result ≠ .err := by
  have hif (b : Bool) : (if b = true then retval else .wrn) ≠ .err := by
    cases b with
    | true => exact hr
    | false => simp
  simp only [swapRename, hu, if_true]
  exact hif _

theorem swapRename_renamed (ht : (d.entry .tContents).isSome)
    (hne : d.entry .tContents ≠ d.entry .contents) (ho : o.renameT = true) :
    (swapRename tmp d retval o).dir.read .contents = d.read .tContents := by
  have he : d.rename .tContents .contents o.renameT =
      (true, (d.setEntry .contents (d.entry .tContents)).setEntry .tContents none) := by
    simp [Directory.rename, ho, ht, hne]
  simp only [swapRename, he, if_true]
  rw [Directory.read_remove_ne (by decide), Directory.read_setEntry_ne (by decide)]
  simp [Directory.read, Directory.setEntry]

/-- After a failed `rename` the restore path leaves the old contents file in place: `s.contents`
is a second link to it, so the second `rename` does nothing. -/
theorem swapRename_kept (hs : d.entry .sContents = d.entry .contents) (ho : o.renameT = false) :
    (swapRename tmp d retval o).dir.read .contents = d.read .contents := by
  have he : d.rename .tContents .contents o.renameT = (false, d) := by
    simp [Directory.rename, ho]
  have hr : (d.rename .sContents .contents o.restoreS).2 = d := by
    cases hok : o.restoreS with
    | true =>
      simp only [Directory.rename, hs, true_and, if_true]
      split <;> rfl
    | false => simp [Directory.rename]
  simp only [swapRename, he, hr, Bool.false_eq_true, if_false]
  rw [Directory.read_remove_ne (by decide), Directory.read_remove_ne (by decide)]

end Rename

section Swap
variable {tmp : Vfp} {pkginst : Option Str} {dbchg : Int} {prog timeb : Str} {o : SwapOutcomes}

/-- The stamped image that a changed `swapcfile` writes. -/
def stamped (tmp : Vfp) (pkginst : Option Str) (prog timeb : Str) : Vfp :=
  stampComments tmp (modifiedLine prog (pkginst.getD "<unknown>".toList) timeb)

/-- The database was changed, as `swapcfile` decides it. -/
def Changed (tmp : Vfp) (pkginst : Option Str) (dbchg : Int) : Prop :=
  pkginst ≠ none ∧ dbchg ≠ 0 ∨ tmp.modified = true

instance (tmp : Vfp) (pkginst : Option Str) (dbchg : Int) : Decidable (Changed tmp pkginst dbchg) :=
  inferInstanceAs (Decidable (_ ∨ _))

theorem Changed.not_unchanged (h : Changed tmp pkginst dbchg) :
    ¬ ((if pkginst = none then 0 else dbchg) = 0 ∧ tmp.modified = false) := by
  rintro ⟨h₁, h₂⟩
  rcases h with ⟨hp, hd⟩ | hm
  · rw [if_neg hp] at h₁
    exact hd h₁
  · rw [hm] at h₂
    cases h₂

theorem swapcfile_reaches (a : AdmDir) (hc : Changed tmp pkginst dbchg)
    (h : ReachesRename (stamped tmp pkginst prog timeb) a.dir o) :
    ∃ d retval, retval ≠ Result.err ∧
      swapcfile tmp pkginst dbchg prog timeb a.dir o =
        swapRename (stamped tmp pkginst prog timeb) d retval o ∧
      d.entry .sContents = d.entry .contents ∧ d.read .contents = a.dir.read .contents ∧
      d.read .tContents = some (stamped tmp pkginst prog timeb).image ∧
      d.entry .tContents ≠ d.entry .contents ∧ (d.entry .tContents).isSome := by
  obtain ⟨hb, hw, hs, hl⟩ := h
  obtain ⟨hwr, -, -⟩ := vfpWriteToFile_true
    (vfpWriteToFile_reaches (d := a.dir) (n := .tContents) hb hw)
  generalize hv : stamped tmp pkginst prog timeb = v at *
  have hcs : ((a.dir.create .tContents v.image).entry .contents).isSome := by
    rw [Directory.entry_create_ne (by decide)]
    exact a.contents
  have hse : (a.dir.create .tContents v.image).entry .sContents = a.dir.entry .sContents :=
    Directory.entry_create_ne (by decide) _
  -- a stale `s.contents` is removed first, so that the link finds its name free
  have hfree : (a.dir.create .tContents v.image).entry .sContents = none ∨ o.removeStaleS := by
    rwa [hse]
  have hd := Directory.remove_if_present hfree
  generalize hd' : (a.dir.create .tContents v.image).setEntry .sContents none = d at hd
  have hde : ∀ n, n ≠ .sContents → d.entry n = (a.dir.create .tContents v.image).entry n :=
    fun n hn => by rw [← hd', Directory.entry_setEntry_ne hn]
  have hdr : ∀ n, n ≠ .sContents → d.read n = (a.dir.create .tContents v.image).read n :=
    fun n hn => by rw [← hd', Directory.read_setEntry_ne hn]
  have hlink : d.link .contents .sContents o.linkS =
      (true, d.setEntry .sContents (d.entry .contents)) := by
    rw [Directory.link, if_pos ⟨hl, by rw [hde _ (by decide)]; exact hcs, by simp [← hd']⟩]
  refine ⟨d.setEntry .sContents (d.entry .contents),
    if o.closeContents then .ok else .wrn, by split <;> decide, ?_, ?_, ?_, ?_, ?_, ?_⟩
  · simp only [swapcfile, if_neg hc.not_unchanged]
    rw [show stampComments tmp _ = v from hv]
    simp only [hwr, hd, hlink]
    simp
  · rw [Directory.entry_setEntry_same, Directory.entry_setEntry_ne (by decide)]
  · rw [Directory.read_setEntry_ne (by decide), hdr _ (by decide)]
    exact Directory.read_create_ne a.wf a.unshared _
  · rw [Directory.read_setEntry_ne (by decide), hdr _ (by decide), Directory.read_create_same]
  · rw [Directory.entry_setEntry_ne (by decide), Directory.entry_setEntry_ne (by decide),
      hde _ (by decide), hde _ (by decide)]
    exact (Directory.entry_create_ne_entry a.wf a.unshared a.contents _).symm
  · rw [Directory.entry_setEntry_ne (by decide), hde _ (by decide)]
    exact Directory.entry_create_isSome _ _

/-- A failure before the first `rename` is reported and leaves the contents file alone. -/
theorem swapcfile_fails_early (a : AdmDir) (hc : Changed tmp pkginst dbchg)
    (h : ¬ ReachesRename (stamped tmp pkginst prog timeb) a.dir o) :
    (swapcfile tmp pkginst dbchg prog timeb a.dir o).result = .err ∧
      (swapcfile tmp pkginst dbchg prog timeb a.dir o).dir.read .contents =
        a.dir.read .contents := by
  simp only [swapcfile, if_neg hc.not_unchanged]
  rw [show stampComments tmp _ = stamped tmp pkginst prog timeb from rfl]
  generalize hv : stamped tmp pkginst prog timeb = v at *
  have hkeep (s : Str) : (a.dir.create .tContents s).read .contents = a.dir.read .contents :=
    Directory.read_create_ne a.wf a.unshared s
  cases hw : (vfpWriteToFile v a.dir .tContents o.writeT).1 with
  | false =>
    rcases vfpWriteToFile_false hw with hd | ⟨s, hd⟩
    · simp [hd, Directory.read_remove_ne]
    · simp [hd, Directory.read_remove_ne, hkeep]
  | true =>
    obtain ⟨hwr, hb, ho⟩ := vfpWriteToFile_true hw
    have hse : (a.dir.create .tContents v.image).entry .sContents = a.dir.entry .sContents :=
      Directory.entry_create_ne (by decide) _
    simp only [hwr]
    by_cases hr : a.dir.entry .sContents = none ∨ o.removeStaleS = true
    · -- the call of `link` is the one that fails
      have hl : o.linkS = false := by
        cases hl : o.linkS with
        | false => rfl
        | true => exact absurd ⟨hb, ho, hr, hl⟩ h
      rw [Directory.remove_if_present (by rwa [hse])]
      simp [hl, Directory.link, Directory.read_remove_ne, Directory.read_setEntry_ne, hkeep]
    · simp only [not_or, Bool.not_eq_true] at hr
      rw [hr.2, Directory.remove_if_present_fails (by rw [hse]; exact hr.1)]
      simp [Directory.read_remove_ne, hkeep]

/-- The swap is atomic exactly when the `rename` of the written file does not fail, or would have
changed nothing. -/
theorem swapcfile_atomic_iff (a : AdmDir) (hc : Changed tmp pkginst dbchg)
    (hu : o.unlock = true) :
    SwapAtomic (a.dir.read .contents) (stamped tmp pkginst prog timeb).image
        (swapcfile tmp pkginst dbchg prog timeb a.dir o) ↔
      (ReachesRename (stamped tmp pkginst prog timeb) a.dir o → o.renameT = true) ∨
        a.dir.read .contents = some (stamped tmp pkginst prog timeb).image := by
  by_cases h : ReachesRename (stamped tmp pkginst prog timeb) a.dir o
  · obtain ⟨d, retval, hr, he, hs, hold, hnew, hne, ht⟩ := swapcfile_reaches a hc h
    rw [he]
    have hres : (swapRename (stamped tmp pkginst prog timeb) d retval o).result ≠ .err :=
      swapRename_result hu hr
    simp only [SwapAtomic, hres, ne_eq, not_false_eq_true, forall_const, false_imp_iff, and_true, h]
    cases ho : o.renameT with
    | true => simp [swapRename_renamed ht hne ho, hnew]
    | false => simp [swapRename_kept hs ho, hold]
  · obtain ⟨herr, hread⟩ := swapcfile_fails_early a hc h
    simp [SwapAtomic, herr, hread, h]

end Swap

def sampleDir : Directory AdmFile :=
  ⟨fun n => if n = .contents then some 0 else none, fun _ => "/a d none 0755 root sys PKG\n".toList,
    1⟩

def sampleAdm : AdmDir where
  dir := sampleDir
  wf := by
    intro n i hi
    cases n <;> simp [sampleDir] at hi
    exact hi ▸ Nat.zero_lt_one
  contents := rfl
  unshared := by decide

def sampleTmp : Vfp :=
  vfpSetModified (vfpPuts (vfpAnonymous 8 100 (fun _ => nul))
    "/b d none 0755 root sys PKG\n".toList)

def allSucceed : SwapOutcomes :=
  ⟨true, .complete, true, true, true, true, true, true, true, true, true, true⟩

/-- When only the `rename` of the new file fails, `swapcfile` reports success and the contents file
is still the old one. -/
theorem swapcfile_hides_failed_rename :
    ¬ ∀ (a : AdmDir) (tmp : Vfp) (pkginst : Option Str) (dbchg : Int) (prog timeb : Str)
        (o : SwapOutcomes), Changed tmp pkginst dbchg → o.unlock = true →
      SwapAtomic (a.dir.read .contents) (stamped tmp pkginst prog timeb).image
        (swapcfile tmp pkginst dbchg prog timeb a.dir o) := by
  intro h
  have := h sampleAdm sampleTmp (some "PKG".toList) 1 "pkgadd".toList "Mon\n".toList
    { allSucceed with renameT := false } (by decide) rfl
  revert this
  decide

theorem swapcfile_atomic_iff_sample :
    Changed sampleTmp (some "PKG".toList) 1 ∧ allSucceed.unlock = true ∧
      (SwapAtomic (sampleAdm.dir.read .contents)
          (stamped sampleTmp (some "PKG".toList) "pkgadd".toList "Mon\n".toList).image
          (swapcfile sampleTmp (some "PKG".toList) 1 "pkgadd".toList "Mon\n".toList
            sampleAdm.dir allSucceed) ↔
        (ReachesRename (stamped sampleTmp (some "PKG".toList) "pkgadd".toList "Mon\n".toList)
            sampleAdm.dir allSucceed → allSucceed.renameT = true) ∨
          sampleAdm.dir.read .contents =
            some (stamped sampleTmp (some "PKG".toList) "pkgadd".toList "Mon\n".toList).image) :=
  ⟨by decide, rfl, swapcfile_atomic_iff sampleAdm (by decide) rfl⟩

end Pkgtools
