import Mathlib.Data.List.GetD
import Mathlib.Data.List.Induction
import Pkgtools.CLib.Lines
import Pkgtools.SearchContents
import Pkgtools.VfpAppend

namespace Pkgtools
open CLib
set_option autoImplicit true

/-- What the trim leaves of `v`: its first `n` bytes, with the write pointer behind them. -/
structure Trimmed (v w : Vfp) (n : Nat) : Prop where
  text : w.mem.take n = v.mem.take n
  curr : w.curr = n
  highWater : w.highWater = n
  last : w.last = v.last
  length : w.mem.length = v.mem.length
  overflow : w.overflow = v.overflow

theorem Trimmed.refl {v : Vfp} (hv : v.Wf) : Trimmed v v v.curr :=
  ⟨rfl, rfl, hv.highWater_eq, rfl, rfl, rfl⟩

theorem Trimmed.trans (h : Trimmed u v m) (h' : Trimmed v w n) (hn : n ≤ m) : Trimmed u w n where
  text := by
    have htake := congrArg (List.take n) h.text
    rw [List.take_take, List.take_take, Nat.min_eq_left hn] at htake
    exact h'.text.trans htake
  curr := h'.curr
  highWater := h'.highWater
  last := h'.last.trans h.last
  length := h'.length.trans h.length
  overflow := h'.overflow.trans h.overflow

theorem Trimmed.wf (h : Trimmed v w n) (hv : v.Wf) (hn : n ≤ v.curr) : w.Wf where
  curr_le := by
    have := hv.curr_le
    rw [h.curr, h.last]
    omega
  last_lt := by
    rw [h.last, h.length]
    exact hv.last_lt
  highWater_eq := by rw [h.highWater, h.curr]

section Trim
variable {v : Vfp} {mem U l rest : Str}

theorem trimmed_setLast (hp : p ≤ v.curr) (hv : v.Wf) :
    Trimmed v (vfpSetLastCharPtr { v with mem := memWrite v.mem p [nul] } p) p := by
  have h₁ := hv.curr_le
  have h₂ := hv.last_lt
  have hlen : p + [nul].length ≤ v.mem.length := by
    rw [List.length_singleton]
    omega
  refine ⟨?_, ?_, rfl, rfl, length_memWrite hlen, rfl⟩
  · have htake : (memWrite v.mem p [nul]).take (p + 0) = v.mem.take p ++ [nul].take 0 :=
      take_memWrite (by omega) (Nat.zero_le 1)
    rwa [Nat.add_zero, List.take_zero, List.append_nil] at htake
  · simp only [vfpSetLastCharPtr]
    split <;> omega

theorem trimComments_back (v : Vfp) (pl : Nat) (h : start < pe)
    (hline : ∀ i, start < i → i ≤ pe → v.mem.getD i nul ≠ '\n') :
    trimComments v pl pe = trimComments v (start + 1) start := by
  induction pe generalizing pl with
  | zero => omega
  | succ pe ih =>
    rw [trimComments, if_pos (hline (pe + 1) h (Nat.le_refl _))]
    by_cases hlt : start < pe
    · exact ih (pe + 1) hlt fun i h₁ h₂ => hline i h₁ (Nat.le_succ_of_le h₂)
    · have he : start = pe := by omega
      rw [he]

theorem getD_line (hmem : mem = U ++ (l ++ rest)) (hj : j < l.length) :
    mem.getD (U.length + j) nul = l.getD j nul := by
  rw [hmem, List.getD_append_right _ _ _ _ (Nat.le_add_right _ _), Nat.add_sub_cancel_left,
    List.getD_append _ _ _ _ hj]

theorem getD_ne_newline (hl : '\n' ∉ l) (hj : j < l.length) : l.getD j nul ≠ '\n' := by
  rw [List.getD_eq_getElem _ _ hj]
  exact fun h => hl (h ▸ List.getElem_mem hj)

theorem trimComments_first (hmem : v.mem = l ++ rest) (hl : '\n' ∉ l) (pl : Nat) :
    trimComments v pl (l.length - 1) = v := by
  by_cases h : 0 < l.length - 1
  · have hline (i : Nat) (h₁ : 0 < i) (h₂ : i ≤ l.length - 1) : v.mem.getD i nul ≠ '\n' := by
      have hget := getD_line (U := []) (j := i) hmem (by omega)
      rw [List.length_nil, Nat.zero_add] at hget
      rw [hget]
      exact getD_ne_newline hl (by omega)
    rw [trimComments_back v pl h hline, trimComments]
  · rw [Nat.eq_zero_of_not_pos h, trimComments]

/-- At a line behind others the scan ends, unless it is a comment, which is taken off. -/
theorem trimComments_line (hmem : v.mem = U ++ (l ++ rest)) (hU : U.length = k + 2)
    (hend : U.getD (k + 1) nul = '\n') (hl : '\n' ∉ l) (hne : l ≠ []) (pl : Nat) :
    trimComments v pl (U.length + l.length - 1) =
      if l.head? ≠ some '#' then v
      else trimComments (vfpSetLastCharPtr { v with mem := memWrite v.mem U.length [nul] } U.length)
        U.length k := by
  have hpos := List.length_pos_iff.mpr hne
  have hline (i : Nat) (h₁ : k + 1 < i) (h₂ : i ≤ U.length + l.length - 1) :
      v.mem.getD i nul ≠ '\n' := by
    obtain ⟨j, rfl⟩ : ∃ j, i = U.length + j := ⟨i - U.length, by omega⟩
    rw [getD_line hmem (by omega)]
    exact getD_ne_newline hl (by omega)
  have hnl : v.mem.getD (k + 1) nul = '\n' := by
    rw [hmem, List.getD_append _ _ _ _ (by omega), hend]
  have hhead : v.mem.getD U.length nul = '#' ↔ l.head? = some '#' := by
    have hget := getD_line (j := 0) hmem hpos
    rw [Nat.add_zero] at hget
    rw [hget]
    cases l with
    | nil => exact absurd rfl hne
    | cons c l => exact (Option.some_inj).symm
  rw [trimComments_back v pl (by omega) hline, trimComments, if_neg (not_not.mpr hnl), ← hU]
  simp only [ne_eq, hhead]

end Trim

/-- The lines of a temporary contents file: entries, and comments behind them. -/
structure Commented (ls cs : List Str) : Prop where
  ne_nil : ls ≠ []
  entry : ∀ l ∈ ls, OneLine l ∧ l ≠ [] ∧ l.head? ≠ some '#'
  comment : ∀ c ∈ cs, OneLine c ∧ c.head? = some '#'

section Lines
variable {v : Vfp} {ls cs : List Str}

theorem Commented.line (h : Commented ls cs) (hm : m ∈ ls ++ cs) : '\n' ∉ m ∧ m ≠ [] := by
  rcases List.mem_append.mp hm with hm | hm
  · exact ⟨(h.entry m hm).1.1, (h.entry m hm).2.1⟩
  · refine ⟨(h.comment m hm).1.1, ?_⟩
    rintro rfl
    cases (h.comment _ hm).2

theorem unlines_end (hms : ∀ m ∈ ms, m ≠ []) (hne : ms ≠ []) :
    ∃ k, (unlines ms).length = k + 2 ∧ (unlines ms).getD (k + 1) nul = '\n' := by
  obtain ⟨A, m, rfl⟩ := List.eq_nil_or_concat ms |>.resolve_left hne
  have hpos := List.length_pos_iff.mpr (hms m (by simp))
  have htext : unlines (A.concat m) = (unlines A ++ m) ++ ['\n'] := by
    rw [List.concat_eq_append, unlines_append, unlines_cons, unlines_nil, List.append_assoc]
  have hlen : (unlines (A.concat m)).length = (unlines A).length + m.length + 1 := by
    rw [htext, List.length_append, List.length_append, List.length_singleton]
  refine ⟨(unlines A).length + m.length - 1, by omega, ?_⟩
  have hk : (unlines A).length + m.length - 1 + 1 = (unlines A ++ m).length := by
    rw [List.length_append]
    omega
  rw [hk, htext, List.getD_append_right _ _ _ _ (Nat.le_refl _), Nat.sub_self]
  rfl

theorem Vfp.Wf.text_length {v : Vfp} (hv : v.Wf) : v.text.length = v.curr := by
  have h₁ := hv.curr_le
  have h₂ := hv.last_lt
  rw [Vfp.text, List.length_take]
  omega

theorem text_lastLine (hv : v.Wf) (htext : v.text = unlines (ms ++ [m])) :
    (∃ rest, v.mem = unlines ms ++ (m ++ rest)) ∧
      v.curr - 2 = (unlines ms).length + m.length - 1 := by
  have hline : unlines (ms ++ [m]) = unlines ms ++ (m ++ ['\n']) := by
    rw [unlines_append, unlines_cons, unlines_nil]
  have hlen := hv.text_length
  rw [htext, hline, List.length_append, List.length_append, List.length_singleton] at hlen
  refine ⟨⟨'\n' :: v.mem.drop v.curr, ?_⟩, by omega⟩
  have hmem := (List.take_append_drop v.curr v.mem).symm
  rw [← Vfp.text, htext, hline] at hmem
  simpa using hmem

/-- From the end of the last line on, all comments are taken off. -/
theorem trimComments_trims (h : Commented ls cs) (hv : v.Wf)
    (htext : v.text = unlines (ls ++ cs)) (pl : Nat) :
    Trimmed v (trimComments v pl (v.curr - 2)) (unlines ls).length := by
  induction cs using List.reverseRecOn generalizing v pl with
  | nil =>
    obtain ⟨A, l, rfl⟩ := List.eq_nil_or_concat ls |>.resolve_left h.ne_nil
    rw [List.concat_eq_append] at h htext ⊢
    rw [List.append_nil] at htext
    obtain ⟨⟨rest, hmem⟩, hpe⟩ := text_lastLine hv htext
    obtain ⟨hl, hlne, hhead⟩ := h.entry l (by simp)
    have hstays : trimComments v pl (v.curr - 2) = v := by
      rw [hpe]
      by_cases hA : A = []
      · rw [hA, unlines_nil, List.nil_append] at hmem
        rw [hA, unlines_nil, List.length_nil, Nat.zero_add]
        exact trimComments_first hmem hl.1 pl
      · obtain ⟨k, hk, hend⟩ := unlines_end (fun m hm => (h.entry m (by simp [hm])).2.1) hA
        rw [trimComments_line hmem hk hend hl.1 hlne, if_pos hhead]
    rw [hstays, ← htext, hv.text_length]
    exact Trimmed.refl hv
  | append_singleton cs c ih =>
    rw [← List.append_assoc] at htext
    obtain ⟨⟨rest, hmem⟩, hpe⟩ := text_lastLine hv htext
    obtain ⟨hc, hhead⟩ := h.comment c (by simp)
    have h' : Commented ls cs := ⟨h.ne_nil, h.entry, fun x hx => h.comment x (by simp [hx])⟩
    obtain ⟨k, hk, hend⟩ := unlines_end (fun m hm => (h'.line hm).2)
      (List.append_ne_nil_of_left_ne_nil h.ne_nil cs)
    have hcne : c ≠ [] := by
      rintro rfl
      cases hhead
    have hle : (unlines (ls ++ cs)).length ≤ v.curr := by
      have hlen := congrArg List.length htext
      rw [hv.text_length, unlines_append, List.length_append] at hlen
      omega
    have hstep := trimmed_setLast hle hv
    have htake : v.mem.take (unlines (ls ++ cs)).length = unlines (ls ++ cs) := by
      rw [hmem, List.take_left]
    rw [hpe, trimComments_line hmem hk hend hc.1 hcne, if_neg (not_not.mpr hhead)]
    generalize vfpSetLastCharPtr { v with mem := memWrite v.mem (unlines (ls ++ cs)).length [nul] }
      (unlines (ls ++ cs)).length = w at hstep ⊢
    have hw := hstep.wf hv hle
    have hrest := ih h' hw (by rw [Vfp.text, hstep.curr, hstep.text, htake])
      (unlines (ls ++ cs)).length
    rw [hstep.curr, hk, Nat.add_sub_cancel] at hrest
    rw [← hk] at hrest
    refine hstep.trans hrest ?_
    rw [unlines_append, List.length_append]
    exact Nat.le_add_right _ _

theorem text_end (h : Commented ls cs) (hv : v.Wf) (htext : v.text = unlines (ls ++ cs)) :
    ∃ k, v.curr = k + 2 ∧ v.mem.getD (k + 1) nul = '\n' ∧ v.mem.getD k nul ≠ '\n' ∧
      v.mem.getD k nul ≠ nul := by
  have hne : ls ++ cs ≠ [] := List.append_ne_nil_of_left_ne_nil h.ne_nil cs
  obtain ⟨k, hk, hend⟩ := unlines_end (fun m hm => (h.line hm).2) hne
  have hcurr : v.curr = k + 2 := by rw [← hk, ← htext, hv.text_length]
  have hmem : v.mem = unlines (ls ++ cs) ++ v.mem.drop v.curr := by
    rw [← htext]
    exact (List.take_append_drop v.curr v.mem).symm
  obtain ⟨A, m, hms⟩ := List.eq_nil_or_concat (ls ++ cs) |>.resolve_left hne
  rw [List.concat_eq_append] at hms
  obtain ⟨⟨rest, hlast⟩, hpe⟩ := text_lastLine hv (htext.trans (congrArg unlines hms))
  have hm : m ∈ ls ++ cs := by rw [hms]; simp
  have hone : OneLine m := by
    rcases List.mem_append.mp hm with hm | hm
    · exact (h.entry m hm).1
    · exact (h.comment m hm).1
  have hpos := List.length_pos_iff.mpr (h.line hm).2
  have hget : v.mem.getD k nul = m.getD (m.length - 1) nul := by
    have hget := getD_line (j := m.length - 1) hlast (by omega)
    rwa [show (unlines A).length + (m.length - 1) = k by omega] at hget
  have hin : m.getD (m.length - 1) nul ∈ m := by
    rw [List.getD_eq_getElem _ _ (by omega)]
    exact List.getElem_mem _
  refine ⟨k, hcurr, ?_, ?_, ?_⟩
  · rw [hmem, List.getD_append _ _ _ _ (by omega), hend]
  · exact fun he => hone.1 (he ▸ hget ▸ hin)
  · exact fun he => hone.2 (he ▸ hget ▸ hin)

/-- The trim of a temporary contents file. A byte behind the text that is not NUL hides the comments
in front of it. -/
theorem skipTrailing_trims (h : Commented ls cs) (hv : v.Wf) (htext : v.text = unlines (ls ++ cs))
    (hterm : cs ≠ [] → v.mem.getD v.curr nul = nul) :
    Trimmed v (trimComments v v.curr (skipTrailing v.mem v.curr)) (unlines ls).length := by
  obtain ⟨k, hcurr, hnl, hne, hnul⟩ := text_end h hv htext
  by_cases hskip : v.mem.getD v.curr nul = '\n' ∨ v.mem.getD v.curr nul = nul
  · have hpe : skipTrailing v.mem v.curr = v.curr - 2 := by
      rw [hcurr] at hskip
      rw [hcurr, skipTrailing, if_pos hskip, skipTrailing, if_pos (.inl hnl), Nat.add_sub_cancel]
      cases k with
      | zero => rfl
      | succ k => rw [skipTrailing, if_neg (not_or.mpr ⟨hne, hnul⟩)]
    rw [hpe]
    exact trimComments_trims h hv htext v.curr
  · -- the scan starts behind the last newline, and there are no comments
    obtain rfl : cs = [] := by
      by_contra hcs
      exact hskip (.inr (hterm hcs))
    have hpe : skipTrailing v.mem v.curr = v.curr := by
      rw [hcurr] at hskip ⊢
      rw [skipTrailing, if_neg hskip]
    rw [List.append_nil] at htext
    have hlen : (unlines ls).length = v.curr := by rw [← htext, hv.text_length]
    have hnot : v.mem.getD v.curr nul ≠ '\n' := fun he => hskip (.inl he)
    have hstep := trimmed_setLast (Nat.le_refl v.curr) hv
    rw [hpe]
    conv => enter [2, 3]; rw [hcurr]
    rw [hcurr] at hnot
    rw [trimComments, if_pos hnot, trimComments, if_neg (not_not.mpr hnl)]
    rw [← hcurr]
    split
    · rw [hlen]
      exact Trimmed.refl hv
    · generalize vfpSetLastCharPtr { v with mem := memWrite v.mem v.curr [nul] } v.curr = w
        at hstep ⊢
      have hw := hstep.wf hv (Nat.le_refl _)
      have hrest := trimComments_trims h hw
        (by rw [Vfp.text, hstep.curr, hstep.text, List.append_nil]; exact htext) v.curr
      rw [hstep.curr, hcurr, Nat.add_sub_cancel] at hrest
      rw [← hcurr] at hrest
      exact hstep.trans hrest (Nat.le_of_eq hlen)

/-- The two comment lines of a changed contents file; `strftime` ends the time with a newline. -/
def modifiedLines (prog pkginst time : Str) : List Str :=
  ["# Last modified by ".toList ++ prog ++ " for ".toList ++ pkginst ++ " package".toList,
    "# ".toList ++ time]

theorem modifiedLine_eq (prog pkginst time : Str)
    (hshort : (unlines (modifiedLines prog pkginst time)).length ≤ 255) :
    modifiedLine prog pkginst (time ++ ['\n']) = unlines (modifiedLines prog pkginst time) := by
  have htext : "# Last modified by ".toList ++ prog ++ " for ".toList ++ pkginst ++
      " package\n# ".toList ++ (time ++ ['\n']) = unlines (modifiedLines prog pkginst time) := by
    rw [modifiedLines, unlines_cons, unlines_cons, unlines_nil]
    simp
  rw [modifiedLine, htext, strlcpy, List.take_of_length_le hshort]

theorem copyRemaining_terminated (ht : t.Wf) (h : (copyRemaining ept cf (some t)).tmp = some t') :
    t'.mem.getD t'.curr nul = nul := by
  simp only [copyRemaining, Option.map_some] at h
  generalize hw : (if vfpGetBytesRemaining cf > 0 then
    writeData t cf.mem cf.curr (cf.highWater + 1).toNat else t) = w at h
  obtain rfl := Option.some.inj h
  have hwf : w.Wf := by
    rw [← hw]
    split
    · exact (vfpPutBytes_appends t _).wf ht
    · exact ht
  have h₁ := hwf.curr_le
  have h₂ := hwf.last_lt
  have hhigh : w.highWater.toNat = w.curr := by
    rw [hwf.highWater_eq]
    rfl
  rw [vfpTerminate, memWrite, hhigh, List.append_assoc, List.getD_append_right]
  · simp only [List.length_take]
    rw [Nat.min_eq_left (by omega), Nat.sub_self]
    rfl
  · rw [List.length_take]
    exact Nat.min_le_left _ _

/-- A changed `swapcfile` writes the entries as they are and two new comments behind them. Comments
come into the temporary file when what is left of the contents file is copied, and then the byte
behind them is NUL. -/
theorem swapcfile_comments (h : Commented ls cs) (hv : v.Wf) (htext : v.text = unlines (ls ++ cs))
    (hterm : cs ≠ [] → v.mem.getD v.curr nul = nul) (ho : v.overflow = false)
    (pkginst : Option Str) (prog time : Str)
    (hshort : (unlines (modifiedLines prog (pkginst.getD "<unknown>".toList) time)).length ≤ 255)
    (hroom : (v.curr : Int) +
      (unlines (modifiedLines prog (pkginst.getD "<unknown>".toList) time)).length < v.last)
    (d : Directory AdmFile) :
    vfpWriteToFile (stamped v pkginst prog (time ++ ['\n'])) d .tContents .complete =
      (true, d.create .tContents
        (unlines (ls ++ modifiedLines prog (pkginst.getD "<unknown>".toList) time))) := by
  have htrim := skipTrailing_trims h hv htext hterm
  have hle : (unlines ls).length ≤ v.curr := by
    rw [← hv.text_length, htext, unlines_append, List.length_append]
    exact Nat.le_add_right _ _
  have hw := htrim.wf hv hle
  have hstamp : stamped v pkginst prog (time ++ ['\n']) =
      vfpPuts (trimComments v v.curr (skipTrailing v.mem v.curr))
        (unlines (modifiedLines prog (pkginst.getD "<unknown>".toList) time)) := by
    rw [stamped, stampComments, modifiedLine_eq _ _ _ hshort]
  rw [hstamp]
  generalize trimComments v v.curr (skipTrailing v.mem v.curr) = w at htrim hw
  rw [unlines_append]
  generalize unlines (modifiedLines prog (pkginst.getD "<unknown>".toList) time) = line at *
  have hcurr := htrim.curr
  have hlast := htrim.last
  have happ := vfpPuts_appends w line
  have hadv := vfpPuts_advances w line (by omega)
  have hhas : (vfpPuts w line).HasRoom := by
    rw [Vfp.HasRoom, hadv.curr, happ.last]
    omega
  have hbig : (vfpPuts w line).tooBig = false := by
    have hover : (vfpPuts w line).overflow = false := by rw [hadv.overflow, htrim.overflow, ho]
    rw [Vfp.tooBig, hover, Bool.false_or]
    refine decide_eq_false ?_
    simp only [Vfp.HasRoom, vfpGetBytesAvailable] at hhas ⊢
    omega
  have htext' : w.text = unlines ls := by
    have hls : v.mem.take (unlines ls).length = v.text.take (unlines ls).length := by
      rw [Vfp.text, List.take_take, Nat.min_eq_left hle]
    rw [Vfp.text, hcurr, htrim.text, hls, htext, unlines_append, List.take_left]
  have himage : (vfpPuts w line).image = unlines ls ++ line := by
    rw [Vfp.image_eq_text (happ.wf hw), happ.text hw hhas, htext']
  simp only [vfpWriteToFile, hbig, Bool.false_eq_true, if_false, himage]

end Lines

def sampleCommented : Vfp :=
  vfpPuts (vfpAnonymous 200 0 fun _ => nul)
    (unlines ["/a d none 0755 root sys SUNWcsr".toList, "# old".toList, "#".toList])

theorem swapcfile_comments_dir :
    vfpWriteToFile (stamped sampleCommented (some "SUNWx".toList) "pkgadd".toList "Mon\n".toList)
        sampleDir .tContents .complete =
      (true, sampleDir.create .tContents (unlines ["/a d none 0755 root sys SUNWcsr".toList,
        "# Last modified by pkgadd for SUNWx package".toList, "# Mon".toList])) := by
  have hv : sampleCommented.Wf := (vfpPuts_appends _ _).wf (vfpAnonymous_wf 200 0 _ (by decide))
  have hlines : Commented ["/a d none 0755 root sys SUNWcsr".toList]
      ["# old".toList, "#".toList] := ⟨by simp, by decide +kernel, by decide +kernel⟩
  exact swapcfile_comments hlines hv
    (by decide +kernel) (fun _ => by decide +kernel) (by decide +kernel) (some "SUNWx".toList)
    "pkgadd".toList "Mon".toList (by decide +kernel) (by decide +kernel) sampleDir

end Pkgtools
