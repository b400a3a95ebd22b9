import Pkgtools.SearchOutcome
import Pkgtools.VfpAppend

namespace Pkgtools
open CLib
set_option autoImplicit true

/-- The search found nothing, and appended `s` to the output file. -/
def CopiesAll (found : Found) (t : Vfp) (s : Str) : Prop :=
  found.ret = 0 ∧ ∃ t', found.tmp = some t' ∧ t'.text = t.text ++ s

theorem CopiesAll.unique (h : CopiesAll found t s) (h' : CopiesAll found t s') : s = s' := by
  obtain ⟨-, u, hu, htext⟩ := h
  obtain ⟨-, u', hu', htext'⟩ := h'
  obtain rfl := Option.some.inj (hu.symm.trans hu')
  exact List.append_cancel_left (htext.symm.trans htext')

section PastEnd
variable {ls : List Str} {target : Str} {t : Vfp}

theorem writeData_text {t : Vfp} {mem W s rest : Str} {p : Nat} (hv : t.Wf)
    (hmem : mem = W ++ (s ++ rest)) (hp : p = W.length + s.length)
    (hroom : (t.curr : Int) + s.length < t.last) :
    (vfpTerminate (writeData t mem W.length p)).text = t.text ++ s := by
  have he : (mem.drop W.length).take (p - W.length) = s := by
    rw [hmem, List.drop_left, hp, Nat.add_sub_cancel_left, List.take_left]
  have happ := (writeData_appends hmem hp t).trans (vfpTerminate_appends _)
  rw [List.append_nil] at happ
  refine happ.text hv ?_
  have hadv : Advances t (writeData t mem W.length p) s.length := by
    rw [writeData, he]
    exact vfpPutBytes_advances t s hroom
  have hlast : (vfpTerminate (writeData t mem W.length p)).last = t.last := happ.last
  have hcurr : (vfpTerminate (writeData t mem W.length p)).curr = t.curr + s.length := hadv.curr
  rw [Vfp.HasRoom, hlast, hcurr]
  exact_mod_cast hroom

/-- Where the loop is after the last entry of a file without comments. -/
theorem Search.atEnd_clamped (cf t : Vfp) (ept : Cfent) (np p : Nat) :
    ((Search.passTo ⟨cf.moveTo np, some t, ept, cf.curr, np, true⟩ p).passed
        (cf.moveTo np).clamped).atEnd.tmp =
      some (vfpTerminate (writeData t cf.mem cf.curr (cf.mem.length - 1))) := by
  unfold Search.passTo
  split <;> rfl

theorem srchcfile_clamped (hfile : SortedFile (l :: ls) []) (hcf : cf.Reads [] (unlines (l :: ls)))
    (ht : NulFree target) (habs : target.head? = some '/')
    (hgt : ∀ x ∈ l :: ls, linePath x < target) (stack : Str) (ept : Cfent) (t : Vfp) :
    (srchcfile stack ept (some target) cf (some t)).ret = 0 ∧
      (srchcfile stack ept (some target) cf (some t)).tmp =
        some (vfpTerminate (writeData t cf.mem cf.curr (cf.mem.length - 1))) := by
  have hcf' : cf.Reads (unlines []) (unlines (l :: ls ++ [])) := by rwa [List.append_nil]
  have hfile' : SortedFile ([] ++ l :: ls) [] := hfile
  obtain ⟨A, m, B, hls, hp, hA⟩ :=
    narrowSearch_entry hfile' hcf' ht (by rintro rfl; cases habs)
  have hread : cf.Reads [] (l ++ '\n' :: unlines ls) := by rwa [← unlines_cons]
  have hstart := srchcfile_searchFrom (hfile.entry l List.mem_cons_self) hread habs stack ept
    (some t)
  have hlen : cf.mem.length = (unlines (l :: ls)).length := congrArg List.length hcf.mem
  have hlines := length_le_unlines (l :: ls)
  rw [List.length_cons] at hlines
  have hhigh : ¬ cf.highWater < (cf.curr : Int) := by
    rw [hcf.highWater, hcf.curr, List.length_nil]
    omega
  -- the loop starts at `m` and passes the other entries, the last of which ends the file
  obtain ⟨C, n, hC⟩ : ∃ C n, m :: B = C ++ [n] :=
    ⟨(m :: B).dropLast, (m :: B).getLast (by simp), (List.dropLast_append_getLast _).symm⟩
  have hread : (cf.moveTo (unlines A).length).Reads (unlines A) (unlines C ++ (n ++ ['\n'])) := by
    rw [hls, hC, unlines_append, unlines_append, unlines_cons, unlines_nil] at hcf
    simpa using hcf.moveTo
  have hentry (x) (hx : x ∈ C ++ [n]) : IsEntry x ∧ linePath x < target := by
    have hmem : x ∈ l :: ls := by
      rw [hls, hC]
      exact List.mem_append_right _ hx
    exact ⟨hfile.entry x hmem, hgt x hmem⟩
  have hcount := congrArg List.length (hls.trans (congrArg (A ++ ·) hC))
  simp only [List.length_cons, List.length_append, List.length_nil] at hcount
  obtain ⟨f, hf⟩ : ∃ f, cf.mem.length + 2 = C.length + (f + 2) :=
    ⟨cf.mem.length - C.length, by omega⟩
  have hrun := Search.run_clamped (s := ⟨cf.moveTo (unlines A).length, some t, initEntry ept,
    cf.curr, (unlines A).length, true⟩) hentry hread ht stack f
  rw [hstart, hp, List.nil_append]
  simp only [searchFrom, vfpSetCurrCharPtr_eq hhigh, hf, hrun]
  exact ⟨rfl, Search.atEnd_clamped _ _ _ _ _⟩

/-- The search for a path behind all entries of a file that ends with the last of them copies the
file without its last byte, the newline: moving on behind it is clamped to it. -/
theorem srchcfile_past_end (hfile : SortedFile ls []) (hne : ls ≠ []) (ht : NulFree target)
    (habs : target.head? = some '/') (hgt : ∀ l ∈ ls, linePath l < target) (hv : t.Wf)
    (hroom : (t.curr : Int) + (unlines ls).length < t.last) (stack : Str) (ept : Cfent) :
    let found := srchcfile stack ept (some target) (vfpOpen (unlines ls)) (some t)
    CopiesAll found t (unlines ls).dropLast ∧ ¬ CopiesAll found t (unlines ls) := by
  intro found
  have hpos : 0 < (unlines ls).length :=
    Nat.lt_of_lt_of_le (List.length_pos_iff.mpr hne) (length_le_unlines ls)
  have hdrop : (unlines ls).dropLast.length = (unlines ls).length - 1 := List.length_dropLast
  have hcopies : CopiesAll found t (unlines ls).dropLast := by
    obtain ⟨l, ls, rfl⟩ := List.exists_cons_of_ne_nil hne
    have hcf : (vfpOpen (unlines (l :: ls))).Reads [] (unlines (l :: ls)) :=
      vfpOpen_reads (nulFree_unlines fun x hx => (hfile.entry x hx).oneLine)
    obtain ⟨hret, htmp⟩ := srchcfile_clamped hfile hcf ht habs hgt stack ept t
    refine ⟨hret, _, htmp, ?_⟩
    have hsplit : unlines (l :: ls) = (unlines (l :: ls)).dropLast ++
        [(unlines (l :: ls)).getLast (List.length_pos_iff.mp hpos)] :=
      (List.dropLast_append_getLast _).symm
    refine writeData_text (W := []) hv hsplit ?_ (by omega)
    rw [hdrop, List.length_nil, Nat.zero_add]
    rfl
  refine ⟨hcopies, fun hall => ?_⟩
  have hlen := congrArg List.length (hcopies.unique hall)
  omega

/-- Of one entry everything but the newline is copied. -/
theorem srchcfile_past_end_dir :
    let file := unlines ["/a d none 0755 root sys SUNWcsr".toList]
    let t := vfpAnonymous 64 0 fun _ => nul
    CopiesAll (srchcfile [] zeroEntry (some "/b".toList) (vfpOpen file) (some t)) t file.dropLast ∧
      ¬ CopiesAll (srchcfile [] zeroEntry (some "/b".toList) (vfpOpen file) (some t)) t file :=
  srchcfile_past_end ⟨by decide +kernel, by decide +kernel, by decide +kernel⟩ (by simp) (by decide)
    rfl (by decide +kernel) (vfpAnonymous_wf 64 0 _ (by decide)) (by decide +kernel) [] zeroEntry

/-- The file is not always copied as a whole. -/
theorem srchcfile_drops_newline :
    ¬ ∀ (ls : List Str) (target : Str) (t : Vfp) (stack : Str) (ept : Cfent),
      SortedFile ls [] → ls ≠ [] → NulFree target → target.head? = some '/' →
      (∀ l ∈ ls, linePath l < target) → t.Wf →
      (t.curr : Int) + (unlines ls).length < t.last →
      CopiesAll (srchcfile stack ept (some target) (vfpOpen (unlines ls)) (some t)) t
        (unlines ls) := by
  intro h
  have hall := h ["/a d none 0755 root sys SUNWcsr".toList] "/b".toList
    (vfpAnonymous 64 0 fun _ => nul) [] zeroEntry
    ⟨by decide +kernel, by decide +kernel, by decide +kernel⟩ (by simp) (by decide)
    rfl (by decide +kernel) (vfpAnonymous_wf 64 0 _ (by decide)) (by decide +kernel)
  obtain ⟨-, t', ht', htext⟩ := hall
  have hrun : (srchcfile [] zeroEntry (some "/b".toList)
      (vfpOpen (unlines ["/a d none 0755 root sys SUNWcsr".toList]))
      (some (vfpAnonymous 64 0 fun _ => nul))).tmp.map Vfp.text =
      some "/a d none 0755 root sys SUNWcsr".toList := by decide +kernel
  rw [ht', Option.map_some, htext] at hrun
  revert hrun
  decide +kernel

end PastEnd

end Pkgtools
