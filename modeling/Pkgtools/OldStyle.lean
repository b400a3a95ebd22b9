import Pkgtools.RoundTrip

namespace Pkgtools
open CLib
set_option autoImplicit true

/-- The line of an entry as older releases wrote it, with the type and class in front of
the path. -/
def oldStyleText (e : Cfent) (path : Str) : Str :=
  e.ftype :: ' ' :: e.pkgClass ++ ' ' :: path ++ (match e.ainfo.localPath with
    | some l => '=' :: l
    | none => []) ++ fieldsText e

def ReadAlike (found found' : Found) : Prop := found.ret = found'.ret ∧ found.ept = found'.ept

/-- The search went on behind an entry, for which it appended the line `l`. -/
def PassesAs (found : Found) (t : Vfp) (l : Str) : Prop :=
  0 ≤ found.ret ∧ ∃ t' s, found.tmp = some t' ∧ t'.text = t.text ++ (l ++ '\n' :: s)

section OldStyle
variable {e : Cfent} {path W R L : Str} {cf cf' : Vfp}

theorem mem_oldStyleText (h : c ∈ oldStyleText e path) : c ∈ entryText e path := by
  rw [entryText_eq]
  cases hl : e.ainfo.localPath with
  | none =>
    simp only [oldStyleText, hl, typeText, List.mem_append, List.mem_cons, List.append_nil] at h ⊢
    tauto
  | some l =>
    simp only [oldStyleText, hl, typeText, List.mem_append, List.mem_cons] at h ⊢
    tauto

theorem oldStyleText_oneLine (hw : e.Legible path) : OneLine (oldStyleText e path) :=
  ⟨fun h => hw.oneLine.1 (mem_oldStyleText h), fun h => hw.oneLine.2 (mem_oldStyleText h)⟩

theorem oldStyleText_head (hw : e.Legible path) : isSkipped (oldStyleText e path) = false ∧
    (oldStyleText e path).head? ≠ some '/' ∧ 2 ≤ (oldStyleText e path).length := by
  have hall (c : Char) (hc : c ∈ "?fvelspcbdx".toList) :
      (isspace c || c == '#' || c == ':') = false ∧ c ≠ '/' := by
    revert c
    decide
  obtain ⟨hs, hne⟩ := hall e.ftype (of_decide_eq_true hw.ftype)
  refine ⟨hs, fun h => hne (Option.some.inj h), ?_⟩
  simp only [oldStyleText, List.length_append, List.length_cons]
  omega

/-- A parse that does not succeed makes the search fail, and nothing is written. -/
theorem Search.finish_fails {r : Option (Except Fail Cfent × Ptr)} (s : Search)
    (hr : ∀ e p, r ≠ some (.ok e, p)) : (s.finish r).ret = -1 ∧ (s.finish r).tmp = s.tmp := by
  match r with
  | none => exact ⟨rfl, rfl⟩
  | some (.error e, p) => exact ⟨rfl, rfl⟩
  | some (.ok e, p) => exact absurd rfl (hr e p)

/-- `getstr` stops in front of the separator behind the class, and there the path is looked for: so
the search gives up at a line that does not start with a path, whatever it is looking for. -/
theorem searchFrom_oldStyle (h : cf.Reads W (L ++ '\n' :: R)) (hL : OneLine L)
    (hs : isSkipped L = false) (hp : L.head? ≠ some '/') (stack : Str) (ept : Cfent)
    (target : Option Str) (tmp : Option Vfp) :
    (searchFrom stack ept target cf tmp none).ret = -1 ∧
      (searchFrom stack ept target cf tmp none).tmp = tmp := by
  simp only [searchFrom, Search.run]
  rw [Search.step_oldStyle (s := ⟨cf, tmp, ept, cf.curr, 0, false⟩) h hL hs hp]
  refine Search.finish_fails _ fun e p hr => ?_
  obtain ⟨ept', q, -, hfail⟩ := Parse.bind_eq_ok hr
  cases hfail

theorem srchcfile_stops (h : cf.Reads W (L ++ '\n' :: R)) (hL : OneLine L)
    (hs : isSkipped L = false) (hp : L.head? ≠ some '/') (hlen : 2 ≤ L.length)
    (hpath : path = ['*'] ∨ path.head? = some '/') (stack : Str) (ept : Cfent) (tmp : Option Vfp) :
    (srchcfile stack ept (some path) cf tmp).ret = -1 ∧
      (srchcfile stack ept (some path) cf tmp).tmp = tmp := by
  have hrem : ¬ vfpGetBytesRemaining cf ≤ 1 := by
    rw [h.remaining, List.length_append, List.length_cons]
    omega
  rcases hpath with rfl | habs
  · rw [srchcfile, if_neg hrem]
    exact searchFrom_oldStyle h hL hs hp stack (initEntry ept) none tmp
  · obtain ⟨c, s, rfl⟩ : ∃ c s, path = c :: s := by
      cases path with
      | nil => cases habs
      | cons c s => exact ⟨c, s, rfl⟩
    obtain rfl := Option.some.inj habs
    have hderef : cf.ptr.deref ≠ '/' := by
      rw [h.ptr_eq]
      cases L with
      | nil => cases hs
      | cons d L => exact fun he => hp (congrArg some he)
    have hnarrow : narrowSearch cf ('/' :: s) = none := by
      rw [narrowSearch, if_neg (not_or.mpr ⟨List.cons_ne_nil _ _, hrem⟩), if_pos hderef]
    rw [srchcfile, if_neg hrem]
    simp only [if_true, hnarrow]
    exact searchFrom_oldStyle h hL hs hp stack (initEntry ept) (some ('/' :: s)) tmp

/-- An old-style line is never read as the entry that the new-style one is read as, and no search
passes over it. -/
theorem srchcfile_oldStyle (hw : e.Writable path)
    (hold : cf.Reads W (oldStyleText e path ++ '\n' :: R))
    (hnew : cf'.Reads W (entryText e path ++ '\n' :: R)) (stack : Str) (ept : Cfent)
    (tmp : Option Vfp) :
    (srchcfile stack ept (some ['*']) cf' tmp).ret = 1 ∧
      Agrees e (srchcfile stack ept (some ['*']) cf' tmp).ept ∧
      ¬ ReadAlike (srchcfile stack ept (some ['*']) cf tmp)
        (srchcfile stack ept (some ['*']) cf' tmp) ∧
      ∀ (target : Str) (t : Vfp), target.head? = some '/' →
        ¬ PassesAs (srchcfile stack ept (some target) cf (some t)) t (entryText e path) := by
  obtain ⟨hs, hp, hlen⟩ := oldStyleText_head hw.legible
  have hL := oldStyleText_oneLine hw.legible
  have hentry := srchcfile_entry hw.legible hw.numbered hnew stack ept tmp
  refine ⟨by rw [hentry], by rw [hentry]; exact readBack_agrees e ept, ?_, ?_⟩
  · rintro ⟨hret, -⟩
    rw [(srchcfile_stops hold hL hs hp hlen (.inl rfl) stack ept tmp).1, hentry] at hret
    cases hret
  · rintro target t habs ⟨hret, -⟩
    rw [(srchcfile_stops hold hL hs hp hlen (.inr habs) stack ept (some t)).1] at hret
    exact absurd hret (by decide)

/-- A link in front of nothing else. -/
theorem srchcfile_oldStyle_link :
    sampleLink.Writable "/usr/adm".toList ∧
    ¬ ReadAlike
      (srchcfile [] zeroEntry (some ['*'])
        (vfpOpen (oldStyleText sampleLink "/usr/adm".toList ++ ['\n'])) none)
      (srchcfile [] zeroEntry (some ['*'])
        (vfpOpen (entryText sampleLink "/usr/adm".toList ++ ['\n'])) none) :=
  ⟨sampleLink_writable, (srchcfile_oldStyle (W := []) (R := []) sampleLink_writable
    (vfpOpen_reads (by decide +kernel)) (vfpOpen_reads (by decide +kernel))
      [] zeroEntry none).2.2.1⟩

/-- The two styles do not always mean the same: the old-style line of a link is refused for want of
a path. -/
theorem srchcfile_oldStyle_refused :
    (∃ e path, e.Writable path ∧
      oldStyleText e path = "s none /usr/adm=../var/adm +SUNWcsr:none".toList ∧
      entryText e path = "/usr/adm=../var/adm s none +SUNWcsr:none".toList) ∧
    (srchcfile [] zeroEntry (some ['*'])
      (vfpOpen "s none /usr/adm=../var/adm +SUNWcsr:none\n".toList) none).errstr =
      some "unable to read pathname field".toList ∧
    ¬ ReadAlike
      (srchcfile [] zeroEntry (some ['*'])
        (vfpOpen "s none /usr/adm=../var/adm +SUNWcsr:none\n".toList) none)
      (srchcfile [] zeroEntry (some ['*'])
        (vfpOpen "/usr/adm=../var/adm s none +SUNWcsr:none\n".toList) none) := by
  refine ⟨⟨sampleLink, _, sampleLink_writable, by decide +kernel, by decide +kernel⟩,
    by decide +kernel, ?_⟩
  rintro ⟨hret, -⟩
  revert hret
  decide +kernel

end OldStyle

end Pkgtools
