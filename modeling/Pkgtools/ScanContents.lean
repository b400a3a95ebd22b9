import Pkgtools.LineParse

namespace Pkgtools
open CLib
set_option autoImplicit true

/-- A virtual file that was opened for reading and is positioned between `before` and `rest`. -/
structure Vfp.Reads (v : Vfp) (before rest : Str) : Prop where
  mem : v.mem = before ++ rest
  curr : v.curr = before.length
  highWater : v.highWater = (v.mem.length : Int) - 1
  last : v.last = (v.mem.length : Int) - 1
  nulFree : NulFree v.mem

theorem vfpOpen_reads (h : NulFree file) : (vfpOpen file).Reads [] file :=
  ⟨rfl, rfl, rfl, rfl, h⟩

/-- The lines `srchcfile` passes over. -/
def isSkipped : Str → Bool
  | [] => true
  | c :: _ => isspace c || c == '#' || c == ':'

section Reads
variable {v : Vfp} {before rest : Str}

theorem takeWhile_of_nulFree (h : NulFree s) : s.takeWhile (· != nul) = s := by
  rw [List.takeWhile_eq_self_iff]
  intro c hc
  simp only [bne_iff_ne, ne_eq]
  rintro rfl
  exact h hc

theorem Vfp.Reads.ptr_eq (h : v.Reads before rest) : v.ptr = ⟨before.length, rest⟩ := by
  have hr : NulFree rest := fun hm => h.nulFree (by rw [h.mem]; exact List.mem_append_right _ hm)
  rw [Vfp.ptr, h.curr, h.mem, List.drop_left, takeWhile_of_nulFree hr]

theorem Vfp.Reads.remaining (h : v.Reads before rest) :
    vfpGetBytesRemaining v = rest.length - 1 := by
  have hl : v.mem.length = before.length + rest.length := by rw [h.mem, List.length_append]
  rw [vfpGetBytesRemaining, h.highWater, h.curr]
  omega

theorem Vfp.Reads.moveTo (h : v.Reads before (s ++ rest)) :
    (v.moveTo (before.length + s.length)).Reads (before ++ s) rest :=
  ⟨by rw [List.append_assoc]; exact h.mem, by rw [List.length_append]; rfl, h.highWater, h.last,
    h.nulFree⟩

theorem Vfp.Reads.line (h : v.Reads before (l ++ '\n' :: rest)) :
    (v.moveTo (before.length + (l.length + 1))).Reads (before ++ (l ++ ['\n'])) rest := by
  have hsplit : l ++ '\n' :: rest = (l ++ ['\n']) ++ rest := List.append_cons l '\n' rest
  rw [hsplit] at h
  have hlen : (l ++ ['\n']).length = l.length + 1 := List.length_append
  rw [← hlen]
  exact h.moveTo

theorem Vfp.Reads.inc (h : v.Reads before (s ++ rest)) (hr : rest ≠ []) :
    vfpIncCurrPtrBy v s.length = v.moveTo (before.length + s.length) := by
  have hl : v.mem.length = before.length + (s.length + rest.length) := by
    rw [h.mem, List.length_append, List.length_append]
  have hpos := List.length_pos_iff.mpr hr
  have hlast : ¬ v.last < (before.length + s.length : Nat) := by
    rw [h.last]
    omega
  have hhigh : ¬ v.highWater < (before.length + s.length : Nat) := by
    rw [h.highWater]
    omega
  simp only [vfpIncCurrPtrBy, h.curr, if_neg hlast, if_neg hhigh, Vfp.moveTo]

end Reads

/-- The white space behind a class token ends a path too. -/
theorem getstr_stops (h : getstr n isWordSep p = ((0, v), p')) :
    ∃ k, p' = p.add k ∧ p'.rest.takeWhile (fun c => !isPkgPathSep c) = [] := by
  obtain ⟨k, hk⟩ := getstr_pos n isWordSep p
  refine ⟨k, by rw [← hk, h], ?_⟩
  simp only [getstr] at h
  split at h
  · exact absurd (Prod.mk.inj (Prod.mk.inj h).1).1 (by decide)
  · split at h
    · exact absurd (Prod.mk.inj (Prod.mk.inj h).1).1 (by decide)
    · split at h
      · rw [← (Prod.mk.inj h).2, Ptr.add_rest, drop_length_takeWhile]
        apply takeWhile_dropWhile_eq_nil
        intro c hc
        simp only [isWordSep, isPkgPathSep, Bool.not_eq_false', Bool.or_eq_true] at *
        tauto
      · exact absurd (Prod.mk.inj (Prod.mk.inj h).1).1 (by decide)

/-- The type and class of an entry end in front of a separator, so no path follows them. -/
theorem readType_stops (h : readType bufferReaders ept p = some (.ok ept', p')) :
    ∃ k, p' = p.add k ∧ p'.rest.takeWhile (fun c => !isPkgPathSep c) = [] := by
  have hc : (Parse.prim bufferReaders.getcNonspace : Parse Ptr Fail Char) p =
      some (.ok (getcNonspace p).1, (getcNonspace p).2) := rfl
  have hfail (errstr : String) (e : Cfent) (q : Ptr) :
      (failAtEnd bufferReaders errstr e : Parse Ptr Fail Cfent) q ≠ some (.ok ept', p') := by
    intro he
    cases he
  rw [readType, Parse.bind_ok hc] at h
  split at h
  · have hs (q : Ptr) : (Parse.prim (bufferReaders.getstr clssiz isWordSep) :
        Parse Ptr Fail (Int × Option Str)) q =
        some (.ok (getstr clssiz isWordSep q).1, (getstr clssiz isWordSep q).2) := rfl
    rw [strField, Parse.bind_ok (hs _)] at h
    simp only at h
    split at h
    · exact absurd h (hfail _ _ _)
    · rename_i hz
      have hzero : getstr clssiz isWordSep (getcNonspace p).2 =
          ((0, (getstr clssiz isWordSep (getcNonspace p).2).1.2),
            (getstr clssiz isWordSep (getcNonspace p).2).2) :=
        Prod.ext (Prod.ext (not_not.mp hz) rfl) rfl
      obtain ⟨k, hk, hnil⟩ := getstr_stops hzero
      obtain ⟨-, rfl⟩ := Prod.mk.inj (Option.some.inj h)
      exact ⟨spaceLen p + 1 + k, hk.trans (Ptr.add_add _ _ _), hnil⟩
  · split at h
    · cases h
    · split at h
      · exact absurd h (hfail _ _ _)
      · split at h
        · exact absurd h (hfail _ _ _)
        · exact absurd h (hfail _ _ _)

section Step
variable {s : Search} {before rest : Str}

theorem Vfp.Reads.first (h : v.Reads before (c :: rest)) (hr : rest ≠ []) :
    (if vfpGetBytesRemaining v = 0 then nul else v.ptr.deref) = c := by
  have hpos := List.length_pos_iff.mpr hr
  rw [if_neg, h.ptr_eq]
  · rfl
  · rw [h.remaining, List.length_cons]
    omega

theorem Search.step_skipped (h : s.cf.Reads before (l ++ '\n' :: rest)) (hl : OneLine l)
    (hs : isSkipped l) (hne : l ++ rest ≠ []) (stack : Str) (target : Option Str) :
    s.step stack target =
      .inr { s with cf := s.cf.moveTo (before.length + (l.length + 1)) } := by
  obtain ⟨c, t, hc, ht, hcs, hcn⟩ : ∃ c t, l ++ '\n' :: rest = c :: t ∧ t ≠ [] ∧
      (isspace c ∨ c = '#' ∨ c = ':') ∧ c ≠ '/' ∧ c ≠ nul := by
    cases l with
    | nil => exact ⟨'\n', rest, rfl, by simpa using hne, .inl rfl, by decide⟩
    | cons c l =>
      refine ⟨c, l ++ '\n' :: rest, rfl, by simp, ?_, ?_, fun hc => hl.2 (hc ▸ List.mem_cons_self)⟩
      · simpa [isSkipped, or_assoc] using hs
      · rintro rfl
        simp [isSkipped, isspace] at hs
  have hend : findend s.cf.ptr = s.cf.ptr.add (l.length + 1) := by
    rw [h.ptr_eq, findend, if_neg (by simp), findNewline_append hl.1]
  rw [Search.step]
  simp only
  rw [hc] at h
  rw [h.first ht, if_neg hcn.1, if_neg hcn.2, if_pos hcs, hend, h.ptr_eq, Ptr.add_pos]

theorem Search.run_skipped (ls : List Str) (hl : ∀ l ∈ ls, OneLine l ∧ isSkipped l)
    (h : s.cf.Reads before (unlines ls ++ rest)) (hne : rest ≠ [] ∨ ∀ l ∈ ls, l ≠ [])
    (stack : Str) (target : Option Str) (f : Nat) :
    s.run stack target (ls.length + f) =
      Search.run stack target f
        { s with cf := s.cf.moveTo (before.length + (unlines ls).length) } := by
  induction ls generalizing s before with
  | nil =>
    have hm : s.cf.moveTo (before.length + (unlines []).length) = s.cf := by
      rw [Vfp.moveTo, ← h.curr]
      rfl
    rw [hm, List.length_nil, Nat.zero_add]
  | cons l ls ih =>
    have hlen : (unlines (l :: ls)).length = l.length + 1 + (unlines ls).length := by
      rw [unlines_cons, List.length_append, List.length_cons]
      omega
    rw [unlines_cons, List.append_assoc, List.cons_append] at h
    have hne' : l ++ (unlines ls ++ rest) ≠ [] := by
      rcases hne with hne | hne
      · simp [hne]
      · simp [hne l List.mem_cons_self]
    have hstep := Search.step_skipped h (hl l List.mem_cons_self).1 (hl l List.mem_cons_self).2
      hne' stack target
    rw [List.length_cons, Nat.succ_add_eq_add_succ, Nat.add_succ, Search.run, hstep]
    simp only
    rw [ih (fun l hm => hl l (List.mem_cons_of_mem _ hm)) h.line
      (hne.imp_right fun hne l hm => hne l (List.mem_cons_of_mem _ hm))]
    simp only [Vfp.moveTo, List.length_append, List.length_singleton, hlen, Nat.add_assoc]

theorem isSkipped_eq_false (h : isSkipped L = false) : ∃ c M, L = c :: M ∧
    ¬ (isspace c ∨ c = '#' ∨ c = ':') := by
  cases L with
  | nil => cases h
  | cons c M =>
    refine ⟨c, M, rfl, ?_⟩
    simpa [isSkipped, not_or, and_assoc] using h

/-- A line without a path in front: its type and class are read, and then it is given up. -/
theorem Search.step_oldStyle (h : s.cf.Reads before (L ++ '\n' :: rest)) (hL : OneLine L)
    (hs : isSkipped L = false) (hp : L.head? ≠ some '/') (stack : Str) (target : Option Str) :
    s.step stack target = .inl (s.finish ((readType bufferReaders s.ept >>= fun ept =>
      failAtEnd bufferReaders "unable to read pathname field" ept) s.cf.ptr)) := by
  obtain ⟨c, M, rfl, hc⟩ := isSkipped_eq_false hs
  have hslash : c ≠ '/' := by
    rintro rfl
    exact hp rfl
  have hnul : c ≠ nul := fun he => hL.2 (he ▸ List.mem_cons_self)
  rw [Search.step]
  simp only
  rw [List.cons_append] at h
  rw [h.first (by simp), if_neg hslash, if_neg hnul, if_neg hc]
  cases hr : readType bufferReaders s.ept s.cf.ptr with
  | none => simp only [Parse.bind_none hr]
  | some x =>
    obtain ⟨e | ept, p⟩ := x
    · simp only [Parse.bind_error hr]
    · obtain ⟨k, hk, hnil⟩ := readType_stops hr
      have hptr : (s.cf.moveTo p.pos).ptr = p := by
        have hdrop : (s.cf.mem.drop (before.length + k)) = (c :: (M ++ '\n' :: rest)).drop k := by
          rw [h.mem, ← List.drop_drop, List.drop_left]
        have hfree : NulFree ((c :: (M ++ '\n' :: rest)).drop k) := fun hm =>
          h.nulFree (by rw [h.mem]; exact List.mem_append_right _ (List.mem_of_mem_drop hm))
        rw [hk, h.ptr_eq, Vfp.ptr, Vfp.moveTo]
        simp only [Ptr.add_pos, hdrop, takeWhile_of_nulFree hfree]
        rfl
      rw [Parse.bind_ok hr]
      simp only [hnil, if_true, Search.fail, hptr]
      rfl

theorem Search.step_path (h : s.cf.Reads before (L ++ '\n' :: rest)) (hp : L.head? = some '/')
    (stack : Str) (target : Option Str) :
    s.step stack target = Search.atPath
      { s with
        cf := s.cf.moveTo (before.length + (linePath L).length)
        ept := { s.ept with path := some [] } }
      stack target false before.length before.length (linePath L) := by
  obtain ⟨M, hM⟩ : ∃ M, L = '/' :: M := by
    cases L with
    | nil => cases hp
    | cons d M => exact ⟨M, by rw [Option.some.inj hp]⟩
  have hread : s.cf.Reads before ('/' :: (M ++ '\n' :: rest)) := by
    rw [← List.cons_append, ← hM]
    exact h
  have hfirst := hread.first (by simp)
  have hpath : s.cf.ptr.rest.takeWhile (fun c => !isPkgPathSep c) = linePath L := by
    rw [h.ptr_eq]
    exact takeWhile_append_stop (by decide) L rest
  have hsplit : L ++ '\n' :: rest =
      linePath L ++ (L.drop (linePath L).length ++ '\n' :: rest) := by
    rw [← List.append_assoc, linePath, drop_length_takeWhile, List.takeWhile_append_dropWhile]
  rw [hsplit] at h
  have hne : L.drop (linePath L).length ++ '\n' :: rest ≠ [] := by simp
  have hderef : (s.cf.moveTo (before.length + (linePath L).length)).ptr.deref ≠ nul := by
    rw [h.moveTo.ptr_eq, Ptr.deref]
    cases hT : L.drop (linePath L).length ++ '\n' :: rest with
    | nil => exact absurd hT hne
    | cons c T =>
      rintro rfl
      refine h.nulFree ?_
      rw [h.mem, hT]
      simp
  rw [Search.step]
  simp only
  rw [hfirst, if_pos rfl, hpath, h.inc hne, if_neg hderef, h.curr]

theorem Search.step_newStyle (h : s.cf.Reads before (L ++ '\n' :: rest))
    (hp : L.head? = some '/') (hcmp : compareEntry target s.cf.mem (linePath L) before.length = 0)
    (hT : L.drop (linePath L).length ++ '\n' :: rest = c :: T) (stack : Str) :
    s.step stack target = .inl
      (s.finish (readEntry bufferReaders (s.cf.mem.length + 1) stack false c
      (withPath s.ept L) ⟨before.length + (linePath L).length + 1, T⟩)) := by
  have hsplit : L ++ '\n' :: rest = linePath L ++ c :: T := by
    rw [← hT, ← List.append_assoc, linePath, drop_length_takeWhile, List.takeWhile_append_dropWhile]
  rw [Search.step_path h hp, Search.atPath]
  rw [hsplit] at h
  have hmove := h.moveTo
  have hderef : (s.cf.moveTo (before.length + (linePath L).length)).ptr.deref = c := by
    rw [hmove.ptr_eq]
    rfl
  have hptr : ((s.cf.moveTo (before.length + (linePath L).length)).moveTo
      ((s.cf.moveTo (before.length + (linePath L).length)).curr + 1)).ptr =
      ⟨before.length + (linePath L).length + 1, T⟩ := by
    have := (Vfp.Reads.moveTo (s := [c]) hmove).ptr_eq
    rw [List.length_append, List.length_append, List.length_append, List.length_singleton] at this
    exact this
  have hlen : s.cf.mem.length = before.length + ((linePath L).length + (T.length + 1)) := by
    rw [h.mem, List.length_append, List.length_append, List.length_cons]
  obtain ⟨r, p, hr, -⟩ := keeps_readEntry 0 (s.cf.mem.length + 1) stack false c (withPath s.ept L)
    ⟨before.length + (linePath L).length + 1, T⟩ ⟨Nat.zero_le _, by simp only; omega⟩
  have hcmp' : compareEntry target (s.cf.moveTo (before.length + (linePath L).length)).mem
      (linePath L) before.length = 0 := hcmp
  simp only [hcmp', hderef, if_true, hptr]
  change Sum.inl (Search.finish _ (readEntry bufferReaders (s.cf.mem.length + 1) stack false c
    (withPath s.ept L) ⟨before.length + (linePath L).length + 1, T⟩)) = _
  rw [hr]
  cases r with
  | error e => rfl
  | ok e => rfl

/-- The outcome of a parse that follows one on its line, which ends behind the line. -/
theorem Search.finish_follows {m : Parse Ptr Fail Cfent} {l : Parse (Option Str) Fail Cfent}
    (s : Search) (hf : Parse.FollowsAt (OnLine N F R) (Beyond B F) m l q p)
    (hend : ∀ r q', l q = some (r, q') → q' = none) :
    (∀ r, (l q).map Prod.fst = some r → s.finish (m p) = s.finish (some (r, ⟨N, R⟩))) ∧
    ((l q).map Prod.fst = none → B ≤ (s.finish (m p)).cf.curr) := by
  refine ⟨fun r hr => ?_, fun hn => ?_⟩
  · obtain ⟨⟨r, q'⟩, hl, rfl⟩ := Option.map_eq_some_iff.mp hr
    obtain ⟨p', hm, hon⟩ := hf.1 r q' hl
    obtain rfl := hend r q' hl
    obtain ⟨hrest, hpos⟩ := hon.1
    rw [hm, ← hrest, ← hpos]
  · obtain ⟨r, p', hm, hb⟩ := hf.2 (Option.map_eq_none_iff.mp hn)
    rw [hm]
    cases r with
    | error e => exact hb.1
    | ok e => exact hb.1

/-- What the parse on the line determines, and where the parse goes if that is undefined. -/
theorem Search.step_line (h : s.cf.Reads before (L ++ '\n' :: R)) (hL : OneLine L)
    (hs : isSkipped L = false)
    (hcmp : L.head? = some '/' →
      compareEntry target s.cf.mem (linePath L) before.length = 0)
    (hB : Overrun (before.length + L.length + 1) B R) (stack : Str) :
    (∀ r, parseLine s.ept L = some r → s.step stack target =
      .inl (s.finish (some (r, ⟨before.length + L.length + 1, R⟩)))) ∧
    (parseLine s.ept L = none → ∃ found, s.step stack target = .inl found ∧ B ≤ found.cf.curr) := by
  have hlen : s.cf.mem.length = before.length + (L.length + (R.length + 1)) := by
    rw [h.mem, List.length_append, List.length_append, List.length_cons]
  by_cases hp : L.head? = some '/'
  · have hle : (linePath L).length ≤ L.length := (List.takeWhile_sublist _).length_le
    have hlp : (L.drop (linePath L).length).length = L.length - (linePath L).length :=
      List.length_drop
    cases hT : L.drop (linePath L).length with
    | nil =>
      -- the path is all there is on the line
      rw [hT, List.length_nil] at hlp
      have hstep := Search.step_newStyle (T := R) (c := '\n') h hp (hcmp hp) (by rw [hT]; rfl) stack
      have hon : OnLine (before.length + L.length + 1) (s.cf.mem.length + 1) R none
          ⟨before.length + (linePath L).length + 1, R⟩ :=
        ⟨⟨rfl, by simp only; omega⟩, by simp only; omega⟩
      have hnone : parseLine s.ept L = none := by
        rw [parseLine, if_pos hp, hT]
      refine ⟨fun r hr => ?_, fun _ => ⟨_, hstep, ?_⟩⟩
      · rw [hnone] at hr
        cases hr
      · exact (s.finish_follows (follows_readEntry hB stack '\n' (withPath s.ept L) none _ hon)
          (fun r q' hq => by cases hq)).2 rfl
    | cons c M =>
      rw [hT, List.length_cons] at hlp
      have hM : List.Sublist M L := (List.sublist_cons_self c M).trans (hT ▸ List.drop_sublist _ _)
      have hML := OneLine.sublist hL hM
      have hstep := Search.step_newStyle (T := M ++ '\n' :: R) h hp (hcmp hp)
        (by rw [hT]; rfl) stack
      have hon : OnLine (before.length + L.length + 1) (s.cf.mem.length + 1) R (some M)
          ⟨before.length + (linePath L).length + 1, M ++ '\n' :: R⟩ := by
        refine ⟨⟨rfl, ?_, hML.1, hML.2⟩, ?_⟩
        · simp only
          omega
        · simp only [List.length_append, List.length_cons]
          omega
      have hsame : parseLine s.ept L = (readEntry lineReaders (s.cf.mem.length + 1) stack false c
          (withPath s.ept L) (some M)).map Prod.fst := by
        rw [parseLine, if_pos hp, hT]
        refine congrArg (Option.map Prod.fst) (readEntry_line ?_ ?_ c _ (RestOf.self M))
        · omega
        · omega
      have hfin := s.finish_follows (follows_readEntry hB stack c (withPath s.ept L) _ _ hon)
        (leaves_readEntry hML _ _ _ _ _ (RestOf.self M))
      rw [hsame, hstep]
      exact ⟨fun r hr => by rw [hfin.1 r hr], fun hn => ⟨_, rfl, hfin.2 hn⟩⟩
  · have hstep := Search.step_oldStyle h hL hs hp stack target
    have hon : OnLine (before.length + L.length + 1) (s.cf.mem.length + 1) R (some L) s.cf.ptr := by
      rw [h.ptr_eq]
      refine ⟨⟨rfl, rfl, hL.1, hL.2⟩, ?_⟩
      simp only [List.length_append, List.length_cons]
      omega
    have hfol := (follows_readType (F := s.cf.mem.length + 1) hB s.ept).bind
      (fun ept => follows_failAtEnd (α := Cfent) hB "unable to read pathname field" ept)
      (fun _ => keeps_failAtEnd B _ _ _)
    have hleaves : Parse.Leaves (RestOf L) (readType lineReaders s.ept >>= fun ept =>
        failAtEnd lineReaders "unable to read pathname field" ept : Parse _ Fail Cfent)
        fun _ q => q = none := by
      refine (leaves_readType s.ept).bind (fun ept q hq r q' hr => ?_) fun _ _ h => h
      exact (leaves_failAtEnd _ ept q hq r q' hr).2
    have hfin := s.finish_follows (hfol _ _ hon) (hleaves _ (RestOf.self L))
    rw [parseLine, if_neg hp, hstep]
    exact ⟨fun r hr => by rw [hfin.1 r hr], fun hn => ⟨_, rfl, hfin.2 hn⟩⟩

end Step

section Calls

/-- A call with path `*` passes over the lines in front and then makes one round of the loop. -/
theorem srchcfile_any (h : cf.Reads before (unlines ls ++ (L ++ '\n' :: R)))
    (hls : ∀ l ∈ ls, OneLine l ∧ isSkipped l) (hL : 2 ≤ L.length) (stack : Str) (ept : Cfent)
    (tmp : Option Vfp)
    (hstep : Search.step ⟨cf.moveTo (before.length + (unlines ls).length), tmp, initEntry ept,
      cf.curr, 0, false⟩ stack none = .inl found) :
    srchcfile stack ept (some ['*']) cf tmp = found := by
  have hrem : ¬ vfpGetBytesRemaining cf ≤ 1 := by
    rw [h.remaining, List.length_append, List.length_append, List.length_cons]
    omega
  have hfuel : cf.mem.length + 2 = ls.length + (cf.mem.length + 1 - ls.length + 1) := by
    have hle := length_le_unlines ls
    have hlen : cf.mem.length =
        before.length + ((unlines ls).length + (L ++ '\n' :: R).length) := by
      rw [h.mem, List.length_append, List.length_append]
    omega
  have hstar : ('*' : Char) ≠ '/' := by decide
  rw [srchcfile, if_neg hrem]
  simp only [if_neg hstar, if_true, searchFrom]
  rw [hfuel, Search.run_skipped ls hls (s := ⟨cf, tmp, initEntry ept, cf.curr, 0, false⟩) h
    (.inl (by simp)),
    Search.run, hstep]

theorem srchcfile_of_parseLine (h : cf.Reads before (unlines ls ++ (L ++ '\n' :: R)))
    (hls : ∀ l ∈ ls, OneLine l ∧ isSkipped l) (hL : OneLine L) (hs : isSkipped L = false)
    (h₂ : 2 ≤ L.length) (hr : parseLine (initEntry ept) L = some r) (stack : Str)
    (tmp : Option Vfp) :
    srchcfile stack ept (some ['*']) cf tmp =
      Search.finish ⟨cf, tmp, initEntry ept, cf.curr, 0, false⟩
        (some (r, ⟨before.length + (unlines ls).length + L.length + 1, R⟩)) := by
  have hstep := (Search.step_line (s := ⟨_, tmp, initEntry ept, cf.curr, 0, false⟩) h.moveTo hL hs
    (fun _ => (rfl : compareEntry none _ _ _ = 0)) (.inl rfl) stack).1 r hr
  rw [srchcfile_any h hls h₂ stack ept tmp hstep, List.length_append]
  cases r with
  | error e => rfl
  | ok e => rfl

theorem srchcfile_atEnd (h : cf.Reads before []) (stack : Str) (ept : Cfent) (path : Option Str)
    (tmp : Option Vfp) : srchcfile stack ept path cf tmp = ⟨0, none, initEntry ept, cf, tmp⟩ := by
  have hrem : vfpGetBytesRemaining cf ≤ 1 := by
    rw [h.remaining]
    exact Nat.zero_le _
  unfold srchcfile
  exact if_pos hrem

end Calls

end Pkgtools
