import Pkgtools.NarrowSearch

namespace Pkgtools
open CLib
set_option autoImplicit true

section Compares
variable {target P : Str} {n : Int}

theorem Compares.eq_zero (h : Compares target P n) (he : P = target) : n = 0 := by
  subst he
  rcases h with h | h | h
  · exact h.1
  · exact absurd h.2 (lt_irrefl _)
  · exact absurd h.2 (lt_irrefl _)

theorem Compares.pos (h : Compares target P n) (hlt : P < target) : 0 < n := by
  rcases h with h | h | h
  · exact absurd h.2.symm hlt.ne
  · exact h.1
  · exact absurd h.2 hlt.not_gt

theorem Compares.neg (h : Compares target P n) (hlt : target < P) : n < 0 := by
  rcases h with h | h | h
  · exact absurd h.2 hlt.ne
  · exact absurd h.2 hlt.not_gt
  · exact h.1

end Compares

theorem vfpSetCurrCharPtr_eq (h : ¬ v.highWater < v.curr) (p : Nat) :
    vfpSetCurrCharPtr v p = v.moveTo p := by
  rw [vfpSetCurrCharPtr, if_neg h]
  rfl

/-- The variables of the loop behind an entry that was passed over, at the position `cf`. -/
def Search.passed (s : Search) (cf : Vfp) : Search :=
  { s with
    cf := cf
    ept := { s.ept with path := some [] }
    dataSkipped := s.dataSkipped || s.tmp.isSome
    lastPos := if s.tmp.isSome then cf.curr else s.lastPos }

def Search.passTo (s : Search) (p : Nat) : Search :=
  if p = s.cf.curr then s else s.passed (s.cf.moveTo p)

@[simp] theorem Search.passTo_tmp (s : Search) (p : Nat) : (s.passTo p).tmp = s.tmp := by
  rw [Search.passTo]
  split <;> rfl

@[simp] theorem Search.passTo_firstPos (s : Search) (p : Nat) :
    (s.passTo p).firstPos = s.firstPos := by
  rw [Search.passTo]
  split <;> rfl

@[simp] theorem Search.passTo_cf (s : Search) (p : Nat) : (s.passTo p).cf = s.cf.moveTo p := by
  rw [Search.passTo]
  split
  · rename_i h
    rw [h]
    rfl
  · rfl

theorem Search.withPath_passTo (s : Search) (p : Nat) (l : Str) :
    withPath (s.passTo p).ept l = withPath s.ept l := by
  rw [Search.passTo]
  split <;> rfl

theorem Search.passTo_passTo (s : Search) (hp : s.cf.curr ≤ p) (hq : p ≤ q) :
    (s.passTo p).passTo q = s.passTo q := by
  by_cases hpq : q = p
  · subst hpq
    rw [Search.passTo, if_pos (by rw [Search.passTo_cf]; rfl)]
  · have h₁ : q ≠ (s.passTo p).cf.curr := by
      rw [Search.passTo_cf]
      exact hpq
    have h₂ : q ≠ s.cf.curr := by omega
    rw [Search.passTo, if_neg h₁, Search.passTo, Search.passTo, if_neg h₂]
    split
    · rfl
    · simp only [Search.passed, Vfp.moveTo, Bool.or_assoc, Bool.or_self]
      by_cases hs : s.tmp.isSome
      · simp only [if_pos hs]
      · simp only [if_neg hs]

section Step
variable {s : Search} {before rest l target : Str}

/-- What the round does with an entry depends on how its path compares. -/
theorem Search.step_entry (h : s.cf.Reads before (l ++ '\n' :: rest)) (hl : IsEntry l)
    (ht : NulFree target) (stack : Str) :
    ∃ n, Compares target (linePath l) n ∧
      s.step stack (some target) = Search.atPath
        { s with
          cf := s.cf.moveTo (before.length + (linePath l).length)
          ept := { s.ept with path := some [] } }
        stack (some target) false before.length before.length (linePath l) ∧
      compareEntry (some target) s.cf.mem (linePath l) before.length = n := by
  obtain ⟨c, T, hsplit, hne⟩ := hl.split
  have hmem : s.cf.mem.drop before.length = l ++ '\n' :: rest := by
    rw [h.mem, List.drop_left]
  exact ⟨_, compareEntry_line ht hl.oneLine hmem hne, Search.step_path h hl.head stack _, rfl⟩

theorem Search.step_less (h : s.cf.Reads before (l ++ '\n' :: rest)) (hl : IsEntry l)
    (ht : NulFree target) (hlt : linePath l < target) (stack : Str) :
    ∃ pre post, l ++ ['\n'] = pre ++ post ∧
      s.step stack (some target) =
        .inr (s.passed (vfpIncCurrPtrBy (s.cf.moveTo (before.length + pre.length))
          post.length)) := by
  obtain ⟨n, hcmp, hstep, hn⟩ := Search.step_entry h hl ht stack
  have hpos := hcmp.pos hlt
  obtain ⟨c, T, hsplit, -⟩ := hl.split
  have hT : '\n' ∉ T := fun hm => hl.oneLine.1 (by rw [hsplit]; simp [hm])
  have hread : s.cf.Reads before ((linePath l ++ [c]) ++ (T ++ '\n' :: rest)) := by
    have he : l ++ '\n' :: rest = linePath l ++ [c] ++ (T ++ '\n' :: rest) := by
      conv_lhs => rw [hsplit]
      simp
    rw [← he]
    exact h
  have hnl : (s.cf.moveTo (before.length + (linePath l ++ [c]).length)).ptr.findNewline =
      some T.length := by
    rw [hread.moveTo.ptr_eq, findNewline_append hT]
  refine ⟨linePath l ++ [c], T ++ ['\n'], ?_, ?_⟩
  · conv_lhs => rw [hsplit]
    simp
  · rw [hstep, Search.atPath]
    have hn' : compareEntry (some target) (s.cf.moveTo (before.length + (linePath l).length)).mem
        (linePath l) before.length = n := hn
    have hmove : (s.cf.moveTo (before.length + (linePath l).length)).moveTo
        ((s.cf.moveTo (before.length + (linePath l).length)).curr + 1) =
        s.cf.moveTo (before.length + (linePath l ++ [c]).length) := by
      rw [List.length_append]
      rfl
    have hlen : (T ++ ['\n']).length = T.length + 1 := List.length_append
    rw [hlen]
    simp only [hn', if_neg (show n ≠ 0 by omega), if_neg (show ¬ n < 0 by omega), hmove]
    cases htmp : s.tmp with
    | none =>
      simp only [hnl, Search.passed, htmp, Option.isSome_none, Bool.or_false]
      rfl
    | some t =>
      simp only [Bool.false_eq_true, if_false, Search.skip, hnl, Search.passed, htmp,
        Option.isSome_some, Bool.or_true, if_true]

theorem Search.step_pass (h : s.cf.Reads before (l ++ '\n' :: rest)) (hl : IsEntry l)
    (ht : NulFree target) (hlt : linePath l < target) (hne : rest ≠ []) (stack : Str) :
    s.step stack (some target) = .inr (s.passTo (before.length + (l.length + 1))) := by
  obtain ⟨pre, post, hsplit, hstep⟩ := Search.step_less h hl ht hlt stack
  have hlen : l.length + 1 = pre.length + post.length := by
    have := congrArg List.length hsplit
    simpa using this
  have hread : s.cf.Reads before (pre ++ (post ++ rest)) := by
    rw [← List.append_assoc, ← hsplit, List.append_assoc]
    exact h
  have hcurr : before.length + (l.length + 1) ≠ s.cf.curr := by
    rw [h.curr]
    omega
  rw [hstep, hread.moveTo.inc hne, Search.passTo, if_neg hcurr, List.length_append, hlen,
    Nat.add_assoc]
  rfl

/-- The position at the last byte of the file, where moving behind it leads. -/
def Vfp.clamped (v : Vfp) : Vfp := { v with curr := v.mem.length - 1, overflow := true }

/-- If the file ends behind the entry, the position is the last byte of it. -/
theorem Search.step_clamp (h : s.cf.Reads before (l ++ ['\n'])) (hl : IsEntry l)
    (ht : NulFree target) (hlt : linePath l < target) (stack : Str) :
    s.step stack (some target) = .inr (s.passed s.cf.clamped) := by
  obtain ⟨pre, post, hsplit, hstep⟩ := Search.step_less h hl ht hlt stack
  have hlen : l.length + 1 = pre.length + post.length := by
    have := congrArg List.length hsplit
    simpa using this
  have hmem : s.cf.mem.length = before.length + (l.length + 1) := by
    rw [h.mem, List.length_append, List.length_append]
    rfl
  have hlast : s.cf.last < ((before.length + pre.length + post.length : Nat) : Int) := by
    rw [h.last]
    omega
  have htoNat : s.cf.last.toNat = s.cf.mem.length - 1 := by
    rw [h.last]
    omega
  have hhigh : ¬ s.cf.highWater < ((s.cf.mem.length - 1 : Nat) : Int) := by
    rw [h.highWater]
    omega
  rw [hstep]
  simp only [vfpIncCurrPtrBy, Vfp.moveTo, if_pos hlast, htoNat, if_neg hhigh, Vfp.clamped]

theorem Search.step_greater (h : s.cf.Reads before (l ++ '\n' :: rest)) (hl : IsEntry l)
    (ht : NulFree target) (hlt : target < linePath l) (stack : Str) :
    s.step stack (some target) = .inl ⟨2, none, withPath s.ept l, s.cf, s.flushed⟩ := by
  obtain ⟨n, hcmp, hstep, hn⟩ := Search.step_entry h hl ht stack
  have hneg := hcmp.neg hlt
  have hn' : compareEntry (some target) (s.cf.moveTo (before.length + (linePath l).length)).mem
      (linePath l) before.length = n := hn
  obtain ⟨c, T, hsplit, -⟩ := hl.split
  have hlen : s.cf.mem.length = before.length + (l.length + (rest.length + 1)) := by
    rw [h.mem, List.length_append, List.length_append, List.length_cons]
  have hpath : l.length = (linePath l).length + (T.length + 1) := by
    conv_lhs => rw [hsplit]
    rw [List.length_append, List.length_cons]
  have hhigh : ¬ s.cf.highWater < ((before.length + (linePath l).length + 1 : Nat) : Int) := by
    rw [h.highWater]
    omega
  have hset : vfpSetCurrCharPtr ((s.cf.moveTo (before.length + (linePath l).length)).moveTo
      ((s.cf.moveTo (before.length + (linePath l).length)).curr + 1)) before.length = s.cf := by
    rw [vfpSetCurrCharPtr_eq hhigh, ← h.curr]
    rfl
  rw [hstep, Search.atPath]
  simp only [hn', if_neg (show n ≠ 0 by omega), if_pos hneg, hset]
  rfl

def Search.atEnd (s : Search) : Found :=
  ⟨0, none, s.ept, s.cf, if s.dataSkipped then s.flushed.map vfpTerminate else s.tmp⟩

theorem Search.step_end (h : vfpGetBytesRemaining s.cf = 0) (stack : Str) (target : Option Str) :
    s.step stack target = .inl s.atEnd := by
  rw [Search.step]
  simp only [if_pos h]
  rfl

end Step

section Run
variable {s : Search} {before rest target : Str}

theorem Search.run_pass (A : List Str) (hA : ∀ l ∈ A, IsEntry l ∧ linePath l < target)
    (h : s.cf.Reads before (unlines A ++ rest)) (ht : NulFree target) (hne : rest ≠ [])
    (stack : Str) (f : Nat) :
    s.run stack (some target) (A.length + f) =
      (s.passTo (before.length + (unlines A).length)).run stack (some target) f := by
  induction A generalizing s before with
  | nil =>
    have hcurr : before.length + (unlines []).length = s.cf.curr := h.curr.symm
    rw [Search.passTo, if_pos hcurr, List.length_nil, Nat.zero_add]
  | cons l A ih =>
    obtain ⟨hl, hlt⟩ := hA l List.mem_cons_self
    have hlen : (unlines (l :: A)).length = l.length + 1 + (unlines A).length := by
      rw [unlines_cons, List.length_append, List.length_cons]
      omega
    rw [unlines_cons, List.append_assoc, List.cons_append] at h
    have hne' : unlines A ++ rest ≠ [] := by simp [hne]
    have hread : (s.passTo (before.length + (l.length + 1))).cf.Reads (before ++ (l ++ ['\n']))
        (unlines A ++ rest) := by
      rw [Search.passTo_cf]
      exact h.line
    rw [List.length_cons, Nat.succ_add_eq_add_succ, Nat.add_succ, Search.run,
      Search.step_pass h hl ht hlt hne']
    simp only
    rw [ih (fun m hm => hA m (List.mem_cons_of_mem _ hm)) hread, Search.passTo_passTo]
    · rw [hlen, List.length_append, List.length_append, List.length_singleton, Nat.add_assoc]
    · rw [h.curr]
      exact Nat.le_add_right _ _
    · rw [List.length_append, List.length_append, List.length_singleton]
      exact Nat.le_add_right _ _

theorem Search.run_found (hA : ∀ l ∈ A, IsEntry l ∧ linePath l < target)
    (h : s.cf.Reads before (unlines A ++ (l ++ '\n' :: rest))) (ht : NulFree target)
    (hl : IsEntry l) (he : linePath l = target) (stack : Str) :
    ∃ c T, l = linePath l ++ c :: T ∧ ∀ f,
      s.run stack (some target) (A.length + (f + 1)) =
        (s.passTo (before.length + (unlines A).length)).finish
          (readEntry bufferReaders (s.cf.mem.length + 1) stack false c (withPath s.ept l)
            ⟨before.length + (unlines A).length + (linePath l).length + 1, T ++ '\n' :: rest⟩) := by
  obtain ⟨c, T, hsplit, -⟩ := hl.split
  refine ⟨c, T, hsplit, fun f => ?_⟩
  have hread : (s.passTo (before.length + (unlines A).length)).cf.Reads (before ++ unlines A)
      (l ++ '\n' :: rest) := by
    rw [Search.passTo_cf]
    exact h.moveTo
  obtain ⟨n, hcmp, -, hn⟩ := Search.step_entry hread hl ht stack
  have hdrop : l.drop (linePath l).length ++ '\n' :: rest = c :: (T ++ '\n' :: rest) := by
    have he' : l.drop (linePath l).length = c :: T := by
      conv_lhs =>
        arg 2
        rw [hsplit]
      exact List.drop_left
    rw [he', List.cons_append]
  rw [Search.run_pass A hA h ht (by simp) stack, Search.run,
    Search.step_newStyle hread hl.head (hn.trans (hcmp.eq_zero he)) hdrop, Search.withPath_passTo,
    Search.passTo_cf, List.length_append]
  rfl

theorem Search.run_greater (hA : ∀ l ∈ A, IsEntry l ∧ linePath l < target)
    (h : s.cf.Reads before (unlines A ++ (l ++ '\n' :: rest))) (ht : NulFree target)
    (hl : IsEntry l) (hlt : target < linePath l) (stack : Str) (f : Nat) :
    s.run stack (some target) (A.length + (f + 1)) =
      ⟨2, none, withPath s.ept l, s.cf.moveTo (before.length + (unlines A).length),
        (s.passTo (before.length + (unlines A).length)).flushed⟩ := by
  have hread : (s.passTo (before.length + (unlines A).length)).cf.Reads (before ++ unlines A)
      (l ++ '\n' :: rest) := by
    rw [Search.passTo_cf]
    exact h.moveTo
  rw [Search.run_pass A hA h ht (by simp) stack, Search.run, Search.step_greater hread hl ht hlt,
    Search.withPath_passTo, Search.passTo_cf]

theorem Search.run_comments (hA : ∀ l ∈ A, IsEntry l ∧ linePath l < target)
    (hcs : ∀ c ∈ cs, OneLine c ∧ c ≠ [] ∧ isSkipped c) (hne : cs ≠ [])
    (h : s.cf.Reads before (unlines A ++ unlines cs)) (ht : NulFree target) (stack : Str)
    (f : Nat) :
    s.run stack (some target) (A.length + (cs.length + (f + 1))) =
      Search.atEnd { s.passTo (before.length + (unlines A).length) with
        cf := s.cf.moveTo (before.length + (unlines A).length + (unlines cs).length) } := by
  have hread : (s.passTo (before.length + (unlines A).length)).cf.Reads (before ++ unlines A)
      (unlines cs ++ []) := by
    rw [Search.passTo_cf, List.append_nil]
    exact h.moveTo
  have hne' : unlines cs ≠ [] := by
    cases cs with
    | nil => exact absurd rfl hne
    | cons c cs => simp [unlines_cons]
  have hend : vfpGetBytesRemaining ((s.passTo (before.length + (unlines A).length)).cf.moveTo
      ((before ++ unlines A).length + (unlines cs).length)) = 0 := by
    rw [hread.moveTo.remaining]
    rfl
  have hstep := Search.step_end (s := { s.passTo (before.length + (unlines A).length) with
    cf := (s.passTo (before.length + (unlines A).length)).cf.moveTo
      ((before ++ unlines A).length + (unlines cs).length) }) hend stack (some target)
  have hskip := Search.run_skipped cs (fun c hc => ⟨(hcs c hc).1, (hcs c hc).2.2⟩) hread
    (.inr fun c hc => (hcs c hc).2.1) stack (some target) (f + 1)
  rw [Search.run_pass A hA h ht hne' stack, hskip, Search.run, hstep]
  simp only [Search.passTo_cf, List.length_append]
  rfl

theorem Search.run_clamped (hA : ∀ m ∈ A ++ [l], IsEntry m ∧ linePath m < target)
    (h : s.cf.Reads before (unlines A ++ (l ++ ['\n']))) (ht : NulFree target) (stack : Str)
    (f : Nat) :
    s.run stack (some target) (A.length + (f + 2)) =
      ((s.passTo (before.length + (unlines A).length)).passed s.cf.clamped).atEnd := by
  obtain ⟨hl, hlt⟩ := hA l (by simp)
  have hread : (s.passTo (before.length + (unlines A).length)).cf.Reads (before ++ unlines A)
      (l ++ ['\n']) := by
    rw [Search.passTo_cf]
    exact h.moveTo
  have hend : vfpGetBytesRemaining
      ((s.passTo (before.length + (unlines A).length)).passed s.cf.clamped).cf = 0 := by
    have hhigh := h.highWater
    simp only [Search.passed, vfpGetBytesRemaining, Vfp.clamped]
    omega
  have hclamp : (s.passTo (before.length + (unlines A).length)).cf.clamped = s.cf.clamped := by
    rw [Search.passTo_cf]
    rfl
  rw [Search.run_pass A (fun m hm => hA m (List.mem_append_left _ hm)) h ht (by simp) stack,
    Search.run, Search.step_clamp hread hl ht hlt, hclamp]
  simp only [Search.run, Search.step_end hend]

end Run

section Alike
variable {s s' : Search}

/-- Loop variables that lead to the same result: they agree on what is still read, and on what is
written when skipped data is flushed. -/
structure Search.Alike (s s' : Search) : Prop where
  cf : s.cf = s'.cf
  tmp : s.tmp = s'.tmp
  firstPos : s.firstPos = s'.firstPos
  ept : { s.ept with path := none } = { s'.ept with path := none }
  flushed : s.flushed = s'.flushed

theorem Search.Alike.withPath (h : s.Alike s') (l : Str) : withPath s.ept l = withPath s'.ept l :=
  congrArg (fun e : Cfent => { e with path := some (copyPath (linePath l)) }) h.ept

theorem Search.flushed_none (h : s.tmp = none) : s.flushed = none := by
  rw [Search.flushed, h]
  exact ite_self _

theorem Search.flushed_passed (h : s.tmp = some t) (cf : Vfp) :
    (s.passed cf).flushed = some (writeData t cf.mem s.firstPos cf.curr) := by
  simp [Search.flushed, Search.passed, h]

theorem Search.Alike.passTo (h : s.Alike s') (p : Nat) : (s.passTo p).Alike (s'.passTo p) := by
  by_cases hp : p = s.cf.curr
  · have hp' : p = s'.cf.curr := by rw [← h.cf]; exact hp
    rw [Search.passTo, Search.passTo, if_pos hp, if_pos hp']
    exact h
  · have hp' : ¬ p = s'.cf.curr := by rw [← h.cf]; exact hp
    rw [Search.passTo, Search.passTo, if_neg hp, if_neg hp']
    refine ⟨by rw [h.cf]; rfl, h.tmp, h.firstPos, h.ept, ?_⟩
    cases ht : s.tmp with
    | none =>
      have ht' : s'.tmp = none := h.tmp.symm.trans ht
      rw [Search.flushed_none (s := s.passed _) ht, Search.flushed_none (s := s'.passed _) ht']
    | some t =>
      have ht' : s'.tmp = some t := h.tmp.symm.trans ht
      rw [Search.flushed_passed ht, Search.flushed_passed ht', h.cf, h.firstPos]

theorem Search.Alike.finish (h : s.Alike s') (r : Except Fail Cfent × Ptr) :
    s.finish (some r) = s'.finish (some r) := by
  obtain ⟨e | ept, p⟩ := r
  · simp only [Search.finish, h.cf, h.tmp]
  · simp only [Search.finish, h.cf, h.flushed]

/-- Once an entry was passed over, the results at the end of the file are the same. -/
theorem Search.Alike.atEnd (h : s.Alike s') (cf cf' : Vfp) :
    Search.atEnd { s.passed cf with cf := cf' } = Search.atEnd { s'.passed cf with cf := cf' } := by
  have hept : { s.ept with path := some [] } = { s'.ept with path := some [] } :=
    congrArg (fun e : Cfent => { e with path := some [] }) h.ept
  cases ht : s.tmp with
  | none =>
    have ht' : s'.tmp = none := h.tmp.symm.trans ht
    simp [Search.atEnd, Search.passed, Search.flushed, ht, ht', hept]
  | some t =>
    have ht' : s'.tmp = some t := h.tmp.symm.trans ht
    simp [Search.atEnd, Search.passed, Search.flushed, ht, ht', hept, h.firstPos]

end Alike

section Narrowed
variable {s s' : Search} {before ls cs : List Str} {target : Str} {cf : Vfp} {tmp : Option Vfp}

theorem vfpPutBytes_nil (h : t.Wf) (hr : t.HasRoom) : vfpPutBytes t [] = t := by
  have havail : vfpGetBytesAvailable t > 0 := by
    simp only [Vfp.HasRoom] at hr
    simp only [vfpGetBytesAvailable]
    omega
  have hlast : ¬ t.last < (t.curr : Int) := not_lt.mpr h.curr_le
  have hhigh : ¬ t.highWater < (t.curr : Int) := not_lt.mpr (le_of_eq h.highWater_eq.symm)
  have hmem : memWrite t.mem t.curr [] = t.mem := by simp [memWrite]
  simp only [vfpPutBytes, List.length_nil, if_pos havail, List.take_nil, hmem, vfpIncCurrPtrBy,
    Nat.add_zero, if_neg hlast, if_neg hhigh]

/-- The variables after the search was narrowed to `np`, and after it got there entry by entry. -/
theorem Search.alike_narrowed (hroom : ∀ t, tmp = some t → t.Wf ∧ t.HasRoom) (ept : Cfent)
    (np : Nat) :
    (Search.passTo ⟨cf, tmp, ept, cf.curr, 0, false⟩ np).Alike
      ⟨cf.moveTo np, tmp, ept, cf.curr, np, true⟩ := by
  refine ⟨by rw [Search.passTo_cf], by rw [Search.passTo_tmp], by rw [Search.passTo_firstPos], ?_, ?_⟩
  · rw [Search.passTo]
    split <;> rfl
  · cases htmp : tmp with
    | none =>
      rw [Search.flushed_none (Search.passTo_tmp _ _), Search.flushed_none rfl]
    | some t =>
      obtain ⟨hwf, hr⟩ := hroom t htmp
      by_cases hnp : np = cf.curr
      · subst hnp
        have hwrite : writeData t cf.mem cf.curr cf.curr = t := by
          rw [writeData, Nat.sub_self, List.take_zero, vfpPutBytes_nil hwf hr]
        rw [Search.passTo, if_pos rfl]
        simp only [Search.flushed, Vfp.moveTo, Bool.false_eq_true, if_false, if_true,
          Option.map_some, hwrite]
      · rw [Search.passTo, if_neg hnp, Search.flushed_passed rfl]
        rfl

theorem Search.run_alike (hs : s.Alike s') (hls : ∀ l ∈ ls, IsEntry l) (hne : ls ≠ [])
    (hcs : ∀ c ∈ cs, OneLine c ∧ c ≠ [] ∧ isSkipped c)
    (h : s.cf.Reads W (unlines (ls ++ cs))) (ht : NulFree target) (stack : Str)
    (hf : ls.length + cs.length + 1 ≤ f) (hf' : ls.length + cs.length + 1 ≤ f') :
    s.run stack (some target) f = s'.run stack (some target) f' := by
  have h' : s'.cf.Reads W (unlines (ls ++ cs)) := hs.cf ▸ h
  rcases forall_or_exists_first (fun l => linePath l < target) ls with hall | ⟨A, m, B, rfl, hA, hm⟩
  · have hA (l) (hl : l ∈ ls) : IsEntry l ∧ linePath l < target := ⟨hls l hl, hall l hl⟩
    by_cases hcs' : cs = []
    · subst hcs'
      obtain ⟨A, l, rfl⟩ : ∃ A l, ls = A ++ [l] :=
        ⟨ls.dropLast, ls.getLast hne, (List.dropLast_append_getLast hne).symm⟩
      rw [List.length_append, List.length_singleton, List.length_nil] at hf hf'
      have hu : unlines (A ++ [l] ++ []) = unlines A ++ (l ++ ['\n']) := by
        rw [List.append_nil, unlines_append, unlines_cons, unlines_nil]
      rw [hu] at h h'
      obtain ⟨g, rfl⟩ : ∃ g, f = A.length + (g + 2) := ⟨f - A.length - 2, by omega⟩
      obtain ⟨g', rfl⟩ : ∃ g, f' = A.length + (g + 2) := ⟨f' - A.length - 2, by omega⟩
      rw [Search.run_clamped hA h ht, Search.run_clamped hA h' ht, hs.cf]
      exact (hs.passTo _).atEnd _ _
    · have hpos := List.length_pos_iff.mpr hne
      have hlong : W.length + (unlines ls).length ≠ s.cf.curr := by
        have := length_le_unlines ls
        rw [h.curr]
        omega
      rw [unlines_append] at h h'
      obtain ⟨g, rfl⟩ : ∃ g, f = ls.length + (cs.length + (g + 1)) :=
        ⟨f - ls.length - cs.length - 1, by omega⟩
      obtain ⟨g', rfl⟩ : ∃ g, f' = ls.length + (cs.length + (g + 1)) :=
        ⟨f' - ls.length - cs.length - 1, by omega⟩
      rw [Search.run_comments hA hcs hcs' h ht, Search.run_comments hA hcs hcs' h' ht,
        Search.passTo, if_neg hlong, Search.passTo, if_neg (hs.cf ▸ hlong), hs.cf]
      exact hs.atEnd _ _
  · have hA (l) (hl : l ∈ A) : IsEntry l ∧ linePath l < target :=
      ⟨hls l (List.mem_append_left _ hl), hA l hl⟩
    have hm' : IsEntry m := hls m (by simp)
    have hu : unlines (A ++ m :: B ++ cs) = unlines A ++ (m ++ '\n' :: unlines (B ++ cs)) := by
      rw [List.append_assoc, List.cons_append, unlines_append, unlines_cons]
    rw [hu] at h h'
    rw [List.length_append, List.length_cons] at hf hf'
    obtain ⟨g, rfl⟩ : ∃ g, f = A.length + (g + 1) := ⟨f - A.length - 1, by omega⟩
    obtain ⟨g', rfl⟩ : ∃ g, f' = A.length + (g + 1) := ⟨f' - A.length - 1, by omega⟩
    rcases lt_or_eq_of_le (not_lt.mp hm) with hgt | heq
    · rw [Search.run_greater hA h ht hm' hgt, Search.run_greater hA h' ht hm' hgt, hs.withPath,
        hs.cf, (hs.passTo _).flushed]
    · obtain ⟨c, T, hsplit, hrun⟩ := Search.run_found hA h ht hm' heq.symm stack
      obtain ⟨c', T', hsplit', hrun'⟩ := Search.run_found hA h' ht hm' heq.symm stack
      obtain ⟨rfl, rfl⟩ : c = c' ∧ T = T' := by
        have := List.append_cancel_left (hsplit.symm.trans hsplit')
        exact List.cons.inj this
      have hlen : s.cf.mem.length = W.length + ((unlines A).length + (m.length +
          ((unlines (B ++ cs)).length + 1))) := by
        rw [h.mem, List.length_append, List.length_append, List.length_append, List.length_cons]
      have hlen' : m.length = (linePath m).length + (T.length + 1) := by
        conv_lhs => rw [hsplit]
        rw [List.length_append, List.length_cons]
      obtain ⟨r, p, hr, -⟩ := keeps_readEntry 0 (s.cf.mem.length + 1) stack false c
        (Pkgtools.withPath s.ept m)
        ⟨W.length + (unlines A).length + (linePath m).length + 1,
          T ++ '\n' :: unlines (B ++ cs)⟩
        ⟨Nat.zero_le _, by simp only [List.length_append, List.length_cons]; omega⟩
      rw [hrun, hrun', ← hs.cf, ← hs.withPath, hr]
      exact (hs.passTo _).finish _

/-- `narrowSearch` goes to the start of an entry, and the entries in front of it are less. -/
theorem narrowSearch_entry (hfile : SortedFile (before ++ l :: ls) cs)
    (hcf : cf.Reads (unlines before) (unlines (l :: ls ++ cs))) (ht : NulFree target)
    (hne : target ≠ []) :
    ∃ A m B, l :: ls = A ++ m :: B ∧
      narrowSearch cf target = some (unlines (before ++ A)).length ∧
      ∀ x ∈ A, linePath x < target := by
  obtain ⟨p, hp, hpos⟩ := narrowSearch_spec hfile ht hne hcf
  rcases hpos with rfl | ⟨A, m, B, hls, rfl, hm⟩
  · exact ⟨[], l, ls, rfl, by rw [hp, List.append_nil, hcf.curr], by simp⟩
  · refine ⟨A, m, B, hls, hp, fun x hx => lt_of_lt_of_le ?_ hm⟩
    have hsorted := (List.pairwise_append.mp hfile.sorted).2.1
    rw [hls] at hsorted
    exact (List.pairwise_append.mp hsorted).2.2 x hx m List.mem_cons_self

/-- In front of an entry an absolute path is searched for from where `narrowSearch` points. -/
theorem srchcfile_searchFrom (hl : IsEntry l)
    (hcf : cf.Reads W (l ++ '\n' :: rest)) (habs : target.head? = some '/') (stack : Str)
    (ept : Cfent) (tmp : Option Vfp) :
    srchcfile stack ept (some target) cf tmp =
      searchFrom stack (initEntry ept) (some target) cf tmp (narrowSearch cf target) := by
  have hrem : ¬ vfpGetBytesRemaining cf ≤ 1 := by
    have := hl.two_le_length
    rw [hcf.remaining, List.length_append, List.length_cons]
    omega
  cases target with
  | nil => cases habs
  | cons c target =>
    rw [srchcfile, if_neg hrem]
    exact if_pos (Option.some.inj habs)

/-- The search for a path that is narrowed by `narrowSearch` gives the result of the scan of the
lines from the start position on. -/
theorem srchcfile_narrowSearch (hfile : SortedFile (before ++ l :: ls) cs)
    (hcf : cf.Reads (unlines before) (unlines (l :: ls ++ cs))) (ht : NulFree target)
    (habs : target.head? = some '/') (hroom : ∀ t, tmp = some t → t.Wf ∧ t.HasRoom) (stack : Str)
    (ept : Cfent) :
    srchcfile stack ept (some target) cf tmp =
      searchFrom stack (initEntry ept) (some target) cf tmp none ∧
    ∃ p, narrowSearch cf target = some p ∧
      (p = cf.curr ∨ NotAfter before (l :: ls) target p) := by
  have hne : target ≠ [] := by
    rintro rfl
    cases habs
  refine ⟨?_, narrowSearch_spec hfile ht hne hcf⟩
  obtain ⟨A, m, B, hls, hp, hA⟩ := narrowSearch_entry hfile hcf ht hne
  have hentry (x) (hx : x ∈ A ++ m :: B) : IsEntry x :=
    hfile.entry x (List.mem_append_right _ (hls ▸ hx))
  have hstart := srchcfile_searchFrom (hfile.entry l (by simp))
    (by rw [List.cons_append, unlines_cons] at hcf; exact hcf) habs stack ept tmp
  rw [hls, List.append_assoc, List.cons_append, unlines_append] at hcf
  have hcurr : (unlines (before ++ A)).length = (unlines before).length + (unlines A).length := by
    rw [unlines_append, List.length_append]
  have hlen : cf.mem.length = (unlines before).length + ((unlines A).length +
      (unlines (m :: (B ++ cs))).length) := by
    rw [hcf.mem, List.length_append, List.length_append]
  have hlines := length_le_unlines (m :: (B ++ cs))
  have hAlen := length_le_unlines A
  rw [List.length_cons, List.length_append] at hlines
  have hhigh : ¬ cf.highWater < (cf.curr : Int) := by
    have hmpos := (hentry m (by simp)).two_le_length
    rw [unlines_cons, List.length_append] at hlen
    rw [hcf.highWater, hcf.curr]
    omega
  obtain ⟨f, hf⟩ : ∃ f, cf.mem.length + 2 = A.length + f := ⟨cf.mem.length + 2 - A.length, by omega⟩
  rw [hstart, hp]
  simp only [searchFrom, vfpSetCurrCharPtr_eq hhigh]
  rw [hf, Search.run_pass (s := ⟨cf, tmp, initEntry ept, cf.curr, 0, false⟩) A
    (fun x hx => ⟨hentry x (List.mem_append_left _ hx), hA x hx⟩) hcf ht
    (by simp [unlines_cons]) stack f, ← hcurr]
  refine (Search.run_alike (Search.alike_narrowed hroom (initEntry ept) _)
    (fun x hx => hentry x (List.mem_append_right _ hx)) (List.cons_ne_nil m B) hfile.comment
    (W := unlines before ++ unlines A) ?_ ht stack ?_ ?_).symm
  · rw [Search.passTo_cf, hcurr]
    exact hcf.moveTo
  · rw [List.length_cons]
    omega
  · rw [List.length_cons]
    omega

def sampleDirs : List Str :=
  ["/a d none 0755 root sys SUNWcsr".toList, "/a/b d none 0755 root sys SUNWcsr".toList,
    "/a/c d none 0755 root sys SUNWcsr".toList]

theorem sampleDirs_sorted : SortedFile sampleDirs ["# end".toList] :=
  ⟨by decide +kernel, by decide +kernel, by decide +kernel⟩

/-- The path is found by the binary search, at the start of the last entry. -/
theorem srchcfile_narrowSearch_dirs :
    srchcfile [] zeroEntry (some "/a/c".toList)
        (vfpOpen (unlines (sampleDirs ++ ["# end".toList])))
        (some (vfpAnonymous 512 0 fun _ => 'x')) =
      searchFrom [] (initEntry zeroEntry) (some "/a/c".toList)
        (vfpOpen (unlines (sampleDirs ++ ["# end".toList])))
        (some (vfpAnonymous 512 0 fun _ => 'x')) none ∧
    narrowSearch (vfpOpen (unlines (sampleDirs ++ ["# end".toList]))) "/a/c".toList = some 66 := by
  refine ⟨?_, by decide +kernel⟩
  have hfile : SortedFile ([] ++ sampleDirs) ["# end".toList] := sampleDirs_sorted
  refine (srchcfile_narrowSearch hfile (vfpOpen_reads (nulFree_unlines hfile.oneLine))
    (by decide) rfl ?_ [] zeroEntry).1
  rintro t ⟨⟩
  exact ⟨vfpAnonymous_wf 512 0 _ (by decide), by decide⟩

end Narrowed

end Pkgtools
