import Pkgtools.SearchSorted

namespace Pkgtools
open CLib
set_option autoImplicit true

section Write
variable {v : Vfp} {before ls : List Str} {target : Str}

theorem writeData_appends {mem W s rest : Str} {p : Nat} (hmem : mem = W ++ (s ++ rest))
    (hp : p = W.length + s.length) (t : Vfp) :
    Appends t (writeData t mem W.length p) s := by
  have he : (mem.drop W.length).take (p - W.length) = s := by
    rw [hmem, List.drop_left, hp, Nat.add_sub_cancel_left, List.take_left]
  rw [writeData, he]
  exact vfpPutBytes_appends t s

/-- What is flushed once the search was narrowed and went on to `p`. -/
theorem Search.flushed_narrowed (cf t : Vfp) (ept : Cfent) (start np p : Nat) :
    (Search.passTo ⟨cf.moveTo np, some t, ept, start, np, true⟩ p).flushed =
      some (writeData t cf.mem start p) := by
  rw [Search.passTo]
  split
  · rename_i h
    rw [h]
    rfl
  · rfl

theorem Search.atEnd_narrowed {c cf : Vfp} (hc : c.mem = cf.mem) (t : Vfp) (ept : Cfent)
    (start np p : Nat) :
    (Search.atEnd { Search.passTo ⟨cf.moveTo np, some t, ept, start, np, true⟩ p with cf := c }).tmp
      =
      some (vfpTerminate (writeData t cf.mem start p)) := by
  rw [← hc]
  unfold Search.passTo
  split
  · rename_i h
    rw [h]
    rfl
  · rfl

theorem IsEntry.not_skipped (h : IsEntry l) : isSkipped l = false := by
  have hhead := h.head
  cases l with
  | nil => cases hhead
  | cons c l =>
    obtain rfl := Option.some.inj hhead
    rfl

theorem parseLine_congr (h : { e with path := none } = { e' with path := none })
    (hp : L.head? = some '/') : parseLine e L = parseLine e' L := by
  have hw : withPath e L = withPath e' L :=
    congrArg (fun e : Cfent => { e with path := some (copyPath (linePath L)) }) h
  simp only [parseLine, if_pos hp, hw]

theorem Search.passTo_ept (s : Search) (p : Nat) :
    { (s.passTo p).ept with path := none } = { s.ept with path := none } := by
  rw [Search.passTo]
  split <;> rfl

end Write

/-- How the search for a path ends: behind the entries `A`, at an entry with the path or a greater
one, or at the end of the file. -/
inductive Outcome (target : Str) (ept : Cfent) (cf t : Vfp) (before ls : List Str) (found : Found) :
    Prop where
  | same (A : List Str) (l : Str) (B : List Str) (hls : ls = A ++ l :: B)
      (hA : ∀ x ∈ A, linePath x < target) (hl : linePath l = target)
      (hfound : ∀ e, parseLine (initEntry ept) l = some (.ok e) → ∃ t',
        Appends t t' (unlines A) ∧
        found = ⟨1, none, e, cf.moveTo (unlines (before ++ (A ++ [l]))).length, some t'⟩)
  | greater (A : List Str) (l : Str) (B : List Str) (hls : ls = A ++ l :: B)
      (hA : ∀ x ∈ A, linePath x < target) (hl : target < linePath l) (t' : Vfp)
      (ht : Appends t t' (unlines A)) (e : Cfent)
      (hfound : found = ⟨2, none, e, cf.moveTo (unlines (before ++ A)).length, some t'⟩)
  | atEnd (hls : ∀ x ∈ ls, linePath x < target) (t' : Vfp) (ht : Appends t t' (unlines ls))
      (hret : found.ret = 0) (htmp : found.tmp = some t')

section Outcome
variable {before ls cs : List Str} {target : Str} {cf : Vfp}

/-- The outcomes of a search that was narrowed to the position behind the entries `A`. -/
theorem searchFrom_outcome (hentry : ∀ x ∈ A ++ m :: B, IsEntry x)
    (hA : ∀ x ∈ A, linePath x < target)
    (hcs : ∀ c ∈ cs, OneLine c ∧ c ≠ [] ∧ isSkipped c) (hne : cs ≠ [])
    (hcf : cf.Reads (unlines before) (unlines (A ++ m :: B ++ cs))) (ht : NulFree target)
    (stack : Str) (ept : Cfent) (t : Vfp) :
    Outcome target ept cf t before (A ++ m :: B)
      (searchFrom stack (initEntry ept) (some target) cf (some t)
        (some (unlines (before ++ A)).length)) := by
  have hW : (unlines before ++ unlines A).length = (unlines (before ++ A)).length := by
    rw [unlines_append]
  have hpos (A₂ : List Str) : (unlines before ++ unlines A).length + (unlines A₂).length =
      (unlines (before ++ (A ++ A₂))).length := by
    rw [← List.append_assoc, unlines_append (before ++ A), hW, List.length_append]
  have hcopy (A₂ B₂ : List Str) (hsplit : m :: B = A₂ ++ B₂) : Appends t (writeData t cf.mem cf.curr
      (unlines (before ++ (A ++ A₂))).length) (unlines (A ++ A₂)) := by
    rw [hcf.curr]
    have hmem : cf.mem = unlines before ++ (unlines (A ++ A₂) ++ unlines (B₂ ++ cs)) := by
      rw [hcf.mem, hsplit, ← List.append_assoc, List.append_assoc, unlines_append (A ++ A₂)]
    apply writeData_appends hmem
    rw [unlines_append before, List.length_append]
  have hread : (cf.moveTo (unlines (before ++ A)).length).Reads (unlines before ++ unlines A)
      (unlines (m :: B ++ cs)) := by
    rw [← hW, List.length_append]
    rw [List.append_assoc, unlines_append] at hcf
    exact hcf.moveTo
  have hlen : cf.mem.length = (unlines before).length + ((unlines A).length +
      ((unlines (m :: B)).length + (unlines cs).length)) := by
    rw [hcf.mem, List.append_assoc, unlines_append, unlines_append, List.length_append,
      List.length_append, List.length_append]
  have hlines := length_le_unlines (m :: B)
  have hclines := length_le_unlines cs
  have hhigh : ¬ cf.highWater < (cf.curr : Int) := by
    rw [List.length_cons] at hlines
    rw [hcf.highWater, hcf.curr]
    omega
  have hB (x) (hx : x ∈ m :: B) : IsEntry x := hentry x (List.mem_append_right _ hx)
  simp only [searchFrom, vfpSetCurrCharPtr_eq hhigh]
  rcases forall_or_exists_first (fun l => linePath l < target) (m :: B) with
    hall | ⟨A₂, l, B₂, hsplit, hA₂, hl⟩
  · -- the comments are passed over, and nothing of them is copied
    obtain ⟨f, hf⟩ : ∃ f, cf.mem.length + 2 = (m :: B).length + (cs.length + (f + 1)) :=
      ⟨cf.mem.length + 1 - (m :: B).length - cs.length, by omega⟩
    rw [unlines_append (m :: B)] at hread
    rw [hf, Search.run_comments (fun x hx => ⟨hB x hx, hall x hx⟩) hcs hne hread ht, hpos]
    refine .atEnd ?_ (vfpTerminate (writeData t cf.mem cf.curr
      (unlines (before ++ (A ++ m :: B))).length)) ?_ rfl ?_
    · intro x hx
      rcases List.mem_append.mp hx with hx | hx
      · exact hA x hx
      · exact hall x hx
    · have happ := (hcopy (m :: B) [] (by simp)).trans (vfpTerminate_appends _)
      rwa [List.append_nil] at happ
    · exact Search.atEnd_narrowed rfl t (initEntry ept) cf.curr (unlines (before ++ A)).length _
  · have hlt (x) (hx : x ∈ A ++ A₂) : linePath x < target := by
      rcases List.mem_append.mp hx with hx | hx
      · exact hA x hx
      · exact hA₂ x hx
    have hA₂' (x) (hx : x ∈ A₂) : IsEntry x ∧ linePath x < target :=
      ⟨hB x (by rw [hsplit]; exact List.mem_append_left _ hx), hA₂ x hx⟩
    have hl' : IsEntry l := hB l (by rw [hsplit]; simp)
    have hls : A ++ m :: B = (A ++ A₂) ++ l :: B₂ := by rw [hsplit, List.append_assoc]
    have hu : unlines (m :: B ++ cs) = unlines A₂ ++ (l ++ '\n' :: unlines (B₂ ++ cs)) := by
      rw [hsplit, List.append_assoc, List.cons_append, unlines_append, unlines_cons]
    rw [hu] at hread
    have hlen₂ : (m :: B).length = A₂.length + (B₂.length + 1) := by
      rw [hsplit, List.length_append, List.length_cons]
    obtain ⟨f, hf⟩ : ∃ f, cf.mem.length + 2 = A₂.length + (f + 1) :=
      ⟨cf.mem.length + 1 - A₂.length, by omega⟩
    rw [hf]
    rcases lt_or_eq_of_le (not_lt.mp hl) with hgt | heq
    · refine .greater (A ++ A₂) l B₂ hls hlt hgt _ (hcopy A₂ (l :: B₂) hsplit)
        (withPath (initEntry ept) l) ?_
      rw [Search.run_greater hA₂' hread ht hl' hgt, hpos, Search.flushed_narrowed]
      rfl
    · refine .same (A ++ A₂) l B₂ hls hlt heq.symm fun e he => ⟨_, hcopy A₂ (l :: B₂) hsplit, ?_⟩
      generalize hs : (⟨cf.moveTo (unlines (before ++ A)).length, some t, initEntry ept, cf.curr,
        (unlines (before ++ A)).length, true⟩ : Search) = s
      have hcf' : s.cf = cf.moveTo (unlines (before ++ A)).length := by rw [← hs]
      rw [← hcf'] at hread
      have hread' : (s.passTo (unlines (before ++ (A ++ A₂))).length).cf.Reads
          (unlines before ++ unlines A ++ unlines A₂) (l ++ '\n' :: unlines (B₂ ++ cs)) := by
        rw [Search.passTo_cf, ← hpos]
        exact hread.moveTo
      obtain ⟨n, hcmp, -, hn⟩ := Search.step_entry hread' hl' ht stack
      have hparse : parseLine (s.passTo (unlines (before ++ (A ++ A₂))).length).ept l =
          some (.ok e) := by
        rw [parseLine_congr ((s.passTo_ept _).trans (by rw [← hs])) hl'.head, he]
      have hstep := (Search.step_line hread' hl'.oneLine hl'.not_skipped
        (fun _ => hn.trans (hcmp.eq_zero heq.symm)) (.inl rfl) stack).1 (.ok e) hparse
      have hend : (unlines before ++ unlines A ++ unlines A₂).length + l.length + 1 =
          (unlines (before ++ (A ++ A₂ ++ [l]))).length := by
        have hl₁ : (unlines (A₂ ++ [l])).length = (unlines A₂).length + (l.length + 1) := by
          rw [unlines_append, unlines_cons, unlines_nil, List.length_append, List.length_append]
          rfl
        rw [List.append_assoc A, ← hpos, hl₁, List.length_append]
        omega
      rw [Search.run_pass A₂ hA₂' hread ht (by simp) stack, hpos, Search.run, hstep]
      simp only [Search.finish, hend, ← hs, Search.flushed_narrowed, Search.passTo_cf]
      rfl

theorem srchcfile_comments (hfile : SortedFile before cs) (hne : cs ≠ [])
    (hcf : cf.Reads W (unlines cs)) (ht : NulFree target) (habs : target.head? = some '/')
    (stack : Str) (ept : Cfent) (t : Vfp) :
    (srchcfile stack ept (some target) cf (some t)).ret = 0 ∧
      (srchcfile stack ept (some target) cf (some t)).tmp = some t := by
  obtain ⟨c, target, rfl⟩ : ∃ c s, target = c :: s := by
    cases target with
    | nil => cases habs
    | cons c s => exact ⟨c, s, rfl⟩
  obtain rfl := Option.some.inj habs
  rw [srchcfile]
  by_cases hrem : vfpGetBytesRemaining cf ≤ 1
  · simp only [if_pos hrem]
    exact ⟨trivial, trivial⟩
  · obtain ⟨d, cs', rfl⟩ : ∃ d ds, cs = d :: ds := by
      cases cs with
      | nil => exact absurd rfl hne
      | cons d ds => exact ⟨d, ds, rfl⟩
    have hderef : cf.ptr.deref ≠ '/' := by
      have hhead := hfile.comment_head (c := d) List.mem_cons_self
      have hd := (hfile.comment d List.mem_cons_self).2.1
      rw [hcf.ptr_eq, unlines_cons]
      cases d with
      | nil => exact absurd rfl hd
      | cons x d => exact fun he => hhead (congrArg some he)
    have hnarrow : narrowSearch cf ('/' :: target) = none := by
      rw [narrowSearch, if_neg (not_or.mpr ⟨List.cons_ne_nil _ _, hrem⟩), if_pos hderef]
    have hlen : cf.mem.length = W.length + (unlines (d :: cs')).length := by
      rw [hcf.mem, List.length_append]
    have hlines := length_le_unlines (d :: cs')
    obtain ⟨f, hf⟩ : ∃ f, cf.mem.length + 2 = ([] : List Str).length +
        ((d :: cs').length + (f + 1)) :=
      ⟨cf.mem.length + 1 - (d :: cs').length, by rw [List.length_nil]; omega⟩
    have hread : cf.Reads W (unlines [] ++ unlines (d :: cs')) := hcf
    have hcurr : W.length + (unlines []).length = cf.curr := hcf.curr.symm
    simp only [if_neg hrem, if_true, hnarrow, searchFrom]
    rw [hf, Search.run_comments (s := ⟨cf, some t, initEntry ept, cf.curr, 0, false⟩) (by simp)
      hfile.comment hne hread ht, Search.passTo, if_pos hcurr]
    exact ⟨rfl, rfl⟩

/-- The outcomes of the search for a path in a sorted file that ends with comments. -/
theorem srchcfile_outcome (hfile : SortedFile (before ++ ls) cs) (hne : cs ≠ [])
    (hcf : cf.Reads (unlines before) (unlines (ls ++ cs))) (ht : NulFree target)
    (habs : target.head? = some '/') (stack : Str) (ept : Cfent) (t : Vfp) :
    Outcome target ept cf t before ls (srchcfile stack ept (some target) cf (some t)) := by
  cases ls with
  | nil =>
    rw [List.append_nil] at hfile
    obtain ⟨hret, htmp⟩ := srchcfile_comments hfile hne hcf ht habs stack ept t
    exact .atEnd (by simp) t (Appends.refl t) hret htmp
  | cons l ls =>
    have htne : target ≠ [] := by
      rintro rfl
      cases habs
    obtain ⟨A, m, B, hls, hp, hA⟩ := narrowSearch_entry hfile hcf ht htne
    have hstart := srchcfile_searchFrom (hfile.entry l (by simp))
      (by rw [List.cons_append, unlines_cons] at hcf; exact hcf) habs stack ept (some t)
    rw [hstart, hp]
    rw [hls] at hcf ⊢
    exact searchFrom_outcome
      (fun x hx => hfile.entry x (List.mem_append_right _ (hls ▸ hx))) hA hfile.comment hne hcf ht
      stack ept t

/-- The request without a path copies what is left of the file, except for a last line of one
character. -/
theorem srchcfile_rest (hcf : cf.Reads W (unlines ls)) (stack : Str) (ept : Cfent) (t : Vfp) :
    ∃ t', (srchcfile stack ept none cf (some t)).tmp = some t' ∧
      (Appends t t' (unlines ls) ∨ (unlines ls).length ≤ 2 ∧ t' = t) := by
  rw [srchcfile]
  by_cases hrem : vfpGetBytesRemaining cf ≤ 1
  · rw [if_pos hrem]
    rw [hcf.remaining] at hrem
    exact ⟨t, rfl, .inr ⟨by omega, rfl⟩⟩
  · have hpos : vfpGetBytesRemaining cf > 0 := by omega
    have hend : (cf.highWater + 1).toNat = W.length + (unlines ls).length := by
      have hlen : cf.mem.length = W.length + (unlines ls).length := by
        rw [hcf.mem, List.length_append]
      rw [hcf.highWater]
      omega
    have hmem : cf.mem = W ++ (unlines ls ++ []) := by rw [List.append_nil, hcf.mem]
    rw [if_neg hrem]
    refine ⟨_, rfl, .inl ?_⟩
    dsimp only
    rw [if_pos hpos, hcf.curr, hend]
    have happ := (writeData_appends hmem rfl t).trans (vfpTerminate_appends _)
    rwa [List.append_nil] at happ

end Outcome

end Pkgtools
