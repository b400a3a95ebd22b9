import Pkgtools.HeaderLines

namespace Pkgtools
open CLib
set_option autoImplicit true

/-- `sscanf (s, "%d %[ 0-9]", ...)`: a count, and the text of those behind it if there are any. -/
def scanCounts (s : Str) : Option (Int × Option Str) :=
  (scanInt 32 s).map fun (n, s) =>
    (n, (scanSet (fun c => c == ' ' || c.isDigit) (skipSpace s)).map Prod.fst)

/-- The end of `ds_volsum`: it returns `volcnt` and leaves `index` in `ds_volpart`. -/
def volsumEnd (index : Option Int) (volcnt : Int) : Except Abort (Int × Int) :=
  match index with
  | none => .error .undefined
  | some index => .ok (volcnt, index)

/-- The loop of `ds_volsum`. Its local variables are `none` until something is stored in them;
what they hold before is undefined. -/
def volsumLoop (nparts : Int) :
    Nat → Option Str → Option Str → Option Int → Int → Int → Except Abort (Int × Int)
  | 0, _, _, _, _, _ => .error .running
  | passes + 1, volnos, tmpvol, index, volcnt, sum =>
    if sum < nparts then
      match volnos with
      | none => .error .undefined
      | some volnos =>
        match scanCounts volnos with
        | none => volsumEnd index volcnt
        | some (index, rest) =>
          -- the last count leaves `tmpvol` as it was
          match rest.or tmpvol with
          | none => .error .undefined
          | some tmpvol => do
            let volcnt ← int (volcnt + 1)
            let sum ← int (sum + index)
            volsumLoop nparts passes (some tmpvol) (some tmpvol) (some index) volcnt sum
    else volsumEnd index volcnt

/-- `ds_volcnt` and `ds_volpart`. -/
structure DsVols where
  volcnt : Int
  volpart : Int
  deriving DecidableEq, Repr

/-- `ds_volcnt += ds_volsum (toc)`. Once the counts of the text are used up, each pass adds the last
of them again. -/
def dsVolsum (v : DsVols) (toc : DsToc) : Except Abort DsVols :=
  if toc.volnos = [] then do
    let volpart ← int (v.volpart + toc.nparts)
    .ok ⟨v.volcnt, volpart⟩
  else match scanCounts toc.volnos with
    | none => .error .undefined
    | some (curpartcnt, volnos) => do
      let (volcnt, index) ← volsumLoop toc.nparts (toc.volnos.length + toc.nparts.toNat + 1) volnos
        none none 0 curpartcnt
      let volcnt ← int (v.volcnt + volcnt)
      .ok ⟨volcnt, index⟩

/-- The loop of `ds_init` over the lines of the header. -/
def readToc (m : Behind) : Nat → Str → DsStream → DsVols → Except Abort (List DsToc × DsVols)
  | 0, _, _, _ => .error .running
  | passes + 1, buf, s, v =>
    match dsGets m buf LSIZE s with
    | (none, _, _) => .error .refused
    | (some line, buf, s) =>
      if line = HDR_SUFFIX then .ok ([], v)
      else if line.head?.all (· == '#') then readToc m passes buf s v
      else do
        let toc ← scanToc line
        let v ← dsVolsum v toc
        let (rest, v) ← readToc m passes buf s v
        .ok (toc :: rest, v)

/-- The table of contents of `ds_init`, from what `ds_volpart` held before; every line takes at
least a newline off the header. -/
def dsInitToc (m : Behind) (line : Str) (volpart : Int) (s : DsStream) :
    Except Abort (List DsToc × DsVols) := do
  let (toc, v) ← readToc m (s.header.length + 1) line s ⟨1, volpart⟩
  if toc.isEmpty then .error .refused else .ok (toc, v)

section Volumes
variable {e : TocEntry} {v : DsVols}

def DsVols.behind (v : DsVols) (e : TocEntry) : DsVols :=
  ⟨v.volcnt + (e.volnos.length - 1 : Nat), e.volnos.getLast?.getD (v.volpart + e.nparts)⟩

/-- The entry leaves the totals `int` values, and is not for exactly two volumes: then `tmpvol`
would be copied before anything is stored in it. -/
def DsVols.Takes (v : DsVols) (e : TocEntry) : Prop :=
  e.volnos.length ≠ 2 ∧ (e.volnos = [] → IsInt (v.volpart + e.nparts)) ∧
    (e.volnos ≠ [] → IsInt (v.volcnt + (e.volnos.length - 1 : Nat)))

instance (v : DsVols) (e : TocEntry) : Decidable (v.Takes e) :=
  inferInstanceAs (Decidable (_ ∧ (_ → _) ∧ (_ → _)))

def DsVols.TakesAll : DsVols → List TocEntry → Prop
  | _, [] => True
  | v, e :: toc => v.Takes e ∧ (v.behind e).TakesAll toc

theorem countsText_cons (c : Int) (cs : List Int) :
    (countsText (c :: cs)).tail = fmtD c ++ countsText cs := rfl

theorem scanCounts_text (hc : IsInt c) (hcs : ∀ x ∈ cs, 0 ≤ x) :
    scanCounts (countsText (c :: cs)).tail =
      some (c, if cs = [] then none else some (countsText cs).tail) := by
  have hscan := scanInt_fmtD (w := 32) (by decide) (by decide) hc.1 hc.2 (endsNumber_countsText cs)
  simp only [countsText_cons, scanCounts, hscan, Option.map_some, skipSpace_countsText hcs]
  cases cs with
  | nil => rfl
  | cons d ds =>
    have hne : (countsText (d :: ds)).tail ≠ [] := by
      rw [countsText_cons]
      exact List.append_ne_nil_of_left_ne_nil (fmtD_ne_nil d) _
    rw [scanSet_countsText hcs hne, if_neg (List.cons_ne_nil d ds)]
    rfl

theorem length_le_sum {l : List Int} (h : ∀ x ∈ l, 0 < x) : (l.length : Int) ≤ l.sum := by
  induction l with
  | nil => exact Int.le_refl 0
  | cons x l ih =>
    obtain ⟨hx, hl⟩ := List.forall_mem_cons.mp h
    have := ih hl
    rw [List.sum_cons, List.length_cons]
    omega

theorem volsumLoop_pass (hlt : sum < nparts) (hscan : scanCounts text = some (i, rest))
    (ht : rest.or tmpvol = some t) (h₁ : IsInt (volcnt + 1)) (h₂ : IsInt (sum + i)) :
    volsumLoop nparts (passes + 1) (some text) tmpvol index volcnt sum =
      volsumLoop nparts passes (some t) (some t) (some i) (volcnt + 1) (sum + i) := by
  simp only [volsumLoop, if_pos hlt, hscan, ht, int_of_isInt h₁, int_of_isInt h₂]
  rfl

theorem volsumLoop_stop (h : ¬ sum < nparts) :
    volsumLoop nparts (passes + 1) volnos tmpvol (some i) volcnt sum = .ok (volcnt, i) := by
  simp only [volsumLoop, if_neg h, volsumEnd]

/-- The loop over the counts behind the first one: a single one finds nothing in `tmpvol`. -/
theorem volsumLoop_text (hnparts : IsInt nparts) (hds : ∀ x ∈ d :: ds, 0 < x)
    (hsum : sum + (d + ds.sum) = nparts) (hvol : 0 ≤ volcnt) (hle : volcnt ≤ sum)
    (hpass : ds.length + 1 < passes) (tmpvol : Option Str) (index : Option Int) :
    volsumLoop nparts passes (some (countsText (d :: ds)).tail) tmpvol index volcnt sum =
      if ds = [] ∧ tmpvol = none then .error .undefined
      else .ok (volcnt + (ds.length + 1 : Nat), (d :: ds).getLast (List.cons_ne_nil d ds)) := by
  induction ds generalizing d passes tmpvol index volcnt sum with
  | nil =>
    obtain ⟨passes, rfl⟩ : ∃ k, passes = k + 1 + 1 := ⟨passes - 2, by simp at hpass; omega⟩
    have hd := hds d List.mem_cons_self
    obtain ⟨hlow, hhigh⟩ := hnparts
    rw [List.sum_nil] at hsum
    have hscan := scanCounts_text (c := d) ⟨by omega, by omega⟩ (List.forall_mem_nil _)
    have hlt : sum < nparts := by omega
    cases tmpvol with
    | none =>
      simp only [volsumLoop, if_pos hlt, hscan, if_true, Option.or_none, and_self]
    | some t =>
      rw [volsumLoop_pass (t := t) hlt hscan rfl ⟨by omega, by omega⟩ ⟨by omega, by omega⟩,
        volsumLoop_stop (by omega), if_neg (by simp)]
      rfl
  | cons d' ds ih =>
    obtain ⟨passes, rfl⟩ : ∃ k, passes = k + 1 := ⟨passes - 1, by omega⟩
    obtain ⟨hd, hrest⟩ := List.forall_mem_cons.mp hds
    have hd' := hrest d' List.mem_cons_self
    have hds' := length_le_sum fun x hx => hrest x (List.mem_cons_of_mem _ hx)
    obtain ⟨hlow, hhigh⟩ := hnparts
    rw [List.sum_cons] at hsum
    have hscan := scanCounts_text (c := d) ⟨by omega, by omega⟩
      fun x hx => Int.le_of_lt (hrest x hx)
    rw [if_neg (List.cons_ne_nil d' ds)] at hscan
    rw [volsumLoop_pass (by omega) hscan rfl ⟨by omega, by omega⟩ ⟨by omega, by omega⟩,
      ih hrest (by omega) (by omega) (by omega) (by simpa using hpass), if_neg (by simp),
      if_neg (by simp)]
    simp only [List.getLast_cons_cons, List.length_cons]
    congr 2
    omega

theorem dsVolsum_spread (hw : e.Written) (he : e.volnos = c :: d :: ds) (hc : 0 ≤ c)
    (hds : ∀ x ∈ d :: ds, 0 < x) (hsum : c + (d + ds.sum) = e.nparts) :
    dsVolsum v e.asRead = if ds = [] then .error .undefined
      else (int (v.volcnt + (ds.length + 1 : Nat))).map
        fun n => ⟨n, (d :: ds).getLast (List.cons_ne_nil d ds)⟩ := by
  obtain ⟨hlow, hhigh⟩ := hw.nparts
  have hlen := length_le_sum hds
  rw [List.length_cons, List.sum_cons] at hlen
  have htext : e.asRead.volnos = (countsText (c :: d :: ds)).tail := by
    rw [← he]
    rfl
  have hne : e.asRead.volnos ≠ [] := by
    rw [htext, countsText_cons]
    exact List.append_ne_nil_of_left_ne_nil (fmtD_ne_nil c) _
  have hscan := scanCounts_text (c := c) ⟨by omega, by omega⟩
    fun x hx => Int.le_of_lt (hds x hx)
  rw [if_neg (List.cons_ne_nil d ds), ← htext] at hscan
  have hpasses : ds.length + 1 < e.asRead.volnos.length + e.nparts.toNat + 1 := by omega
  have hloop := volsumLoop_text hw.nparts hds hsum (Int.le_refl 0) hc hpasses none none
  have hn : e.asRead.nparts = e.nparts := rfl
  simp only [dsVolsum, if_neg hne, hscan, hn, hloop, and_true]
  by_cases hnil : ds = []
  · simp only [if_pos hnil]
    rfl
  · simp only [if_neg hnil, Int.zero_add, bind, Except.bind]
    cases int (v.volcnt + (ds.length + 1 : Nat)) <;> rfl

theorem dsVolsum_whole (he : e.volnos = []) :
    dsVolsum v e.asRead = (int (v.volpart + e.nparts)).map fun n => ⟨v.volcnt, n⟩ := by
  have htext : e.asRead.volnos = [] := by
    rw [TocEntry.asRead, he]
    rfl
  have hn : e.asRead.nparts = e.nparts := rfl
  simp only [dsVolsum, htext, if_true, hn]
  cases int (v.volpart + e.nparts) <;> rfl

theorem dsVolsum_eq (hw : e.Written) (v : DsVols) :
    dsVolsum v e.asRead = if v.Takes e then .ok (v.behind e) else .error .undefined := by
  rcases hw.spread with he | ⟨c, d, ds, he, hc, hds, hsum⟩
  · have htakes : v.Takes e ↔ IsInt (v.volpart + e.nparts) := by
      simp [DsVols.Takes, he]
    have hbehind : v.behind e = ⟨v.volcnt, v.volpart + e.nparts⟩ := by
      simp [DsVols.behind, he]
    rw [dsVolsum_whole he, hbehind]
    by_cases hi : IsInt (v.volpart + e.nparts)
    · rw [if_pos (htakes.mpr hi), int_of_isInt hi]
      rfl
    · rw [if_neg (mt htakes.mp hi), int_of_not_isInt hi]
      rfl
  · have htakes : v.Takes e ↔ ds ≠ [] ∧ IsInt (v.volcnt + (ds.length + 1 : Nat)) := by
      simp [DsVols.Takes, he]
    have hbehind : v.behind e = ⟨v.volcnt + (ds.length + 1 : Nat),
        (d :: ds).getLast (List.cons_ne_nil d ds)⟩ := by
      simp [DsVols.behind, he, List.getLast?_eq_getLast_of_ne_nil]
    rw [dsVolsum_spread hw he hc hds hsum, hbehind]
    by_cases hnil : ds = []
    · rw [if_pos hnil, if_neg fun h => (htakes.mp h).1 hnil]
    · rw [if_neg hnil]
      by_cases hi : IsInt (v.volcnt + (ds.length + 1 : Nat))
      · rw [if_pos (htakes.mpr ⟨hnil, hi⟩), int_of_isInt hi]
        rfl
      · rw [if_neg fun h => hi (htakes.mp h).2, int_of_not_isInt hi]
        rfl

end Volumes

section Table
variable {m : Behind} {s : DsStream} {v : DsVols} {e : TocEntry} {toc : List TocEntry}

theorem TocEntry.line_oneLine (hname : OneWord e.pkg) (hnul : NulFree e.pkg) (hw : e.Written) :
    OneLine e.line := by
  have hpkg : OneLine e.pkg := ⟨fun h => absurd (hname.word _ h) (by decide), hnul⟩
  have hcounts : OneLine (countsText e.volnos) :=
    oneLine_of_forall (countsText_chars hw.volnos) (by decide) (by decide)
  rw [TocEntry.line_eq]
  apply hpkg.append
  apply oneLine_field
  apply (oneLine_fmtD _).append
  apply oneLine_field
  exact (oneLine_fmtD _).append hcounts

theorem TocEntry.head_line (hname : OneWord e.pkg) : e.line.head? = e.pkg.head? := by
  obtain ⟨c, s, hcs⟩ := List.exists_cons_of_ne_nil hname.nonempty
  rw [TocEntry.line_eq, hcs]
  rfl

theorem readToc_null (h : (dsGets m buf LSIZE s).1 = none) (passes : Nat) :
    readToc m (passes + 1) buf s v = .error .refused := by
  rcases hd : dsGets m buf LSIZE s with ⟨r, buf', s'⟩
  rw [hd] at h
  cases h
  simp only [readToc, hd]

theorem readToc_line (h : dsGets m buf LSIZE s = (some l, buf', s')) (passes : Nat) :
    readToc m (passes + 1) buf s v =
      if l = HDR_SUFFIX then .ok ([], v)
      else if l.head?.all (· == '#') then readToc m passes buf' s' v
      else scanToc l >>= fun d => dsVolsum v d >>= fun v =>
        readToc m passes buf' s' v >>= fun r => .ok (d :: r.1, r.2) := by
  simp only [readToc, h]

/-- The header from an entry on. -/
structure Follows (s : DsStream) (toc : List TocEntry) : Prop where
  bounded : s.pds ≤ s.header.length
  names : ∀ e ∈ toc, OneWord e.pkg ∧ NulFree e.pkg
  written : ∀ e ∈ toc, e.Written
  text : ∃ t, s.ahead = unlines (toc.map TocEntry.line ++ [HDR_SUFFIX]) ++ nul :: t

theorem Follows.next (h : Follows s (e :: toc)) : Follows (s.next e.line.length) toc := by
  obtain ⟨t, ht⟩ := h.text
  rw [List.map_cons, List.cons_append, unlines_cons, List.append_assoc, List.cons_append] at ht
  exact ⟨DsStream.next_bounded ht, fun d hd => h.names d (List.mem_cons_of_mem _ hd),
    fun d hd => h.written d (List.mem_cons_of_mem _ hd), t, DsStream.ahead_next ht⟩

theorem readToc_suffix (h : Follows s []) (buf : Str) (passes : Nat) :
    readToc m (passes + 1) buf s v = .ok ([], v) := by
  obtain ⟨t, ht⟩ := h.text
  have ht' : s.ahead = HDR_SUFFIX ++ '\n' :: nul :: t := ht
  rw [readToc_line (dsGets_line h.bounded ht' (by decide) (by decide) buf), if_pos rfl]

theorem readToc_entry (h : Follows s (e :: toc)) (buf : Str) (passes : Nat) :
    readToc m (passes + 1) buf s v =
      if LSIZE < e.line.length then .error .refused
      else if e.line = HDR_SUFFIX then .ok ([], v)
      else if e.pkg.head? = some '#' then
        readToc m passes (storeStr buf 0 e.line) (s.next e.line.length) v
      else if v.Takes e then
        readToc m passes (storeStr buf 0 e.line) (s.next e.line.length) (v.behind e) >>=
          fun r => .ok (e.asRead :: r.1, r.2)
      else .error .undefined := by
  obtain ⟨hname, hnul⟩ := h.names e List.mem_cons_self
  have hw := h.written e List.mem_cons_self
  have hl := TocEntry.line_oneLine hname hnul hw
  obtain ⟨t, ht⟩ := h.text
  rw [List.map_cons, List.cons_append, unlines_cons, List.append_assoc, List.cons_append] at ht
  by_cases hlen : LSIZE < e.line.length
  · rw [if_pos hlen, readToc_null (dsGets_long h.bounded ht hl hlen buf)]
  · rw [if_neg hlen, readToc_line (dsGets_line h.bounded ht hl (Nat.not_lt.mp hlen) buf),
      TocEntry.head_line hname, scanToc_line hname hw (Nat.not_lt.mp hlen)]
    obtain ⟨c, w, hcw⟩ := List.exists_cons_of_ne_nil hname.nonempty
    simp only [hcw, List.head?_cons, Option.all_some, beq_iff_eq, Option.some.injEq, bind,
      Except.bind, dsVolsum_eq hw]
    by_cases htakes : v.Takes e
    · simp only [if_pos htakes]
    · simp only [if_neg htakes]

theorem readToc_length (h : Follows s toc) (hr : readToc m passes buf s v = .ok (r, w)) :
    r.length ≤ toc.length := by
  induction toc generalizing s passes buf v r w with
  | nil =>
    cases passes with
    | zero => cases hr
    | succ passes =>
      rw [readToc_suffix h] at hr
      cases hr
      exact Nat.le_refl _
  | cons e toc ih =>
    cases passes with
    | zero => cases hr
    | succ passes =>
      rw [readToc_entry h] at hr
      split at hr
      · cases hr
      · split at hr
        · cases hr
          exact Nat.zero_le _
        · split at hr
          · exact Nat.le_succ_of_le (ih h.next hr)
          · split at hr
            · obtain ⟨rest, hrest, hr⟩ := bind_eq_ok_iff.mp hr
              cases hr
              exact Nat.succ_le_succ (ih h.next hrest)
            · cases hr

/-- The table of contents is that of the entries exactly when no line is a comment or too long, and
the totals can be kept. -/
theorem readToc_iff (h : Follows s toc) (hpass : toc.length < passes) (buf : Str) (v : DsVols) :
    readToc m passes buf s v = .ok (toc.map TocEntry.asRead, toc.foldl DsVols.behind v) ↔
      (∀ e ∈ toc, e.pkg.head? ≠ some '#' ∧ e.line.length ≤ LSIZE) ∧ v.TakesAll toc := by
  induction toc generalizing s passes buf v with
  | nil =>
    obtain ⟨passes, rfl⟩ : ∃ k, passes = k + 1 := ⟨passes - 1, by omega⟩
    rw [readToc_suffix h]
    exact ⟨fun _ => ⟨List.forall_mem_nil _, trivial⟩, fun _ => rfl⟩
  | cons e toc ih =>
    obtain ⟨passes, rfl⟩ : ∃ k, passes = k + 1 := ⟨passes - 1, by omega⟩
    have hname := (h.names e List.mem_cons_self).1
    rw [readToc_entry h, List.forall_mem_cons, List.map_cons, List.foldl_cons, DsVols.TakesAll]
    by_cases hlen : LSIZE < e.line.length
    · rw [if_pos hlen]
      constructor
      · intro hr
        cases hr
      · intro hc
        exact absurd hc.1.1.2 (Nat.not_le.mpr hlen)
    · rw [if_neg hlen]
      by_cases hhash : e.pkg.head? = some '#'
      · -- a comment line is passed over, and an entry is missing
        constructor
        · intro hr
          split at hr
          · cases hr
          · have hl := readToc_length h.next hr
            rw [List.length_cons, List.length_map] at hl
            omega
        · intro hc
          exact absurd hhash hc.1.1.1
      · have hsuffix : e.line ≠ HDR_SUFFIX := by
          intro he
          have hhead := TocEntry.head_line hname
          rw [he] at hhead
          exact hhash hhead.symm
        rw [List.length_cons] at hpass
        have hrest := ih h.next (Nat.lt_of_succ_lt_succ hpass) (storeStr buf 0 e.line) (v.behind e)
        rw [if_neg hsuffix, if_neg hhash]
        by_cases htakes : v.Takes e
        · rw [if_pos htakes]
          constructor
          · intro hr
            obtain ⟨rest, hread, hr⟩ := bind_eq_ok_iff.mp hr
            simp only [Except.ok.injEq, Prod.mk.injEq, List.cons.injEq, true_and] at hr
            rw [hread] at hrest
            obtain ⟨hlines, hall⟩ := hrest.mp (congrArg _ (Prod.ext hr.1 hr.2))
            exact ⟨⟨⟨hhash, Nat.not_lt.mp hlen⟩, hlines⟩, htakes, hall⟩
          · rintro ⟨⟨-, hlines⟩, -, hall⟩
            rw [hrest.mpr ⟨hlines, hall⟩]
            rfl
        · rw [if_neg htakes]
          constructor
          · intro hr
            cases hr
          · intro hc
            exact absurd hc.2.1 htakes

theorem readToc_names (h : readToc m passes buf s v = .ok (r, w)) :
    ∀ d ∈ r, (∀ c ∈ d.pkg, isspace c = false) ∧ d.pkg.length < NON_ABI_NAMELNGTH := by
  induction passes generalizing s buf v r w with
  | zero => cases h
  | succ passes ih =>
    rcases hd : dsGets m buf LSIZE s with ⟨l, buf', s'⟩
    cases l with
    | none =>
      rw [readToc_null (by rw [hd])] at h
      cases h
    | some l =>
      rw [readToc_line hd] at h
      split at h
      · cases h
        exact List.forall_mem_nil _
      · split at h
        · exact ih h
        · obtain ⟨d, hscan, h⟩ := bind_eq_ok_iff.mp h
          obtain ⟨v', -, h⟩ := bind_eq_ok_iff.mp h
          obtain ⟨rest, hrest, h⟩ := bind_eq_ok_iff.mp h
          cases h
          exact List.forall_mem_cons.mpr ⟨scanToc_name hscan, ih hrest⟩

end Table

section RoundTrip
variable {capacity : Int} {ps : List SrcPkg} {g : GenState} {m : Behind} {s : DsStream}
  {toc : List TocEntry}

structure HeaderFits (e : TocEntry) : Prop where
  word : ∀ c ∈ e.pkg, isspace c = false
  short : e.pkg.length < NON_ABI_NAMELNGTH
  uncommented : e.pkg.head? ≠ some '#'
  line : e.line.length ≤ LSIZE

instance (e : TocEntry) : Decidable (HeaderFits e) :=
  decidable_of_iff ((∀ c ∈ e.pkg, isspace c = false) ∧ e.pkg.length < NON_ABI_NAMELNGTH ∧
      e.pkg.head? ≠ some '#' ∧ e.line.length ≤ LSIZE)
    ⟨fun h => ⟨h.1, h.2.1, h.2.2.1, h.2.2.2⟩, fun h => ⟨h.1, h.2, h.3, h.4⟩⟩

theorem dsInitToc_ok_iff (hr : r ≠ []) :
    dsInitToc m buf volpart s = .ok (r, v) ↔
      readToc m (s.header.length + 1) buf s ⟨1, volpart⟩ = .ok (r, v) := by
  rw [dsInitToc]
  cases readToc m (s.header.length + 1) buf s ⟨1, volpart⟩ with
  | error x => exact Iff.rfl
  | ok p =>
    obtain ⟨r', v'⟩ := p
    cases r' with
    | nil =>
      constructor
      · intro h
        cases h
      · intro h
        cases h
        exact absurd rfl hr
    | cons d ds => exact Iff.rfl

theorem readToc_starts (hp : s.pds ≤ s.header.length)
    (ha : s.ahead = HDR_PREFIX ++ '\n' :: t) (buf : Str) (passes : Nat) :
    readToc m (passes + 1) buf s v =
      readToc m passes (storeStr buf 0 HDR_PREFIX) (s.next HDR_PREFIX.length) v := by
  rw [readToc_line (dsGets_line hp ha (by decide) (by decide) buf), if_neg (by decide),
    if_pos (by decide)]

/-- The loop over a header whose names are words. -/
theorem readToc_header_iff (hwords : ∀ e ∈ toc, OneWord e.pkg ∧ NulFree e.pkg)
    (hwritten : ∀ e ∈ toc, e.Written)
    (hbytes : bytes = unlines (HDR_PREFIX :: (toc.map TocEntry.line ++ [HDR_SUFFIX])) ++
      nul :: List.replicate k nul) (buf : Str) (v : DsVols) :
    readToc m (bytes.length + 1) buf ⟨bytes, 0, []⟩ v =
        .ok (toc.map TocEntry.asRead, toc.foldl DsVols.behind v) ↔
      (∀ e ∈ toc, e.pkg.head? ≠ some '#' ∧ e.line.length ≤ LSIZE) ∧ v.TakesAll toc := by
  have hlines := length_le_unlines (HDR_PREFIX :: (toc.map TocEntry.line ++ [HDR_SUFFIX]))
  have hlen := congrArg List.length hbytes
  simp only [List.length_append, List.length_cons, List.length_map, List.length_nil] at hlines hlen
  have ha : (DsStream.mk bytes 0 []).ahead = HDR_PREFIX ++ '\n' ::
      (unlines (toc.map TocEntry.line ++ [HDR_SUFFIX]) ++ nul :: List.replicate k nul) := by
    rw [unlines_cons, List.append_assoc, List.cons_append] at hbytes
    exact hbytes
  rw [readToc_starts (Nat.zero_le _) ha]
  apply readToc_iff _ (by omega)
  exact ⟨DsStream.next_bounded ha, hwords, hwritten, _, DsStream.ahead_next ha⟩

/-- For packages whose names pass `pkgnmchk`, the table of contents that `ds_init` builds from the
header of `genheader` is what was written exactly when every name is one word of less than 32
characters that does not start a comment, every line fits the line buffer, no package is split over
exactly two volumes, and the number of volumes and the parts of packages that are not split add up
to `int` values. -/
theorem dsInit_reads_genheader_iff (hcap : 0 ≤ capacity) (h : genheader capacity ps = .ok g)
    (hne : ps ≠ []) (hnul : ∀ p ∈ ps, NulFree p.name)
    (hnames : ∀ p ∈ ps, pkgnmchk abi p.name spec presvr4flg = 0) (buf : Str) (volpart : Int) :
    g.toc.map (fun e => (e.pkg, e.nparts, e.maxsiz)) =
        ps.map (fun p => (p.name, p.sizes.1, p.sizes.2)) ∧
      (dsInitToc m buf volpart ⟨g.hdrbuf.bytes, 0, []⟩ =
          .ok (g.toc.map TocEntry.asRead, g.toc.foldl DsVols.behind ⟨1, volpart⟩) ↔
        (∀ e ∈ tocFor capacity (countedBlocks ps) ps, HeaderFits e) ∧
          DsVols.TakesAll ⟨1, volpart⟩ (tocFor capacity (countedBlocks ps) ps)) := by
  obtain ⟨htoc, hwritten, k, hbytes⟩ := genheader_ok hcap h
  have hpkgs := tocFor_packages capacity (countedBlocks ps) ps
  rw [← htoc] at hpkgs ⊢
  refine ⟨hpkgs, ?_⟩
  have hof : ∀ e ∈ g.toc, e.pkg ≠ [] ∧ NulFree e.pkg := by
    intro e he
    have hm : (e.pkg, e.nparts, e.maxsiz) ∈ ps.map (fun p => (p.name, p.sizes.1, p.sizes.2)) :=
      hpkgs ▸ List.mem_map_of_mem he
    obtain ⟨p, hp, heq⟩ := List.mem_map.mp hm
    have hpkg : p.name = e.pkg := congrArg Prod.fst heq
    rw [← hpkg]
    exact ⟨pkgnmchk_nonempty (hnames p hp), hnul p hp⟩
  have hne' : g.toc.map TocEntry.asRead ≠ [] := by
    intro he
    rw [List.map_eq_nil_iff.mp he, List.map_nil] at hpkgs
    exact hne (List.map_eq_nil_iff.mp hpkgs.symm)
  rw [dsInitToc_ok_iff hne']
  constructor
  · intro hr
    have hread : ∀ e ∈ g.toc, (∀ c ∈ e.pkg, isspace c = false) ∧
        e.pkg.length < NON_ABI_NAMELNGTH :=
      fun e he => readToc_names hr _ (List.mem_map_of_mem he)
    have hwords : ∀ e ∈ g.toc, OneWord e.pkg ∧ NulFree e.pkg :=
      fun e he => ⟨⟨(hof e he).1, (hread e he).1, (hread e he).2⟩, (hof e he).2⟩
    obtain ⟨hlines, hall⟩ := (readToc_header_iff hwords hwritten hbytes buf _).mp hr
    refine ⟨?_, hall⟩
    intro e he
    obtain ⟨hhash, hlen⟩ := hlines e he
    exact ⟨(hread e he).1, (hread e he).2, hhash, hlen⟩
  · rintro ⟨hfits, hall⟩
    have hwords : ∀ e ∈ g.toc, OneWord e.pkg ∧ NulFree e.pkg :=
      fun e he => ⟨⟨(hof e he).1, (hfits e he).word, (hfits e he).short⟩, (hof e he).2⟩
    apply (readToc_header_iff hwords hwritten hbytes buf _).mpr
    refine ⟨?_, hall⟩
    intro e he
    exact ⟨(hfits e he).uncommented, (hfits e he).line⟩

end RoundTrip

def splitPkgs : List SrcPkg := [samplePkg "SUNWa" ": 5 5", samplePkg "SUNWb" ": 1 5"]

theorem dsInit_reads_genheader_split :
    ∃ g, genheader 10 splitPkgs = .ok g ∧
      dsInitToc calm [] 0 ⟨g.hdrbuf.bytes, 0, []⟩ = .ok (g.toc.map TocEntry.asRead, ⟨3, 3⟩) := by
  have hrun : (genheader 10 splitPkgs).toOption.any fun g =>
      decide (g.toc.foldl DsVols.behind ⟨1, 0⟩ = ⟨3, 3⟩) := by decide
  obtain ⟨g, hg, hvols⟩ := exists_of_toOption_any hrun
  have hnames : ∀ p ∈ splitPkgs, pkgnmchk false p.name none false = 0 := by decide
  refine ⟨g, hg, ?_⟩
  rw [← of_decide_eq_true hvols]
  refine (dsInit_reads_genheader_iff (by decide) hg (by decide) (by decide) hnames [] 0).2.mpr ?_
  exact ⟨by decide, by decide, by decide, trivial⟩

/-- A package of 60 parts on volumes that hold one part each has a header line of 135 characters. -/
theorem dsInit_refuses_long_line :
    pkgnmchk false "SUNWcsr".toList none false = 0 ∧
      ∃ g, genheader 10 [samplePkg "SUNWcsr" ": 60 10"] = .ok g ∧
        dsInitToc calm (List.replicate 129 nul) 0 ⟨g.hdrbuf.bytes, 0, []⟩ = .error .refused := by
  refine ⟨by decide, ?_⟩
  have hrun : (genheader 10 [samplePkg "SUNWcsr" ": 60 10"]).toOption.any fun g =>
      decide (dsInitToc calm (List.replicate 129 nul) 0 ⟨g.hdrbuf.bytes, 0, []⟩ =
        .error .refused) := by
    decide +kernel
  obtain ⟨g, hg, hprop⟩ := exists_of_toOption_any hrun
  exact ⟨g, hg, of_decide_eq_true hprop⟩

end Pkgtools
