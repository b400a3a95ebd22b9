import Pkgtools.VolumePacking

namespace Pkgtools
open CLib
set_option autoImplicit true

def LSIZE : Nat := 128

def NON_ABI_NAMELNGTH : Nat := 32

def ABI_NAMELNGTH : Nat := 9

def NMBRK : Str := ".*".toList

/-- `strpbrk (s, "-+")`. -/
def hasSign (s : Str) : Bool := s.any fun c => c == '-' || c == '+'

/-- The check of the characters of a name: a character is let through when a sign follows it
anywhere in the rest of the name. -/
def nameChars : Str → Bool
  | [] => true
  | c :: s => (c.isAlphanum || hasSign (c :: s)) && nameChars s

/-- The same up to the first break; the signs may stand behind it. -/
def baseChars : Str → Bool
  | [] => true
  | c :: s => NMBRK.contains c || ((c.isAlphanum || hasSign (c :: s)) && baseChars s)

/-- `valname`. The flag `abi` is what `get_ABI_namelngth` returns. -/
def valname (abi : Bool) (pkg : Str) (wild presvr4flg : Bool) : Int :=
  let reserved := ["all".toList, "install".toList, "new".toList].any fun r =>
    r.isPrefixOf pkg && ((pkg.drop r.length).head?.all NMBRK.contains)
  let pt := pkg.dropWhile fun c => !NMBRK.contains c
  let count := (pkg.takeWhile fun c => !NMBRK.contains c).length
  let wildcard := pt == ".*".toList || pt == "*".toList
  if wild && pkg == "all".toList then 0
  else if reserved then 1
  else if presvr4flg && pt == ".name".toList then 0
  else if wildcard && !wild then 1
  else if !pt.isEmpty && !wildcard &&
      (!nameChars pt.tail || pt.tail.isEmpty || pt.tail.length > 4) then -1
  else if !(pkg.head?.any Char.isAlphanum) || (!presvr4flg && !(pkg.head?.any Char.isAlpha)) then -1
  else if !baseChars pkg then -1
  else if count > (if abi then ABI_NAMELNGTH else NON_ABI_NAMELNGTH) then -1
  else 0

def isWild (spec : Str) : Bool :=
  spec == ".*".toList || spec == "*".toList || spec == ".name".toList

def tailMatches (pkg spec : Str) : Bool :=
  (isWild spec && pkg.head?.all (· == '.')) || (spec.isEmpty && pkg == ".name".toList)

def specMatches : Str → Str → Bool
  | [], [] => true
  | c :: pkg, d :: spec =>
    if c = d ∧ isWild (d :: spec) = false then specMatches pkg spec
    else tailMatches (c :: pkg) (d :: spec)
  | pkg, spec => tailMatches pkg spec

def pkgnmchk (abi : Bool) (pkg : Str) (spec : Option Str) (presvr4flg : Bool) : Int :=
  if valname abi pkg spec.isNone presvr4flg ≠ 0 then 1
  else match spec with
    | none => 0
    | some spec => if spec = "all".toList ∨ specMatches pkg spec then 0 else 1

/-- An entry of the table of contents that `ds_init` builds. -/
structure DsToc where
  pkg : Str
  nparts : Int
  maxsiz : Int
  volnos : Str
  deriving DecidableEq, Repr

/-- `sscanf (line, "%s %d %ld %[ 0-9]", ...)`. The name and the parts per volume are stored without
a limit. -/
def scanToc (line : Str) : Except Abort DsToc :=
  match scanWord line with
  | none => .error .refused
  | some (pkg, s) =>
    if pkg.length ≥ NON_ABI_NAMELNGTH then .error .undefined
    else match scanInt 32 s with
      | none => .error .refused
      | some (nparts, s) =>
        match scanInt 64 s with
        | none => .error .refused
        | some (maxsiz, s) =>
          match scanSet (fun c => c == ' ' || c.isDigit) (skipSpace s) with
          | none => .ok ⟨pkg, nparts, maxsiz, []⟩
          | some (volnos, _) =>
            if volnos.length ≥ 128 then .error .undefined else .ok ⟨pkg, nparts, maxsiz, volnos⟩

def TocEntry.line (e : TocEntry) : Str :=
  entryHead e.pkg e.nparts e.maxsiz ++ e.volnos.flatMap fun c => ' ' :: fmtD c

/-- The entry as the table of contents holds it. -/
def TocEntry.asRead (e : TocEntry) : DsToc :=
  ⟨e.pkg, e.nparts, e.maxsiz, (e.volnos.flatMap fun c => ' ' :: fmtD c).tail⟩

theorem growTo_gt (h : need < a + passes) : need < growTo need passes a := by
  induction passes generalizing a with
  | zero => exact h
  | succ passes ih =>
    rw [growTo]
    split
    · apply ih
      rw [BLK_SIZE]
      omega
    · next hlt => exact Nat.lt_of_not_le hlt

theorem catAndCount_text (b : DmBuf) (s : Str) : (catAndCount b s).text = b.text ++ s := rfl

/-- A terminator is left behind the text. -/
theorem catAndCount_room (b : DmBuf) (s : Str) :
    (catAndCount b s).text.length < (catAndCount b s).allocation := by
  rw [catAndCount_text, List.length_append]
  exact growTo_gt (by omega)

theorem writeCounts_text (b : DmBuf) (cs : List Int) :
    (writeCounts b cs).text = b.text ++ cs.flatMap fun c => ' ' :: fmtD c := by
  induction cs generalizing b with
  | nil => exact (List.append_nil _).symm
  | cons c cs ih =>
    have hcons : writeCounts b (c :: cs) = writeCounts (catAndCount b (' ' :: fmtD c)) cs := rfl
    rw [hcons, ih, catAndCount_text, List.flatMap_cons, List.append_assoc]

theorem addEntry_text (g : GenState) (capacity : Int) (p : SrcPkg) :
    (g.addEntry capacity p).hdrbuf.text = g.hdrbuf.text ++ unlines [TocEntry.line
      ⟨p.name, p.sizes.1, p.sizes.2, countsFor capacity g.totsize p.sizes.1 p.sizes.2⟩] := by
  simp only [GenState.addEntry, catAndCount_text, writeCounts_text, TocEntry.line, unlines,
    List.flatMap_cons, List.flatMap_nil, List.append_assoc, List.append_nil]

theorem foldl_addEntry_text (capacity : Int) (g : GenState) (ps : List SrcPkg) :
    (ps.foldl (fun g p => g.addEntry capacity p) g).hdrbuf.text =
      g.hdrbuf.text ++ unlines ((tocFor capacity g.totsize ps).map TocEntry.line) := by
  induction ps generalizing g with
  | nil => exact (List.append_nil _).symm
  | cons p ps ih =>
    rw [List.foldl_cons, ih, addEntry_text, GenState.addEntry_totsize, List.append_assoc,
      ← unlines_append]
    rfl

/-- The running total is an `int` and, with a capacity, does not exceed it. -/
structure Running (capacity t : Int) : Prop where
  isInt : IsInt t
  pos : capacity ≠ 0 → 0 < capacity
  le : capacity ≠ 0 → t ≤ capacity

/-- The parts of a package that is split: the first volume may take none of them, a further one
takes some. -/
def Spread (nparts : Int) (volnos : List Int) : Prop :=
  ∃ c d ds, volnos = c :: d :: ds ∧ 0 ≤ c ∧ (∀ x ∈ d :: ds, 0 < x) ∧ c + (d + ds.sum) = nparts

section Counts
variable {capacity t n s : Int}

theorem chunks_pos (hq : 0 < q) (r : Int) : ∀ c ∈ chunks q r, 0 < c := by
  intro c hc
  rcases List.mem_append.mp hc with hc | hc
  · rw [List.eq_of_mem_replicate hc]
    exact hq
  · rw [List.mem_singleton.mp hc]
    exact (lastChunk_bounds hq r).1

theorem countsFor_spread (hr : Running capacity t) (hs : capacity ≠ 0 → s ≤ capacity) :
    countsFor capacity t n s = [] ∨ Spread n (countsFor capacity t n s) := by
  rw [countsFor]
  split
  · exact .inl rfl
  · next h =>
    right
    simp only [StaysWhole, not_or] at h
    obtain ⟨⟨h₀, hgt⟩, hn⟩ := h
    have hle := hr.le h₀
    obtain ⟨-, hpos⟩ := size_pos hle (by omega) (by omega : capacity < t + n * s)
    obtain ⟨hc, hlt⟩ := parts_before hpos hle (show capacity < t + n * s by omega)
    have hq : 0 < capacity / s := Int.le_ediv_of_mul_le hpos (by have := hs h₀; omega)
    have hsum := sum_chunks hq (show 0 < n - (capacity - t) / s by omega)
    obtain ⟨d, ds, hds⟩ := List.exists_cons_of_ne_nil
      (chunks_ne_nil (capacity / s) (n - (capacity - t) / s))
    have hchunks := chunks_pos hq (n - (capacity - t) / s)
    rw [hds] at hsum hchunks
    rw [List.sum_cons] at hsum
    exact ⟨_, d, ds, by rw [volumeParts, hds], hc, hchunks, by omega⟩

end Counts

/-- The numbers of an entry are such as are read back. -/
structure TocEntry.Written (e : TocEntry) : Prop where
  nparts : IsInt e.nparts
  maxsiz : IsInt e.maxsiz
  spread : e.volnos = [] ∨ Spread e.nparts e.volnos

theorem TocEntry.Written.volnos {e : TocEntry} (h : e.Written) : ∀ c ∈ e.volnos, 0 ≤ c := by
  rcases h.spread with h | ⟨c, d, ds, h, hc, hds, -⟩
  · rw [h]
    exact List.forall_mem_nil _
  · rw [h]
    exact List.forall_mem_cons.mpr ⟨hc, fun x hx => Int.le_of_lt (hds x hx)⟩

section Accepted
variable {capacity : Int} {p : SrcPkg} {g g' : GenState}

theorem genEntry_readable (h : genEntry capacity g p = .ok g') : Readable capacity p := by
  rw [genEntry] at h
  split at h
  · cases h
  · next m hm =>
    have hsizes := SrcPkg.sizes_eq hm
    dsimp only at h
    split at h
    · cases h
    · split at h
      · cases h
      · next hfit hname =>
        refine ⟨by rw [hm]; rfl, ?_, ?_⟩
        · rw [hsizes]
          exact Nat.lt_of_not_le hname
        · intro hc
          rw [hsizes]
          exact Int.not_lt.mp fun hgt => hfit ⟨hc, hgt⟩

theorem genEntry_ok (h : genEntry capacity g p = .ok g') (hr : Running capacity g.totsize) :
    g' = g.addEntry capacity p ∧ Running capacity g'.totsize := by
  have hp := genEntry_readable h
  by_cases hi : IsInt (p.sizes.1 * p.sizes.2) ∧ IsInt (g.totsize + p.sizes.1 * p.sizes.2)
  · obtain ⟨h₁, h₂⟩ := hi
    have hadd : genEntry capacity g p = .ok (g.addEntry capacity p) := by
      by_cases hw : StaysWhole capacity g.totsize p.sizes.1 p.sizes.2
      · exact genEntry_whole hp h₁ h₂ hr.isInt hr.pos hw
      · by_cases hn : p.sizes.1 ≤ 0
        · exact genEntry_void hp h₁ h₂ hr.isInt hr.pos hw hn
        · have hc : capacity ≠ 0 := fun hc => hw (.inl hc)
          have hsplit := genEntry_split hp h₁ h₂ hr.isInt (hr.le hc) hr.pos hw (by omega)
          rw [hsplit] at h ⊢
          split at h
          · next hs => rw [if_pos hs]
          · cases h
    rw [hadd] at h
    cases h
    refine ⟨rfl, ?_⟩
    rw [GenState.addEntry_totsize, totalBehind]
    split
    · next hw =>
      refine ⟨h₂, hr.pos, fun hc => ?_⟩
      rcases hw with hw | hw
      · exact absurd hw hc
      · exact hw
    · split
      · exact hr
      · exact ⟨by decide, hr.pos, fun hc => Int.le_of_lt (hr.pos hc)⟩
  · rw [genEntry_overflow hp hi] at h
    cases h

theorem genEntries_ok (h : genEntries capacity g ps = .ok g') (hr : Running capacity g.totsize) :
    g' = ps.foldl (fun g p => g.addEntry capacity p) g ∧
      ∀ e ∈ tocFor capacity g.totsize ps, e.Written := by
  induction ps generalizing g with
  | nil =>
    cases h
    exact ⟨rfl, List.forall_mem_nil _⟩
  | cons p ps ih =>
    rw [genEntries] at h
    obtain ⟨g₁, hg, h⟩ := bind_eq_ok_iff.mp h
    obtain ⟨rfl, hr'⟩ := genEntry_ok hg hr
    obtain ⟨hfold, hrest⟩ := ih h hr'
    refine ⟨hfold, List.forall_mem_cons.mpr ⟨?_, hrest⟩⟩
    obtain ⟨h₁, h₂⟩ := p.sizes_isInt
    exact ⟨h₁, h₂, countsFor_spread hr (genEntry_readable hg).fits⟩

theorem pkginfoTotal_ok (h : pkginfoTotal (wrap 32 x) ps = .ok t) :
    t = wrap 32 (x + infoBlocks ps) := by
  induction ps generalizing x with
  | nil =>
    cases h
    rw [infoBlocks, List.map_nil, List.sum_nil, Int.add_zero]
  | cons p ps ih =>
    cases hs : p.pkginfo with
    | none =>
      simp only [pkginfoTotal, hs] at h
      cases h
    | some size =>
      have hblocks : infoBlocks (p :: ps) = ((size / BLK_SIZE + 1 : Nat) : Int) +
          infoBlocks ps := by
        simp only [infoBlocks, List.map_cons, List.sum_cons, hs, Option.getD_some]
      simp only [pkginfoTotal, hs] at h
      rw [wrap_wrap_add] at h
      rw [ih h, hblocks, Int.add_assoc]

end Accepted

/-- The header buffer in front of the packages. -/
def hdrStart : DmBuf := catAndCount (catAndCount ⟨[], BLK_SIZE⟩ HDR_PREFIX) ['\n']

/-- What `genheader` has checked when it returns a header. -/
theorem genheader_inv (hcap : 0 ≤ capacity) (h : genheader capacity ps = .ok g) :
    Running capacity (countedBlocks ps) ∧ ∃ g', genEntries capacity
        ⟨hdrStart, countedBlocks ps, 1, []⟩ ps = .ok g' ∧
      g = { g' with hdrbuf := catAndCount (catAndCount g'.hdrbuf HDR_SUFFIX) ['\n'] } := by
  rw [genheader] at h
  obtain ⟨t, ht, h⟩ := bind_eq_ok_iff.mp h
  obtain ⟨total, hint, h⟩ := bind_eq_ok_iff.mp h
  obtain ⟨hi, rfl⟩ := int_eq_ok_iff.mp hint
  have htotal : t + (ps.length / 4 + 1 : Nat) = countedBlocks ps := by
    have hsum := pkginfoTotal_ok (x := 0) ht
    rw [Int.zero_add] at hsum
    rw [hsum, countedBlocks]
  rw [htotal] at hi h
  split at h
  · cases h
  · rename_i hfit
    obtain ⟨g', hg, h⟩ := bind_eq_ok_iff.mp h
    cases h
    exact ⟨⟨hi, by omega, by omega⟩, g', hg, rfl⟩

theorem closed_bytes (htext : b.text = hdrStart.text ++ unlines ls) :
    ∃ k, (catAndCount (catAndCount b HDR_SUFFIX) ['\n']).bytes =
      unlines (HDR_PREFIX :: (ls ++ [HDR_SUFFIX])) ++ nul :: List.replicate k nul := by
  have hroom := catAndCount_room (catAndCount b HDR_SUFFIX) ['\n']
  have hall : (catAndCount (catAndCount b HDR_SUFFIX) ['\n']).text =
      unlines (HDR_PREFIX :: (ls ++ [HDR_SUFFIX])) := by
    rw [catAndCount_text, catAndCount_text, htext, unlines_cons, unlines_append, unlines_cons]
    simp [hdrStart, catAndCount_text]
  obtain ⟨k, hk⟩ : ∃ k, (catAndCount (catAndCount b HDR_SUFFIX) ['\n']).allocation -
      (catAndCount (catAndCount b HDR_SUFFIX) ['\n']).text.length = k + 1 :=
    ⟨_, (Nat.succ_pred_eq_of_pos (Nat.sub_pos_of_lt hroom)).symm⟩
  refine ⟨k, ?_⟩
  rw [DmBuf.bytes, hk, hall]
  rfl

theorem genheader_ok (hcap : 0 ≤ capacity) (h : genheader capacity ps = .ok g) :
    g.toc = tocFor capacity (countedBlocks ps) ps ∧ (∀ e ∈ g.toc, e.Written) ∧
      ∃ k, g.hdrbuf.bytes =
        unlines (HDR_PREFIX :: (g.toc.map TocEntry.line ++ [HDR_SUFFIX])) ++
          nul :: List.replicate k nul := by
  obtain ⟨hr, g', hg, rfl⟩ := genheader_inv hcap h
  obtain ⟨rfl, hwritten⟩ := genEntries_ok hg hr
  have htoc := toc_foldl_addEntry capacity ⟨hdrStart, countedBlocks ps, 1, []⟩ ps
  have htext := foldl_addEntry_text capacity ⟨hdrStart, countedBlocks ps, 1, []⟩ ps
  rw [List.nil_append] at htoc
  rw [← htoc] at htext
  exact ⟨htoc, htoc ▸ hwritten, closed_bytes htext⟩

/-- A name that the reader can take from a header line: it fits the buffer and is one word. -/
structure OneWord (name : Str) : Prop where
  nonempty : name ≠ []
  word : ∀ c ∈ name, isspace c = false
  short : name.length < NON_ABI_NAMELNGTH

section Lines
variable {e : TocEntry}

def countsText (cs : List Int) : Str := cs.flatMap fun c => ' ' :: fmtD c

theorem TocEntry.line_eq (e : TocEntry) :
    e.line = e.pkg ++ ' ' :: (fmtD e.nparts ++ ' ' :: (fmtD e.maxsiz ++ countsText e.volnos)) := by
  simp [TocEntry.line, entryHead, countsText]

theorem countsText_chars (h : ∀ c ∈ cs, 0 ≤ c) :
    ∀ x ∈ countsText cs, (x == ' ' || x.isDigit) = true := by
  intro x hx
  obtain ⟨c, hc, hx⟩ := List.mem_flatMap.mp hx
  rcases List.mem_cons.mp hx with rfl | hx
  · rfl
  · rw [fmtD_isDigit (h c hc) x hx, Bool.or_true]

theorem endsNumber_space (s : Str) : EndsNumber (' ' :: s) :=
  List.takeWhile_cons_of_neg (by decide)

theorem endsNumber_countsText (cs : List Int) : EndsNumber (countsText cs) := by
  cases cs with
  | nil => rfl
  | cons c cs => exact endsNumber_space _

theorem skipSpace_countsText (h : ∀ c ∈ cs, 0 ≤ c) :
    skipSpace (countsText cs) = (countsText cs).tail := by
  cases cs with
  | nil => rfl
  | cons c cs =>
    obtain ⟨d, ds, hd⟩ := List.exists_cons_of_ne_nil (fmtD_ne_nil c)
    have hdigit : d.isDigit := fmtD_isDigit (h c List.mem_cons_self) d (hd ▸ List.mem_cons_self)
    have hcons : countsText (c :: cs) = ' ' :: d :: (ds ++ countsText cs) := by
      rw [countsText, List.flatMap_cons, hd]
      rfl
    rw [hcons, List.tail_cons]
    exact skipSpace_cons_of_not (isspace_of_isDigit hdigit) _

/-- `%[ 0-9]` takes all the parts per volume. -/
theorem scanSet_countsText (h : ∀ c ∈ cs, 0 ≤ c) (hne : (countsText cs).tail ≠ []) :
    scanSet (fun c => c == ' ' || c.isDigit) (countsText cs).tail =
      some ((countsText cs).tail, []) := by
  have hall : ∀ x ∈ (countsText cs).tail, (x == ' ' || x.isDigit) = true :=
    fun x hx => countsText_chars h x (List.mem_of_mem_tail hx)
  rw [scanSet, List.takeWhile_eq_self_iff.mpr hall, if_neg hne, List.dropWhile_eq_nil_iff.mpr hall]

theorem scanInt_space (w : Nat) (s : Str) : scanInt w (' ' :: s) = scanInt w s := rfl

theorem scanToc_line (hname : OneWord e.pkg) (hw : e.Written) (hlen : e.line.length ≤ LSIZE) :
    scanToc e.line = .ok e.asRead := by
  have hword := scanWord_append hname.word hname.nonempty (show isspace ' ' by decide)
    (fmtD e.nparts ++ ' ' :: (fmtD e.maxsiz ++ countsText e.volnos))
  have hn := scanInt_fmtD (w := 32) (by decide) (by decide) hw.nparts.1 hw.nparts.2
    (endsNumber_space (fmtD e.maxsiz ++ countsText e.volnos))
  obtain ⟨h₁, h₂⟩ := hw.maxsiz
  have hs := scanInt_fmtD (w := 64) (x := e.maxsiz) (by decide) (by decide) (by omega) (by omega)
    (endsNumber_countsText e.volnos)
  rw [TocEntry.line_eq] at hlen
  simp only [scanToc, TocEntry.line_eq, hword, if_neg (Nat.not_le.mpr hname.short), scanInt_space,
    hn, hs, skipSpace_countsText hw.volnos]
  by_cases hne : (countsText e.volnos).tail = []
  · rw [hne, TocEntry.asRead]
    exact congrArg (fun v => Except.ok (DsToc.mk e.pkg e.nparts e.maxsiz v)) hne.symm
  · rw [scanSet_countsText hw.volnos hne]
    have hshort : (countsText e.volnos).tail.length < 128 := by
      simp only [List.length_append, List.length_cons, LSIZE] at hlen
      rw [List.length_tail]
      omega
    simp only [if_neg (Nat.not_le.mpr hshort)]
    rfl

theorem scanToc_name (h : scanToc l = .ok d) :
    (∀ c ∈ d.pkg, isspace c = false) ∧ d.pkg.length < NON_ABI_NAMELNGTH := by
  rw [scanToc] at h
  split at h
  · cases h
  · next pkg s hword =>
    split at h
    · cases h
    · next hlen =>
      have hd : d.pkg = pkg := by
        repeat' split at h
        all_goals cases h
        all_goals rfl
      rw [hd]
      exact ⟨scanWord_no_space hword, Nat.lt_of_not_le hlen⟩

end Lines

theorem pkgnmchk_nonempty (h : pkgnmchk abi name spec presvr4flg = 0) : name ≠ [] := by
  rintro rfl
  have hv : ∀ abi wild presvr4flg, valname abi [] wild presvr4flg = -1 := by decide
  have h1 : pkgnmchk abi [] spec presvr4flg = 1 := if_pos (by rw [hv]; decide)
  rw [h1] at h
  cases h

end Pkgtools
