import Pkgtools.CLib.FlaggedMerge
import Pkgtools.CLib.RecordReader
import Pkgtools.ContentsWriters
import Pkgtools.MergeRuns

namespace Pkgtools
open CLib
set_option autoImplicit true

/-- `LINESZ`. -/
def linesz : Nat := 8192

/-- The difference of the first bytes that differ; a string ends with a NUL. -/
def strcmp : Str → Str → Int
  | [], [] => 0
  | [], d :: _ => -d.toNat
  | c :: _, [] => c.toNat
  | c :: s, d :: t => if c = d then strcmp s t else c.toNat - d.toNat

/-- The path of an entry of the array, which always has one. -/
def Cfent.pathOf (e : Cfent) : Str := e.path.getD []

/-- `pathcmp`: a link in the array is compared by its path and then by what it links to. -/
def pathcmp (pc : Str) (e : Cfent) : Int :=
  match (if isLink e.ftype then e.ainfo.localPath else none) with
  | none => strcmp pc e.pathOf
  | some l =>
    if '=' ∉ pc then
      let i := strcmp pc e.pathOf
      if i = 0 then -1 else i
    else
      let p := pc.takeWhile (· != '=')
      let i := strcmp p e.pathOf
      if i = 0 then strcmp (pc.drop (p.length + 1)) l else i

/-- `get_path`: the first field of a line; there is none if it has at most one character. -/
def getPath (pcline : Str) : Option Str :=
  let pc := pcline.takeWhile (· != ' ')
  if pc.length ≤ 1 then none else some pc

/-- Files are written without a local path. -/
def Cfent.special (e : Cfent) : Cfent :=
  if e.ftype = 'f' then { e with ainfo := { e.ainfo with localPath := none } } else e

/-- `putcfile_wrapper`, undefined if it fails. -/
def putcfileWrapper (e : Cfent) (f : Stream) : Option Stream :=
  match putcfile e.special f with
  | (0, f) => f
  | _ => none

/-- The file that is written, and the count of entries put into it. -/
structure Special where
  fpo : Stream
  writes : Nat

/-- The entries of the array that are written for a line; undefined if a write fails. -/
def putSpecials : List Cfent → Special → Option Special
  | [], s => some s
  | e :: es, s => (putcfileWrapper e s.fpo).bind fun f => putSpecials es ⟨f, s.writes + 1⟩

def copyLine (line : Str) (s : Special) : Option Special :=
  (s.fpo.fputs line).map fun f => { s with fpo := f }

/-- The loop of `special_contents_add` over the lines of the contents file, and the entries that are
left after them. It is undefined if an array is read behind its end; a write that fails ends it. -/
def addLines : List Str → List (Cfent × Bool) → Special → Option (Option Special)
  | [], es, s => some (putSpecials (flagged es) s)
  | line :: lines, es, s =>
    if line.head? = some '#' then addLines lines es s
    else match getPath line with
      | none => match copyLine line s with
        | none => some none
        | some s => addLines lines es s
      | some pc => match place (pathcmp pc) es with
        | none => none
        | some (out, found, rest) => match putSpecials out s with
          | none => some none
          | some s =>
            if found then addLines lines rest s
            else match copyLine line s with
              | none => some none
              | some s => addLines lines rest s

/-- The lines that `fgets` reads; a line ends for C at a NUL. -/
def readLines : Nat → Str → List Str
  | 0, _ => []
  | n + 1, s => match fgets linesz s with
    | none => []
    | some (line, s) => line.takeWhile (· != nul) :: readLines n s

/-- The comments that are put behind the entries; whether they are written is not checked. -/
def putStamp (who ctime : Str) (f : Stream) : Stream :=
  let f := (f.fputs ("# Last modified by ".toList ++ who ++ ['\n'])).getD f
  (f.fputs ("# ".toList ++ ctime)).getD f

/-- `special_contents_add`, once the files are open and the entries are flagged: its result, and the
contents file then. There is no contents file at first, or it is read. The output is thrown away if
no entry was put into it. -/
def specialContentsAdd (contents : Option Str) (es : List (Cfent × Bool)) (fpo : Stream)
    (ctime : Str) (renames : Bool) : Option (Int × Option Str) :=
  let run := match contents with
    | none => some (putSpecials (flagged es) ⟨fpo, 0⟩)
    | some text => addLines (readLines text.length text) es ⟨fpo, 0⟩
  run.map fun
    | none => (1, contents)
    | some s =>
      if 0 < s.writes then
        if renames then (0, some (putStamp "pkginstall".toList ctime s.fpo).text) else (1, contents)
      else (0, contents)

/-- The loop of `special_contents_remove`. -/
def removeLines : List Str → List (Cfent × Bool) → Stream → Option (Option Stream)
  | [], _, f => some (some f)
  | line :: lines, es, f =>
    if line.head? = some '#' then removeLines lines es f
    else match getPath line with
      | none => match f.fputs line with
        | none => some none
        | some f => removeLines lines es f
      | some pc => match place (pathcmp pc) es with
        | none => none
        | some (_, found, rest) =>
          if found then removeLines lines rest f
          else match f.fputs line with
            | none => some none
            | some f => removeLines lines rest f

/-- `special_contents_remove`, once the files are open and the entries are flagged. -/
def specialContentsRemove (text : Str) (es : List (Cfent × Bool)) (fpo : Stream) (ctime : Str)
    (renames : Bool) : Option (Int × Str) :=
  (removeLines (readLines text.length text) es fpo).map fun
    | none => (1, text)
    | some f =>
      if renames then (0, (putStamp "pkgremove".toList ctime f).text) else (1, text)

section Strcmp
variable {s t : Str}

theorem strcmp_eq_zero (hs : NulFree s) (ht : NulFree t) : strcmp s t = 0 ↔ s = t := by
  induction s generalizing t with
  | nil =>
    cases t with
    | nil => exact iff_of_true rfl rfl
    | cons d t =>
      have := toNat_pos_of_ne_nul ht.head
      exact iff_of_false (by simp only [strcmp]; omega) (by simp)
  | cons c s ih =>
    cases t with
    | nil =>
      have := toNat_pos_of_ne_nul hs.head
      exact iff_of_false (by simp only [strcmp]; omega) (by simp)
    | cons d t =>
      by_cases he : c = d
      · subst he
        simp [strcmp, ih hs.tail ht.tail]
      · have hne : c.toNat ≠ d.toNat := fun h => he (Char.toNat_inj.mp h)
        exact iff_of_false (by rw [strcmp, if_neg he]; omega) (by simp [he])

/-- A string is greater than another if it is more than any extension of it. -/
theorem strcmp_pos (hs : NulFree s) (h : t < s) (u : Str) : 0 < strcmp (s ++ u) t := by
  induction s generalizing t with
  | nil => exact absurd h (List.not_lt_nil t)
  | cons c s ih =>
    have hc := toNat_pos_of_ne_nul hs.head
    cases t with
    | nil =>
      simp only [List.cons_append, strcmp]
      omega
    | cons d t =>
      simp only [List.cons_append, strcmp]
      rcases List.cons_lt_cons_iff.mp h with hlt | ⟨rfl, hlt⟩
      · rw [if_neg (ne_of_gt hlt)]
        have := (toNat_lt_iff d c).mpr hlt
        omega
      · rw [if_pos rfl]
        exact ih hs.tail hlt

end Strcmp

/-- A line of the contents file: a path, and behind it a blank, or what a link links to. -/
structure ContentsLine (l : Str) : Prop where
  entry : IsEntry l
  blank : ∃ T, l = linePath l ++ ' ' :: T ∨ l = linePath l ++ '=' :: T
  short : l.length + 1 < linesz

structure ContentsComment (c : Str) : Prop where
  oneLine : OneLine c
  head : c.head? = some '#'
  short : c.length + 1 < linesz

/-- The line that is written for an entry of the array, less its newline. -/
def specialLine (e : Cfent) : Str := (entryBytes e.special).dropLast

/-- An entry of the array: an object with a path, that is written as one line. -/
structure SpecialEntry (e : Cfent) : Prop where
  object : e.ftype ≠ 'i'
  named : e.path = some e.pathOf
  path : IsPath e.pathOf
  oneLine : OneLine (specialLine e)

section Lines
variable {l c : Str} {e : Cfent}

theorem takeLine_unlines (hl : OneLine l) (hk : l.length + 1 ≤ k) (t : Str) :
    takeLine k (l ++ '\n' :: t) = (l ++ ['\n'], t) := by
  induction l generalizing k with
  | nil =>
    obtain ⟨k, rfl⟩ := Nat.exists_eq_succ_of_ne_zero
      (Nat.ne_of_gt (Nat.lt_of_lt_of_le (by simp) hk))
    simp [takeLine]
  | cons c l ih =>
    obtain ⟨k, rfl⟩ := Nat.exists_eq_succ_of_ne_zero
      (Nat.ne_of_gt (Nat.lt_of_lt_of_le (by simp) hk))
    have hc : c ≠ '\n' := fun h => hl.1 (by rw [h]; exact List.mem_cons_self)
    have htail := ih (hl.sublist (List.sublist_cons_self c l)) (by simpa using hk)
    rw [List.cons_append, takeLine, if_neg hc, htail]
    rfl

/-- `fgets` reads lines that fit its buffer one by one. -/
theorem readLines_unlines (h : ∀ l ∈ ls, OneLine l ∧ l.length + 1 < linesz)
    (hn : (unlines ls).length ≤ n) : readLines n (unlines ls) = ls.map (· ++ ['\n']) := by
  induction ls generalizing n with
  | nil =>
    cases n with
    | zero => rfl
    | succ n => rfl
  | cons l ls ih =>
    obtain ⟨hl, hshort⟩ := h l List.mem_cons_self
    rw [unlines_cons, List.length_append, List.length_cons] at hn
    obtain ⟨n, rfl⟩ := Nat.exists_eq_succ_of_ne_zero (n := n) (by omega)
    have hget : fgets linesz (unlines (l :: ls)) = some (l ++ ['\n'], unlines ls) := by
      rw [fgets, unlines_cons, if_neg (by simp), takeLine_unlines hl (by omega)]
    have hcut : (l ++ ['\n']).takeWhile (· != nul) = l ++ ['\n'] := by
      apply List.takeWhile_eq_self_iff.mpr
      intro x hx
      rcases List.mem_append.mp hx with hx | hx
      · rw [bne_iff_ne]
        rintro rfl
        exact hl.2 hx
      · rw [List.mem_singleton.mp hx]
        decide
    simp only [readLines, hget, hcut, List.map_cons]
    rw [ih (fun m hm => h m (List.mem_cons_of_mem _ hm)) (by omega)]

theorem getPath_cases (h : ContentsLine l) :
    (getPath (l ++ ['\n']) = none ∧ linePath l = ['/']) ∨
    getPath (l ++ ['\n']) = some (linePath l) ∨
    ∃ u, getPath (l ++ ['\n']) = some (linePath l ++ '=' :: u) := by
  have hpath : ∀ c ∈ linePath l, (c != ' ') = true ∧ (c != '=') = true := by
    intro c hc
    have hsep := List.mem_takeWhile_imp hc
    constructor <;> (rw [bne_iff_ne]; rintro rfl; exact absurd hsep (by decide))
  have hhead : (linePath l).head? = some '/' := by
    obtain ⟨M, hM⟩ : ∃ M, l = '/' :: M := by
      cases hl : l with
      | nil => rw [hl] at h; cases h.entry.head
      | cons c M => rw [hl] at h; exact ⟨M, by rw [Option.some.inj h.entry.head]⟩
    rw [hM]
    rfl
  obtain ⟨T, hl | hl⟩ := h.blank
  · have hfield : (l ++ ['\n']).takeWhile (· != ' ') = linePath l := by
      conv_lhs => rw [hl, List.append_assoc, List.cons_append]
      exact takeWhile_append_cons (fun c hc => (hpath c hc).1) (by decide) _
    simp only [getPath, hfield]
    split
    · rename_i hlen
      refine .inl ⟨rfl, ?_⟩
      cases hp : linePath l with
      | nil => rw [hp] at hhead; cases hhead
      | cons c M =>
        rw [hp] at hhead hlen
        obtain rfl : c = '/' := Option.some.inj hhead
        rw [List.length_eq_zero_iff.mp (by simpa using hlen : M.length = 0)]
    · exact .inr (.inl rfl)
  · have hfield : (l ++ ['\n']).takeWhile (· != ' ') =
        linePath l ++ '=' :: (T ++ ['\n']).takeWhile (· != ' ') := by
      conv_lhs => rw [hl, List.append_assoc, List.cons_append]
      rw [List.takeWhile_append_of_pos fun c hc => (hpath c hc).1]
      rfl
    have hpos : 0 < (linePath l).length := by
      rw [List.length_pos_iff]
      intro hnil
      rw [hnil] at hhead
      cases hhead
    refine .inr (.inr ⟨(T ++ ['\n']).takeWhile (· != ' '), ?_⟩)
    simp only [getPath, hfield]
    rw [if_neg]
    rw [List.length_append, List.length_cons]
    omega

def lineCmp (l : Str) : Option (Cfent → Int) := (getPath (l ++ ['\n'])).map pathcmp

/-- A first field agrees with an entry only if its path does, and is greater than entries with
lesser paths. -/
theorem pathcmp_path (hpc : NulFree pc) (hp : '=' ∉ p) (hfield : pc = p ∨ ∃ u, pc = p ++ '=' :: u)
    (he : IsPath e.pathOf) :
    (pathcmp pc e = 0 → p = e.pathOf) ∧ (e.pathOf < p → 0 < pathcmp pc e) := by
  have hnul : NulFree e.pathOf := fun hm => absurd (he.chars _ hm) (by decide)
  have heq : '=' ∉ e.pathOf := fun hm => absurd (he.chars _ hm) (by decide)
  have hpnul : NulFree p := by
    rcases hfield with rfl | ⟨u, rfl⟩
    · exact hpc
    · exact hpc.sublist (List.sublist_append_left _ _)
  have hgreater : e.pathOf < p → 0 < strcmp pc e.pathOf := by
    intro hlt
    rcases hfield with rfl | ⟨u, rfl⟩
    · simpa using strcmp_pos hpc hlt []
    · exact strcmp_pos hpnul hlt _
  have hcut : ∀ u, (p ++ '=' :: u).takeWhile (· != '=') = p := fun u => by
    refine takeWhile_append_cons (fun c hc => ?_) (by decide) u
    rw [bne_iff_ne]
    rintro rfl
    exact hp hc
  rw [pathcmp]
  split
  · refine ⟨fun hz => ?_, hgreater⟩
    have hsame := (strcmp_eq_zero hpc hnul).mp hz
    rcases hfield with rfl | ⟨u, rfl⟩
    · exact hsame
    · exact absurd (by rw [← hsame]; simp) heq
  · rcases hfield with rfl | ⟨u, rfl⟩
    · rw [if_pos hp]
      refine ⟨fun hz => ?_, fun hlt => ?_⟩
      · simp only at hz
        split at hz
        · cases hz
        · contradiction
      · have := hgreater hlt
        simp only
        rw [if_neg (by omega)]
        exact this
    · rw [if_neg (by simp), hcut]
      simp only
      refine ⟨fun hz => ?_, fun hlt => ?_⟩
      · split at hz
        · rename_i hzero
          exact (strcmp_eq_zero hpnul hnul).mp hzero
        · contradiction
      · have hpos : 0 < strcmp p e.pathOf := by simpa using strcmp_pos hpnul hlt []
        rw [if_neg (by omega)]
        exact hpos

/-- The comparisons of the lines of a contents file with the entries of an array. -/
theorem lineCmp_keyOrder (hls : ∀ l ∈ ls, ContentsLine l) (hF : ∀ e ∈ F, IsPath e.pathOf) :
    KeyOrder lineCmp linePath Cfent.pathOf ls F := by
  have hboth : ∀ l ∈ ls, ∀ e ∈ F, ∀ k, lineCmp l = some k →
      (k e = 0 → linePath l = e.pathOf) ∧ (e.pathOf < linePath l → 0 < k e) := by
    intro l hl e he k hk
    obtain ⟨pc, hpc, rfl⟩ := Option.map_eq_some_iff.mp hk
    have hsep : '=' ∉ linePath l := fun hm => absurd (List.mem_takeWhile_imp hm) (by decide)
    have hnul : NulFree pc := by
      rw [getPath] at hpc
      split at hpc
      · cases hpc
      · obtain rfl := Option.some.inj hpc
        intro hm
        have hmem := (List.takeWhile_sublist _).mem hm
        rcases List.mem_append.mp hmem with hmem | hmem
        · exact (hls l hl).entry.oneLine.2 hmem
        · exact absurd (List.mem_singleton.mp hmem) (by decide)
    have hfield : pc = linePath l ∨ ∃ u, pc = linePath l ++ '=' :: u := by
      rcases getPath_cases (hls l hl) with ⟨hn, -⟩ | hs | ⟨u, hs⟩
      · rw [hn] at hpc
        cases hpc
      · exact .inl (Option.some.inj (hpc.symm.trans hs))
      · exact .inr ⟨u, Option.some.inj (hpc.symm.trans hs)⟩
    exact pathcmp_path hnul hsep hfield (hF e he)
  refine ⟨fun l hl e he k hk => (hboth l hl e he k hk).1,
    fun l hl e he k hk => (hboth l hl e he k hk).2, fun l hl e he hk => ?_⟩
  rcases getPath_cases (hls l hl) with ⟨-, hroot⟩ | hs | ⟨u, hs⟩
  · -- the root is before all other paths
    rw [hroot]
    have habs := (hF e he).absolute
    cases hp : e.pathOf with
    | nil => rw [hp] at habs; cases habs
    | cons c M =>
      rw [hp] at habs
      obtain rfl : c = '/' := Option.some.inj habs
      refine not_lt.mp fun hlt => ?_
      rcases List.cons_lt_cons_iff.mp hlt with h | ⟨-, h⟩
      · exact lt_irrefl _ h
      · exact List.not_lt_nil _ h
  · rw [lineCmp, hs] at hk
    cases hk
  · rw [lineCmp, hs] at hk
    cases hk

theorem special_ftype (e : Cfent) : e.special.ftype = e.ftype := by
  rw [Cfent.special]
  split <;> rfl

theorem special_path (e : Cfent) : e.special.path = e.path := by
  rw [Cfent.special]
  split <;> rfl

def linePuts (e : Cfent) (path : Str) : List Put :=
  Put.string path :: localPuts e ++
    (if e.volno ≠ 0 then [Put.char ' ', Put.format (fmtD e.volno)] else []) ++
    [Put.char ' ', Put.char e.ftype, Put.char ' ', Put.string e.pkgClass] ++ devicesPuts e ++
    attrsPuts e ++ contentsPuts e ++ e.pinfo.flatMap pinfoPuts

theorem putText_entryPuts (e : Cfent) (path : Str) :
    putText (entryPuts e path) = putText (linePuts e path) ++ ['\n'] := by
  have hputs : entryPuts e path = linePuts e path ++ [.char '\n'] := rfl
  rw [hputs, putText_append, putText_cons, putText_nil, Put.item, List.append_nil]

theorem SpecialEntry.bytes (h : SpecialEntry e) :
    entryBytes e.special = putText (linePuts e.special e.pathOf) ++ ['\n'] := by
  have hi : e.special.ftype ≠ 'i' := by
    rw [special_ftype]
    exact h.object
  have hp : e.special.path = some e.pathOf := (special_path e).trans h.named
  rw [entryBytes, if_neg hi, hp, Option.elim_some, putText_entryPuts]

theorem SpecialEntry.line (h : SpecialEntry e) :
    specialLine e = putText (linePuts e.special e.pathOf) := by
  rw [specialLine, h.bytes, List.dropLast_concat]

theorem SpecialEntry.split (h : SpecialEntry e) :
    ∃ c T, specialLine e = e.pathOf ++ c :: T ∧ isPkgPathSep c = true := by
  rw [h.line, linePuts]
  simp only [List.append_assoc, List.cons_append, putText_cons, Put.item]
  cases hl : e.special.ainfo.localPath with
  | some l =>
    simp only [localPuts, hl, List.cons_append, putText_cons, Put.item]
    exact ⟨'=', _, rfl, by decide⟩
  | none =>
    simp only [localPuts, hl, List.nil_append]
    by_cases hv : e.special.volno ≠ 0
    · simp only [if_pos hv, List.cons_append, putText_cons, Put.item]
      exact ⟨' ', _, rfl, by decide⟩
    · simp only [if_neg hv, List.nil_append, putText_cons, Put.item]
      exact ⟨' ', _, rfl, by decide⟩

theorem SpecialEntry.linePath (h : SpecialEntry e) : linePath (specialLine e) = e.pathOf := by
  obtain ⟨c, T, hsplit, hc⟩ := h.split
  rw [hsplit]
  refine takeWhile_append_cons (fun d hd => ?_) (by rw [hc]; rfl) T
  rw [h.path.chars d hd]
  rfl

theorem SpecialEntry.isEntry (h : SpecialEntry e) : IsEntry (specialLine e) := by
  obtain ⟨c, T, hsplit, -⟩ := h.split
  refine ⟨h.oneLine, ?_, ?_⟩
  · rw [hsplit, List.head?_append, h.path.absolute]
    rfl
  · rw [h.linePath, hsplit]
    intro heq
    have := congrArg List.length heq
    simp at this

theorem putcfileWrapper_writes (h : SpecialEntry e) (hf : f.Sound) :
    Writes f (putcfileWrapper e f) (specialLine e ++ ['\n']) := by
  have hi : e.special.ftype ≠ 'i' := by
    rw [special_ftype]
    exact h.object
  have hp : e.special.path = some e.pathOf := (special_path e).trans h.named
  obtain ⟨f', hw, hf', htext⟩ := fileEntry_writes (e := e.special) hf e.pathOf
  refine ⟨f', ?_, hf', ?_⟩
  · rw [putcfileWrapper, putcfile, if_neg hi]
    simp only [hp, hw]
  · rw [htext, h.line, putText_entryPuts]

theorem putSpecials_writes {s : Special} (h : ∀ e ∈ F, SpecialEntry e) (hs : s.fpo.Sound) :
    ∃ s', putSpecials F s = some s' ∧ s'.fpo.Sound ∧
      s'.fpo.text = s.fpo.text ++ unlines (F.map specialLine) ∧
      s'.writes = s.writes + F.length := by
  induction F generalizing s with
  | nil => exact ⟨s, rfl, hs, by simp [unlines], rfl⟩
  | cons e F ih =>
    obtain ⟨f, hw, hf, htext⟩ := putcfileWrapper_writes (h e List.mem_cons_self) hs
    obtain ⟨s', hput, hs', htext', hwrites⟩ :=
      ih (s := ⟨f, s.writes + 1⟩) (fun x hx => h x (List.mem_cons_of_mem _ hx)) hf
    refine ⟨s', by rw [putSpecials, hw]; exact hput, hs', ?_, ?_⟩
    · rw [htext', List.map_cons, unlines_cons, htext]
      simp
    · rw [hwrites, List.length_cons]
      simp only
      omega

theorem copyLine_writes {s : Special} (hs : s.fpo.Sound) (line : Str) :
    ∃ s', copyLine line s = some s' ∧ s'.fpo.Sound ∧ s'.fpo.text = s.fpo.text ++ line ∧
      s'.writes = s.writes := by
  obtain ⟨f, hw, hf, htext⟩ := Stream.fputs_writes hs line
  exact ⟨{ s with fpo := f }, by rw [copyLine, hw]; rfl, hf, htext, rfl⟩

end Lines

section Loops
variable {ls cs : List Str} {es : List (Cfent × Bool)}

/-- A line of the output: one that is kept, or that of an entry. -/
def outLine : Str ⊕ Cfent → Str := Sum.elim id specialLine

theorem unlines_outLine_append (out : List Cfent) (o : List (Str ⊕ Cfent)) :
    unlines ((out.map Sum.inr ++ o).map outLine) =
      unlines (out.map specialLine) ++ unlines (o.map outLine) := by
  rw [List.map_append, unlines_append, List.map_map]
  rfl

theorem ContentsLine.head_ne (h : ContentsLine l) : (l ++ ['\n']).head? ≠ some '#' := by
  rw [List.head?_append, h.entry.head]
  decide

theorem ContentsComment.skipped (h : ContentsComment c) : (c ++ ['\n']).head? = some '#' := by
  rw [List.head?_append, h.head]
  rfl

theorem addLines_comments (hcs : ∀ c ∈ cs, ContentsComment c) (s : Special) :
    addLines (cs.map (· ++ ['\n'])) es s = some (putSpecials (flagged es) s) := by
  induction cs with
  | nil => rfl
  | cons c cs ih =>
    rw [List.map_cons, addLines, if_pos (hcs c List.mem_cons_self).skipped]
    exact ih fun d hd => hcs d (List.mem_cons_of_mem _ hd)

theorem flagged_placed {P : Cfent → Prop} (h : ∀ e ∈ flagged es, P e)
    (hpl : Placed k es out found rest) : (∀ e ∈ out, P e) ∧ ∀ e ∈ flagged rest, P e := by
  rw [hpl.split] at h
  exact List.forall_mem_append.mp h

/-- The loop of `special_contents_add` merges the lines and the entries. -/
theorem addLines_eq {s : Special} (hls : ∀ l ∈ ls, ContentsLine l)
    (hcs : ∀ c ∈ cs, ContentsComment c) (hes : ∀ e ∈ flagged es, SpecialEntry e)
    (hs : s.fpo.Sound) :
    match mergeFlagged lineCmp ls es with
    | none => addLines ((ls ++ cs).map (· ++ ['\n'])) es s = none
    | some o => ∃ s', addLines ((ls ++ cs).map (· ++ ['\n'])) es s = some (some s') ∧
        s'.fpo.Sound ∧ s'.fpo.text = s.fpo.text ++ unlines (o.map outLine) ∧
        s'.writes = s.writes + (flagged es).length := by
  induction ls generalizing es s with
  | nil =>
    rw [mergeFlagged, List.nil_append, addLines_comments hcs]
    obtain ⟨s', hput, hs', htext, hwrites⟩ := putSpecials_writes hes hs
    refine ⟨s', congrArg some hput, hs', ?_, hwrites⟩
    rw [htext, List.map_map]
    rfl
  | cons l ls ih =>
    have hl := hls l List.mem_cons_self
    have hls' : ∀ m ∈ ls, ContentsLine m := fun m hm => hls m (List.mem_cons_of_mem _ hm)
    rw [mergeFlagged, List.cons_append, List.map_cons, addLines, if_neg hl.head_ne, lineCmp]
    cases hg : getPath (l ++ ['\n']) with
    | none =>
      obtain ⟨s₁, hcopy, hs₁, htext₁, hwrites₁⟩ := copyLine_writes hs (l ++ ['\n'])
      have hrest := ih hls' hes hs₁
      simp only [Option.map_none, hcopy]
      cases hm : mergeFlagged lineCmp ls es with
      | none =>
        rw [hm] at hrest
        exact hrest
      | some o =>
        rw [hm] at hrest
        obtain ⟨s', hrun, hs', htext, hwrites⟩ := hrest
        refine ⟨s', hrun, hs', ?_, by rw [hwrites, hwrites₁]⟩
        rw [htext, htext₁, List.map_cons, unlines_cons]
        simp [outLine]
    | some pc =>
      simp only [Option.map_some]
      cases hp : place (pathcmp pc) es with
      | none => rfl
      | some r =>
        obtain ⟨out, found, rest⟩ := r
        have hpl := place_placed hp
        obtain ⟨hout, hleft⟩ := flagged_placed hes hpl
        obtain ⟨s₁, hput, hs₁, htext₁, hwrites₁⟩ := putSpecials_writes hout hs
        have hcount : (flagged es).length = out.length + (flagged rest).length := by
          rw [hpl.split, List.length_append]
        simp only [Option.bind_some, hput]
        cases found with
        | true =>
          have hrest := ih hls' hleft hs₁
          simp only [if_true, List.append_nil]
          cases hm : mergeFlagged lineCmp ls rest with
          | none =>
            rw [hm] at hrest
            exact hrest
          | some o =>
            rw [hm] at hrest
            obtain ⟨s', hrun, hs', htext, hwrites⟩ := hrest
            refine ⟨s', hrun, hs', ?_, by omega⟩
            rw [htext, htext₁, unlines_outLine_append, List.append_assoc]
        | false =>
          obtain ⟨s₂, hcopy, hs₂, htext₂, hwrites₂⟩ := copyLine_writes hs₁ (l ++ ['\n'])
          have hrest := ih hls' hleft hs₂
          simp only [Bool.false_eq_true, if_false, hcopy]
          cases hm : mergeFlagged lineCmp ls rest with
          | none =>
            rw [hm] at hrest
            exact hrest
          | some o =>
            rw [hm] at hrest
            obtain ⟨s', hrun, hs', htext, hwrites⟩ := hrest
            refine ⟨s', hrun, hs', ?_, by omega⟩
            rw [htext, htext₂, htext₁]
            simp only [List.append_assoc, unlines_outLine_append, List.cons_append, List.map_cons,
              unlines_cons]
            rfl

theorem removeLines_eq {f : Stream} (hls : ∀ l ∈ ls, ContentsLine l)
    (hcs : ∀ c ∈ cs, ContentsComment c) (hf : f.Sound) (h : dropFlagged lineCmp ls es = some out) :
    ∃ f', removeLines ((ls ++ cs).map (· ++ ['\n'])) es f = some (some f') ∧ f'.Sound ∧
      f'.text = f.text ++ unlines out := by
  induction ls generalizing es f out with
  | nil =>
    obtain rfl := Option.some.inj h
    refine ⟨f, ?_, hf, by simp [unlines]⟩
    rw [List.nil_append]
    induction cs with
    | nil => rfl
    | cons c cs ih =>
      rw [List.map_cons, removeLines, if_pos (hcs c List.mem_cons_self).skipped]
      exact ih fun d hd => hcs d (List.mem_cons_of_mem _ hd)
  | cons l ls ih =>
    have hl := hls l List.mem_cons_self
    have hls' : ∀ m ∈ ls, ContentsLine m := fun m hm => hls m (List.mem_cons_of_mem _ hm)
    obtain ⟨f₁, hcopy, hf₁, htext₁⟩ := Stream.fputs_writes hf (l ++ ['\n'])
    rw [dropFlagged, lineCmp] at h
    rw [List.cons_append, List.map_cons, removeLines, if_neg hl.head_ne]
    cases hg : getPath (l ++ ['\n']) with
    | none =>
      rw [hg] at h
      obtain ⟨o, hls'', rfl⟩ := Option.map_eq_some_iff.mp h
      obtain ⟨f', hrun, hf', htext⟩ := ih hls' hf₁ hls''
      refine ⟨f', by simpa only [hcopy] using hrun, hf', ?_⟩
      rw [htext, htext₁, unlines_cons]
      simp
    | some pc =>
      rw [hg] at h
      obtain ⟨⟨passed, found, rest⟩, hp, hbind⟩ := Option.bind_eq_some_iff.mp h
      obtain ⟨o, hls'', rfl⟩ := Option.map_eq_some_iff.mp hbind
      simp only [hp]
      cases found with
      | true => exact ih hls' hf hls''
      | false =>
        obtain ⟨f', hrun, hf', htext⟩ := ih hls' hf₁ hls''
        refine ⟨f', by simpa only [hcopy, Bool.false_eq_true, if_false] using hrun, hf', ?_⟩
        rw [htext, htext₁, if_neg Bool.false_ne_true, List.cons_append, List.nil_append,
          unlines_cons]
        simp

end Loops

section Contents
variable {ls cs : List Str} {es : List (Cfent × Bool)} {f : Stream} {t : Str}

/-- The comments that are put behind the entries. -/
def stampLines (who t : Str) : List Str := ["# Last modified by ".toList ++ who, "# ".toList ++ t]

theorem putStamp_text (hf : f.Sound) (who t : Str) :
    (putStamp who (t ++ ['\n']) f).text = f.text ++ unlines (stampLines who t) := by
  obtain ⟨f₁, hw₁, hf₁, htext₁⟩ :=
    Stream.fputs_writes hf ("# Last modified by ".toList ++ who ++ ['\n'])
  obtain ⟨f₂, hw₂, -, htext₂⟩ := Stream.fputs_writes hf₁ ("# ".toList ++ (t ++ ['\n']))
  rw [putStamp, hw₁, Option.getD_some, hw₂, Option.getD_some, htext₂, htext₁, stampLines,
    unlines_cons, unlines_cons]
  simp [unlines]

theorem stampLines_comments (hwho : OneLine who) (ht : OneLine t) :
    ∀ c ∈ stampLines who t, OneLine c ∧ c.head? = some '#' := by
  have h₁ : OneLine "# Last modified by ".toList := ⟨by decide, by decide⟩
  have h₂ : OneLine "# ".toList := ⟨by decide, by decide⟩
  simp only [stampLines, List.forall_mem_cons]
  exact ⟨⟨h₁.append hwho, rfl⟩, ⟨h₂.append ht, rfl⟩, nofun⟩

theorem readLines_contents (hls : ∀ l ∈ ls, ContentsLine l) (hcs : ∀ c ∈ cs, ContentsComment c) :
    readLines (unlines (ls ++ cs)).length (unlines (ls ++ cs)) = (ls ++ cs).map (· ++ ['\n']) := by
  refine readLines_unlines (fun l hl => ?_) (Nat.le_refl _)
  rcases List.mem_append.mp hl with hl | hl
  · exact ⟨(hls l hl).entry.oneLine, (hls l hl).short⟩
  · exact ⟨(hcs l hl).oneLine, (hcs l hl).short⟩

/-- The lines of the new contents file that are no comments are, in the order of their paths, those
of the old one whose path is not flagged and one for each flagged entry. -/
def SpecialMerged (ls : List Str) (es : List (Cfent × Bool)) (r : Option (Int × Option Str)) :
    Prop :=
  ∃ new, r = some (0, some new) ∧
    (entryLines new).Pairwise (fun l m => linePath l ≤ linePath m) ∧
    (entryLines new).Perm (kept linePath Cfent.pathOf ls (flagged es) ++
      (flagged es).map specialLine)

theorem specialContentsAdd_eq (hls : ∀ l ∈ ls, ContentsLine l) (hcs : ∀ c ∈ cs, ContentsComment c)
    (hes : ∀ e ∈ flagged es, SpecialEntry e) (hf : f.Sound) (htext : f.text = [])
    (ht : OneLine t) :
    match mergeFlagged lineCmp ls es with
    | none => specialContentsAdd (some (unlines (ls ++ cs))) es f (t ++ ['\n']) true = none
    | some o => ∃ new,
        specialContentsAdd (some (unlines (ls ++ cs))) es f (t ++ ['\n']) true =
          some (0, some new) ∧ entryLines new = o.map outLine := by
  have hrun := addLines_eq (s := ⟨f, 0⟩) hls hcs hes hf
  have hcomment : ∀ c ∈ cs, OneLine c ∧ c.head? = some '#' :=
    fun c hc => ⟨(hcs c hc).oneLine, (hcs c hc).head⟩
  simp only [specialContentsAdd, readLines_contents hls hcs]
  cases hm : mergeFlagged lineCmp ls es with
  | none =>
    rw [hm] at hrun
    simp only [hrun, Option.map_none]
  | some o =>
    rw [hm] at hrun
    obtain ⟨s', hadd, hs', htext', hwrites⟩ := hrun
    simp only [hadd, Option.map_some]
    by_cases hF : flagged es = []
    · refine ⟨unlines (ls ++ cs), ?_, ?_⟩
      · rw [hwrites, hF, if_neg (by simp)]
      · rw [(entryLines_unlines (fun l hl => (hls l hl).entry) hcomment).2,
          mergeFlagged_unflagged hF hm, List.map_map]
        exact (List.map_id ls).symm
    · refine ⟨unlines (o.map outLine ++ stampLines "pkginstall".toList t), ?_, ?_⟩
      · have hpos := List.length_pos_iff.mpr hF
        rw [hwrites, if_pos (by omega), if_pos trivial, putStamp_text hs', htext', htext,
          List.nil_append, unlines_append]
      · refine (entryLines_unlines (fun x hx => ?_) (stampLines_comments ?_ ht)).2
        · obtain ⟨left, -, hleft, hperm⟩ := mergeFlagged_perm
            (lineCmp_keyOrder hls fun e he => (hes e he).path) hm
          obtain ⟨y, hy, rfl⟩ := List.mem_map.mp hx
          have hmem := hperm.mem_iff.mp hy
          rcases List.mem_append.mp hmem with hmem | hmem
          · obtain ⟨l, hl, rfl⟩ := List.mem_map.mp hmem
            exact (hls l (hleft.mem hl)).entry
          · obtain ⟨e, he, rfl⟩ := List.mem_map.mp hmem
            exact (hes e he).isEntry
        · exact ⟨by decide, by decide⟩

/-- The comparisons of every line lead to its place, and the flagged entries are not used up before
the last entry. -/
def SpecialOk (ls : List Str) (es : List (Cfent × Bool)) : Prop :=
  (∀ l ∈ ls, Right lineCmp linePath Cfent.pathOf (flagged es) l) ∧ InTime lineCmp ls es

/-- No two lines have the path of one flagged entry. -/
def FlaggedOnce (ls : List Str) (es : List (Cfent × Bool)) : Prop :=
  ls.Pairwise fun l m => ∀ e ∈ flagged es, e.pathOf = linePath l → linePath l ≠ linePath m

theorem left_contents (hls : ∀ l ∈ ls, ContentsLine l)
    (hsorted : ls.Pairwise fun l m => linePath l ≤ linePath m)
    (hpath : ∀ x ∈ es, IsPath x.1.pathOf)
    (hes : es.Pairwise fun x y => x.1.pathOf ≤ y.1.pathOf) (honce : FlaggedOnce ls es) :
    Left lineCmp linePath Cfent.pathOf ls es :=
  ⟨lineCmp_keyOrder hls fun _ he => hpath _ (mem_flagged he), flagged_pairwise hes,
    hsorted.and honce⟩

/-- `special_contents_add` merges the flagged entries into the contents file exactly if the
comparisons lead to their places and the flagged entries are not used up too early. -/
theorem specialContentsAdd_merges_iff (hls : ∀ l ∈ ls, ContentsLine l)
    (hsorted : ls.Pairwise fun l m => linePath l ≤ linePath m)
    (hcs : ∀ c ∈ cs, ContentsComment c) (hentry : ∀ x ∈ es, SpecialEntry x.1)
    (hes : es.Pairwise fun x y => x.1.pathOf ≤ y.1.pathOf) (honce : FlaggedOnce ls es)
    (hf : f.Sound) (htext : f.text = []) (ht : OneLine t) :
    SpecialMerged ls es
      (specialContentsAdd (some (unlines (ls ++ cs))) es f (t ++ ['\n']) true) ↔
      SpecialOk ls es := by
  have hleft := left_contents hls hsorted (fun x hx => (hentry x hx).path) hes honce
  have hflag : ∀ e ∈ flagged es, SpecialEntry e := fun e he => hentry _ (mem_flagged he)
  have hrun := specialContentsAdd_eq hls hcs hflag hf htext ht
  rw [SpecialOk, ← merges_iff hleft]
  cases hm : mergeFlagged lineCmp ls es with
  | none =>
    rw [hm] at hrun
    refine iff_of_false ?_ ?_
    · rintro ⟨new, hnew, -⟩
      rw [hrun] at hnew
      cases hnew
    · rintro ⟨o, ho, -⟩
      rw [hm] at ho
      cases ho
  | some o =>
    rw [hm] at hrun
    obtain ⟨new, hnew, hlines⟩ := hrun
    obtain ⟨left, -, -, hperm⟩ := mergeFlagged_perm hleft.order hm
    have hkey : ∀ x ∈ o, linePath (outLine x) = x.elim linePath Cfent.pathOf := by
      rintro (l | e) hx
      · rfl
      · exact (hflag e (by simpa using hperm.mem_iff.mp hx)).linePath
    have hsort : (o.map outLine).Pairwise (fun l m => linePath l ≤ linePath m) ↔
        o.Pairwise fun x y => x.elim linePath Cfent.pathOf ≤ y.elim linePath Cfent.pathOf := by
      rw [List.pairwise_map]
      refine ⟨fun h => h.imp_of_mem fun hx hy hle => ?_, fun h => h.imp_of_mem fun hx hy hle => ?_⟩
      · rwa [hkey _ hx, hkey _ hy] at hle
      · rwa [hkey _ hx, hkey _ hy]
    constructor
    · rintro ⟨new', hnew', hpair, hlinesperm⟩
      obtain rfl : new = new' := by
        rw [hnew] at hnew'
        simpa using hnew'
      rw [hlines] at hpair hlinesperm
      refine merges_of_length hleft.order hm (hsort.mp hpair) ?_
      have hlen := hlinesperm.length_eq
      rwa [List.length_map, List.length_append, List.length_map] at hlen
    · rintro ⟨o', ho', hpair, ho'perm⟩
      obtain rfl : o = o' := Option.some.inj (hm.symm.trans ho')
      refine ⟨new, hnew, ?_, ?_⟩
      · rw [hlines]
        exact hsort.mpr hpair
      · rw [hlines]
        refine (ho'perm.map outLine).trans (List.Perm.of_eq ?_)
        rw [List.map_append, List.map_map, List.map_map]
        exact congrArg (· ++ _) (List.map_id _)

def dirLine (path : Str) : Str := path ++ " d none 0755 root sys SUNWcsr".toList

def dirEntry (path : Str) : Cfent :=
  ⟨0, 'd', "none".toList, 0, some path, ⟨none, 0o755, "root".toList, "sys".toList, -1, -1⟩,
    ⟨-1, -1, -1⟩, 1, [⟨nul, "SUNWcsr".toList, 0, []⟩]⟩

def freshStream : Stream := ⟨[], 0, fun _ => false⟩

theorem dirLine_contents :
    ContentsLine (dirLine "/a".toList) ∧ ContentsLine (dirLine "/b".toList) :=
  ⟨⟨by decide, ⟨"d none 0755 root sys SUNWcsr".toList, .inl (by decide)⟩, by decide⟩,
    ⟨by decide, ⟨"d none 0755 root sys SUNWcsr".toList, .inl (by decide)⟩, by decide⟩⟩

theorem dirEntry_special :
    SpecialEntry (dirEntry "/a".toList) ∧ SpecialEntry (dirEntry "/b".toList) :=
  ⟨⟨by decide, rfl, ⟨by decide, by decide⟩, ⟨by decide +kernel, by decide +kernel⟩⟩,
    ⟨by decide, rfl, ⟨by decide, by decide⟩, ⟨by decide +kernel, by decide +kernel⟩⟩⟩

theorem dirEntry_ok :
    SpecialOk [dirLine "/a".toList, dirLine "/b".toList]
      [(dirEntry "/a".toList, false), (dirEntry "/b".toList, true)] := by
  have ha : lineCmp (dirLine "/a".toList) = some (pathcmp "/a".toList) := by
    rw [lineCmp, show getPath (dirLine "/a".toList ++ ['\n']) = some "/a".toList by decide]
    rfl
  have hb : lineCmp (dirLine "/b".toList) = some (pathcmp "/b".toList) := by
    rw [lineCmp, show getPath (dirLine "/b".toList ++ ['\n']) = some "/b".toList by decide]
    rfl
  have hF : flagged [(dirEntry "/a".toList, false), (dirEntry "/b".toList, true)] =
      [dirEntry "/b".toList] := rfl
  refine ⟨List.forall_mem_cons.mpr ⟨?_, List.forall_mem_cons.mpr ⟨?_, nofun⟩⟩, .inl ?_⟩
  · simp only [Right, ha, hF]
    refine ⟨?_, fun _ before e after hsplit _ _ => ?_⟩
    · rintro ⟨e, he, heq⟩
      rw [List.mem_singleton.mp he] at heq
      exact absurd heq (by decide)
    · have he : e ∈ [dirEntry "/b".toList] := by rw [hsplit]; simp
      rw [List.mem_singleton.mp he]
      decide
  · simp only [Right, hb, hF]
    refine ⟨fun _ => ⟨[], dirEntry "/b".toList, [], rfl, by decide, by simp⟩, fun hne => ?_⟩
    exact absurd (by decide) (hne (dirEntry "/b".toList) (by simp))
  · intro x hx
    obtain rfl : (dirEntry "/b".toList, true) = x := Option.some.inj hx
    rfl

theorem dirEntry_once :
    FlaggedOnce [dirLine "/a".toList, dirLine "/b".toList]
      [(dirEntry "/a".toList, false), (dirEntry "/b".toList, true)] := by
  refine List.pairwise_cons.mpr ⟨?_, List.pairwise_singleton _ _⟩
  intro m hm _ _ _
  rw [List.mem_singleton.mp hm]
  decide

theorem specialContentsAdd_merges_iff_dir :
    SpecialMerged [dirLine "/a".toList, dirLine "/b".toList]
      [(dirEntry "/a".toList, false), (dirEntry "/b".toList, true)]
      (specialContentsAdd
        (some (unlines ([dirLine "/a".toList, dirLine "/b".toList] ++ ["# x".toList])))
        [(dirEntry "/a".toList, false), (dirEntry "/b".toList, true)] freshStream
        ("Sun Sep  9".toList ++ ['\n']) true) := by
  have hcs : ∀ c ∈ ["# x".toList], ContentsComment c := by
    intro c hc
    rw [List.mem_singleton.mp hc]
    exact ⟨⟨by decide, by decide⟩, by decide, by decide⟩
  refine (specialContentsAdd_merges_iff ?_ (by decide) hcs ?_ (by decide) dirEntry_once
    (fun _ => rfl) rfl ⟨by decide, by decide⟩).mpr dirEntry_ok
  · exact List.forall_mem_cons.mpr ⟨dirLine_contents.1,
      List.forall_mem_cons.mpr ⟨dirLine_contents.2, nofun⟩⟩
  · exact List.forall_mem_cons.mpr ⟨dirEntry_special.1,
      List.forall_mem_cons.mpr ⟨dirEntry_special.2, fun _ hx => absurd hx List.not_mem_nil⟩⟩

/-- With one entry that is not flagged the scan for the next flagged one runs over the end. -/
theorem specialContentsAdd_overruns :
    specialContentsAdd (some (unlines [dirLine "/a".toList]))
        [(dirEntry "/a".toList, false)] freshStream ("Sun Sep  9".toList ++ ['\n']) true = none ∧
      ¬ SpecialMerged [dirLine "/a".toList] [(dirEntry "/a".toList, false)]
        (specialContentsAdd (some (unlines [dirLine "/a".toList]))
          [(dirEntry "/a".toList, false)] freshStream ("Sun Sep  9".toList ++ ['\n']) true) := by
  have hnone : specialContentsAdd (some (unlines [dirLine "/a".toList]))
      [(dirEntry "/a".toList, false)] freshStream ("Sun Sep  9".toList ++ ['\n']) true = none := by
    decide +kernel
  refine ⟨hnone, ?_⟩
  rw [hnone]
  rintro ⟨new, hnew, -⟩
  cases hnew

/-- `special_contents_remove` removes exactly the lines whose path is flagged, if the comparisons
lead to their places and the flagged entries are not used up too early. -/
theorem specialContentsRemove_removes (hls : ∀ l ∈ ls, ContentsLine l)
    (hsorted : ls.Pairwise fun l m => linePath l ≤ linePath m)
    (hcs : ∀ c ∈ cs, ContentsComment c) (hpath : ∀ x ∈ es, IsPath x.1.pathOf)
    (hes : es.Pairwise fun x y => x.1.pathOf ≤ y.1.pathOf) (honce : FlaggedOnce ls es)
    (hf : f.Sound) (htext : f.text = []) (ht : OneLine t) (hok : SpecialOk ls es) :
    ∃ new, specialContentsRemove (unlines (ls ++ cs)) es f (t ++ ['\n']) true = some (0, new) ∧
      entryLines new = ls.filter fun l => ∀ e ∈ flagged es, e.pathOf ≠ linePath l := by
  have hleft := left_contents hls hsorted hpath hes honce
  have hdrop := dropFlagged_eq_kept hleft hok.1 hok.2
  obtain ⟨f', hrun, hf', htext'⟩ := removeLines_eq hls hcs hf hdrop
  have hsub : ∀ l ∈ kept linePath Cfent.pathOf ls (flagged es), IsEntry l :=
    fun l hl => (hls l (List.mem_of_mem_filter hl)).entry
  refine ⟨unlines (kept linePath Cfent.pathOf ls (flagged es) ++
    stampLines "pkgremove".toList t), ?_, ?_⟩
  · simp only [specialContentsRemove, readLines_contents hls hcs, hrun, Option.map_some, if_true]
    rw [putStamp_text hf', htext', htext, List.nil_append, unlines_append]
  · have hwho : OneLine "pkgremove".toList := ⟨by decide, by decide⟩
    refine (entryLines_unlines hsub (stampLines_comments hwho ht)).2.trans ?_
    exact List.filter_congr fun l _ => decide_eq_decide.mpr Iff.rfl

theorem specialContentsRemove_removes_dir :
    ∃ new, specialContentsRemove
        (unlines ([dirLine "/a".toList, dirLine "/b".toList] ++ []))
        [(dirEntry "/a".toList, false), (dirEntry "/b".toList, true)] freshStream
        ("Sun Sep  9".toList ++ ['\n']) true = some (0, new) ∧
      entryLines new = [dirLine "/a".toList, dirLine "/b".toList].filter fun l =>
        ∀ e ∈ flagged [(dirEntry "/a".toList, false), (dirEntry "/b".toList, true)],
          e.pathOf ≠ linePath l := by
  refine specialContentsRemove_removes ?_ (by decide) nofun ?_ (by decide) dirEntry_once
    (fun _ => rfl) rfl ⟨by decide, by decide⟩ dirEntry_ok
  · exact List.forall_mem_cons.mpr ⟨dirLine_contents.1,
      List.forall_mem_cons.mpr ⟨dirLine_contents.2, nofun⟩⟩
  · exact List.forall_mem_cons.mpr ⟨dirEntry_special.1.path,
      List.forall_mem_cons.mpr ⟨dirEntry_special.2.path, fun _ hx => absurd hx List.not_mem_nil⟩⟩

/-- The same scan runs over the end when entries are removed. -/
theorem specialContentsRemove_overruns :
    ¬ ∃ new, specialContentsRemove (unlines [dirLine "/a".toList])
        [(dirEntry "/a".toList, false)] freshStream ("Sun Sep  9".toList ++ ['\n']) true =
          some (0, new) ∧
      entryLines new = [dirLine "/a".toList].filter fun l =>
        ∀ e ∈ flagged [(dirEntry "/a".toList, false)], e.pathOf ≠ linePath l := by
  have hnone : specialContentsRemove (unlines [dirLine "/a".toList])
      [(dirEntry "/a".toList, false)] freshStream ("Sun Sep  9".toList ++ ['\n']) true = none := by
    decide +kernel
  rw [hnone]
  rintro ⟨new, hnew, -⟩
  cases hnew

end Contents

end Pkgtools
