import Pkgtools.CLib.Text

namespace Pkgtools
open CLib
set_option autoImplicit true

/-- The size of the buffer, and the steps in which the memory for a value grows. -/
def VALSIZ : Nat := 128

/-- `strchr (sepset, ch)`, which finds the terminator as well. -/
def isSepChar (ch : Char) : Bool := ch == ':' || ch == '=' || ch == '\n' || ch == nul

/-- `strchr (qset, ch)` -/
def isQuoteChar (ch : Char) : Bool := ch == '\'' || ch == '"' || ch == nul

/-- Read up to a separator: the separator (none at the end of the file), the text in the buffer and
the rest of the file. -/
def readToken : Str → Nat → Str → Option Char × Str × Str
  | [], _, copy => (none, copy, [])
  | ch :: file, n, copy =>
    if isSepChar ch then (some ch, copy, file)
    else readToken file (n + 1) (if n + 1 < VALSIZ then copy ++ [ch] else copy)

/-- The variables of the loop over a value: the text in front of `copy` (none for the null pointer),
the size of the memory that it points into, and whether this is `mempt`. -/
structure ParamValue where
  copy : Option Str
  size : Nat
  mempt : Bool
  n : Nat
  quoted : Nat
  escape : Nat
  begline : Bool

/-- `*copy++ = ch`; not defined behind the end of the memory. -/
def ParamValue.store (ch : Char) (st : ParamValue) : Option ParamValue :=
  match st.copy with
  | none => some st
  | some t => if t.length < st.size then some { st with copy := some (t ++ [ch]) } else none

/-- Count the character, and get more memory at each multiple of `VALSIZ`. -/
def ParamValue.grow (st : ParamValue) : ParamValue :=
  match st.copy with
  | none => st
  | some t =>
    let n := st.n + 1
    if n % VALSIZ = 0 then
      { st with
        copy := some (t.take n), n, mempt := true
        size := if st.mempt then n + VALSIZ else 2 * VALSIZ }
    else { st with n }

/-- Take the escape character in front of a line end back. -/
def ParamValue.uneat (st : ParamValue) : Option ParamValue :=
  match st.copy with
  | none => some st
  | some [] => none
  | some t => some { st with copy := some t.dropLast, n := st.n - 1 }

/-- The loop over a value: its variables and the rest of the file, none at the end of the file. -/
def readValue : Str → ParamValue → Option (ParamValue × Option Str)
  | [], st => some (st, none)
  | ch :: file, st =>
    if st.begline ∧ (ch = ' ' ∨ ch = '\t') then readValue file st
    else if ch = '\n' then
      if st.escape = 0 then some (st, some file)
      else (st.uneat.bind (·.store '\n')).bind fun st =>
        readValue file { st with escape := 0, begline := true }.grow
    else if st.escape = 0 ∧ isQuoteChar ch ∧ st.begline then
      readValue file { st with quoted := st.quoted + 1, begline := false }
    else if st.escape = 0 ∧ isQuoteChar ch ∧ 0 < st.quoted then
      readValue file { st with quoted := 0 }
    else
      ({ st with escape := if ch = '\\' then st.escape + 1 else 0 }.store ch).bind fun st =>
        readValue file { st with begline := false }.grow

/-- Back over white space at the end; not defined if the memory in front of the value is read. -/
def trimSpace : Nat → Str → Option Str
  | n, t =>
    match t.getLast? with
    | none => none
    | some c =>
      if isspace c then
        match n with
        | 0 => some t
        | n + 1 => trimSpace n t.dropLast
      else some t

/-- The loop over the entries of the file: the value, or none for the null pointer, the parameter
that may have been filled in, and the rest of the file. -/
def paramLoop (param : Str) : Nat → Str → Option (Option Str × Str × Str)
  | 0, _ => none
  | fuel + 1, file =>
    match readToken file 0 [] with
    | (none, _, file) => some (none, param, file)
    | (some c, buffer, file) =>
      if c = '\n' then paramLoop param fuel file
      else
        let comment := buffer.head? = some '#'
        let wanted := ¬ comment ∧ (param = [] ∨ param = buffer)
        let param' := if ¬ comment ∧ param = [] then buffer else param
        (readValue file ⟨if wanted then some [] else none, VALSIZ, false, 0, 0, 0, true⟩).bind
          fun (st, rest) =>
        match st.copy with
        | none =>
          if 0 < st.quoted then some (none, param', rest.getD [])
          else match rest with
            | none => some (none, param', [])
            | some file => paramLoop param' fuel file
        | some t =>
          (trimSpace st.n t).bind fun t =>
          if 0 < st.quoted then some (none, param', rest.getD [])
          else if t.length < st.size then
            some (some (t.takeWhile (· ≠ nul)), param', rest.getD [])
          else none

/-- `fpkgparam`: an empty parameter stands for any. -/
def fpkgparam (file param : Str) : Option (Option Str × Str × Str) :=
  paramLoop param (file.length + 1) file

inductive ParamLine
  | empty
  | comment (s : Str)
  | bare (name value : Str)
  | quoted (name value : Str)

def ParamLine.text : ParamLine → Str
  | .empty => []
  | .comment s => '#' :: s
  | .bare name value => name ++ '=' :: value
  | .quoted name value => name ++ '=' :: ('"' :: value ++ ['"'])

def ParamLine.pair : ParamLine → Option (Str × Str)
  | .bare name value | .quoted name value => some (name, value)
  | _ => none

structure ParamKey (name : Str) : Prop where
  nonempty : name ≠ []
  short : name.length < VALSIZ
  notComment : name.head? ≠ some '#'
  plain : ∀ c ∈ name, isSepChar c = false

/-- Characters on one line without an escape. -/
def LineText (s : Str) : Prop := ∀ c ∈ s, c ≠ '\n' ∧ c ≠ '\\' ∧ c ≠ nul

instance (s : Str) : Decidable (LineText s) := inferInstanceAs (Decidable (∀ c ∈ s, _))

structure ParamText (value : Str) : Prop where
  nonempty : value ≠ []
  plain : LineText value
  trimmed : ∀ c ∈ value.getLast?, isspace c = false

def ParamLine.Valid : ParamLine → Prop
  | .empty => True
  | .comment s => LineText s ∧ ∀ c ∈ s, isQuoteChar c = false
  | .bare name value => ParamKey name ∧ ParamText value ∧
      ∀ c ∈ value.head?, c ≠ ' ' ∧ c ≠ '	' ∧ isQuoteChar c = false
  | .quoted name value => ParamKey name ∧ ParamText value ∧ ∀ c ∈ value, isQuoteChar c = false

/-- The file: each line and its end. -/
def paramFile (lines : List ParamLine) : Str := lines.flatMap (·.text ++ ['\n'])

/-- Call `fpkgparam` so many times with an empty parameter, until the null pointer is returned. -/
def enumerateParams : Nat → Str → Option (List (Str × Str))
  | 0, _ => some []
  | k + 1, file =>
    (fpkgparam file []).bind fun (value, param, file) =>
    match value with
    | none => some []
    | some value => (enumerateParams k file).map ((param, value) :: ·)

section Read
variable {file s name : Str} {copy : Option Str} {b : Bool} {q : Nat}

def holding (copy : Option Str) (quoted : Nat) (begline : Bool) : ParamValue :=
  let n := (copy.getD []).length
  ⟨copy, (n / VALSIZ + 1) * VALSIZ, decide (VALSIZ ≤ n), n, quoted, 0, begline⟩

theorem holding_room (t : Str) (q : Nat) (b : Bool) :
    t.length < (holding (some t) q b).size := by
  simp only [holding, Option.getD_some, VALSIZ]
  omega

theorem store_of_room {st : ParamValue} {t : Str} (h : st.copy = some t) (hlt : t.length < st.size)
    (ch : Char) : st.store ch = some { st with copy := some (t ++ [ch]) } := by
  rw [ParamValue.store, h]
  exact if_pos hlt

/-- Storing a character keeps the memory ahead of the cursor. -/
theorem grow_holding (t : Str) (ch : Char) (q : Nat) :
    ParamValue.grow ⟨some (t ++ [ch]), (t.length / VALSIZ + 1) * VALSIZ, decide (VALSIZ ≤ t.length),
      t.length, q, 0, false⟩ = holding (some (t ++ [ch])) q false := by
  have hlen : (t ++ [ch]).length = t.length + 1 := by simp
  have hV : VALSIZ = 128 := rfl
  rw [ParamValue.grow, holding]
  simp only [Option.getD_some, hlen]
  split
  · rename_i h
    rw [hV] at h
    have hsize : (if decide (VALSIZ ≤ t.length) = true then t.length + 1 + VALSIZ
        else 2 * VALSIZ) = ((t.length + 1) / VALSIZ + 1) * VALSIZ := by
      split
      · rw [hV]
        omega
      · rename_i hm
        rw [decide_eq_true_eq, hV] at hm
        rw [hV]
        omega
    have hheap : decide (VALSIZ ≤ t.length + 1) = true := decide_eq_true (by rw [hV]; omega)
    rw [List.take_of_length_le hlen.le, hsize, hheap]
  · rename_i h
    rw [hV] at h
    have hsize : (t.length / VALSIZ + 1) * VALSIZ = ((t.length + 1) / VALSIZ + 1) * VALSIZ := by
      rw [hV]
      omega
    have hheap : decide (VALSIZ ≤ t.length) = decide (VALSIZ ≤ t.length + 1) :=
      decide_eq_decide.mpr (by rw [hV]; omega)
    rw [hsize, hheap]

theorem readValue_plain (hn : ch ≠ '\n') (he : ch ≠ '\\')
    (hb : b = true → ch ≠ ' ' ∧ ch ≠ '	' ∧ isQuoteChar ch = false)
    (hq : isQuoteChar ch = true → q = 0) (file : Str) :
    readValue (ch :: file) (holding copy q b) =
      readValue file (holding (copy.map (· ++ [ch])) q false) := by
  rw [readValue, if_neg, if_neg hn, if_neg, if_neg, if_neg he]
  · cases copy with
    | none => rfl
    | some t =>
      change ((holding (some t) q b).store ch).bind _ = _
      rw [store_of_room rfl (holding_room t q b), Option.bind_some]
      exact congrArg _ (grow_holding t ch q)
  · rintro ⟨-, hquote, hpos⟩
    exact absurd (hq hquote) (Nat.ne_of_gt hpos)
  · rintro ⟨-, hquote, hbeg⟩
    rw [(hb hbeg).2.2] at hquote
    cases hquote
  · rintro ⟨hbeg, hblank⟩
    exact hblank.elim (hb hbeg).1 (hb hbeg).2.1

theorem readValue_text (hs : LineText s) (hq : ∀ c ∈ s, isQuoteChar c = true → q = 0) (file : Str) :
    readValue (s ++ file) (holding copy q false) =
      readValue file (holding (copy.map (· ++ s)) q false) := by
  induction s generalizing copy with
  | nil =>
    rw [List.nil_append]
    cases copy with
    | none => rfl
    | some t => rw [Option.map_some, List.append_nil]
  | cons c s ih =>
    obtain ⟨hn, he, -⟩ := hs c List.mem_cons_self
    rw [List.cons_append, readValue_plain hn he (fun h => absurd h Bool.false_ne_true)
        (hq c List.mem_cons_self),
      ih (fun d hd => hs d (List.mem_cons_of_mem _ hd)) fun d hd =>
        hq d (List.mem_cons_of_mem _ hd)]
    cases copy with
    | none => rfl
    | some t => simp

theorem readValue_newline (file : Str) :
    readValue ('\n' :: file) (holding copy q b) = some (holding copy q b, some file) := by
  rw [readValue, if_neg (by simp), if_pos rfl]
  rfl

theorem readValue_bare (hv : ParamText value)
    (hhead : ∀ c ∈ value.head?, c ≠ ' ' ∧ c ≠ '\t' ∧ isQuoteChar c = false) (file : Str) :
    readValue (value ++ '\n' :: file) (holding copy 0 true) =
      some (holding (copy.map (· ++ value)) 0 false, some file) := by
  obtain ⟨c, s, rfl⟩ := List.exists_cons_of_ne_nil hv.nonempty
  obtain ⟨hn, he, -⟩ := hv.plain c List.mem_cons_self
  rw [List.cons_append, readValue_plain hn he (fun _ => hhead c rfl) fun _ => rfl,
    readValue_text (fun d hd => hv.plain d (List.mem_cons_of_mem _ hd)) fun _ _ _ => rfl,
    readValue_newline]
  cases copy with
  | none => rfl
  | some t => simp

theorem readValue_quoted (hv : ParamText value) (hquote : ∀ c ∈ value, isQuoteChar c = false)
    (file : Str) :
    readValue ('"' :: value ++ ['"'] ++ '\n' :: file) (holding copy 0 true) =
      some (holding (copy.map (· ++ value)) 0 false, some file) := by
  have hopen (file : Str) : readValue ('"' :: file) (holding copy 0 true) =
      readValue file (holding copy 1 false) := by
    rw [readValue, if_neg (fun h => absurd h.2 (by decide)), if_neg (by decide),
      if_pos ⟨rfl, rfl, rfl⟩]
    rfl
  have hclose (copy : Option Str) (file : Str) : readValue ('"' :: file) (holding copy 1 false) =
      readValue file (holding copy 0 false) := by
    rw [readValue, if_neg (fun h => absurd h.1 Bool.false_ne_true), if_neg (by decide),
      if_neg (fun h => absurd h.2.2 Bool.false_ne_true), if_pos ⟨rfl, rfl, Nat.one_pos⟩]
    rfl
  rw [List.append_assoc, List.cons_append, hopen, readValue_text hv.plain
    (fun c hc hq => absurd hq (by simp [hquote c hc])), List.singleton_append, hclose,
    readValue_newline]

theorem readValue_comment (hs : LineText s) (hquote : ∀ c ∈ s, isQuoteChar c = false) (b : Bool)
    (file : Str) :
    ∃ b', readValue (s ++ '\n' :: file) (holding none 0 b) =
      some (holding none 0 b', some file) := by
  induction s generalizing b with
  | nil => exact ⟨b, readValue_newline file⟩
  | cons c s ih =>
    obtain ⟨hn, he, -⟩ := hs c List.mem_cons_self
    have hrest := ih (fun d hd => hs d (List.mem_cons_of_mem _ hd))
      fun d hd => hquote d (List.mem_cons_of_mem _ hd)
    have hc := hquote c List.mem_cons_self
    by_cases hskip : b = true ∧ (c = ' ' ∨ c = '\t')
    · obtain ⟨b', hb'⟩ := hrest b
      have hblank : (holding none 0 b).begline = true ∧ (c = ' ' ∨ c = '\t') := hskip
      exact ⟨b', by rw [List.cons_append, readValue, if_pos hblank, hb']⟩
    · obtain ⟨b', hb'⟩ := hrest false
      refine ⟨b', ?_⟩
      rw [List.cons_append, readValue_plain hn he (fun hb => ?_) (fun hq => by simp [hc] at hq)]
      · exact hb'
      · exact ⟨fun h => hskip ⟨hb, .inl h⟩, fun h => hskip ⟨hb, .inr h⟩, hc⟩

theorem readToken_append (hw : ∀ c ∈ w, isSepChar c = false) (hc : isSepChar c) (n : Nat)
    (copy file : Str) :
    readToken (w ++ c :: file) n copy = (some c, copy ++ w.take (VALSIZ - 1 - n), file) := by
  induction w generalizing n copy with
  | nil => rw [List.nil_append, readToken, if_pos hc, List.take_nil, List.append_nil]
  | cons d w ih =>
    rw [List.cons_append, readToken, if_neg (by simp [hw d List.mem_cons_self]),
      ih fun e he => hw e (List.mem_cons_of_mem _ he)]
    split
    · rename_i hn
      rw [show VALSIZ - 1 - n = VALSIZ - 1 - (n + 1) + 1 by omega, List.take_succ_cons,
        List.append_assoc, List.singleton_append]
    · rename_i hn
      rw [show VALSIZ - 1 - n = 0 by omega, show VALSIZ - 1 - (n + 1) = 0 by omega, List.take_zero,
        List.take_zero]

theorem readToken_name (hname : ParamKey name) (file : Str) :
    readToken (name ++ '=' :: file) 0 [] = (some '=', name, file) := by
  rw [readToken_append hname.plain (by rfl), List.nil_append,
    List.take_of_length_le (by have := hname.short; omega)]

theorem trimSpace_eq (ht : t ≠ []) (h : ∀ c ∈ t.getLast?, isspace c = false) (n : Nat) :
    trimSpace n t = some t := by
  have hlast := List.getLast?_eq_some_getLast ht
  unfold trimSpace
  rw [hlast]
  dsimp only
  rw [if_neg (by simp [h _ hlast])]

/-- The value of the first line with this name, or with any name. -/
def lookupParam (param : Str) : List ParamLine → Option (Str × Str × List ParamLine)
  | [] => none
  | line :: lines =>
    match line.pair with
    | some (name, value) =>
      if param = [] ∨ param = name then some (name, value, lines) else lookupParam param lines
    | none => lookupParam param lines

theorem takeWhile_not_nul (h : LineText t) : t.takeWhile (· ≠ nul) = t :=
  List.takeWhile_eq_self_iff.mpr fun c hc => decide_eq_true (h c hc).2.2

/-- An entry is returned if it is wanted, and passed over if not. -/
theorem paramLoop_entry (hname : ParamKey name) (hv : ParamText value)
    (hread : ∀ (copy : Option Str) (file : Str),
      readValue (v ++ '\n' :: file) (holding copy 0 true) =
        some (holding (copy.map (· ++ value)) 0 false, some file)) (fuel : Nat) (file param : Str) :
    paramLoop param (fuel + 1) (name ++ '=' :: v ++ '\n' :: file) =
      if param = [] ∨ param = name then some (some value, name, file)
      else paramLoop param fuel file := by
  have hcomment : ¬ name.head? = some '#' := hname.notComment
  rw [paramLoop, List.append_assoc, List.cons_append, readToken_name hname]
  dsimp only
  rw [if_neg (by decide)]
  by_cases hwant : param = [] ∨ param = name
  · have hstart : (if ¬ name.head? = some '#' ∧ (param = [] ∨ param = name) then some ([] : Str)
        else none) = some [] := if_pos ⟨hcomment, hwant⟩
    have hfilled : (if ¬ name.head? = some '#' ∧ param = [] then name else param) = name := by
      split
      · rfl
      · rename_i h
        exact hwant.resolve_left fun he => h ⟨hcomment, he⟩
    rw [if_pos hwant, hstart, hfilled]
    change (readValue (v ++ '\n' :: file) (holding (some []) 0 true)).bind _ = _
    rw [hread, Option.bind_some]
    dsimp only [Option.map_some, List.nil_append]
    change (trimSpace value.length value).bind _ = _
    rw [trimSpace_eq hv.nonempty hv.trimmed, Option.bind_some,
      if_neg (show ¬ 0 < (holding (some value) 0 false).quoted from Nat.lt_irrefl 0),
      if_pos (holding_room value 0 false), takeWhile_not_nul hv.plain]
    rfl
  · have hstart : (if ¬ name.head? = some '#' ∧ (param = [] ∨ param = name) then some ([] : Str)
        else none) = none := if_neg fun h => hwant h.2
    have hkept : (if ¬ name.head? = some '#' ∧ param = [] then name else param) = param :=
      if_neg fun h => hwant (.inl h.2)
    rw [if_neg hwant, hstart, hkept]
    change (readValue (v ++ '\n' :: file) (holding none 0 true)).bind _ = _
    rw [hread, Option.bind_some]
    rfl

theorem paramLoop_comment (hs : LineText s) (hquote : ∀ c ∈ s, isQuoteChar c = false) (fuel : Nat)
    (file param : Str) :
    paramLoop param (fuel + 1) ('#' :: s ++ '\n' :: file) = paramLoop param fuel file := by
  have hsplit := List.takeWhile_append_dropWhile (p := fun c => ! isSepChar c) (l := s)
  generalize hw : s.takeWhile (fun c => ! isSepChar c) = w at hsplit
  have hplain : ∀ c ∈ '#' :: w, isSepChar c = false := by
    rw [List.forall_mem_cons]
    refine ⟨by rfl, fun c hc => ?_⟩
    rw [← hw] at hc
    simpa using List.mem_takeWhile_imp hc
  rcases hb : s.dropWhile (fun c => ! isSepChar c) with _ | ⟨c, r⟩
  · rw [hb, List.append_nil] at hsplit
    rw [← hsplit, paramLoop, readToken_append hplain (by rfl)]
    rfl
  · rw [hb] at hsplit
    have hsep : isSepChar c := by
      have := List.head?_dropWhile_not (fun c => ! isSepChar c) s
      rw [hb] at this
      simpa using this
    have hmem : ∀ d, d = c ∨ d ∈ r → d ∈ s := fun d hd => by
      rw [← hsplit]
      exact List.mem_append_right _ (List.mem_cons.mpr hd)
    have hline : LineText r := fun d hd => hs d (hmem d (.inr hd))
    obtain ⟨b, hread⟩ := readValue_comment hline (fun d hd => hquote d (hmem d (.inr hd))) true file
    have htext : '#' :: s ++ '\n' :: file = '#' :: w ++ c :: (r ++ '\n' :: file) := by
      rw [← hsplit]
      simp
    rw [htext, paramLoop, readToken_append hplain hsep]
    dsimp only
    have hhead : ([] ++ ('#' :: w).take (VALSIZ - 1 - 0)).head? = some '#' := rfl
    rw [if_neg (hs c (hmem c (.inl rfl))).1, if_neg fun h => h.1 hhead, if_neg fun h => h.1 hhead]
    change (readValue (r ++ '\n' :: file) (holding none 0 true)).bind _ = _
    rw [hread, Option.bind_some]
    rfl

theorem paramLoop_line {line : ParamLine} (h : line.Valid) (fuel : Nat) (file param : Str) :
    paramLoop param (fuel + 1) (line.text ++ '\n' :: file) =
      match line.pair with
      | some (name, value) =>
        if param = [] ∨ param = name then some (some value, name, file)
        else paramLoop param fuel file
      | none => paramLoop param fuel file := by
  cases line with
  | empty => rfl
  | comment s => exact paramLoop_comment h.1 h.2 fuel file param
  | bare name value =>
    obtain ⟨hname, hv, hhead⟩ := h
    exact paramLoop_entry hname hv (fun _ => readValue_bare hv hhead) fuel file param
  | quoted name value =>
    obtain ⟨hname, hv, hquote⟩ := h
    exact paramLoop_entry hname hv (fun _ => readValue_quoted hv hquote) fuel file param

theorem paramFile_cons (line : ParamLine) (lines : List ParamLine) :
    paramFile (line :: lines) = line.text ++ '\n' :: paramFile lines := by
  rw [paramFile, List.flatMap_cons, List.append_assoc, List.singleton_append, paramFile]

theorem paramLoop_file {lines : List ParamLine} (h : ∀ line ∈ lines, line.Valid)
    (hfuel : (paramFile lines).length < fuel) (param : Str) :
    paramLoop param fuel (paramFile lines) =
      match lookupParam param lines with
      | some (name, value, rest) => some (some value, name, paramFile rest)
      | none => some (none, param, []) := by
  induction lines generalizing fuel with
  | nil =>
    obtain ⟨fuel, rfl⟩ : ∃ k, fuel = k + 1 := ⟨fuel - 1, by omega⟩
    rfl
  | cons line lines ih =>
    obtain ⟨fuel, rfl⟩ : ∃ k, fuel = k + 1 := ⟨fuel - 1, by omega⟩
    rw [paramFile_cons, List.length_append, List.length_cons] at hfuel
    have hrest := @ih fuel (fun l hl => h l (List.mem_cons_of_mem _ hl)) (by omega)
    rw [paramFile_cons, paramLoop_line (h line List.mem_cons_self), lookupParam]
    cases line.pair with
    | none => exact hrest
    | some pair =>
      dsimp only
      split
      · rfl
      · exact hrest

def paramPairs (lines : List ParamLine) : List (Str × Str) := lines.filterMap (·.pair)

theorem lookupParam_any (lines : List ParamLine) :
    (lookupParam [] lines = none ∧ paramPairs lines = []) ∨
      ∃ name value rest, lookupParam [] lines = some (name, value, rest) ∧
        paramPairs lines = (name, value) :: paramPairs rest ∧ rest ⊆ lines := by
  induction lines with
  | nil => exact .inl ⟨rfl, rfl⟩
  | cons line lines ih =>
    rw [lookupParam, paramPairs, List.filterMap_cons]
    cases line.pair with
    | some pair => exact .inr ⟨_, _, _, if_pos (.inl rfl), rfl, List.subset_cons_self line lines⟩
    | none =>
      obtain h | ⟨name, value, rest, hl, hp, hsub⟩ := ih
      · exact .inl h
      · exact .inr ⟨name, value, rest, hl, hp, fun _ h =>
          List.mem_cons_of_mem _ (hsub h)⟩

theorem lookupParam_name (hne : param ≠ []) (lines : List ParamLine) :
    (lookupParam param lines).map (·.2.1) = ((paramPairs lines).find? (·.1 = param)).map (·.2) := by
  induction lines with
  | nil => rfl
  | cons line lines ih =>
    rw [lookupParam, paramPairs, List.filterMap_cons]
    cases line.pair with
    | none => exact ih
    | some pair =>
      dsimp only
      rw [List.find?_cons]
      by_cases h : param = pair.1
      · rw [if_pos (.inr h), decide_eq_true h.symm]
        rfl
      · rw [if_neg (not_or.mpr ⟨hne, h⟩), decide_eq_false fun he => h he.symm]
        exact ih

/-- A parameter file reads back: by name the value of the first line with it, and without a name
all pairs one after the other. -/
theorem fpkgparam_reads_back {lines : List ParamLine} (h : ∀ line ∈ lines, line.Valid) :
    (∀ name, name ≠ [] → ∃ param file, fpkgparam (paramFile lines) name =
      some (((paramPairs lines).find? (·.1 = name)).map (·.2), param, file)) ∧
    ∀ k, enumerateParams k (paramFile lines) = some ((paramPairs lines).take k) := by
  constructor
  · intro name hne
    rw [fpkgparam, paramLoop_file h (Nat.lt_succ_self _), ← lookupParam_name hne]
    cases lookupParam name lines with
    | none => exact ⟨name, [], rfl⟩
    | some found => exact ⟨found.1, paramFile found.2.2, rfl⟩
  · intro k
    induction k generalizing lines with
    | zero => rfl
    | succ k ih =>
      rw [enumerateParams, fpkgparam, paramLoop_file h (Nat.lt_succ_self _)]
      obtain ⟨hl, hp⟩ | ⟨name, value, rest, hl, hp, hsub⟩ := lookupParam_any lines
      · rw [hl, hp]
        rfl
      · rw [hl, hp, List.take_succ_cons]
        dsimp only
        rw [Option.bind_some]
        dsimp only
        rw [ih fun line hline => h line (hsub hline)]
        rfl

end Read

theorem fpkgparam_reads_back_sample :
    ∃ param file, fpkgparam (paramFile [.comment " a=b".toList, .bare "PKG".toList "abc".toList,
      .empty, .quoted "NAME".toList " a b".toList]) "NAME".toList =
        some (some " a b".toList, param, file) := by
  have hvalid : ∀ line ∈ [.comment " a=b".toList, .bare "PKG".toList "abc".toList,
      .empty, .quoted "NAME".toList " a b".toList], ParamLine.Valid line := by
    simp only [List.forall_mem_cons]
    exact ⟨⟨by decide, by decide⟩,
      ⟨⟨by decide, by decide, by decide, by decide⟩, ⟨by decide, by decide, by rintro _ ⟨⟩; rfl⟩,
        by rintro _ ⟨⟩; decide⟩,
      trivial,
      ⟨⟨by decide, by decide, by decide, by decide⟩, ⟨by decide, by decide, by rintro _ ⟨⟩; rfl⟩,
        by decide⟩,
      nofun⟩
  exact (fpkgparam_reads_back hvalid).1 "NAME".toList (by decide)

end Pkgtools
