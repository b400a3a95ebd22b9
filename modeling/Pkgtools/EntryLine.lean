import Pkgtools.SearchContents

namespace Pkgtools
open CLib
set_option autoImplicit true

/-- The readers on a single line: the state is what is left of the line before its newline, or
`none` behind the newline. They are undefined where the line ends before a token. -/
def lineReaders : FieldReaders (Option Str) where
  getc
    | some (c :: L) => some (c, some L)
    | some [] => some ('\n', none)
    | none => none
  getcNonspace q := q.bind fun L => match L.dropWhile isspace with
    | c :: M => some (c, some M)
    | [] => none
  ungetc _ := none
  getnum base bad q := q.bind fun L => match L.dropWhile isspace with
    | [] => none
    | c :: M =>
      if c = '?' then some ((false, some bad), some M)
      else if c.isDigit = false then some ((true, none), some (c :: M))
      else
        let ds := (c :: M).takeWhile Char.isDigit
        some ((false, some (digitsValue base ds)), some ((c :: M).drop ds.length))
  getstr n sep q := q.bind fun L => match L.dropWhile isspace with
    | [] => none
    | c :: M =>
      let tok := (c :: M).takeWhile fun c => !sep c
      if tok.length < n then some ((0, some tok), some ((c :: M).drop tok.length))
      else some ((-1, some (tok.take (n - 1))), some ((c :: M).drop n))
  getend q := q.bind fun L => some (L.any fun c => !isspace c, none)
  findend q := q.bind fun _ => some ((), none)

/-- The pointer has what is left of the line before it, and the next line starts at `N`. -/
def LineAt (N : Nat) (R : Str) : Option Str → Ptr → Prop
  | some L, p => p.rest = L ++ '\n' :: R ∧ p.pos + L.length + 1 = N ∧ '\n' ∉ L ∧ nul ∉ L
  | none, p => p.rest = R ∧ p.pos = N

/-- The pointer has moved on to `B` at least, with less than `F` bytes to go. -/
def Beyond (B F : Nat) (p : Ptr) : Prop := B ≤ p.pos ∧ p.rest.length < F

section Readers
variable {N : Nat} {R L : Str} {p : Ptr}

theorem LineAt.add (h : LineAt N R (some L) p) (hk : k ≤ L.length) :
    LineAt N R (some (L.drop k)) (p.add k) := by
  obtain ⟨hr, hp, hn, hz⟩ := h
  refine ⟨?_, ?_, fun hm => hn (List.mem_of_mem_drop hm), fun hm => hz (List.mem_of_mem_drop hm)⟩
  · rw [Ptr.add_rest, hr, List.drop_append_of_le_length hk]
  · rw [Ptr.add_pos, List.length_drop]
    omega

theorem LineAt.behind (h : LineAt N R (some L) p) :
    LineAt N R none (p.add (L.length + 1)) := by
  obtain ⟨hr, hp, hn, -⟩ := h
  refine ⟨?_, ?_⟩
  · rw [Ptr.add_rest, hr]
    simp [List.drop_append]
  · rw [Ptr.add_pos]
    omega

theorem takeWhile_append_stop {f : Char → Bool} (hd : f d = false) (s t : Str) :
    (s ++ d :: t).takeWhile f = s.takeWhile f := by
  induction s with
  | nil => simp [hd]
  | cons c s ih =>
    rw [List.cons_append, List.takeWhile_cons, List.takeWhile_cons, ih]

theorem dropWhile_split (h : L.dropWhile isspace = c :: M) :
    ∃ ws, L = ws ++ c :: M ∧ (∀ d ∈ ws, isspace d) ∧ isspace c = false := by
  refine ⟨L.takeWhile isspace, ?_, fun d hd => List.mem_takeWhile_imp hd, ?_⟩
  · rw [← h, List.takeWhile_append_dropWhile]
  · have := List.head_dropWhile_not isspace (l := L) (by rw [h]; exact List.cons_ne_nil _ _)
    simpa [h] using this

theorem LineAt.spaceLen_eq (h : LineAt N R (some (ws ++ c :: M)) p) (hws : ∀ d ∈ ws, isspace d)
    (hc : isspace c = false) : spaceLen p = ws.length := by
  rw [spaceLen, h.1, List.append_assoc, List.cons_append, takeWhile_append_cons hws hc]

/-- White space up to the end of the line runs on to the next line. -/
theorem LineAt.spaceLen_blank (h : LineAt N ('/' :: R) (some L) p) (hL : L.dropWhile isspace = []) :
    spaceLen p = L.length + 1 := by
  have hs : ∀ d ∈ L ++ ['\n'], isspace d := by
    intro d hd
    rcases List.mem_append.mp hd with hd | hd
    · exact List.dropWhile_eq_nil_iff.mp hL d hd
    · rw [List.mem_singleton.mp hd]
      rfl
  have hr : p.rest = (L ++ ['\n']) ++ '/' :: R := by
    rw [h.1, List.append_assoc, List.singleton_append]
  rw [spaceLen, hr, takeWhile_append_cons hs (by decide), List.length_append, List.length_singleton]

theorem LineAt.rest_ne_nil (h : LineAt N R (some L) p) : p.rest ≠ [] := by
  rw [h.1]
  simp

theorem LineAt.token (h : LineAt N R (some (ws ++ c :: M)) p) :
    LineAt N R (some (c :: M)) (p.add ws.length) := by
  have := h.add (k := ws.length) (by simp)
  rwa [List.drop_left] at this

theorem LineAt.next (h : LineAt N ('/' :: R) (some L) p) :
    (p.add (L.length + 1)).rest = '/' :: R ∧ (p.add (L.length + 1)).pos = N := h.behind

theorem add_rest_length (p : Ptr) (k : Nat) : (p.add k).rest.length ≤ p.rest.length := by
  rw [Ptr.add_rest, List.length_drop]
  exact Nat.sub_le _ _

theorem add_one_shorter (h : (p.add k).deref ≠ nul) :
    ((p.add k).add 1).rest.length < p.rest.length := by
  have hne : (p.add k).rest ≠ [] := by
    intro hnil
    exact h (by rw [Ptr.deref, hnil]; rfl)
  have hpos := List.length_pos_iff.mpr hne
  simp only [Ptr.add_rest, List.length_drop] at hpos ⊢
  omega

theorem Beyond.add (h : Beyond B F p) (k : Nat) : Beyond B F (p.add k) :=
  ⟨Nat.le_trans h.1 (Nat.le_add_right _ _), Nat.lt_of_le_of_lt (add_rest_length p k) h.2⟩

theorem findend_pos (p : Ptr) : ∃ k, findend p = p.add k := by
  rw [findend]
  split
  · exact ⟨0, rfl⟩
  · split
    · exact ⟨_, rfl⟩
    · exact ⟨_, rfl⟩

theorem findend_cons (c : Char) (h : p.rest = c :: s) : p.pos < (findend p).pos := by
  rw [findend, if_neg (by rw [h]; exact List.cons_ne_nil _ _)]
  split
  · rw [Ptr.add_pos]
    omega
  · rw [Ptr.add_pos, h, List.length_cons]
    omega

theorem getnum_pos (base bad : Int) (p : Ptr) : ∃ k, (getnum base bad p).2 = p.add k := by
  simp only [getnum]
  split
  · exact ⟨0, rfl⟩
  · split
    · exact ⟨_, rfl⟩
    · split
      · exact ⟨_, Ptr.add_add _ _ _⟩
      · split
        · exact ⟨_, rfl⟩
        · exact ⟨_, Ptr.add_add _ _ _⟩

theorem getstr_pos (n : Nat) (sep : Char → Bool) (p : Ptr) : ∃ k, (getstr n sep p).2 = p.add k := by
  simp only [getstr]
  split
  · exact ⟨0, rfl⟩
  · split
    · exact ⟨_, rfl⟩
    · split
      · exact ⟨_, Ptr.add_add _ _ _⟩
      · exact ⟨_, Ptr.add_add _ _ _⟩

theorem getend_pos (p : Ptr) : ∃ k, (getend p).2 = p.add k := by
  simp only [getend]
  split
  · exact ⟨0, rfl⟩
  · exact ⟨_, rfl⟩

end Readers

section Keeps
variable (B F : Nat)

theorem keeps_of_add {f : Ptr → α × Ptr} (hf : ∀ p, ∃ k, (f p).2 = p.add k) :
    Parse.Keeps (Beyond B F) (Parse.prim (fun p => some (f p)) : Parse Ptr ε α) := by
  apply Parse.Keeps.prim
  intro p hp
  obtain ⟨k, hk⟩ := hf p
  refine ⟨(f p).1, (f p).2, rfl, ?_⟩
  rw [hk]
  exact hp.add k

theorem keeps_getc : Parse.Keeps (Beyond B F) (Parse.prim bufferReaders.getc : Parse Ptr ε Char) :=
  keeps_of_add B F (f := fun p => (p.deref, p.add 1)) fun _ => ⟨1, rfl⟩

theorem keeps_getnum (base bad : Int) : Parse.Keeps (Beyond B F)
    (Parse.prim (bufferReaders.getnum base bad) : Parse Ptr ε (Bool × Option Int)) :=
  keeps_of_add B F (getnum_pos base bad)

theorem keeps_getstr (n : Nat) (sep : Char → Bool) : Parse.Keeps (Beyond B F)
    (Parse.prim (bufferReaders.getstr n sep) : Parse Ptr ε (Int × Option Str)) :=
  keeps_of_add B F (getstr_pos n sep)

theorem keeps_getend :
    Parse.Keeps (Beyond B F) (Parse.prim bufferReaders.getend : Parse Ptr ε Bool) :=
  keeps_of_add B F getend_pos

theorem keeps_findend :
    Parse.Keeps (Beyond B F) (Parse.prim bufferReaders.findend : Parse Ptr ε Unit) :=
  keeps_of_add B F (f := fun p => ((), findend p)) findend_pos

theorem keeps_failAtEnd (errstr : String) (ept : Cfent) :
    Parse.Keeps (Beyond B F) (failAtEnd bufferReaders errstr ept : Parse Ptr Fail α) :=
  (keeps_findend B F).bind fun _ => Parse.Keeps.raise _

theorem keeps_numField (base bad : Int) (store : Int → Cfent → Cfent) (errstr : String)
    (ept : Cfent) :
    Parse.Keeps (Beyond B F) (numField bufferReaders base bad store errstr ept) := by
  apply (keeps_getnum B F base bad).bind
  rintro ⟨failed, v⟩
  exact Parse.Keeps.ite (keeps_failAtEnd B F _ _) (Parse.Keeps.ret _)

theorem keeps_strField (n : Nat) (store : Str → Cfent → Cfent) (errstr : String) (ept : Cfent) :
    Parse.Keeps (Beyond B F) (strField bufferReaders n store errstr ept) := by
  apply (keeps_getstr B F n isWordSep).bind
  rintro ⟨c, v⟩
  exact Parse.Keeps.ite (keeps_failAtEnd B F _ _) (Parse.Keeps.ret _)

/-- What `readType` does with the type character, if it is no NUL or nothing is held to. -/
theorem keeps_ftype (ept : Cfent) (c : Char) (hc : c ≠ nul ∨ B = 0) (p : Ptr) (hp : Beyond B F p) :
    ∃ r p', (if isFtype c then
        strField bufferReaders clssiz (fun s e => { e with pkgClass := s })
          "unable to read class token" { ept with ftype := c }
      else if c = nul then do
        let _ ← Parse.prim bufferReaders.ungetc
        Parse.raise ⟨"incomplete entry".toList, ept⟩
      else if c.isDigit then failAtEnd bufferReaders "volume number not expected" ept
      else if c = 'i' then failAtEnd bufferReaders "ftype <i> not expected" ept
      else failAtEnd bufferReaders "unknown ftype" ept : Parse Ptr Fail Cfent) p = some (r, p') ∧
      Beyond B F p' := by
  split
  · exact keeps_strField B F _ _ _ _ _ hp
  · split
    · rename_i hnul
      rcases hc with hc | rfl
      · exact absurd hnul hc
      · exact ⟨_, _, rfl, Nat.zero_le _, hp.2⟩
    · split
      · exact keeps_failAtEnd B F _ _ _ hp
      · split
        · exact keeps_failAtEnd B F _ _ _ hp
        · exact keeps_failAtEnd B F _ _ _ hp

/-- The one step back, over a NUL, is made after a step forward. -/
theorem keeps_readType (ept : Cfent) :
    Parse.Keeps (Beyond B F) (readType bufferReaders ept) := by
  intro p hp
  have hq : Beyond B F (p.add (spaceLen p + 1)) := hp.add _
  have hread : (Parse.prim bufferReaders.getcNonspace : Parse Ptr Fail Char) p =
      some (.ok (p.add (spaceLen p)).deref, p.add (spaceLen p + 1)) := rfl
  rw [readType, Parse.bind_ok hread]
  by_cases hc : (p.add (spaceLen p)).deref = nul
  · rw [hc]
    have := hp.1
    refine ⟨_, _, rfl, ?_, hq.2⟩
    change B ≤ p.pos + (spaceLen p + 1) - 1
    omega
  · exact keeps_ftype B F ept _ (.inl hc) _ hq

theorem keeps_readDevice (ept : Cfent) :
    Parse.Keeps (Beyond B F) (readDevice bufferReaders ept) :=
  (keeps_numField B F _ _ _ _ _).bind fun _ => keeps_numField B F _ _ _ _ _

theorem keeps_readAttrs (ept : Cfent) :
    Parse.Keeps (Beyond B F) (readAttrs bufferReaders ept) :=
  (keeps_numField B F _ _ _ _ _).bind fun _ =>
    (keeps_strField B F _ _ _ _).bind fun _ => keeps_strField B F _ _ _ _

theorem keeps_readContent (ept : Cfent) :
    Parse.Keeps (Beyond B F) (readContent bufferReaders ept) :=
  (keeps_numField B F _ _ _ _ _).bind fun _ =>
    (keeps_numField B F _ _ _ _ _).bind fun _ => keeps_numField B F _ _ _ _ _

theorem readPkgSuffix_ends (pinfo : Pinfo) (classname : Str) (p : Ptr) :
    ∃ k x, readPkgSuffix bufferReaders pinfo classname p =
      some (.ok ((p.add k).deref, x), (p.add k).add 1) := by
  have hgetc (q : Ptr) : (Parse.prim bufferReaders.getc : Parse Ptr Fail Char) q =
      some (.ok q.deref, q.add 1) := rfl
  have hedit : ∃ k y, (Parse.onlyIf (p.deref = '\\') (readEditflag bufferReaders) (p.deref, pinfo))
      (p.add 1) = some (.ok ((p.add k).deref, y), (p.add k).add 1) := by
    rw [Parse.onlyIf]
    split
    · exact ⟨1, _, rfl⟩
    · exact ⟨0, _, rfl⟩
  obtain ⟨k, y, hk⟩ := hedit
  rw [readPkgSuffix, Parse.bind_ok (hgetc p), Parse.bind_ok hk]
  change ∃ k' x, (Parse.onlyIf ((p.add k).deref = ':') (readAclass bufferReaders)
    ((p.add k).deref, y, classname)) ((p.add k).add 1) = _
  rw [Parse.onlyIf]
  split
  · obtain ⟨j, hj⟩ := getstr_pos (clssiz + 1) isWordSep ((p.add k).add 1)
    have hs : (Parse.prim (bufferReaders.getstr (clssiz + 1) isWordSep) :
        Parse Ptr Fail (Int × Option Str)) ((p.add k).add 1) =
        some (.ok (getstr (clssiz + 1) isWordSep ((p.add k).add 1)).1, p.add (k + 1 + j)) := by
      rw [show p.add (k + 1 + j) = (getstr (clssiz + 1) isWordSep ((p.add k).add 1)).2 by
        rw [hj, Ptr.add_add, Ptr.add_add, Nat.add_assoc]]
      rfl
    rw [readAclass, Parse.bind_ok hs]
    exact ⟨k + 1 + j, _, rfl⟩
  · exact ⟨k, _, rfl⟩

/-- A round of the package loop consumes a character before the next one. -/
theorem keeps_readPackage {next : Str → Cfent → Parse Ptr Fail Cfent} (classname : Str)
    (ept : Cfent) (x : Int × Option Str) (p : Ptr) (hp : Beyond B F p)
    (hnext : ∀ classname ept p', Beyond B F p' → p'.rest.length < p.rest.length →
      ∃ r p'', next classname ept p' = some (r, p'') ∧ Beyond B F p'') :
    ∃ r p', readPackage bufferReaders next classname ept x p = some (r, p') ∧ Beyond B F p' := by
  rw [readPackage]
  split
  · exact keeps_failAtEnd B F _ _ _ hp
  · split
    · refine ((keeps_getend B F).bind fun _ => ?_) _ hp
      exact Parse.Keeps.ite (Parse.Keeps.raise _) (Parse.Keeps.ret _)
    · obtain ⟨j, y, hy⟩ := readPkgSuffix_ends (newPinfo (x.2.getD [])) classname p
      rw [Parse.bind_ok hy]
      have hq := (hp.add j).add 1
      simp only
      split
      · exact ⟨_, _, rfl, hq⟩
      · split
        · exact keeps_failAtEnd B F _ _ _ hq
        · rename_i hnul _
          exact hnext _ _ _ hq (add_one_shorter fun hnil => hnul (.inr hnil))

/-- With more fuel than bytes to go the package list comes to an end. -/
theorem readPackages_keeps (f : Nat) (classname : Str) (ept : Cfent) (p : Ptr)
    (hp : Beyond B F p) (hf : p.rest.length < f) :
    ∃ r p', readPackages bufferReaders f classname ept p = some (r, p') ∧ Beyond B F p' := by
  induction f generalizing classname ept p with
  | zero => exact absurd hf (Nat.not_lt_zero _)
  | succ f ih =>
    obtain ⟨k, hk⟩ := getstr_pos (pkgsiz + 1) isPkgNameSep p
    have hread : (Parse.prim (bufferReaders.getstr (pkgsiz + 1) isPkgNameSep) :
        Parse Ptr Fail (Int × Option Str)) p =
        some (.ok (getstr (pkgsiz + 1) isPkgNameSep p).1, p.add k) := by
      rw [← hk]
      rfl
    rw [readPackages, Parse.bind_ok hread]
    refine keeps_readPackage B F classname ept _ _ (hp.add k) ?_
    intro classname ept p' hp' hlt
    have := add_rest_length p k
    exact ih classname ept p' hp' (by omega)

theorem keeps_readPackages (classname : Str) (ept : Cfent) :
    Parse.Keeps (Beyond B F) (readPackages bufferReaders F classname ept) := by
  intro p hp
  exact readPackages_keeps B F F classname ept p hp hp.2

theorem keeps_readLast (classname : Str) (ept : Cfent) :
    Parse.Keeps (Beyond B F) (readLast bufferReaders F classname ept) := by
  apply Parse.Keeps.ite
  · apply (keeps_getend B F).bind
    intro extra
    exact Parse.Keeps.ite (Parse.Keeps.raise _) (Parse.Keeps.ret _)
  · exact keeps_readPackages B F _ _

theorem keeps_readFields (classname : Str) (ept : Cfent) :
    Parse.Keeps (Beyond B F) (readFields bufferReaders F classname ept) := by
  apply Parse.Keeps.ite
  · exact keeps_failAtEnd B F _ _
  · apply (Parse.Keeps.onlyIf (keeps_readDevice B F _)).bind
    intro ept
    apply (Parse.Keeps.onlyIf (keeps_readAttrs B F _)).bind
    intro ept
    exact (Parse.Keeps.onlyIf (keeps_readContent B F _)).bind (keeps_readLast B F classname)

theorem keeps_readEntry (classname : Str) (rdpath : Bool) (c : Char) (ept : Cfent) :
    Parse.Keeps (Beyond B F) (readEntry bufferReaders F classname rdpath c ept) := by
  apply (Parse.Keeps.onlyIf ((keeps_strField B F _ _ _ _).mapError _)).bind
  intro ept
  apply (Parse.Keeps.onlyIf (keeps_readType B F ept)).bind
  exact keeps_readFields B F classname

end Keeps

/-- The two states of `LineAt`, with less than `F` bytes to go. -/
def OnLine (N F : Nat) (R : Str) (q : Option Str) (p : Ptr) : Prop :=
  LineAt N R q p ∧ p.rest.length < F

section Follows
variable {N B F : Nat} {R : Str}

theorem OnLine.add (h : OnLine N F R (some L) p) (hk : k ≤ L.length) :
    OnLine N F R (some (L.drop k)) (p.add k) :=
  ⟨h.1.add hk, Nat.lt_of_le_of_lt (add_rest_length p k) h.2⟩

theorem OnLine.behind (h : OnLine N F R (some L) p) : OnLine N F R none (p.add (L.length + 1)) :=
  ⟨h.1.behind, Nat.lt_of_le_of_lt (add_rest_length p _) h.2⟩

theorem OnLine.token {ws : Str} (h : OnLine N F R (some (ws ++ c :: M)) p) :
    OnLine N F R (some (c :: M)) (p.add ws.length) := by
  have := h.add (k := ws.length) (by simp)
  rwa [List.drop_left] at this

/-- What a reader is held to that runs over the end of the line: nothing, or that it moves into the
next line, which then starts with a path. -/
def Overrun (N B : Nat) (R : Str) : Prop := B = 0 ∨ B = N + 1 ∧ ∃ R', R = '/' :: R'

theorem OnLine.beyond (hB : Overrun N B R) (h : OnLine N F R q p)
    (hk : ∀ R', R = '/' :: R' → N + 1 ≤ p.pos + k) : Beyond B F (p.add k) := by
  refine ⟨?_, ?_⟩
  · rcases hB with rfl | ⟨rfl, R', hR⟩
    · exact Nat.zero_le _
    · exact hk R' hR
  · exact Nat.lt_of_le_of_lt (add_rest_length p k) h.2

theorem follows_getc (hB : Overrun N B R) : Parse.Follows (OnLine N F R) (Beyond B F)
    (Parse.prim bufferReaders.getc : Parse Ptr ε Char) (Parse.prim lineReaders.getc) := by
  apply Parse.Follows.prim
  intro q p h
  match q with
  | some (c :: L) =>
    refine ⟨?_, fun hn => by cases hn⟩
    intro a q' ha
    obtain ⟨rfl, rfl⟩ := Prod.mk.inj (Option.some.inj ha)
    refine ⟨p.add 1, ?_, h.add (k := 1) (by simp)⟩
    simp only [bufferReaders, Ptr.deref, h.1.1, List.cons_append, List.headD_cons]
  | some [] =>
    refine ⟨?_, fun hn => by cases hn⟩
    intro a q' ha
    obtain ⟨rfl, rfl⟩ := Prod.mk.inj (Option.some.inj ha)
    refine ⟨p.add 1, ?_, h.behind⟩
    simp only [bufferReaders, Ptr.deref, h.1.1, List.nil_append, List.headD_cons]
  | none =>
    refine ⟨fun a q' ha => (by cases ha), ?_⟩
    intro _
    refine ⟨_, _, rfl, h.beyond hB fun R' hR => ?_⟩
    rw [h.1.2]

theorem follows_findend (hB : Overrun N B R) : Parse.Follows (OnLine N F R) (Beyond B F)
    (Parse.prim bufferReaders.findend : Parse Ptr ε Unit) (Parse.prim lineReaders.findend) := by
  apply Parse.Follows.prim
  intro q p h
  match q with
  | some L =>
    refine ⟨?_, fun hn => by cases hn⟩
    intro a q' ha
    obtain ⟨rfl, rfl⟩ := Prod.mk.inj (Option.some.inj ha)
    have hf : p.findNewline = some L.length := by
      have := findNewline_append h.1.2.2.1 p.pos R
      rwa [← h.1.1] at this
    have he : findend p = p.add (L.length + 1) := by
      rw [findend, if_neg h.1.rest_ne_nil, hf]
    exact ⟨p.add (L.length + 1), by rw [← he]; rfl, h.behind⟩
  | none =>
    refine ⟨fun a q' ha => (by cases ha), ?_⟩
    intro _
    obtain ⟨k, hk⟩ := findend_pos p
    refine ⟨(), p.add k, by rw [← hk]; rfl, h.beyond hB fun R' hR => ?_⟩
    have hlt := findend_cons '/' (h.1.1.trans hR)
    rw [hk, Ptr.add_pos, h.1.2] at hlt
    rw [h.1.2]
    exact hlt

def Exhausted (q : Option Str) : Prop := ∀ L, q = some L → L.dropWhile isspace = []

/-- A reader that skips white space first finds a token on the line, or the next line. -/
theorem OnLine.split (h : OnLine N F R q p) :
    (Exhausted q ∧ ∀ R', R = '/' :: R' → p.rest ≠ [] ∧ (p.add (spaceLen p)).rest = '/' :: R' ∧
      p.pos + spaceLen p = N) ∨
    ∃ ws c M, q = some (ws ++ c :: M) ∧ (ws ++ c :: M).dropWhile isspace = c :: M ∧
      p.rest ≠ [] ∧ isspace c = false ∧ OnLine N F R (some (c :: M)) (p.add (spaceLen p)) := by
  match q with
  | none =>
    refine .inl ⟨fun L hL => (by cases hL), fun R' hR => ?_⟩
    have hr : p.rest = '/' :: R' := h.1.1.trans hR
    have hs : spaceLen p = 0 := by rw [spaceLen, hr]; rfl
    rw [hs, Ptr.add_zero, hr]
    exact ⟨List.cons_ne_nil _ _, rfl, h.1.2⟩
  | some L =>
    cases hL : L.dropWhile isspace with
    | nil =>
      refine .inl ⟨fun L' hL' => by rw [← Option.some.inj hL', hL], fun R' hR => ?_⟩
      subst hR
      rw [h.1.spaceLen_blank hL]
      exact ⟨h.1.rest_ne_nil, h.1.next.1, h.1.next.2⟩
    | cons c M =>
      obtain ⟨ws, rfl, hws, hc⟩ := dropWhile_split hL
      refine .inr ⟨ws, c, M, rfl, hL, h.1.rest_ne_nil, hc, ?_⟩
      rw [h.1.spaceLen_eq hws hc]
      exact h.token

theorem follows_getcNonspace (hB : Overrun N B R) : Parse.Follows (OnLine N F R) (Beyond B F)
    (Parse.prim bufferReaders.getcNonspace : Parse Ptr ε Char)
    (Parse.prim lineReaders.getcNonspace) := by
  apply Parse.Follows.prim
  intro q p h
  rcases h.split with ⟨hq, hnext⟩ | ⟨ws, c, M, rfl, hL, hr, hc, ht⟩
  · have hnone : lineReaders.getcNonspace q = none := by
      cases q with
      | none => rfl
      | some L => simp [lineReaders, hq L rfl]
    refine ⟨fun a q' ha => ?_, fun _ => ⟨_, _, rfl, h.beyond hB fun R' hR => ?_⟩⟩
    · rw [hnone] at ha
      cases ha
    · obtain ⟨-, -, hp⟩ := hnext R' hR
      omega
  · have hsome : lineReaders.getcNonspace (some (ws ++ c :: M)) = some (c, some M) := by
      simp only [lineReaders, Option.bind_some, hL]
    refine ⟨fun a q' ha => ?_, fun hn => ?_⟩
    · rw [hsome, Option.some.injEq, Prod.mk.injEq] at ha
      obtain ⟨rfl, rfl⟩ := ha
      refine ⟨(p.add (spaceLen p)).add 1, ?_, ht.add (k := 1) (by simp)⟩
      simp only [bufferReaders, getcNonspace, Ptr.add_add, Option.some.injEq, Prod.mk.injEq,
        and_true]
      rw [Ptr.deref, ht.1.1]
      rfl
    · rw [hsome] at hn
      cases hn

theorem follows_getstr (hB : Overrun N B R) (n : Nat) (hn : 0 < n) (hsep : sep '\n' = true)
    (hslash : sep '/' = false) : Parse.Follows (OnLine N F R) (Beyond B F)
    (Parse.prim (bufferReaders.getstr n sep) : Parse Ptr ε (Int × Option Str))
    (Parse.prim (lineReaders.getstr n sep)) := by
  apply Parse.Follows.prim
  intro q p h
  have hrun : bufferReaders.getstr n sep p = some (getstr n sep p) := rfl
  rcases h.split with ⟨hq, hnext⟩ | ⟨ws, c, M, rfl, hL, hr, hc, ht⟩
  · have hnone : lineReaders.getstr n sep q = none := by
      cases q with
      | none => rfl
      | some L => simp [lineReaders, hq L rfl]
    obtain ⟨k, hk⟩ := getstr_pos n sep p
    refine ⟨fun a q' ha => ?_, fun _ => ⟨(getstr n sep p).1, p.add k, ?_, ?_⟩⟩
    · rw [hnone] at ha
      cases ha
    · rw [hrun, ← hk]
    · refine h.beyond hB fun R' hR => ?_
      obtain ⟨hne, hrest, hp⟩ := hnext R' hR
      -- the token read from the next line is not empty
      have hpos : N + 1 ≤ (getstr n sep p).2.pos := by
        simp only [getstr, if_neg hne, hrest, List.cons_ne_nil, if_false, List.takeWhile_cons,
          hslash, Bool.not_false, if_true, List.length_cons]
        split <;> simp only [Ptr.add_pos] <;> omega
      rwa [hk, Ptr.add_pos] at hpos
  · have htok : (p.add (spaceLen p)).rest.takeWhile (fun c => !sep c) =
        (c :: M).takeWhile fun c => !sep c := by
      rw [ht.1.1]
      exact takeWhile_append_stop (by simp [hsep]) _ _
    have hle : ((c :: M).takeWhile fun c => !sep c).length ≤ (c :: M).length :=
      (List.takeWhile_sublist _).length_le
    refine ⟨fun a q' ha => ?_, fun hn => ?_⟩
    · simp only [lineReaders, Option.bind_some, hL] at ha
      simp only [hrun, getstr, if_neg hr, if_neg ht.1.rest_ne_nil, htok]
      split at ha
      · rename_i hlt
        simp only [Option.some.injEq, Prod.mk.injEq] at ha
        obtain ⟨rfl, rfl⟩ := ha
        exact ⟨_, by rw [if_pos hlt], ht.add hle⟩
      · rename_i hlt
        simp only [Option.some.injEq, Prod.mk.injEq] at ha
        obtain ⟨rfl, rfl⟩ := ha
        exact ⟨_, by rw [if_neg hlt], ht.add (by omega)⟩
    · simp only [lineReaders, Option.bind_some, hL] at hn
      split at hn <;> cases hn

theorem follows_failAtEnd (hB : Overrun N B R) (errstr : String) (ept : Cfent) :
    Parse.Follows (OnLine N F R) (Beyond B F) (failAtEnd bufferReaders errstr ept : Parse _ _ α)
      (failAtEnd lineReaders errstr ept) :=
  (follows_findend hB).bind (fun _ => Parse.Follows.raise _) (fun _ => Parse.Keeps.raise _)

/-- A number that is missing on the line is a failure where the next line starts with a path. -/
theorem follows_numField (hB : Overrun N B R) (base bad : Int) (store : Int → Cfent → Cfent)
    (errstr : String) (ept : Cfent) : Parse.Follows (OnLine N F R) (Beyond B F)
      (numField bufferReaders base bad store errstr ept)
      (numField lineReaders base bad store errstr ept) := by
  intro q p h
  have hrun : (Parse.prim (bufferReaders.getnum base bad) : Parse Ptr Fail _) p =
      some (.ok (getnum base bad p).1, (getnum base bad p).2) := rfl
  rcases h.split with ⟨hq, hnext⟩ | ⟨ws, c, M, rfl, hL, hr, hc, ht⟩
  · have hnone : (Parse.prim (lineReaders.getnum base bad) : Parse _ Fail _) q = none := by
      apply Parse.prim_none
      cases q with
      | none => rfl
      | some L => simp [lineReaders, hq L rfl]
    rw [Parse.FollowsAt, numField, numField, Parse.bind_none hnone]
    refine ⟨fun r q' hr => (by cases hr), fun _ => ?_⟩
    rcases hB with rfl | ⟨rfl, R', hR⟩
    · exact keeps_numField 0 F base bad store errstr ept p ⟨Nat.zero_le _, h.2⟩
    · obtain ⟨hne, hrest, hp⟩ := hnext R' hR
      have hnum : getnum base bad p = ((true, none), p.add (spaceLen p)) := by
        simp only [getnum, if_neg hne, hrest]
        rfl
      rw [Parse.bind_ok hrun, hnum]
      have hlt := findend_cons '/' hrest
      obtain ⟨k, hk⟩ := findend_pos (p.add (spaceLen p))
      refine ⟨_, findend (p.add (spaceLen p)), rfl, ?_, ?_⟩
      · rw [Ptr.add_pos] at hlt
        omega
      · rw [hk, Ptr.add_add]
        exact Nat.lt_of_le_of_lt (add_rest_length p _) h.2
  · -- the line and the buffer read the same number
    have hds : (c :: (M ++ '\n' :: R)).takeWhile Char.isDigit = (c :: M).takeWhile Char.isDigit :=
      takeWhile_append_stop (by decide) (c :: M) R
    have hle : ((c :: M).takeWhile Char.isDigit).length ≤ (c :: M).length :=
      (List.takeWhile_sublist _).length_le
    have hrest : (p.add (spaceLen p)).rest = c :: (M ++ '\n' :: R) := ht.1.1
    have hsame : ∃ x q' , lineReaders.getnum base bad (some (ws ++ c :: M)) = some (x, q') ∧
        (getnum base bad p).1 = x ∧ OnLine N F R q' (getnum base bad p).2 := by
      simp only [lineReaders, Option.bind_some, hL, getnum, if_neg hr, hrest, hds]
      by_cases hq : c = '?'
      · simp only [if_pos hq]
        exact ⟨_, _, rfl, rfl, ht.add (k := 1) (by simp)⟩
      · simp only [if_neg hq]
        by_cases hd : c.isDigit = false
        · simp only [if_pos hd]
          exact ⟨_, _, rfl, rfl, ht⟩
        · simp only [if_neg hd]
          exact ⟨_, _, rfl, rfl, ht.add hle⟩
    obtain ⟨x, q', hx, hx', hon⟩ := hsame
    rw [Parse.FollowsAt, numField, numField, Parse.bind_ok hrun,
      Parse.bind_ok (Parse.prim_some hx), hx']
    exact Parse.Follows.ite (fun _ => follows_failAtEnd hB _ _) (fun _ => Parse.Follows.ret _)
      _ _ hon

theorem follows_strField (hB : Overrun N B R) (n : Nat) (hn : 0 < n) (store : Str → Cfent → Cfent)
    (errstr : String) (ept : Cfent) : Parse.Follows (OnLine N F R) (Beyond B F)
      (strField bufferReaders n store errstr ept) (strField lineReaders n store errstr ept) := by
  apply (follows_getstr hB n hn (by decide) (by decide)).bind
  · rintro ⟨c, v⟩
    exact Parse.Follows.ite (fun _ => follows_failAtEnd hB _ _) (fun _ => Parse.Follows.ret _)
  · rintro ⟨c, v⟩
    exact Parse.Keeps.ite (keeps_failAtEnd B F _ _) (Parse.Keeps.ret _)

theorem follows_readDevice (hB : Overrun N B R) (ept : Cfent) :
    Parse.Follows (OnLine N F R) (Beyond B F) (readDevice bufferReaders ept)
      (readDevice lineReaders ept) :=
  (follows_numField hB _ _ _ _ _).bind (fun _ => follows_numField hB _ _ _ _ _)
    (fun _ => keeps_numField B F _ _ _ _ _)

theorem follows_readAttrs (hB : Overrun N B R) (ept : Cfent) :
    Parse.Follows (OnLine N F R) (Beyond B F) (readAttrs bufferReaders ept)
      (readAttrs lineReaders ept) := by
  apply (follows_numField hB _ _ _ _ _).bind
  · intro ept
    exact (follows_strField hB _ (by decide) _ _ _).bind
      (fun _ => follows_strField hB _ (by decide) _ _ _) (fun _ => keeps_strField B F _ _ _ _)
  · intro ept
    exact (keeps_strField B F _ _ _ _).bind fun _ => keeps_strField B F _ _ _ _

theorem follows_readContent (hB : Overrun N B R) (ept : Cfent) :
    Parse.Follows (OnLine N F R) (Beyond B F) (readContent bufferReaders ept)
      (readContent lineReaders ept) := by
  apply (follows_numField hB _ _ _ _ _).bind
  · intro ept
    exact (follows_numField hB _ _ _ _ _).bind
      (fun _ => follows_numField hB _ _ _ _ _) (fun _ => keeps_numField B F _ _ _ _ _)
  · intro ept
    exact (keeps_numField B F _ _ _ _ _).bind fun _ => keeps_numField B F _ _ _ _ _

theorem lineReaders_getcNonspace_ne_nul (h : OnLine N F R q p)
    (hc : (Parse.prim lineReaders.getcNonspace : Parse _ Fail Char) q = some (.ok c, q')) :
    c ≠ nul := by
  obtain ⟨⟨d, q''⟩, hd, he⟩ := Option.map_eq_some_iff.mp hc
  simp only [Prod.mk.injEq, Except.ok.injEq] at he
  obtain ⟨rfl, rfl⟩ := he
  rcases h.split with ⟨hq, -⟩ | ⟨ws, c, M, rfl, hL, -, -, ht⟩
  · cases q with
    | none => cases hd
    | some L => simp [lineReaders, hq L rfl] at hd
  · simp only [lineReaders, Option.bind_some, hL, Option.some.injEq, Prod.mk.injEq] at hd
    rintro rfl
    exact ht.1.2.2.2 (hd.1 ▸ List.mem_cons_self)

theorem follows_readType (hB : Overrun N B R) (ept : Cfent) :
    Parse.Follows (OnLine N F R) (Beyond B F) (readType bufferReaders ept)
      (readType lineReaders ept) := by
  intro q p h
  apply (follows_getcNonspace hB q p h).bind
  · intro c q' p' hc _
    have hne := lineReaders_getcNonspace_ne_nul h hc
    have hf : Parse.Follows (OnLine N F R) (Beyond B F) _ _ := Parse.Follows.ite
      (p := isFtype c) (fun _ => follows_strField hB clssiz (by decide)
        (fun s e => { e with pkgClass := s }) "unable to read class token" { ept with ftype := c })
      (fun _ => Parse.Follows.ite (p := c.isDigit)
        (fun _ => follows_failAtEnd hB "volume number not expected" ept)
        (fun _ => Parse.Follows.ite (p := c = 'i')
          (fun _ => follows_failAtEnd hB "ftype <i> not expected" ept)
          (fun _ => follows_failAtEnd hB "unknown ftype" ept)))
    simp only [if_neg hne]
    exact hf q' p'
  · intro c p' hq hc hp'
    refine keeps_ftype B F ept c ?_ p' hp'
    rcases hB with hB | ⟨-, R', hR⟩
    · exact .inr hB
    · -- the next line starts with a slash
      left
      have hc' : c = (p.add (spaceLen p)).deref := by
        have := Option.some.inj hc
        simp only [Prod.mk.injEq, Except.ok.injEq] at this
        exact this.1.symm
      rcases h.split with ⟨-, hnext⟩ | ⟨ws, d, M, rfl, hL, -⟩
      · rw [hc', Ptr.deref, (hnext R' hR).2.1]
        exact (by decide : '/' ≠ nul)
      · simp [Parse.prim, lineReaders, hL] at hq

theorem follows_readPkgSuffix (hB : Overrun N B R) (pinfo : Pinfo) (classname : Str) :
    Parse.Follows (OnLine N F R) (Beyond B F) (readPkgSuffix bufferReaders pinfo classname)
      (readPkgSuffix lineReaders pinfo classname) := by
  have hclass (x : Char × Pinfo × Str) : Parse.Follows (OnLine N F R) (Beyond B F)
      (readAclass bufferReaders x) (readAclass lineReaders x) := by
    apply (follows_getstr hB _ (by decide) (by decide) (by decide)).bind
    · rintro ⟨_, v⟩
      exact (follows_getc hB).bind (fun _ => Parse.Follows.ret _) (fun _ => Parse.Keeps.ret _)
    · rintro ⟨_, v⟩
      exact (keeps_getc B F).bind fun _ => Parse.Keeps.ret _
  have hkclass (x : Char × Pinfo × Str) :
      Parse.Keeps (Beyond B F) (readAclass bufferReaders x) := by
    apply (keeps_getstr B F _ _).bind
    rintro ⟨_, v⟩
    exact (keeps_getc B F).bind fun _ => Parse.Keeps.ret _
  have hedit (x : Char × Pinfo) : Parse.Follows (OnLine N F R) (Beyond B F)
      (readEditflag bufferReaders x) (readEditflag lineReaders x) :=
    (follows_getc hB).bind (fun _ => Parse.Follows.ret _) (fun _ => Parse.Keeps.ret _)
  apply (follows_getc hB).bind
  · intro c
    apply (Parse.Follows.onlyIf (hedit _)).bind
    · rintro ⟨c, pinfo⟩
      exact Parse.Follows.onlyIf (hclass _)
    · rintro ⟨c, pinfo⟩
      exact Parse.Keeps.onlyIf (hkclass _)
  · intro c
    apply Parse.Keeps.bind
    · exact Parse.Keeps.onlyIf ((keeps_getc B F).bind fun _ => Parse.Keeps.ret _)
    · rintro ⟨c, pinfo⟩
      exact Parse.Keeps.onlyIf (hkclass _)

theorem follows_getend (hB : Overrun N B R) : Parse.Follows (OnLine N F R) (Beyond B F)
    (Parse.prim bufferReaders.getend : Parse Ptr ε Bool) (Parse.prim lineReaders.getend) := by
  apply Parse.Follows.prim
  intro q p h
  match q with
  | some L =>
    refine ⟨?_, fun hn => by cases hn⟩
    intro a q' ha
    obtain ⟨rfl, rfl⟩ := Prod.mk.inj (Option.some.inj ha)
    have hline : p.rest.takeWhile (· != '\n') = L := by
      rw [h.1.1]
      refine takeWhile_append_cons (fun c hc => ?_) (by decide) R
      simp only [bne_iff_ne, ne_eq]
      rintro rfl
      exact h.1.2.2.1 hc
    refine ⟨p.add (L.length + 1), ?_, h.behind⟩
    simp only [bufferReaders, getend, if_neg h.1.rest_ne_nil, hline]
  | none =>
    refine ⟨fun a q' ha => (by cases ha), ?_⟩
    intro _
    obtain ⟨k, hk⟩ := getend_pos p
    refine ⟨(getend p).1, p.add k, by rw [← hk]; rfl, h.beyond hB fun R' hR => ?_⟩
    have hr : p.rest = '/' :: R' := h.1.1.trans hR
    have hpos : (getend p).2.pos = p.pos + k := by rw [hk, Ptr.add_pos]
    rw [← hpos, h.1.2.symm]
    simp only [getend, hr, List.cons_ne_nil, if_false, Ptr.add_pos]
    omega

theorem follows_readPackage (hB : Overrun N B R) {next : Str → Cfent → Parse Ptr Fail Cfent}
    {next' : Str → Cfent → Parse (Option Str) Fail Cfent} (classname : Str) (ept : Cfent)
    (x : Int × Option Str) (h : OnLine N F R q p)
    (hnext : ∀ classname ept q' p', OnLine N F R q' p' → p'.rest.length < p.rest.length →
      Parse.FollowsAt (OnLine N F R) (Beyond B F) (next classname ept) (next' classname ept) q' p')
    (hkeep : ∀ classname ept p', Beyond B F p' → p'.rest.length < p.rest.length →
      ∃ r p'', next classname ept p' = some (r, p'') ∧ Beyond B F p'') :
    Parse.FollowsAt (OnLine N F R) (Beyond B F) (readPackage bufferReaders next classname ept x)
      (readPackage lineReaders next' classname ept x) q p := by
  rw [readPackage, readPackage]
  by_cases h₁ : x.1 < 0
  · rw [if_pos h₁, if_pos h₁]
    exact follows_failAtEnd hB _ _ q p h
  · rw [if_neg h₁, if_neg h₁]
    by_cases h₂ : x.1 > 0
    · rw [if_pos h₂, if_pos h₂]
      refine Parse.Follows.bind (follows_getend hB) (fun extra => ?_) (fun extra => ?_) q p h
      · exact Parse.Follows.ite (fun _ => Parse.Follows.raise _) (fun _ => Parse.Follows.ret _)
      · exact Parse.Keeps.ite (Parse.Keeps.raise _) (Parse.Keeps.ret _)
    · rw [if_neg h₂, if_neg h₂]
      obtain ⟨j, y, hy⟩ := readPkgSuffix_ends (newPinfo (x.2.getD [])) classname p
      apply (follows_readPkgSuffix hB _ _ q p h).bind
      · rintro ⟨c, pinfo, classname'⟩ q' p' - hm hon
        obtain ⟨hc, rfl⟩ : (p.add j).deref = c ∧ (p.add j).add 1 = p' := by
          have := Option.some.inj (hy.symm.trans hm)
          simp only [Prod.mk.injEq, Except.ok.injEq] at this
          exact ⟨this.1.1, this.2⟩
        simp only
        by_cases h₃ : c = '\n' ∨ c = nul
        · rw [if_pos h₃, if_pos h₃]
          exact Parse.Follows.ret _ _ _ hon
        · rw [if_neg h₃, if_neg h₃]
          by_cases h₄ : isspace c = false
          · rw [if_pos h₄, if_pos h₄]
            exact follows_failAtEnd hB _ _ _ _ hon
          · rw [if_neg h₄, if_neg h₄]
            refine hnext _ _ _ _ hon (add_one_shorter ?_)
            rw [hc]
            exact fun hn => h₃ (.inr hn)
      · rintro ⟨c, pinfo, classname'⟩ p' - hm hb
        obtain ⟨hc, rfl⟩ : (p.add j).deref = c ∧ (p.add j).add 1 = p' := by
          have := Option.some.inj (hy.symm.trans hm)
          simp only [Prod.mk.injEq, Except.ok.injEq] at this
          exact ⟨this.1.1, this.2⟩
        simp only
        split
        · exact ⟨_, _, rfl, hb⟩
        · split
          · exact keeps_failAtEnd B F _ _ _ hb
          · rename_i hnul _
            refine hkeep _ _ _ hb (add_one_shorter ?_)
            rw [hc]
            exact fun hn => hnul (.inr hn)

theorem follows_readPackages (hB : Overrun N B R) (f : Nat) (classname : Str) (ept : Cfent)
    (h : OnLine N F R q p) (hf : p.rest.length < f) :
    Parse.FollowsAt (OnLine N F R) (Beyond B F) (readPackages bufferReaders f classname ept)
      (readPackages lineReaders f classname ept) q p := by
  induction f generalizing classname ept q p with
  | zero => exact absurd hf (Nat.not_lt_zero _)
  | succ f ih =>
    obtain ⟨k, hk⟩ := getstr_pos (pkgsiz + 1) isPkgNameSep p
    have hshort : ∀ a p', (Parse.prim (bufferReaders.getstr (pkgsiz + 1) isPkgNameSep) :
        Parse Ptr Fail (Int × Option Str)) p = some (.ok a, p') →
          p'.rest.length ≤ p.rest.length := by
      intro a p' ha
      have := Option.some.inj ha
      simp only [Prod.mk.injEq] at this
      rw [← this.2, hk]
      exact add_rest_length p k
    rw [readPackages, readPackages]
    apply (follows_getstr hB (pkgsiz + 1) (by decide) (by decide) (by decide) q p h).bind
    · intro x q' p' _ hm hon
      have hle := hshort x p' hm
      exact follows_readPackage hB classname ept x hon
        (fun _ _ _ _ hon' hlt => ih _ _ hon' (by omega))
        (fun _ _ p'' hb hlt => readPackages_keeps B F f _ _ p'' hb (by omega))
    · intro x p' _ hm hb
      have hle := hshort x p' hm
      exact keeps_readPackage B F classname ept x p' hb
        (fun _ _ p'' hb hlt => readPackages_keeps B F f _ _ p'' hb (by omega))

theorem follows_readLast (hB : Overrun N B R) (classname : Str) (ept : Cfent) :
    Parse.Follows (OnLine N F R) (Beyond B F) (readLast bufferReaders F classname ept)
      (readLast lineReaders F classname ept) := by
  apply Parse.Follows.ite
  · intro _
    apply (follows_getend hB).bind
    · intro extra
      exact Parse.Follows.ite (fun _ => Parse.Follows.raise _) (fun _ => Parse.Follows.ret _)
    · intro extra
      exact Parse.Keeps.ite (Parse.Keeps.raise _) (Parse.Keeps.ret _)
  · intro _ q p h
    exact follows_readPackages hB F classname ept h h.2

theorem follows_readFields (hB : Overrun N B R) (classname : Str) (ept : Cfent) :
    Parse.Follows (OnLine N F R) (Beyond B F) (readFields bufferReaders F classname ept)
      (readFields lineReaders F classname ept) := by
  apply Parse.Follows.ite
  · intro _
    exact follows_failAtEnd hB _ _
  · intro _
    apply (Parse.Follows.onlyIf (follows_readDevice hB ept)).bind
    · intro ept
      apply (Parse.Follows.onlyIf (follows_readAttrs hB ept)).bind
      · intro ept
        apply (Parse.Follows.onlyIf (follows_readContent hB ept)).bind
        · exact follows_readLast hB classname
        · exact keeps_readLast B F classname
      · intro ept
        exact (Parse.Keeps.onlyIf (keeps_readContent B F _)).bind (keeps_readLast B F classname)
    · intro ept
      apply (Parse.Keeps.onlyIf (keeps_readAttrs B F _)).bind
      intro ept
      exact (Parse.Keeps.onlyIf (keeps_readContent B F _)).bind (keeps_readLast B F classname)

theorem follows_readEntry (hB : Overrun N B R) (classname : Str) (c : Char) (ept : Cfent) :
    Parse.Follows (OnLine N F R) (Beyond B F)
      (readEntry bufferReaders F classname false c ept)
      (readEntry lineReaders F classname false c ept) := by
  apply (Parse.Follows.onlyIf ((follows_strField hB _ (by decide) _ _ _).mapError _)).bind
  · intro ept
    apply (Parse.Follows.onlyIf (follows_readType hB ept)).bind
    · exact follows_readFields hB classname
    · exact keeps_readFields B F classname
  · intro ept
    apply (Parse.Keeps.onlyIf (keeps_readType B F ept)).bind
    exact keeps_readFields B F classname

end Follows

end Pkgtools
