import Pkgtools.CLib.Text

namespace CLib
set_option autoImplicit true

/-- At most `k` characters, up to and including the first newline, and what is left. -/
def takeLine : Nat → Str → Str × Str
  | 0, s => ([], s)
  | _ + 1, [] => ([], [])
  | k + 1, c :: s => if c = '\n' then ([c], s) else ((c :: (takeLine k s).1), (takeLine k s).2)

/-- `fgets` into a buffer of `n` bytes. -/
def fgets (n : Nat) (s : Str) : Option (Str × Str) :=
  if s = [] then none else some (takeLine (n - 1) s)

/-- A record buffer that grows: its size and how often it has been extended. -/
structure RecBuf where
  size : Nat
  xtnd : Nat
  deriving DecidableEq, Repr

/-- The first size, the increment and the largest number of extensions. -/
structure Growth where
  bufsiz : Nat
  bufinc : Nat
  maxcnt : Nat
  two_le : 2 ≤ bufsiz
  inc_pos : 0 < bufinc

namespace Growth
variable (g : Growth) (complete : Str → Bool)

def extend (b : RecBuf) (len : Nat) : Option RecBuf :=
  if len = b.size - 1 then
    if b.xtnd < g.maxcnt then some ⟨b.size + g.bufinc, b.xtnd + 1⟩ else none
  else some b

/-- Complete a record: read on behind what is in the buffer. -/
def readMore : (fuel : Nat) → (buf : Str) → RecBuf → (file : Str) → Option Str × RecBuf × Str
  | 0, _, b, file => (none, b, file)
  | fuel + 1, buf, b, file =>
    match g.extend b buf.length with
    | none => (none, b, file)
    | some b =>
      match fgets (b.size - buf.length) file with
      | none => (none, b, file)
      | some (chunk, file) =>
        let buf := buf ++ chunk.takeWhile (· != nul)
        if complete buf then (some buf, b, file) else readMore fuel buf b file

def getRecord (b : RecBuf) (file : Str) : Option Str × RecBuf × Str :=
  let b := if b.size = 0 then ⟨g.bufsiz, 0⟩ else b
  match fgets b.size file with
  | none => (none, b, file)
  | some (chunk, file) =>
    let buf := chunk.takeWhile (· != nul)
    if buf = [] then (none, b, file)
    else if complete buf then (some buf, b, file)
    else g.readMore complete (file.length + 1) buf b file

/-- The longest record that is read whatever the buffer was before. -/
def limit : Nat := g.bufsiz + g.bufinc * g.maxcnt - 1

/-- No buffer yet, or one that has been extended at least as often as counted. -/
def BufOk (b : RecBuf) : Prop := b.size = 0 ∨ g.bufsiz + g.bufinc * b.xtnd ≤ b.size

end Growth

/-- A text that is complete, ends in a newline and has no complete beginning. -/
structure IsRecord (complete : Str → Bool) (r : Str) : Prop where
  whole : complete r = true
  ends : r.getLast? = some '\n'
  nulFree : NulFree r
  minimal : ∀ a c, r = a ++ c → a ≠ [] → c ≠ [] → complete a = false

theorem takeLine_append (s : Str) (k : Nat) : (takeLine k s).1 ++ (takeLine k s).2 = s := by
  induction s generalizing k with
  | nil => cases k <;> rfl
  | cons c s ih =>
    cases k with
    | zero => rfl
    | succ k =>
      rw [takeLine]
      split
      · rfl
      · exact congrArg (c :: ·) (ih k)

theorem takeLine_short (hs : '\n' ∉ s) (hk : s.length ≤ k) : takeLine k s = (s, []) := by
  induction s generalizing k with
  | nil => cases k <;> rfl
  | cons c s ih =>
    obtain ⟨hc, hs⟩ := List.ne_and_not_mem_of_not_mem_cons hs
    cases k with
    | zero => exact absurd hk (Nat.not_succ_le_zero _)
    | succ k => rw [takeLine, if_neg hc.symm, ih hs (Nat.le_of_succ_le_succ hk)]

theorem takeLine_line (hs : '\n' ∉ s) (hk : s.length < k) (t : Str) :
    takeLine k (s ++ '\n' :: t) = (s ++ ['\n'], t) := by
  induction s generalizing k with
  | nil =>
    cases k with
    | zero => exact absurd hk (Nat.not_lt_zero _)
    | succ k => rw [List.nil_append, takeLine, if_pos rfl, List.nil_append]
  | cons c s ih =>
    obtain ⟨hc, hs⟩ := List.ne_and_not_mem_of_not_mem_cons hs
    cases k with
    | zero => exact absurd hk (Nat.not_lt_zero _)
    | succ k =>
      rw [List.cons_append, takeLine, if_neg hc.symm, ih hs (Nat.lt_of_succ_lt_succ hk),
        List.cons_append]

theorem takeLine_full (hs : '\n' ∉ s) (t : Str) : takeLine s.length (s ++ t) = (s, t) := by
  induction s with
  | nil => rfl
  | cons c s ih =>
    obtain ⟨hc, hs⟩ := List.ne_and_not_mem_of_not_mem_cons hs
    rw [List.length_cons, List.cons_append, takeLine, if_neg hc.symm, ih hs]

theorem takeLine_ne_nil (hk : 0 < k) (hs : s ≠ []) : (takeLine k s).1 ≠ [] := by
  obtain ⟨k, rfl⟩ := Nat.exists_eq_succ_of_ne_zero (Nat.ne_of_gt hk)
  cases s with
  | nil => exact absurd rfl hs
  | cons c s =>
    rw [takeLine]
    split <;> exact List.cons_ne_nil _ _

theorem takeLine_length (k : Nat) (s : Str) : (takeLine k s).1.length ≤ k := by
  induction s generalizing k with
  | nil => cases k <;> exact Nat.zero_le _
  | cons c s ih =>
    cases k with
    | zero => exact Nat.le_refl 0
    | succ k =>
      rw [takeLine]
      split
      · simp
      · exact Nat.succ_le_succ (ih k)

theorem takeLine_within (hr : r.getLast? = some '\n') (t : Str) (k : Nat) :
    takeLine k (r ++ t) = ((takeLine k r).1, (takeLine k r).2 ++ t) := by
  induction r generalizing k with
  | nil => cases hr
  | cons c r ih =>
    cases k with
    | zero => rfl
    | succ k =>
      rw [List.cons_append, takeLine, takeLine]
      by_cases hc : c = '\n'
      · rw [if_pos hc, if_pos hc]
      · rw [if_neg hc, if_neg hc]
        have hne : r ≠ [] := by
          rintro rfl
          exact hc (Option.some.inj hr)
        rw [List.getLast?_cons_of_ne_nil hne] at hr
        rw [ih hr]

theorem takeWhile_nulFree (h : NulFree s) : s.takeWhile (· != nul) = s := by
  apply List.takeWhile_eq_self_iff.mpr
  intro c hc
  simp only [bne_iff_ne, ne_eq]
  rintro rfl
  exact h hc

theorem nulFree_takeWhile (s : Str) : NulFree (s.takeWhile (· != nul)) := by
  intro hm
  have h := List.mem_takeWhile_imp hm
  simp at h

namespace Growth
variable {g : Growth} {complete : Str → Bool}

theorem BufOk.extend {b : RecBuf} (hb : g.bufsiz + g.bufinc * b.xtnd ≤ b.size)
    (hlen : len ≤ b.size - 1) (hlim : len < g.limit) :
    ∃ b', g.extend b len = some b' ∧ g.bufsiz + g.bufinc * b'.xtnd ≤ b'.size ∧
      len + 1 < b'.size := by
  have h₁ := g.two_le
  have h₂ := g.inc_pos
  rw [Growth.extend]
  by_cases hl : len = b.size - 1
  · have hx : b.xtnd < g.maxcnt := by
      by_contra hge
      have hmul := Nat.mul_le_mul_left g.bufinc (Nat.le_of_not_lt hge)
      simp only [Growth.limit] at hlim
      omega
    rw [if_pos hl, if_pos hx]
    refine ⟨_, rfl, ?_, ?_⟩
    · simp only [Nat.mul_succ]
      omega
    · simp only
      omega
  · rw [if_neg hl]
    exact ⟨b, rfl, hb, by omega⟩

/-- One `fgets` inside a record: it takes a part of what is left, and what is in the buffer then
is incomplete unless that was all. -/
theorem fgets_record (hr : IsRecord complete (a ++ c)) (hc : c ≠ []) (hn : 1 < n) (t : Str) :
    ∃ x y, c = x ++ y ∧ x ≠ [] ∧ x.length ≤ n - 1 ∧ fgets n (c ++ t) = some (x, y ++ t) ∧
      x.takeWhile (· != nul) = x ∧ (y ≠ [] → complete (a ++ x) = false) := by
  have hlast : c.getLast? = some '\n' := by
    have h := hr.ends
    rwa [List.getLast?_append_of_ne_nil _ hc] at h
  have hchunk := takeLine_within hlast t (n - 1)
  have hsplit := takeLine_append c (n - 1)
  have hne := takeLine_ne_nil (k := n - 1) (by omega) hc
  refine ⟨_, _, hsplit.symm, hne, takeLine_length (n - 1) c, ?_, ?_, ?_⟩
  · rw [fgets, if_neg (by simp [hc]), hchunk]
  · have hsub := List.sublist_append_left (takeLine (n - 1) c).1 (takeLine (n - 1) c).2
    rw [hsplit] at hsub
    exact takeWhile_nulFree (hr.nulFree.sublist (hsub.trans (List.sublist_append_right a c)))
  · intro hy
    refine hr.minimal _ _ ?_ (by simp [hne]) hy
    rw [List.append_assoc, hsplit]

/-- The loop that completes a record, from any cut inside it. -/
theorem readMore_record (hr : IsRecord complete (a ++ c)) (ha : a ≠ []) (hc : c ≠ [])
    (hlim : (a ++ c).length ≤ g.limit) (hf : c.length ≤ fuel) (hb : g.bufsiz + g.bufinc * b.xtnd ≤
      b.size) (hlen : a.length ≤ b.size - 1) (t : Str) :
    ∃ b', g.readMore complete fuel a b (c ++ t) = (some (a ++ c), b', t) ∧
      g.bufsiz + g.bufinc * b'.xtnd ≤ b'.size := by
  induction fuel generalizing a c b with
  | zero => exact absurd (List.eq_nil_of_length_eq_zero (Nat.le_zero.mp hf)) hc
  | succ fuel ih =>
    have hclen : 0 < c.length := List.length_pos_iff.mpr hc
    have hlt : a.length < g.limit := by
      rw [List.length_append] at hlim
      omega
    obtain ⟨b', he, hb', hroom⟩ := BufOk.extend hb hlen hlt
    obtain ⟨x, y, rfl, hne, hcut, hfile, hnul, hinc⟩ :=
      fgets_record hr hc (n := b'.size - a.length) (by omega) t
    rw [readMore, he]
    simp only [hfile, hnul]
    by_cases hy : y = []
    · subst hy
      have hcomp := hr.whole
      simp only [List.append_nil] at hcomp ⊢
      rw [if_pos hcomp]
      exact ⟨b', by simp, hb'⟩
    · rw [hinc hy, ← List.append_assoc]
      simp only [Bool.false_eq_true, if_false]
      have hxlen : 0 < x.length := List.length_pos_iff.mpr hne
      apply ih (a := a ++ x) (c := y)
      · rw [List.append_assoc]
        exact hr
      · simp [ha]
      · exact hy
      · rw [List.append_assoc]
        exact hlim
      · rw [List.length_append] at hf
        omega
      · exact hb'
      · rw [List.length_append]
        omega

/-- A record within the limit is read as it stands, whatever the buffer was before. -/
theorem getRecord_record (hr : IsRecord complete r) (hlim : r.length ≤ g.limit) (hb : g.BufOk b)
    (t : Str) : ∃ b', g.getRecord complete b (r ++ t) = (some r, b', t) ∧ g.BufOk b' := by
  have hrne : r ≠ [] := by
    rintro rfl
    cases hr.ends
  obtain ⟨b₀, hb₀, hok⟩ : ∃ b₀ : RecBuf, (if b.size = 0 then ⟨g.bufsiz, 0⟩ else b) = b₀ ∧
      g.bufsiz + g.bufinc * b₀.xtnd ≤ b₀.size := by
    by_cases h : b.size = 0
    · exact ⟨_, if_pos h, by simp⟩
    · exact ⟨_, if_neg h, hb.resolve_left h⟩
  have htwo := g.two_le
  obtain ⟨x, y, rfl, hne, hcut, hfile, hnul, hinc⟩ :=
    fgets_record (a := []) hr hrne (n := b₀.size) (by omega) t
  rw [List.nil_append] at hinc
  simp only [getRecord, hb₀, hfile, hnul, if_neg hne]
  by_cases hy : y = []
  · subst hy
    have hcomp := hr.whole
    simp only [List.append_nil] at hcomp ⊢
    rw [if_pos hcomp]
    exact ⟨b₀, by simp, .inr hok⟩
  · rw [hinc hy]
    simp only [Bool.false_eq_true, if_false]
    have hfuel : y.length ≤ (y ++ t).length + 1 := by
      rw [List.length_append]
      omega
    obtain ⟨b', he, hb'⟩ := readMore_record hr hne hy hlim hfuel hok hcut t
    exact ⟨b', he, .inr hb'⟩

theorem readMore_some (h : g.readMore complete fuel a b file = (some r, b', t)) (ha : NulFree a) :
    complete r = true ∧ NulFree r ∧ a <+: r := by
  induction fuel generalizing a b file with
  | zero => cases h
  | succ fuel ih =>
    rw [readMore] at h
    cases hx : g.extend b a.length with
    | none =>
      rw [hx] at h
      cases h
    | some b₁ =>
      simp only [hx] at h
      cases hf : fgets (b₁.size - a.length) file with
      | none =>
        rw [hf] at h
        cases h
      | some p =>
        obtain ⟨chunk, rest⟩ := p
        simp only [hf] at h
        have hnul : NulFree (a ++ chunk.takeWhile (· != nul)) := by
          intro hm
          rcases List.mem_append.mp hm with hm | hm
          · exact ha hm
          · exact nulFree_takeWhile chunk hm
        split at h
        · rename_i hc
          cases h
          exact ⟨hc, hnul, List.prefix_append ..⟩
        · obtain ⟨h₁, h₂, h₃⟩ := ih h hnul
          exact ⟨h₁, h₂, (List.prefix_append ..).trans h₃⟩

theorem takeLine_newline (k : Nat) (s : Str) (h : (takeLine k s).1.head? = some '\n') :
    (takeLine k s).1 = ['\n'] := by
  cases k with
  | zero => cases h
  | succ k =>
    cases s with
    | nil => cases h
    | cons c s =>
      by_cases hc : c = '\n'
      · rw [takeLine, if_pos hc, hc]
      · rw [takeLine, if_neg hc] at h
        exact absurd (Option.some.inj h) hc

theorem getRecord_some (h : g.getRecord complete b file = (some r, b', t)) :
    complete r = true ∧ NulFree r ∧ r ≠ [] ∧
      (complete ['\n'] = true → r.head? = some '\n' → r = ['\n']) := by
  simp only [getRecord] at h
  generalize (if b.size = 0 then (⟨g.bufsiz, 0⟩ : RecBuf) else b) = b₀ at h
  cases hf : fgets b₀.size file with
  | none =>
    rw [hf] at h
    cases h
  | some p =>
    obtain ⟨chunk, rest⟩ := p
    simp only [hf] at h
    have hchunk : chunk = (takeLine (b₀.size - 1) file).1 := by
      rw [fgets] at hf
      split at hf
      · cases hf
      · exact (congrArg Prod.fst (Option.some.inj hf)).symm
    have hnul := nulFree_takeWhile chunk
    have hline (hh : (chunk.takeWhile (· != nul)).head? = some '\n') :
        chunk.takeWhile (· != nul) = ['\n'] := by
      cases hck : chunk with
      | nil =>
        rw [hck] at hh
        cases hh
      | cons c s =>
        by_cases hc : c = nul
        · simp [hck, hc] at hh
        · have hh' : some c = some '\n' := by simpa [hck, List.takeWhile_cons, hc] using hh
          have hone := takeLine_newline (b₀.size - 1) file (by rw [← hchunk, hck]; exact hh')
          rw [← hchunk, hck] at hone
          rw [hone]
          rfl
    split at h
    · cases h
    · rename_i hne
      split at h
      · rename_i hc
        cases h
        exact ⟨hc, hnul, hne, fun _ hh => hline hh⟩
      · rename_i hc
        obtain ⟨h₁, h₂, s, rfl⟩ := readMore_some h hnul
        refine ⟨h₁, h₂, by simp [hne], ?_⟩
        intro hn hh
        rw [List.head?_append_of_ne_nil _ hne] at hh
        rw [hline hh] at hc
        exact absurd hn hc

def BufExact (g : Growth) (b : RecBuf) : Prop :=
  b.size = g.bufsiz + g.bufinc * b.xtnd ∧ b.xtnd ≤ g.maxcnt

theorem BufExact.bufOk (h : g.BufExact b) : g.BufOk b := .inr (Nat.le_of_eq h.1.symm)

theorem BufExact.size_le (h : g.BufExact b) : b.size ≤ g.limit + 1 := by
  have hmul := Nat.mul_le_mul_left g.bufinc h.2
  have htwo := g.two_le
  rw [h.1, Growth.limit]
  omega

theorem BufExact.extend (h : g.BufExact b) (he : g.extend b len = some b') : g.BufExact b' := by
  rw [Growth.extend] at he
  split at he
  · split at he
    · rename_i hx
      cases he
      refine ⟨?_, hx⟩
      simp only [h.1, Nat.mul_succ]
      omega
    · cases he
  · cases he
    exact h

theorem BufExact.readMore (h : g.BufExact b) :
    g.BufExact (g.readMore complete fuel a b file).2.1 := by
  induction fuel generalizing a b file with
  | zero => exact h
  | succ fuel ih =>
    rw [Growth.readMore]
    cases he : g.extend b a.length with
    | none => exact h
    | some b' =>
      simp only
      cases fgets (b'.size - a.length) file with
      | none => exact h.extend he
      | some p =>
        simp only
        split
        · exact h.extend he
        · exact ih (h.extend he)

theorem BufExact.getRecord (h : b.size = 0 ∨ g.BufExact b) (complete : Str → Bool) (file : Str) :
    g.BufExact (g.getRecord complete b file).2.1 := by
  have h₀ : g.BufExact (if b.size = 0 then ⟨g.bufsiz, 0⟩ else b) := by
    split
    · exact ⟨rfl, Nat.zero_le _⟩
    · rename_i hne
      exact h.resolve_left hne
  simp only [Growth.getRecord]
  generalize (if b.size = 0 then (⟨g.bufsiz, 0⟩ : RecBuf) else b) = b₀ at h₀ ⊢
  cases fgets b₀.size file with
  | none => exact h₀
  | some p =>
    simp only
    split
    · exact h₀
    · split
      · exact h₀
      · exact h₀.readMore

theorem readMore_long (hr : IsRecord complete (a ++ c)) (ha : a ≠ []) (hc : c ≠ [])
    (hlim : g.limit < (a ++ c).length) (hb : g.BufExact b) (hlen : a.length ≤ b.size - 1)
    (t : Str) : (g.readMore complete fuel a b (c ++ t)).1 = none := by
  induction fuel generalizing a c b with
  | zero => rfl
  | succ fuel ih =>
    rw [readMore]
    cases he : g.extend b a.length with
    | none => rfl
    | some b' =>
      have hb' := hb.extend he
      have hsize := hb'.size_le
      have hroom : a.length + 1 < b'.size := by
        have htwo := g.two_le
        have hinc := g.inc_pos
        have hbs := hb.1
        rw [Growth.extend] at he
        split at he
        · split at he
          · cases he
            simp only
            omega
          · cases he
        · cases he
          omega
      obtain ⟨x, y, rfl, hne, hcut, hfile, hnul, hinc⟩ :=
        fgets_record hr hc (n := b'.size - a.length) (by omega) t
      have hy : y ≠ [] := by
        rintro rfl
        simp only [List.append_nil, List.length_append] at hlim
        omega
      simp only [hfile, hnul, hinc hy, Bool.false_eq_true, if_false]
      apply ih (a := a ++ x) (c := y)
      · rw [List.append_assoc]
        exact hr
      · simp [ha]
      · exact hy
      · rw [List.append_assoc]
        exact hlim
      · exact hb'
      · rw [List.length_append]
        omega

theorem getRecord_long (hr : IsRecord complete r) (hlim : g.limit < r.length)
    (hb : b.size = 0 ∨ g.BufExact b) (t : Str) : (g.getRecord complete b (r ++ t)).1 = none := by
  have hrne : r ≠ [] := by
    rintro rfl
    cases hr.ends
  have h₀ : g.BufExact (if b.size = 0 then ⟨g.bufsiz, 0⟩ else b) := by
    split
    · exact ⟨rfl, Nat.zero_le _⟩
    · rename_i hne
      exact hb.resolve_left hne
  simp only [Growth.getRecord]
  generalize (if b.size = 0 then (⟨g.bufsiz, 0⟩ : RecBuf) else b) = b₀ at h₀ ⊢
  have htwo := g.two_le
  have hsize := h₀.size_le
  have hbs := h₀.1
  obtain ⟨x, y, rfl, hne, hcut, hfile, hnul, hinc⟩ :=
    fgets_record (a := []) hr hrne (n := b₀.size) (by omega) t
  rw [List.nil_append] at hinc
  have hy : y ≠ [] := by
    rintro rfl
    simp only [List.append_nil] at hlim
    omega
  simp only [hfile, hnul, if_neg hne, hinc hy, Bool.false_eq_true, if_false]
  exact readMore_long hr hne hy hlim h₀ hcut t

variable (g complete) in
/-- The records of a file until one cannot be read. -/
def records : (fuel : Nat) → RecBuf → Str → List Str
  | 0, _, _ => []
  | fuel + 1, b, file =>
    match g.getRecord complete b file with
    | (none, _, _) => []
    | (some r, b, file) => r :: records fuel b file

theorem records_lines {ls : List Str} (hr : ∀ l ∈ ls, IsRecord complete l)
    (hlim : ∀ l ∈ ls, l.length ≤ g.limit) (hb : g.BufOk b) (hf : ls.length < fuel) :
    g.records complete fuel b ls.flatten = ls := by
  induction ls generalizing b fuel with
  | nil =>
    obtain ⟨k, rfl⟩ := Nat.exists_eq_succ_of_ne_zero (Nat.ne_of_gt hf)
    rfl
  | cons l ls ih =>
    obtain ⟨k, rfl⟩ := Nat.exists_eq_succ_of_ne_zero (Nat.ne_of_gt (Nat.zero_lt_of_lt hf))
    obtain ⟨b', hget, hb'⟩ := getRecord_record (hr l (List.mem_cons_self ..))
      (hlim l (List.mem_cons_self ..)) hb ls.flatten
    rw [List.flatten_cons, records, hget]
    exact congrArg (l :: ·) (ih (fun x hx => hr x (List.mem_cons_of_mem _ hx))
      (fun x hx => hlim x (List.mem_cons_of_mem _ hx)) hb' (Nat.lt_of_succ_lt_succ hf))

/-- A record that is too long ends the file for the reader. -/
theorem records_limit {ls : List Str} (hr : ∀ l ∈ ls, IsRecord complete l)
    (hb : b.size = 0 ∨ g.BufExact b)
    (hlen : ls.length ≤ (g.records complete fuel b ls.flatten).length) :
    ∀ l ∈ ls, l.length ≤ g.limit := by
  induction ls generalizing b fuel with
  | nil =>
    intro l hl
    cases hl
  | cons l ls ih =>
    cases fuel with
    | zero => cases hlen
    | succ fuel =>
      have hl := hr l (List.mem_cons_self ..)
      have hshort : l.length ≤ g.limit := by
        by_contra hlong
        have hnone := getRecord_long hl (Nat.lt_of_not_le hlong) hb ls.flatten
        rcases hget : g.getRecord complete b (l ++ ls.flatten) with ⟨o, b', rest⟩
        rw [hget] at hnone
        simp only at hnone
        subst hnone
        rw [List.flatten_cons, records, hget] at hlen
        cases hlen
      obtain ⟨b', hget, -⟩ := getRecord_record hl hshort (hb.elim .inl fun h => h.bufOk) ls.flatten
      have hexact := BufExact.getRecord hb complete (l ++ ls.flatten)
      rw [hget] at hexact
      rw [List.flatten_cons, records, hget] at hlen
      intro x hx
      rcases List.mem_cons.mp hx with rfl | hx
      · exact hshort
      · exact ih (fun y hy => hr y (List.mem_cons_of_mem _ hy)) (.inr hexact)
          (Nat.le_of_succ_le_succ hlen) x hx

theorem fgets_append (h : fgets n file = some (chunk, rest)) : file = chunk ++ rest := by
  rw [fgets] at h
  split at h
  · cases h
  · rw [← takeLine_append file (n - 1), Option.some.inj h]

theorem readMore_consumes (h : g.readMore complete fuel a b file = (some r, b', t)) :
    ∃ u, file = u ++ t ∧ ∀ c ∈ r, c ∈ a ∨ c ∈ u := by
  induction fuel generalizing a b file with
  | zero => cases h
  | succ fuel ih =>
    rw [readMore] at h
    cases hx : g.extend b a.length with
    | none =>
      rw [hx] at h
      cases h
    | some b₁ =>
      simp only [hx] at h
      cases hf : fgets (b₁.size - a.length) file with
      | none =>
        rw [hf] at h
        cases h
      | some p =>
        obtain ⟨chunk, rest⟩ := p
        have hfile := fgets_append hf
        simp only [hf] at h
        have hbuf : ∀ c ∈ a ++ chunk.takeWhile (· != nul), c ∈ a ∨ c ∈ chunk := by
          intro c hc
          exact (List.mem_append.mp hc).imp_right fun hc => List.takeWhile_sublist _ |>.subset hc
        split at h
        · cases h
          exact ⟨chunk, hfile, hbuf⟩
        · obtain ⟨u, hu, hmem⟩ := ih h
          refine ⟨chunk ++ u, by rw [hfile, hu, List.append_assoc], ?_⟩
          intro c hc
          rcases hmem c hc with hc | hc
          · exact (hbuf c hc).imp_right (List.mem_append_left u)
          · exact .inr (List.mem_append_right chunk hc)

theorem getRecord_consumes (h : g.getRecord complete b file = (some r, b', t)) :
    ∃ u, file = u ++ t ∧ ∀ c ∈ r, c ∈ u := by
  simp only [getRecord] at h
  generalize (if b.size = 0 then (⟨g.bufsiz, 0⟩ : RecBuf) else b) = b₀ at h
  cases hf : fgets b₀.size file with
  | none =>
    rw [hf] at h
    cases h
  | some p =>
    obtain ⟨chunk, rest⟩ := p
    have hfile := fgets_append hf
    have hbuf : ∀ c ∈ chunk.takeWhile (· != nul), c ∈ chunk := fun c hc =>
      List.takeWhile_sublist _ |>.subset hc
    simp only [hf] at h
    split at h
    · cases h
    · split at h
      · cases h
        exact ⟨chunk, hfile, hbuf⟩
      · obtain ⟨u, hu, hmem⟩ := readMore_consumes h
        refine ⟨chunk ++ u, by rw [hfile, hu, List.append_assoc], ?_⟩
        intro c hc
        rcases hmem c hc with hc | hc
        · exact List.mem_append_left u (hbuf c hc)
        · exact List.mem_append_right chunk hc

theorem records_newlines (hc : ∀ r, complete r = true → '\n' ∈ r) :
    (g.records complete fuel b file).length ≤ file.count '\n' := by
  induction fuel generalizing b file with
  | zero => exact Nat.zero_le _
  | succ fuel ih =>
    rw [records]
    rcases hget : g.getRecord complete b file with ⟨o, b', rest⟩
    cases o with
    | none => exact Nat.zero_le _
    | some r =>
      obtain ⟨u, rfl, hmem⟩ := getRecord_consumes hget
      have hpos : 0 < u.count '\n' :=
        List.count_pos_iff.mpr (hmem _ (hc r (getRecord_some hget).1))
      have hrest : (g.records complete fuel b' rest).length ≤ rest.count '\n' := ih
      rw [List.length_cons, List.count_append]
      omega

end Growth

theorem IsRecord.ne_nil {complete : Str → Bool} {r : Str} (h : IsRecord complete r) : r ≠ [] := by
  rintro rfl
  cases h.ends

theorem length_le_flatten {ls : List Str} (h : ∀ l ∈ ls, l ≠ []) :
    ls.length ≤ ls.flatten.length := by
  induction ls with
  | nil => exact Nat.le_refl 0
  | cons l ls ih =>
    have hl := List.length_pos_iff.mpr (h l (List.mem_cons_self ..))
    have := ih fun x hx => h x (List.mem_cons_of_mem _ hx)
    rw [List.length_cons, List.flatten_cons, List.length_append]
    omega

end CLib
