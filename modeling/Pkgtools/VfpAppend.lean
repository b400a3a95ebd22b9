import Pkgtools.SwapContents

namespace Pkgtools
open CLib
set_option autoImplicit true

inductive Put where
  | char (c : Char)
  | string (s : Str)
  | bytes (s : Str)
  | integer (n : BitVec 32)
  | long (n : BitVec 64)
  /-- The text that `snprintf` produces for the format and its argument. -/
  | format (text : Str)
  deriving DecidableEq, Repr

/-- The string a call is asked to put. -/
def Put.item : Put → Str
  | .char c => [c]
  | .string s => s
  | .bytes s => s
  | .integer n => fmtD n.toInt
  | .long n => fmtD n.toInt
  | .format text => text

/-- Formatted text goes through a buffer of 256 bytes. -/
def Put.Fits : Put → Prop
  | .format text => text.length ≤ 255
  | _ => True

instance : (p : Put) → Decidable p.Fits
  | .format _ => inferInstanceAs (Decidable (_ ≤ _))
  | .char _ | .string _ | .bytes _ | .integer _ | .long _ => isTrue trivial

def Put.exec (v : Vfp) : Put → Vfp
  | .char c => vfpPutc v c
  | .string s => vfpPuts v s
  | .bytes s => vfpPutBytes v s
  | .integer n => vfpPutInteger v n.toInt
  | .long n => vfpPutInteger v n.toInt
  | .format text => vfpPutFormat v text

/-- A sequence of puts with no repositioning. -/
def runPuts (v : Vfp) (ps : List Put) : Vfp := ps.foldl Put.exec v

def putText (ps : List Put) : Str := ps.flatMap Put.item

/-- The call did not append its item as a whole. -/
def Put.Truncated (v : Vfp) (p : Put) : Prop := (p.exec v).text ≠ v.text ++ p.item

theorem runPuts_append (v : Vfp) (ps qs : List Put) :
    runPuts v (ps ++ qs) = runPuts (runPuts v ps) qs := List.foldl_append

theorem putText_append (ps qs : List Put) : putText (ps ++ qs) = putText ps ++ putText qs :=
  List.flatMap_append

theorem vfpPutInteger_appends (v : Vfp) (h₁ : -2 ^ 63 ≤ n) (h₂ : n < 2 ^ 63) :
    Appends v (vfpPutInteger v n) (fmtD n) := by
  have hl := fmtD_length h₁ h₂
  apply vfpPutFormat_appends
  omega

theorem Put.exec_appends (v : Vfp) (p : Put) (hp : p.Fits) : Appends v (p.exec v) p.item := by
  cases p with
  | char c => exact vfpPutc_appends v c
  | string s => exact vfpPuts_appends v s
  | bytes s => exact vfpPutBytes_appends v s
  | integer n =>
    have h₁ := BitVec.le_toInt n
    have h₂ := BitVec.toInt_lt (x := n)
    apply vfpPutInteger_appends <;> omega
  | long n => exact vfpPutInteger_appends v (BitVec.le_toInt n) BitVec.toInt_lt
  | format text => exact vfpPutFormat_appends v text hp

theorem runPuts_appends (v : Vfp) (ps : List Put) (hf : ∀ p ∈ ps, p.Fits) :
    Appends v (runPuts v ps) (putText ps) := by
  induction ps generalizing v with
  | nil => exact Appends.refl v
  | cons p ps ih =>
    have h := Put.exec_appends v p (hf p (List.mem_cons_self ..))
    have hr := ih (p.exec v) (fun q hq => hf q (List.mem_cons_of_mem _ hq))
    exact h.trans hr

/-- A put that ends below the end of the buffer leaves the overflow flag alone. -/
structure Advances (v w : Vfp) (n : Nat) : Prop where
  curr : w.curr = v.curr + n
  overflow : w.overflow = v.overflow

theorem vfpIncCurrPtrBy_advances (v : Vfp) (n : Nat) (h : (v.curr : Int) + n ≤ v.last) :
    Advances v (vfpIncCurrPtrBy v n) n := by
  have hn : ¬ v.last < (v.curr + n : Nat) := by omega
  simp only [vfpIncCurrPtrBy, if_neg hn]
  split <;> exact ⟨rfl, rfl⟩

theorem vfpPuts_advances (v : Vfp) (s : Str) (h : (v.curr : Int) + s.length ≤ v.last) :
    Advances v (vfpPuts v s) s.length := by
  have ha (mem : Str) := vfpIncCurrPtrBy_advances { v with mem := mem } s.length h
  exact ⟨(ha _).curr, (ha _).overflow⟩

theorem vfpPutBytes_advances (v : Vfp) (s : Str) (h : (v.curr : Int) + s.length < v.last) :
    Advances v (vfpPutBytes v s) s.length := by
  have ha : vfpGetBytesAvailable v > s.length := by
    simp only [vfpGetBytesAvailable]
    omega
  simp only [vfpPutBytes, if_pos ha]
  have ha (mem : Str) := vfpIncCurrPtrBy_advances { v with mem := mem } s.length (Int.le_of_lt h)
  exact ⟨(ha _).curr, (ha _).overflow⟩

theorem vfpPutFormat_advances (v : Vfp) (s : Str) (hs : s.length ≤ 255)
    (h : (v.curr : Int) + s.length ≤ v.last) : Advances v (vfpPutFormat v s) s.length := by
  rw [vfpPutFormat, strlcpy, List.take_of_length_le hs]
  exact vfpPuts_advances v s h

theorem Put.exec_advances (v : Vfp) (p : Put) (hp : p.Fits)
    (h : (v.curr : Int) + p.item.length < v.last) :
    Advances v (p.exec v) p.item.length := by
  have hle := Int.le_of_lt h
  cases p with
  | char c =>
    have ha (mem : Str) := vfpIncCurrPtrBy_advances { v with mem := mem } 1 hle
    exact ⟨(ha _).curr, (ha _).overflow⟩
  | string s => exact vfpPuts_advances v s hle
  | bytes s => exact vfpPutBytes_advances v s h
  | integer n =>
    have h₁ := BitVec.le_toInt n
    have h₂ := BitVec.toInt_lt (x := n)
    have hl := fmtD_length (x := n.toInt) (by omega) (by omega)
    exact vfpPutFormat_advances v _ (by omega) hle
  | long n =>
    have hl := fmtD_length (BitVec.le_toInt n) BitVec.toInt_lt
    exact vfpPutFormat_advances v _ (by omega) hle
  | format text => exact vfpPutFormat_advances v text hp hle

theorem runPuts_advances (v : Vfp) (ps : List Put) (hf : ∀ p ∈ ps, p.Fits)
    (h : (v.curr : Int) + (putText ps).length < v.last) (hv : v.Wf) :
    Advances v (runPuts v ps) (putText ps).length := by
  induction ps generalizing v with
  | nil => exact ⟨rfl, rfl⟩
  | cons p ps ih =>
    have hp := hf p (List.mem_cons_self ..)
    have hsplit : (putText (p :: ps)).length = p.item.length + (putText ps).length :=
      List.length_append
    rw [hsplit] at h ⊢
    have ha := Put.exec_appends v p hp
    have h₁ := Put.exec_advances v p hp (by omega)
    have hlt : ((p.exec v).curr : Int) + (putText ps).length < (p.exec v).last := by
      rw [h₁.curr, ha.last]
      omega
    have h₂ := ih (p.exec v) (fun q hq => hf q (List.mem_cons_of_mem _ hq)) hlt (ha.wf hv)
    refine ⟨?_, h₂.overflow.trans h₁.overflow⟩
    change (runPuts (p.exec v) ps).curr = _
    rw [h₂.curr, h₁.curr, Nat.add_assoc]

theorem Vfp.image_eq_text {v : Vfp} (hv : v.Wf) : v.image = v.text := by
  have hh := hv.highWater_eq
  have hl : vfpGetModifiedLen v = v.curr := by
    simp only [vfpGetModifiedLen]
    omega
  rw [Vfp.image, Vfp.text, hl]

theorem Vfp.hasRoom_of_not_tooBig {v : Vfp} (h : v.tooBig = false) : v.HasRoom := by
  rw [Vfp.tooBig, Bool.or_eq_false_iff] at h
  have ha := of_decide_eq_false h.2
  simp only [vfpGetBytesAvailable] at ha
  simp only [Vfp.HasRoom]
  omega

theorem runPuts_not_tooBig (ps : List Put) (hf : ∀ p ∈ ps, p.Fits) (hv : v.Wf)
    (ho : v.overflow = false) (h : (v.curr : Int) + (putText ps).length < v.last) :
    (runPuts v ps).tooBig = false := by
  have ha := runPuts_advances v ps hf h hv
  have hl := (runPuts_appends v ps hf).last
  simp only [Vfp.tooBig, ha.overflow, ho, vfpGetBytesAvailable, ha.curr, hl, Bool.false_or,
    decide_eq_false_iff_not]
  omega

/-- What is written is the concatenation of the items, when anything is. -/
theorem runPuts_image (ps : List Put) (hf : ∀ p ∈ ps, p.Fits) (hv : v.Wf)
    (h : (runPuts v ps).tooBig = false) : (runPuts v ps).image = v.text ++ putText ps := by
  have ha := runPuts_appends v ps hf
  rw [Vfp.image_eq_text (ha.wf hv), ha.text hv (Vfp.hasRoom_of_not_tooBig h)]

/-- A truncated item leaves the buffer full for good. -/
theorem runPuts_truncated (ps qs : List Put) (p : Put) (hf : ∀ q ∈ ps ++ p :: qs, q.Fits)
    (hv : v.Wf) (ht : p.Truncated (runPuts v ps)) : (runPuts v (ps ++ p :: qs)).tooBig = true := by
  by_contra hb
  rw [Bool.not_eq_true] at hb
  have h₁ := (runPuts_appends v ps (fun q hq => hf q (List.mem_append_left _ hq))).wf hv
  have hp := Put.exec_appends (runPuts v ps) p (hf p (by simp))
  have h₂ := runPuts_appends (p.exec (runPuts v ps)) qs (fun q hq => hf q (by simp [hq]))
  rw [runPuts_append] at hb
  have hroom := h₂.hasRoom (hp.wf h₁) (Vfp.hasRoom_of_not_tooBig hb)
  exact ht (hp.text h₁ hroom)

/-- A fresh anonymous file takes exactly the texts that end before the last byte of its buffer:
these are written as they were put, and every other sequence is refused with `EFBIG`. -/
theorem vfpWriteToFile_puts (pagesize size : Nat) (junk : Nat → Char) (hs : 0 < size + pagesize)
    (ps : List Put) (hf : ∀ p ∈ ps, p.Fits) (d : Directory AdmFile) (n : AdmFile)
    (o : WriteOutcome) :
    let v := vfpAnonymous pagesize size junk
    let w := runPuts v ps
    (w.tooBig = true ∧ vfpWriteToFile w d n o = (false, d) ∨
      w.tooBig = false ∧ w.image = putText ps ∧
        vfpWriteToFile w d n .complete = (true, d.create n (putText ps)) ∧
        ((vfpWriteToFile w d n o).1 = true →
          (vfpWriteToFile w d n o).2 = d.create n (putText ps))) ∧
    (w.tooBig = false ↔ (putText ps).length + 1 < size + pagesize) ∧
    (∀ qs p rs, ps = qs ++ p :: rs → p.Truncated (runPuts v qs) →
      vfpWriteToFile w d n o = (false, d)) := by
  intro v w
  have hv : v.Wf := vfpAnonymous_wf pagesize size junk hs
  have hlast : v.last = (size + pagesize : Nat) - 1 := rfl
  have himage (hb : w.tooBig = false) : w.image = putText ps := runPuts_image ps hf hv hb
  refine ⟨?_, ⟨?_, ?_⟩, ?_⟩
  · cases hb : w.tooBig with
    | true => exact .inl ⟨rfl, by simp [vfpWriteToFile, hb]⟩
    | false =>
      refine .inr ⟨rfl, himage hb, ?_, ?_⟩
      · simp [vfpWriteToFile, hb, himage hb]
      · intro hw
        rw [(vfpWriteToFile_true hw).1, himage hb]
  · intro hb
    have hroom := Vfp.hasRoom_of_not_tooBig hb
    have ha := runPuts_appends v ps hf
    have hle : w.curr ≤ w.mem.length := by
      have h₁ := (ha.wf hv).curr_le
      have h₂ := (ha.wf hv).last_lt
      change (w.curr : Int) ≤ w.last at h₁
      change w.last < w.mem.length at h₂
      omega
    have hlen : w.curr = (putText ps).length := by
      rw [← himage hb, Vfp.image_eq_text (ha.wf hv), Vfp.text, List.length_take]
      exact (Nat.min_eq_left hle).symm
    have hl : w.last = v.last := ha.last
    simp only [Vfp.HasRoom, hl, hlast] at hroom
    omega
  · intro hlt
    apply runPuts_not_tooBig ps hf hv rfl
    rw [hlast]
    change ((0 : Nat) : Int) + (putText ps).length < _
    omega
  · intro qs p rs hps ht
    have hb : w.tooBig = true := by
      change (runPuts v ps).tooBig = true
      rw [hps] at hf ⊢
      exact runPuts_truncated qs rs p hf hv ht
    simp [vfpWriteToFile, hb]

/-- A buffer of four bytes with a long string and a character behind it. -/
theorem vfpWriteToFile_puts_small :
    let ps : List Put := [.string "abcdef".toList, .char 'x', .integer 7]
    0 < 3 + 1 ∧ (∀ p ∈ ps, p.Fits) ∧
      (runPuts (vfpAnonymous 1 3 fun _ => 'j') ps).tooBig = true := by
  have hf : ∀ p ∈ ([.string "abcdef".toList, .char 'x', .integer 7] : List Put), p.Fits := by
    decide
  have h := vfpWriteToFile_puts 1 3 (fun _ => 'j') (by decide) _ hf
    ⟨fun _ => none, fun _ => [], 0⟩ .contents .complete
  refine ⟨by decide, hf, ?_⟩
  obtain ⟨-, hiff, -⟩ := h
  rw [← Bool.not_eq_false, hiff]
  decide

end Pkgtools
