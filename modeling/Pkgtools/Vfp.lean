import Pkgtools.CLib.Numeral

namespace Pkgtools
open CLib
set_option autoImplicit true

/-- A virtual file. The pointers of `struct _vfp` are offsets from `_vfpStart`; `_vfpHighWater`
and `_vfpEnd` point one byte before the start when an empty file was opened. -/
structure Vfp where
  /-- The bytes from `_vfpStart` on. -/
  mem : Str
  curr : Nat
  highWater : Int
  /-- `_vfpEnd`. -/
  last : Int
  overflow : Bool
  modified : Bool
  deriving DecidableEq, Repr

/-- `vfpOpen` of a file with the given contents. The byte behind the last one is NUL. -/
def vfpOpen (file : Str) : Vfp :=
  ⟨file, 0, (file.length : Int) - 1, (file.length : Int) - 1, false, false⟩

/-- `vfpOpen` without a path followed by the first `vfpSetSize`, given the page size and what
`malloc` left in the buffer behind its first byte. -/
def vfpAnonymous (pagesize size : Nat) (junk : Nat → Char) : Vfp :=
  let vfpSize := size + pagesize
  ⟨nul :: ((List.range (vfpSize - 1)).map junk ++ [nul]), 0, 0, (vfpSize : Int) - 1, false, false⟩

/-- `vfpGetCurrCharPtr`. -/
def Vfp.ptr (v : Vfp) : Ptr := ⟨v.curr, (v.mem.drop v.curr).takeWhile (· != nul)⟩

def vfpIncCurrPtrBy (v : Vfp) (inc : Nat) : Vfp :=
  let curr := v.curr + inc
  let v := if v.last < curr then { v with curr := v.last.toNat, overflow := true }
    else { v with curr := curr }
  if v.highWater < v.curr then { v with highWater := v.curr } else v

def vfpGetBytesRemaining (v : Vfp) : Nat := (v.highWater - v.curr).toNat

def vfpGetBytesAvailable (v : Vfp) : Nat := (v.last - v.curr).toNat

def vfpGetModifiedLen (v : Vfp) : Nat := (max v.highWater v.curr).toNat

/-- Overwrite the bytes from offset `i` on. -/
def memWrite (mem : Str) (i : Nat) (bs : Str) : Str := mem.take i ++ bs ++ mem.drop (i + bs.length)

def vfpPutc (v : Vfp) (c : Char) : Vfp :=
  vfpIncCurrPtrBy { v with mem := memWrite v.mem v.curr [c] } 1

/-- `vfpPuts`: `strlcpy` into the space left, then advance by the length of the whole string. -/
def vfpPuts (v : Vfp) (s : Str) : Vfp :=
  let xxLen := vfpGetBytesAvailable v
  let mem := if xxLen = 0 then v.mem else memWrite v.mem v.curr (strlcpy xxLen s ++ [nul])
  vfpIncCurrPtrBy { v with mem := mem } s.length

def vfpPutBytes (v : Vfp) (s : Str) : Vfp :=
  let avail := vfpGetBytesAvailable v
  let xxLen := if avail > s.length then s.length else avail
  let overflow := if avail > s.length then v.overflow else true
  vfpIncCurrPtrBy { v with mem := memWrite v.mem v.curr (s.take xxLen), overflow := overflow } xxLen

/-- `vfpPutFormat`, given the text that `snprintf` would produce in a large buffer. -/
def vfpPutFormat (v : Vfp) (text : Str) : Vfp := vfpPuts v (strlcpy 256 text)

/-- `vfpPutInteger` and `vfpPutLong`. -/
def vfpPutInteger (v : Vfp) (n : Int) : Vfp := vfpPutFormat v (fmtD n)

def vfpSetCurrCharPtr (v : Vfp) (p : Nat) : Vfp :=
  let v := if v.highWater < v.curr then { v with highWater := v.curr } else v
  { v with curr := p }

def vfpSetLastCharPtr (v : Vfp) (p : Nat) : Vfp :=
  { v with highWater := p, curr := if p < v.curr then p else v.curr }

def vfpSeekToEnd (v : Vfp) : Vfp := { v with curr := (v.highWater + 1).toNat }

def vfpRewind (v : Vfp) : Vfp := vfpSetCurrCharPtr v 0

def vfpSetModified (v : Vfp) : Vfp := { v with modified := true }

/-- `*vfpGetLastCharPtr (v) = '\0'`. -/
def vfpTerminate (v : Vfp) : Vfp := { v with mem := memWrite v.mem v.highWater.toNat [nul] }

/-- The bytes put so far by a writer that never repositioned. -/
def Vfp.text (v : Vfp) : Str := v.mem.take v.curr

/-- The write pointer stays inside the allocation. -/
structure Vfp.Wf (v : Vfp) : Prop where
  curr_le : (v.curr : Int) ≤ v.last
  last_lt : v.last < v.mem.length
  highWater_eq : v.highWater = v.curr

/-- At least one byte is left, the test `vfpWriteToFile` makes before it writes a file. -/
def Vfp.HasRoom (v : Vfp) : Prop := (v.curr : Int) < v.last

instance (v : Vfp) : Decidable v.HasRoom := inferInstanceAs (Decidable (_ < _))

/-- Writing took `v` to `w`; if there is room left afterwards then exactly `s` was appended. -/
structure Appends (v w : Vfp) (s : Str) : Prop where
  wf : v.Wf → w.Wf
  last : w.last = v.last
  curr_le : v.Wf → v.curr ≤ w.curr
  text : v.Wf → w.HasRoom → w.text = v.text ++ s

theorem Appends.hasRoom (h : Appends v w s) (hv : v.Wf) (hw : w.HasRoom) : v.HasRoom := by
  have h₁ := h.curr_le hv
  have h₂ := h.last
  simp only [Vfp.HasRoom] at *
  omega

theorem Appends.refl (v : Vfp) : Appends v v [] :=
  ⟨id, rfl, fun _ => Nat.le_refl _, fun _ _ => (List.append_nil _).symm⟩

theorem Appends.trans (h : Appends u v s) (h' : Appends v w t) : Appends u w (s ++ t) where
  wf hu := h'.wf (h.wf hu)
  last := h'.last.trans h.last
  curr_le hu := Nat.le_trans (h.curr_le hu) (h'.curr_le (h.wf hu))
  text hu hw := by
    rw [h'.text (h.wf hu) hw, h.text hu (h'.hasRoom (h.wf hu) hw), List.append_assoc]

theorem length_memWrite (h : i + bs.length ≤ mem.length) :
    (memWrite mem i bs).length = mem.length := by
  simp only [memWrite, List.length_append, List.length_take, List.length_drop]
  omega

theorem take_memWrite (h : i ≤ mem.length) (hk : k ≤ bs.length) :
    (memWrite mem i bs).take (i + k) = mem.take i ++ bs.take k := by
  have hi : (mem.take i).length = i := by
    rw [List.length_take]
    omega
  rw [memWrite, List.append_assoc, List.take_append, hi, List.take_of_length_le (by omega),
    show i + k - i = k by omega, List.take_append_of_le_length hk]

/-- Storing `bs` at the write pointer and advancing by the length of `s`, where `bs` starts with
`s` whenever there is room for it. -/
theorem appends_of_write {v : Vfp} {bs s : Str} {n : Nat} {o : Bool}
    (hfit : v.Wf → (v.curr : Int) + bs.length ≤ v.last + 1)
    (hn : v.Wf → (v.curr : Int) + n < v.last → n = s.length ∧ s <+: bs) :
    Appends v (vfpIncCurrPtrBy { v with mem := memWrite v.mem v.curr bs, overflow := o } n) s := by
  have hlen (hv : v.Wf) : (memWrite v.mem v.curr bs).length = v.mem.length := by
    have := hv.last_lt
    have := hfit hv
    exact length_memWrite (by omega)
  constructor
  · intro hv
    have h₁ := hv.curr_le
    have h₂ := hv.last_lt
    have h₃ := hv.highWater_eq
    simp only [vfpIncCurrPtrBy]
    split <;> split <;> constructor <;> simp only [hlen hv] at * <;> omega
  · simp only [vfpIncCurrPtrBy]
    split <;> split <;> rfl
  · intro hv
    have h₁ := hv.curr_le
    simp only [vfpIncCurrPtrBy]
    split <;> split <;> simp only at * <;> omega
  · intro hv hw
    have h₁ := hv.curr_le
    have h₂ := hv.last_lt
    simp only [vfpIncCurrPtrBy, Vfp.HasRoom, Vfp.text] at *
    by_cases h : v.last < (v.curr + n : Nat)
    · simp only [if_pos h] at hw
      split at hw <;> simp only at hw <;> omega
    · simp only [if_neg h] at hw ⊢
      have hlt : (v.curr : Int) + n < v.last := by
        split at hw <;> simp only at hw <;> omega
      obtain ⟨hns, t, ht⟩ := hn hv hlt
      have he : (memWrite v.mem v.curr bs).take (v.curr + n) = v.mem.take v.curr ++ s := by
        rw [take_memWrite (by omega) (by rw [← ht, List.length_append]; omega), hns, ← ht,
          List.take_left]
      split <;> exact he

theorem vfpPutc_appends (v : Vfp) (c : Char) : Appends v (vfpPutc v c) [c] := by
  apply appends_of_write
  · intro hv
    have := hv.curr_le
    simp only [List.length_singleton]
    omega
  · intro hv _
    exact ⟨rfl, List.prefix_refl _⟩

theorem vfpPuts_appends (v : Vfp) (s : Str) : Appends v (vfpPuts v s) s := by
  rw [vfpPuts]
  by_cases h : vfpGetBytesAvailable v = 0
  · simp only [if_pos h]
    have hm : v.mem = memWrite v.mem v.curr [] := by
      simp [memWrite]
    conv in v.mem => rw [hm]
    apply appends_of_write
    · intro hv
      have := hv.curr_le
      simp only [List.length_nil]
      omega
    · intro hv hlt
      simp only [vfpGetBytesAvailable] at h
      omega
  · simp only [if_neg h]
    apply appends_of_write
    · intro hv
      have := hv.curr_le
      simp only [vfpGetBytesAvailable, strlcpy, List.length_append, List.length_take,
        List.length_singleton] at *
      omega
    · intro hv hlt
      refine ⟨rfl, ?_⟩
      rw [strlcpy, List.take_of_length_le]
      · exact List.prefix_append _ _
      · simp only [vfpGetBytesAvailable]
        omega

theorem vfpPutBytes_appends (v : Vfp) (s : Str) : Appends v (vfpPutBytes v s) s := by
  rw [vfpPutBytes]
  by_cases h : vfpGetBytesAvailable v > s.length
  · simp only [if_pos h, List.take_length]
    apply appends_of_write
    · intro hv
      have := hv.curr_le
      simp only [vfpGetBytesAvailable] at h
      omega
    · intro hv _
      exact ⟨rfl, List.prefix_refl _⟩
  · simp only [if_neg h]
    apply appends_of_write
    · intro hv
      have := hv.curr_le
      simp only [vfpGetBytesAvailable, List.length_take]
      omega
    · intro hv hlt
      simp only [vfpGetBytesAvailable] at hlt
      omega

theorem vfpPutFormat_appends (v : Vfp) (s : Str) (hs : s.length ≤ 255) :
    Appends v (vfpPutFormat v s) s := by
  rw [vfpPutFormat, strlcpy, List.take_of_length_le hs]
  exact vfpPuts_appends v s

theorem vfpSetModified_appends (v : Vfp) : Appends v (vfpSetModified v) [] where
  wf hv := ⟨hv.curr_le, hv.last_lt, hv.highWater_eq⟩
  last := rfl
  curr_le _ := Nat.le_refl _
  text _ _ := by rw [List.append_nil]; rfl

theorem vfpTerminate_appends (v : Vfp) : Appends v (vfpTerminate v) [] where
  wf hv := by
    have h₁ := hv.curr_le
    have h₂ := hv.last_lt
    have h₃ := hv.highWater_eq
    refine ⟨h₁, ?_, h₃⟩
    rw [vfpTerminate, length_memWrite (by rw [List.length_singleton]; omega)]
    exact h₂
  last := rfl
  curr_le _ := Nat.le_refl _
  text hv _ := by
    have h₁ := hv.curr_le
    have h₂ := hv.last_lt
    have h₃ : v.highWater.toNat = v.curr := by
      have := hv.highWater_eq
      omega
    rw [List.append_nil, vfpTerminate, Vfp.text, Vfp.text, h₃]
    have hle : v.curr ≤ v.mem.length := by omega
    simpa using take_memWrite hle (Nat.zero_le [nul].length)

theorem vfpAnonymous_wf (pagesize size : Nat) (junk : Nat → Char) (h : 0 < size + pagesize) :
    (vfpAnonymous pagesize size junk).Wf := by
  constructor <;> simp only [vfpAnonymous, List.length_cons, List.length_append, List.length_map,
    List.length_range, List.length_nil] <;> omega

end Pkgtools
