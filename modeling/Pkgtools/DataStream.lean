import Pkgtools.CLib.BlockText
import Pkgtools.CLib.Numeral

namespace Pkgtools
open CLib
set_option autoImplicit true

def BLK_SIZE : Nat := 512

/-- The datastream header as `dstream.c` keeps it: the bytes at `ds_header` (`ds_headsize` many),
the offset of `pds_header`, and the blocks that `read` of `ds_fd` returns next. -/
structure DsStream where
  header : Str
  pds : Nat
  blocks : List Str
  deriving DecidableEq, Repr

def HDR_PREFIX : Str := "# PaCkAgE DaTaStReAm".toList

def HDR_SUFFIX : Str := "# end of header".toList

/-- `ds_readbuf`: whether the device holds a datastream. The first block is kept as the header. -/
def dsReadbuf : List Str → Option DsStream
  | [] => none
  | b :: bs => if b.length = BLK_SIZE ∧ strncmp b HDR_PREFIX 20 = 0 then some ⟨b, 0, bs⟩ else none

/-- What lies in memory behind a header buffer of so many bytes. -/
abbrev Behind := Nat → Str

/-- The string at `pds_header`. The buffer has no terminator of its own. -/
def DsStream.str (m : Behind) (s : DsStream) : Str :=
  cstr ((s.header ++ m s.header.length).drop s.pds)

/-- `*nextp = '\0'`. -/
def DsStream.putNul (s : DsStream) (i : Nat) : DsStream :=
  { s with header := s.header.set (s.pds + i) nul }

/-- `ds_gets`. A result of `none` is the null pointer; otherwise it is the string in `buf`. The
header buffer is taken to grow in place. -/
def dsGets (m : Behind) (buf : Str) (size : Nat) (s : DsStream) : Option Str × Str × DsStream :=
  match newlineIdx (s.str m) with
  | none =>
    let length := (s.str m).length
    if length > size then (none, buf, s)
    else match s.blocks with
      | [] => (none, buf, s)
      | b :: bs =>
        if b.length < BLK_SIZE then (none, buf, { s with blocks := bs })
        else
          let s := { s with header := s.header ++ b, blocks := bs }
          match newlineIdx (s.str m) with
          | none => (none, buf, s)
          | some nextp =>
            let line := (s.str m).take nextp
            let s := s.putNul nextp
            if length + line.length > size then (none, buf, s)
            else
              let buf := storeStr buf length line
              (some (cstr buf), buf, { s with pds := s.pds + nextp + 1 })
  | some nextp =>
    let line := (s.str m).take nextp
    let s := s.putNul nextp
    if line.length > size then (none, buf, s)
    else
      let buf := storeStr buf 0 line
      (some (cstr buf), buf, { s with pds := s.pds + nextp + 1 })

/-- The strings that successive calls of `ds_gets` return, up to the first null pointer. -/
def dsGetsRun (m : Behind) (size : Nat) : Nat → Str → DsStream → List Str
  | 0, _, _ => []
  | n + 1, buf, s =>
    match dsGets m buf size s with
    | (none, _, _) => []
    | (some l, buf, s) => l :: dsGetsRun m size n buf s

/-- The bytes of the header buffer from `pds_header` on. -/
def DsStream.ahead (s : DsStream) : Str := s.header.drop s.pds

theorem DsStream.str_eq (m : Behind) {s : DsStream} (hp : s.pds ≤ s.header.length) :
    s.str m = cstr (s.ahead ++ m s.header.length) := by
  rw [DsStream.str, List.drop_append_of_le_length hp, DsStream.ahead]

theorem DsStream.length_ahead (s : DsStream) : s.ahead.length = s.header.length - s.pds :=
  List.length_drop

/-- The stream once a line of `n` bytes in the buffer has been taken. -/
def DsStream.next (s : DsStream) (n : Nat) : DsStream :=
  { s.putNul n with pds := s.pds + n + 1 }

theorem DsStream.next_blocks (s : DsStream) (n : Nat) : (s.next n).blocks = s.blocks := rfl

theorem DsStream.length_next (s : DsStream) (n : Nat) :
    (s.next n).header.length = s.header.length := List.length_set

theorem DsStream.ahead_next {s : DsStream} (h : s.ahead = l ++ '\n' :: t) :
    (s.next l.length).ahead = t := by
  have hd : (s.next l.length).ahead = s.header.drop (s.pds + l.length + 1) :=
    List.drop_set_of_lt (Nat.lt_succ_self (s.pds + l.length))
  have hs : s.header.drop (s.pds + l.length + 1) = s.ahead.drop (l.length + 1) := by
    rw [DsStream.ahead, List.drop_drop, Nat.add_assoc]
  rw [hd, hs, h, List.drop_append]
  simp

theorem DsStream.next_bounded {s : DsStream} (h : s.ahead = l ++ '\n' :: t) :
    (s.next l.length).pds ≤ (s.next l.length).header.length := by
  have hl := congrArg List.length h
  rw [s.length_ahead, List.length_append, List.length_cons] at hl
  rw [DsStream.length_next]
  change s.pds + l.length + 1 ≤ s.header.length
  omega

section Calls
variable {m : Behind} {size : Nat} {s : DsStream}

theorem dsGets_some (hn : newlineIdx (s.str m) = some i) (hi : i ≤ (s.str m).length) (hs : i ≤ size)
    (buf : Str) : dsGets m buf size s =
      (some ((s.str m).take i), storeStr buf 0 ((s.str m).take i), s.next i) := by
  have hl : ((s.str m).take i).length = i := by rw [List.length_take]; omega
  have hf : NulFree ((s.str m).take i) := fun h => nulFree_cstr _ (List.mem_of_mem_take h)
  simp only [dsGets, hn, hl, if_neg (show ¬ i > size by omega), cstr_storeStr_zero buf hf]
  rfl

theorem DsStream.str_line (hp : s.pds ≤ s.header.length) (ha : s.ahead = l ++ '\n' :: t)
    (hl : OneLine l) : s.str m = l ++ '\n' :: cstr (t ++ m s.header.length) := by
  rw [DsStream.str_eq m hp, ha, List.append_assoc, cstr_append hl.2, List.cons_append, cstr,
    List.takeWhile_cons_of_pos (by decide)]
  rfl

theorem dsGets_line (hp : s.pds ≤ s.header.length) (ha : s.ahead = l ++ '\n' :: t) (hl : OneLine l)
    (hsize : l.length ≤ size) (buf : Str) :
    dsGets m buf size s = (some l, storeStr buf 0 l, s.next l.length) := by
  have hstr := DsStream.str_line (m := m) hp ha hl
  have hn : newlineIdx (s.str m) = some l.length := by
    rw [hstr]
    exact newlineIdx_append hl.1 _
  have hcall := dsGets_some hn (by rw [hstr, List.length_append]; omega) hsize buf
  rw [hstr, List.take_left] at hcall
  exact hcall

theorem dsGets_none (hn : newlineIdx (s.str m) = none) (hb : s.blocks = []) (buf : Str) :
    (dsGets m buf size s).1 = none := by
  simp only [dsGets, hn, hb]
  split <;> rfl

def DsStream.grown (s : DsStream) (b : Str) : DsStream :=
  { s with header := s.header ++ b, blocks := s.blocks.tail }

theorem dsGets_refill (hn : newlineIdx (s.str m) = none) (hb : s.blocks = b :: bs)
    (hlen : b.length = BLK_SIZE) (hs : (s.str m).length ≤ size) (buf : Str) :
    dsGets m buf size s =
      match newlineIdx ((s.grown b).str m) with
      | none => (none, buf, s.grown b)
      | some i =>
        let line := ((s.grown b).str m).take i
        if (s.str m).length + line.length > size then (none, buf, (s.grown b).putNul i)
        else (some (cstr (storeStr buf (s.str m).length line)),
          storeStr buf (s.str m).length line, (s.grown b).next i) := by
  have hg : ({ s with header := s.header ++ b, blocks := bs } : DsStream) = s.grown b := by
    rw [DsStream.grown, hb, List.tail_cons]
  simp only [dsGets, hn, hb, hlen, if_neg (Nat.not_lt.mpr hs), Nat.lt_irrefl, if_false, hg]
  rfl

theorem DsStream.ahead_grown (hp : s.pds ≤ s.header.length) (b : Str) :
    (s.grown b).ahead = s.ahead ++ b := List.drop_append_of_le_length hp

theorem DsStream.grown_bounded (hp : s.pds ≤ s.header.length) (b : Str) :
    (s.grown b).pds ≤ (s.grown b).header.length := by
  change s.pds ≤ (s.header ++ b).length
  rw [List.length_append]
  omega

theorem dsGets_end (h : s.str m = []) (hg : ∀ b bs, s.blocks = b :: bs → (s.grown b).str m = [])
    (hb : ∀ b ∈ s.blocks, b.length = BLK_SIZE) (buf : Str) : (dsGets m buf size s).1 = none := by
  have hn : newlineIdx (s.str m) = none := by rw [h]; rfl
  cases hs : s.blocks with
  | nil => exact dsGets_none hn hs buf
  | cons b bs =>
    rw [dsGets_refill hn hs (hb b (hs ▸ List.mem_cons_self)) (by rw [h]; exact Nat.zero_le _)]
    rw [hg b bs hs]
    rfl

theorem dsGetsRun_none (h : (dsGets m buf size s).1 = none) (n : Nat) :
    dsGetsRun m size n buf s = [] := by
  cases n with
  | zero => rfl
  | succ n =>
    rcases hd : dsGets m buf size s with ⟨r, buf', s'⟩
    rw [hd] at h
    cases h
    simp only [dsGetsRun, hd]

theorem dsGetsRun_some (h : dsGets m buf size s = (some l, buf', s')) (n : Nat) :
    dsGetsRun m size (n + 1) buf s = l :: dsGetsRun m size n buf' s' := by
  simp only [dsGetsRun, h]

/-- The strings returned are the given lines, and then the null pointer. -/
def ReadsLines (m : Behind) (size : Nat) (buf : Str) (s : DsStream) (ls : List Str) : Prop :=
  ∀ n, dsGetsRun m size n buf s = ls.take n

theorem readsLines_nil (h : (dsGets m buf size s).1 = none) : ReadsLines m size buf s [] := by
  intro n
  rw [dsGetsRun_none h, List.take_nil]

theorem readsLines_cons (h : dsGets m buf size s = (some l, buf', s')) (ls : List Str) :
    ReadsLines m size buf s (l :: ls) ↔ ReadsLines m size buf' s' ls := by
  constructor
  · intro hr n
    have hn := hr (n + 1)
    rw [dsGetsRun_some h, List.take_succ_cons, List.cons.injEq] at hn
    exact hn.2
  · intro hr n
    cases n with
    | zero => rfl
    | succ n => rw [dsGetsRun_some h, List.take_succ_cons, hr n]

theorem ReadsLines.head (h : ReadsLines m size buf s (l :: ls)) :
    (dsGets m buf size s).1 = some l := by
  have h1 := h 1
  rcases hd : dsGets m buf size s with ⟨r, buf', s'⟩
  cases r with
  | none =>
    rw [dsGetsRun_none (by rw [hd])] at h1
    cases h1
  | some l' =>
    rw [dsGetsRun_some hd] at h1
    exact congrArg some (List.cons.inj h1).1

/-- Lines that end inside the buffer, with a terminator behind them, are read whatever lies behind
the buffer. -/
theorem readsLines_within (hls : ∀ l ∈ ls, OneLine l ∧ l.length ≤ size)
    (hb : ∀ b ∈ s.blocks, b.length = BLK_SIZE) (hp : s.pds ≤ s.header.length)
    (ha : s.ahead = unlines ls ++ nul :: t) (buf : Str) : ReadsLines m size buf s ls := by
  induction ls generalizing s buf with
  | nil =>
    rw [unlines_nil, List.nil_append] at ha
    apply readsLines_nil
    apply dsGets_end _ _ hb
    · rw [DsStream.str_eq m hp, ha]
      exact cstr_nul _
    · intro b bs _
      rw [DsStream.str_eq m (DsStream.grown_bounded hp b), DsStream.ahead_grown hp, ha]
      exact cstr_nul _
  | cons l ls ih =>
    obtain ⟨hl, hsize⟩ := hls l List.mem_cons_self
    rw [unlines_cons, List.append_assoc, List.cons_append] at ha
    rw [readsLines_cons (dsGets_line hp ha hl hsize buf)]
    apply ih (s := s.next l.length) (fun l hm => hls l (List.mem_cons_of_mem _ hm)) hb
    · exact DsStream.next_bounded ha
    · exact DsStream.ahead_next ha

/-- The stream still holds these lines, padded with NULs. -/
structure HoldsLines (s : DsStream) (ls : List Str) : Prop where
  bounded : s.pds ≤ s.header.length
  blocks : ∀ b ∈ s.blocks, b.length = BLK_SIZE
  text : ∃ k, s.ahead ++ s.blocks.flatten = unlines ls ++ List.replicate k nul

theorem HoldsLines.next (h : HoldsLines s (l :: ls)) (ha : s.ahead = l ++ '\n' :: t) :
    HoldsLines (s.next l.length) ls := by
  obtain ⟨k, hk⟩ := h.text
  refine ⟨DsStream.next_bounded ha, h.blocks, k, ?_⟩
  rw [unlines_cons, ha, List.append_assoc, List.append_assoc, List.append_cancel_left_eq,
    List.cons_append, List.cons_append, List.cons.injEq] at hk
  rw [DsStream.ahead_next ha, DsStream.next_blocks]
  exact hk.2

theorem HoldsLines.grown (h : HoldsLines s ls) (hb : s.blocks = b :: bs) :
    HoldsLines (s.grown b) ls := by
  obtain ⟨k, hk⟩ := h.text
  have hblocks : (s.grown b).blocks = bs := by rw [DsStream.grown, hb, List.tail_cons]
  refine ⟨DsStream.grown_bounded h.bounded b, ?_, k, ?_⟩
  · intro c hc
    rw [hblocks] at hc
    exact h.blocks c (hb ▸ List.mem_cons_of_mem _ hc)
  · rw [DsStream.ahead_grown h.bounded, hblocks, List.append_assoc, ← List.flatten_cons, ← hb]
    exact hk

end Calls

/-- A terminator lies directly behind the header buffer, however large it is. -/
def calm : Behind := fun _ => []

section Calm
variable {size : Nat} {s : DsStream}

theorem DsStream.str_calm (hp : s.pds ≤ s.header.length) : s.str calm = cstr s.ahead := by
  rw [DsStream.str_eq calm hp, calm, List.append_nil]

theorem cstr_of_replicate (h : a ++ r = List.replicate k nul) : cstr a = [] := by
  cases a with
  | nil => rfl
  | cons c a =>
    have hc : c ∈ List.replicate k nul := h ▸ List.mem_append_left _ List.mem_cons_self
    rw [List.eq_of_mem_replicate hc]
    exact cstr_nul _

theorem readsLines_calm_nil (h : HoldsLines s []) (buf : Str) : ReadsLines calm size buf s [] := by
  obtain ⟨k, hk⟩ := h.text
  rw [unlines_nil, List.nil_append] at hk
  apply readsLines_nil
  apply dsGets_end _ _ h.blocks
  · rw [DsStream.str_calm h.bounded]
    exact cstr_of_replicate hk
  · intro b bs hb
    rw [DsStream.str_calm (DsStream.grown_bounded h.bounded b), DsStream.ahead_grown h.bounded]
    rw [hb, List.flatten_cons, ← List.append_assoc] at hk
    exact cstr_of_replicate hk

theorem dsGets_cut (h : HoldsLines s (l :: ls)) (hl : OneLine l) (hsize : l.length ≤ size)
    (ha : s.ahead <+: l) (h0 : s.ahead ≠ []) (hbuf : buf.length = size + 1) :
    (dsGets calm buf size s).1 ≠ some l := by
  obtain ⟨k, hk⟩ := h.text
  have hpos : 0 < s.ahead.length := List.length_pos_of_ne_nil h0
  have hle := ha.length_le
  have hone : OneLine s.ahead := hl.sublist ha.sublist
  have hstr : s.str calm = s.ahead := by
    rw [DsStream.str_calm h.bounded]
    exact cstr_of_nulFree hone.2
  have hn : newlineIdx (s.str calm) = none := by
    rw [hstr]
    exact newlineIdx_eq_none hone.1
  cases hb : s.blocks with
  | nil =>
    rw [dsGets_none hn hb]
    exact Option.some_ne_none l |>.symm
  | cons b bs =>
    rw [dsGets_refill hn hb (h.blocks b (hb ▸ List.mem_cons_self)) (by rw [hstr]; omega)]
    have hg := DsStream.grown_bounded h.bounded b
    rw [unlines_cons, hb, List.flatten_cons, ← List.append_assoc, List.append_assoc l,
      List.cons_append] at hk
    rcases line_or_prefix hk with ⟨u, hu, _⟩ | ⟨hpre, _⟩
    · -- the line ends in the block that is read, and is stored behind its own beginning
      have hgstr : (s.grown b).str calm = l ++ '\n' :: cstr u := by
        rw [DsStream.str_calm hg, DsStream.ahead_grown h.bounded, hu, cstr_append hl.2, cstr,
          List.takeWhile_cons_of_pos (by decide)]
        rfl
      rw [hgstr, newlineIdx_append hl.1]
      simp only [List.take_left, hstr]
      split
      · exact Option.some_ne_none l |>.symm
      · intro he
        exact cstr_storeStr_ne buf (by omega) hpos hle hl.2 (Option.some.inj he)
    · have hgl : OneLine (s.ahead ++ b) := hl.sublist hpre.sublist
      have hgstr : (s.grown b).str calm = s.ahead ++ b := by
        rw [DsStream.str_calm hg, DsStream.ahead_grown h.bounded]
        exact cstr_of_nulFree hgl.2
      rw [hgstr, newlineIdx_eq_none hgl.1]
      exact Option.some_ne_none l |>.symm

/-- At the end of the buffer the next line is taken from the block that is read. -/
theorem dsGets_boundary (h : HoldsLines s (l :: ls)) (hl : OneLine l) (hsize : l.length ≤ size)
    (ha : s.ahead = []) (hb : s.blocks = b :: bs) (hline : b = l ++ '\n' :: t) (buf : Str) :
    dsGets calm buf size s = (some l, storeStr buf 0 l, (s.grown b).next l.length) := by
  have hstr : s.str calm = [] := by
    rw [DsStream.str_calm h.bounded, ha]
    rfl
  have hg := DsStream.grown_bounded h.bounded b
  have hga : (s.grown b).ahead = l ++ '\n' :: t := by
    rw [DsStream.ahead_grown h.bounded, ha, List.nil_append, hline]
  have hgstr : (s.grown b).str calm = l ++ '\n' :: cstr t := by
    rw [DsStream.str_calm hg, hga, cstr_append hl.2, cstr, List.takeWhile_cons_of_pos (by decide)]
    rfl
  rw [dsGets_refill (by rw [hstr]; rfl) hb (h.blocks b (hb ▸ List.mem_cons_self))
    (by rw [hstr]; exact Nat.zero_le _)]
  simp only [hgstr, newlineIdx_append hl.1, List.take_left, hstr, List.length_nil, Nat.zero_add,
    if_neg (Nat.not_lt.mpr hsize), cstr_storeStr_zero buf hl.2]

/-- With a terminator behind the buffer, the lines are read exactly when no line is cut by the end
of a block. -/
theorem readsLines_calm_iff (h : HoldsLines s ls) (hls : ∀ l ∈ ls, OneLine l ∧ l.length ≤ size)
    (hbuf : buf.length = size + 1) :
    ReadsLines calm size buf s ls ↔ CutsAtLines BLK_SIZE s.ahead.length (unlines ls) := by
  induction ls generalizing s buf with
  | nil =>
    constructor
    · intro _ k _ hlt
      exact absurd hlt (Nat.not_lt_zero _)
    · intro _
      exact readsLines_calm_nil h buf
  | cons l ls ih =>
    obtain ⟨hl, hsize⟩ := hls l List.mem_cons_self
    have hrest : ∀ l ∈ ls, OneLine l ∧ l.length ≤ size :=
      fun l hm => hls l (List.mem_cons_of_mem _ hm)
    have hbuf' : (storeStr buf 0 l).length = size + 1 := by
      rw [storeStr, List.length_append, List.length_append, List.length_take, List.length_cons,
        List.length_drop, hbuf]
      omega
    obtain ⟨k, hk⟩ := h.text
    rw [unlines_cons, List.append_assoc, List.cons_append] at hk
    rw [unlines_cons]
    rcases line_or_prefix hk with ⟨u, hu, _⟩ | ⟨hpre, hne⟩
    · -- the line stands in the buffer
      have hlen := congrArg List.length hu
      rw [List.length_append, List.length_cons] at hlen
      rw [readsLines_cons (dsGets_line h.bounded hu hl hsize buf), cutsAtLines_cons _ (by omega),
        ih (h.next hu) hrest hbuf', DsStream.ahead_next hu]
      rw [hlen, show l.length + (u.length + 1) - (l.length + 1) = u.length by omega]
    · by_cases ha : s.ahead = []
      · -- the buffer is used up: the line starts with the next block
        cases hb : s.blocks with
        | nil => exact absurd (by rw [hb]; rfl) hne
        | cons b bs =>
          have hblen := h.blocks b (hb ▸ List.mem_cons_self)
          rw [ha, List.length_nil, cutsAtLines_zero]
          rw [ha, hb, List.nil_append, List.flatten_cons] at hk
          rcases line_or_prefix hk with ⟨u, hu, _⟩ | ⟨hpre', _⟩
          · have hga : (s.grown b).ahead = l ++ '\n' :: u := by
              rw [DsStream.ahead_grown h.bounded, ha, List.nil_append, hu]
            have hlen := congrArg List.length hu
            rw [hblen, List.length_append, List.length_cons] at hlen
            rw [readsLines_cons (dsGets_boundary h hl hsize ha hb hu buf),
              cutsAtLines_cons _ (by omega), ih ((h.grown hb).next hga) hrest hbuf',
              DsStream.ahead_next hga]
            rw [hlen, show l.length + (u.length + 1) - (l.length + 1) = u.length by omega]
          · have hle := hpre'.length_le
            constructor
            · intro hr
              have hhead := hr.head
              have hg : HoldsLines (s.grown b) (l :: ls) := h.grown hb
              have hgl : OneLine b := hl.sublist hpre'.sublist
              have hgstr : (s.grown b).str calm = b := by
                rw [DsStream.str_calm hg.bounded, DsStream.ahead_grown h.bounded, ha,
                  List.nil_append]
                exact cstr_of_nulFree hgl.2
              have hstr : s.str calm = [] := by
                rw [DsStream.str_calm h.bounded, ha]
                rfl
              rw [dsGets_refill (by rw [hstr]; rfl) hb hblen (by rw [hstr]; exact Nat.zero_le _),
                hgstr, newlineIdx_eq_none hgl.1] at hhead
              cases hhead
            · intro hc
              exact absurd hc (not_cutsAtLines _ hl.1 (by decide) (by omega) _)
      · constructor
        · intro hr
          exact absurd hr.head (dsGets_cut h hl hsize hpre ha hbuf)
        · intro hc
          exact absurd hc (not_cutsAtLines _ hl.1 (List.length_pos_of_ne_nil ha) hpre.length_le _)

end Calm

section Overrun
variable {m : Behind} {size : Nat} {s : DsStream}

theorem dsGets_found (hn : newlineIdx (s.str m) = some i) (hi : i ≤ (s.str m).length) (buf : Str) :
    (dsGets m buf size s).1 = if i > size then none else some ((s.str m).take i) := by
  split
  · next hgt =>
    have hl : ((s.str m).take i).length = i := by rw [List.length_take]; omega
    simp only [dsGets, hn, hl, if_pos hgt]
  · next hle => rw [dsGets_some hn hi (Nat.not_lt.mp hle)]

theorem dsGets_long (hp : s.pds ≤ s.header.length) (ha : s.ahead = l ++ '\n' :: t) (hl : OneLine l)
    (hsize : size < l.length) (buf : Str) : (dsGets m buf size s).1 = none := by
  have hstr := DsStream.str_line (m := m) hp ha hl
  have hn : newlineIdx (s.str m) = some l.length := by
    rw [hstr]
    exact newlineIdx_append hl.1 _
  rw [dsGets_found hn (by rw [hstr, List.length_append]; omega), if_pos hsize]

theorem ReadsLines.take_front (hls : ∀ l ∈ front, OneLine l ∧ l.length ≤ size)
    (hp : s.pds ≤ s.header.length) (ha : s.ahead = unlines front ++ q)
    (h : ReadsLines m size buf s (front ++ back)) :
    ∃ buf' s', ReadsLines m size buf' s' back ∧ s'.pds ≤ s'.header.length ∧ s'.ahead = q := by
  induction front generalizing s buf with
  | nil => exact ⟨buf, s, h, hp, ha⟩
  | cons l front ih =>
    obtain ⟨hl, hsize⟩ := hls l List.mem_cons_self
    rw [unlines_cons, List.append_assoc, List.cons_append] at ha
    rw [List.cons_append, readsLines_cons (dsGets_line hp ha hl hsize buf)] at h
    exact ih (fun l hm => hls l (List.mem_cons_of_mem _ hm)) (DsStream.next_bounded ha)
      (DsStream.ahead_next ha) h

/-- Where the buffer ends in `q` without a newline, a string of the memory behind it is taken for
the rest of the line. -/
theorem dsGets_overrun (hp : s.pds ≤ s.header.length) (hq : OneLine s.ahead) (hx : OneLine x)
    (size : Nat) (buf : Str) :
    (dsGets (fun _ => x ++ ['\n']) buf size s).1 =
      if (s.ahead ++ x).length > size then none else some (s.ahead ++ x) := by
  have hone := hq.append hx
  have hstr : s.str (fun _ => x ++ ['\n']) = s.ahead ++ x ++ ['\n'] := by
    rw [DsStream.str_eq _ hp, ← List.append_assoc, cstr_append hone.2]
    rfl
  have hn : newlineIdx (s.str fun _ => x ++ ['\n']) = some (s.ahead ++ x).length := by
    rw [hstr]
    exact newlineIdx_append hone.1 []
  rw [dsGets_found hn (by rw [hstr]; exact (List.prefix_append _ _).length_le), hstr,
    List.take_left]

end Overrun

section Header
variable {ls : List Str} {size k : Nat} {b : Str} {bs : List Str}

/-- A header that fills its first block is misread, depending on what lies behind it in memory. -/
theorem not_readsLines_of_full (hls : ∀ l ∈ ls, OneLine l ∧ l.length ≤ size)
    (hb : b.length = BLK_SIZE) (htext : (b :: bs).flatten = unlines ls ++ List.replicate k nul)
    (hfull : BLK_SIZE ≤ (unlines ls).length) (buf : Str) :
    ¬ ∀ m, ReadsLines m size buf ⟨b, 0, bs⟩ ls := by
  intro h
  obtain ⟨front, back, q, rfl, htake, hq⟩ := take_unlines ls BLK_SIZE hfull
  have hbq : b = unlines front ++ q := by
    have hcut := congrArg (List.take BLK_SIZE) htext
    rw [List.flatten_cons, List.take_left' hb, List.take_append_of_le_length hfull, htake] at hcut
    exact hcut
  have hfront : ∀ l ∈ front, OneLine l ∧ l.length ≤ size :=
    fun l hl => hls l (List.mem_append_left _ hl)
  have hread : ∀ m, ∃ buf' s', ReadsLines m size buf' s' back ∧ s'.pds ≤ s'.header.length ∧
      s'.ahead = q := by
    intro m
    exact ReadsLines.take_front (s := ⟨b, 0, bs⟩) hfront (Nat.zero_le _) hbq (h m)
  cases back with
  | nil =>
    have hq' : q = [] := by
      rcases hq with hq | ⟨l, more, hl, _⟩
      · exact hq
      · cases hl
    subst hq'
    obtain ⟨buf', s', hr, hp, hs⟩ := hread fun _ => [] ++ ['\n']
    have hcall := dsGets_overrun hp (by rw [hs]; exact oneLine_nil) oneLine_nil size buf'
    rw [hs, List.append_nil, List.length_nil, if_neg (Nat.not_lt_zero _)] at hcall
    rcases hd : dsGets (fun _ => [] ++ ['\n']) buf' size s' with ⟨r, buf'', s''⟩
    rw [hd] at hcall
    obtain rfl : r = some [] := hcall
    have h1 := hr 1
    rw [dsGetsRun_some hd] at h1
    cases h1
  | cons l more =>
    have hl := hls l (List.mem_append_right _ List.mem_cons_self)
    have hpre : q <+: l := by
      rcases hq with rfl | ⟨l', more', he, hq⟩
      · exact List.nil_prefix
      · rw [(List.cons.inj he).1]
        exact hq
    have hone : OneLine q := hl.1.sublist hpre.sublist
    -- the returned line must be both `q` and `q` followed by an `x`
    have hret : ∀ x, OneLine x → l = q ++ x := by
      intro x hx
      obtain ⟨buf', s', hr, hp, hs⟩ := hread fun _ => x ++ ['\n']
      have hcall := dsGets_overrun hp (by rw [hs]; exact hone) hx size buf'
      rw [hr.head, hs] at hcall
      split at hcall
      · cases hcall
      · exact Option.some.inj hcall
    have h1 := hret [] oneLine_nil
    have h2 := hret ['x'] (by decide)
    rw [h1] at h2
    have hlen := congrArg List.length h2
    rw [List.length_append, List.length_append, List.length_singleton, List.length_nil] at hlen
    omega

theorem holdsLines_start (hbs : ∀ c ∈ bs, c.length = BLK_SIZE)
    (htext : (b :: bs).flatten = unlines ls ++ List.replicate k nul) :
    HoldsLines ⟨b, 0, bs⟩ ls := ⟨Nat.zero_le _, hbs, k, htext⟩

end Header

def sampleLine (i : Nat) : Str :=
  "SUNWp".toList ++ fmtD i ++ " 40 100".toList ++ (List.replicate 40 " 1".toList).flatten

/-- A header of six packages: the line of the last of them is cut by the end of the first block. -/
def sampleHeader : List Str :=
  HDR_PREFIX :: [100, 101, 102, 103, 104, 105].map sampleLine ++ [HDR_SUFFIX]

def sampleBlocks : Str × Str :=
  let text := unlines sampleHeader ++ List.replicate 411 nul
  (text.take BLK_SIZE, text.drop BLK_SIZE)

end Pkgtools
