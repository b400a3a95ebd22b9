import Pkgtools.CLib.Chunks
import Pkgtools.StreamHeader

namespace Pkgtools
open CLib
set_option autoImplicit true

theorem int_eq (h : -2 ^ 31 ≤ x) : int x = if x < 2 ^ 31 then .ok x else .error .undefined := by
  simp only [int, h, true_and]

/-- How often the loop that fills a volume runs. -/
def fillCount (capacity s : Int) (todo : Nat) (t : Int) : Int :=
  if t ≤ capacity then min todo ((capacity - t) / s + 1) else 0

theorem fillCount_succ (hs : 0 < s) (todo : Nat) (h : t ≤ capacity) :
    fillCount capacity s (todo + 1) t = fillCount capacity s todo (t + s) + 1 := by
  rw [fillCount, if_pos h, fillCount]
  split
  · have hdiv : (capacity - t) / s = (capacity - (t + s)) / s + 1 := by
      rw [← Int.add_mul_ediv_right _ _ (by omega : s ≠ 0)]
      congr 1
      ring
    rw [hdiv]
    omega
  · rw [Int.ediv_eq_zero_of_lt (by omega) (by omega)]
    omega

theorem fillCount_nonneg (capacity t : Int) (hs : 0 < s) (todo : Nat) :
    0 ≤ fillCount capacity s todo t := by
  rw [fillCount]
  split
  · have := Int.ediv_nonneg (show 0 ≤ capacity - t by omega) (Int.le_of_lt hs)
    omega
  · exact Int.le_refl _

/-- The loop that fills a volume adds up the sizes of `fillCount` parts, unless a sum is
no `int`. -/
theorem fillVolume_eq (capacity : Int) (hs : 0 < s) (ht : -2 ^ 31 ≤ t) (ht' : t < 2 ^ 31)
    (hp : 0 ≤ p)
    (hp' : p < 2 ^ 31) (todo : Nat) :
    fillVolume capacity s todo t p =
      if t + fillCount capacity s todo t * s < 2 ^ 31 ∧ p + fillCount capacity s todo t <
        2 ^ 31 then
        .ok (t + fillCount capacity s todo t * s, p + fillCount capacity s todo t)
      else .error .undefined := by
  induction todo generalizing t p with
  | zero =>
    have hz : fillCount capacity s 0 t = 0 := by
      have := fillCount_nonneg capacity t hs 0
      rw [fillCount] at this ⊢
      split at this <;> omega
    rw [hz, if_pos (by omega), fillVolume]
    simp
  | succ todo ih =>
    rw [fillVolume]
    by_cases h : t ≤ capacity
    · rw [if_pos h, fillCount_succ hs todo h, int_eq (by omega)]
      have hn := fillCount_nonneg capacity (t + s) hs todo
      have hmul := Int.mul_nonneg hn (Int.le_of_lt hs)
      have hsum : t + (fillCount capacity s todo (t + s) + 1) * s =
          t + s + fillCount capacity s todo (t + s) * s := by ring
      rw [hsum]
      by_cases h₁ : t + s < 2 ^ 31
      · rw [if_pos h₁]
        change (int (p + 1) >>= fun p => fillVolume capacity s todo (t + s) p) = _
        rw [int_eq (by omega)]
        by_cases h₂ : p + 1 < 2 ^ 31
        · rw [if_pos h₂]
          change fillVolume capacity s todo (t + s) (p + 1) = _
          rw [ih (by omega) h₁ (by omega) h₂]
          rw [show p + (fillCount capacity s todo (t + s) + 1) =
            p + 1 + fillCount capacity s todo (t + s) by ring]
        · rw [if_neg h₂, if_neg (by omega)]
          rfl
      · rw [if_neg h₁, if_neg (by omega)]
        rfl
    · have hz : fillCount capacity s (todo + 1) t = 0 := if_neg h
      rw [if_neg h, hz, if_pos (by omega)]
      simp

/-- The counts appended to the header. -/
def writeCounts (b : DmBuf) (cs : List Int) : DmBuf :=
  cs.foldl (fun b c => catAndCount b (' ' :: fmtD c)) b

def GenState.wrote (g : GenState) (cs : List Int) : GenState :=
  { g with hdrbuf := writeCounts g.hdrbuf cs, volcnt := g.volcnt + cs.length, totsize := 0 }

theorem GenState.wrote_cons (g : GenState) (c : Int) (cs : List Int) :
    ({ g with hdrbuf := catAndCount g.hdrbuf (' ' :: fmtD c), volcnt := g.volcnt + 1,
              totsize := 0 } : GenState).wrote cs = g.wrote (c :: cs) := by
  simp only [GenState.wrote, writeCounts, List.foldl_cons, List.length_cons, GenState.mk.injEq,
    true_and, and_true]
  omega

section Split
variable {capacity n s t p : Int}

theorem splitParts_pass (hlt : p < n) (hfill : fillVolume capacity s (n + 1 - p).toNat t p =
      .ok (u, p + c + 1)) (hp : 0 ≤ p) (hc : 0 ≤ c) (ht : g.totsize = t) (passes : Nat)
    (last : Int) (counts : List Int) :
    splitParts capacity n s (passes + 1) g p last counts =
      splitParts capacity n s passes
        { g with hdrbuf := catAndCount g.hdrbuf (' ' :: fmtD (p + c - last)),
                 volcnt := g.volcnt + 1, totsize := 0 }
        (p + c) (p + c) (counts ++ [p + c - last]) := by
  rw [splitParts, if_pos hlt, ht, hfill]
  change splitParts capacity n s passes _ _ _ _ = _
  simp only [if_pos (show p + c + 1 ≠ 0 by omega), show p + c + 1 - 1 = p + c by omega]

/-- From an empty volume on, the parts that are left are put on full volumes. -/
theorem splitParts_rest (hs : 0 < s) (hcap : s ≤ capacity) (hn : n < 2 ^ 31) (hp : 0 ≤ p)
    (hlt : p < n) (passes : Nat) (hpasses : (n - p).toNat < passes) (hg : g.totsize = 0)
    (counts : List Int) :
    splitParts capacity n s passes g p p counts =
      if n + 1 < 2 ^ 31 ∧ (min (capacity / s) (n - p) + 1) * s < 2 ^ 31 then
        .ok (g.wrote (chunks (capacity / s) (n - p)), counts ++ chunks (capacity / s) (n - p))
      else .error .undefined := by
  have hq : 1 ≤ capacity / s := Int.le_ediv_of_mul_le hs (by omega)
  induction passes generalizing p g counts with
  | zero => omega
  | succ passes ih =>
    have hcount : fillCount capacity s (n + 1 - p).toNat 0 = min (capacity / s) (n - p) + 1 := by
      rw [fillCount, if_pos (by omega), Int.sub_zero]
      omega
    have hfill := fillVolume_eq capacity hs (by decide : -2 ^ 31 ≤ (0 : Int)) (by decide)
      hp (by omega) (n + 1 - p).toNat
    rw [hcount, Int.zero_add] at hfill
    by_cases hle : n - p ≤ capacity / s
    · -- the last volume: the loop has gone one part too far
      rw [Int.min_eq_right hle] at hfill ⊢
      rw [chunks_of_le (by omega) hle]
      by_cases hint : n + 1 < 2 ^ 31 ∧ (n - p + 1) * s < 2 ^ 31
      · rw [if_pos (by omega)] at hfill
        rw [if_pos hint, splitParts_pass hlt (c := n - p) (by rw [hfill]; congr 2; omega) hp
          (by omega) hg, show p + (n - p) = n by omega]
        obtain ⟨passes, rfl⟩ : ∃ k, passes = k + 1 := ⟨passes - 1, by omega⟩
        rw [splitParts, if_neg (Int.lt_irrefl n)]
        rfl
      · rw [if_neg (by omega)] at hfill
        rw [if_neg hint, splitParts, if_pos hlt, hg, hfill]
        rfl
    · rw [Int.min_eq_left (by omega)] at hfill ⊢
      rw [chunks_of_lt (by omega) (by omega)]
      by_cases hint : (capacity / s + 1) * s < 2 ^ 31
      · rw [if_pos (by omega)] at hfill
        rw [splitParts_pass hlt (c := capacity / s) (by rw [hfill]; congr 2; omega) hp
          (by omega) hg,
          ih (by omega) (by omega) (by omega) rfl, GenState.wrote_cons]
        have hmul : (min (capacity / s) (n - (p + capacity / s)) + 1) * s ≤
            (capacity / s + 1) * s := Int.mul_le_mul_of_nonneg_right (by omega) (by omega)
        rw [show p + capacity / s - p = capacity / s by omega,
          show n - (p + capacity / s) = n - p - capacity / s by omega] at *
        simp only [List.append_assoc, List.singleton_append]
        congr 1
        apply propext
        omega
      · rw [if_neg (by omega)] at hfill
        rw [if_neg (by omega), splitParts, if_pos hlt, hg, hfill]
        rfl

/-- The parts per volume of a package that does not fit behind `t` blocks: what fits there, then
full volumes. -/
def volumeParts (capacity t n s : Int) : List Int :=
  (capacity - t) / s :: chunks (capacity / s) (n - (capacity - t) / s)

/-- The `int` values that are formed for a package are in range. -/
def SumsFit (capacity t n s : Int) : Prop :=
  n * s < 2 ^ 31 ∧ t + n * s < 2 ^ 31 ∧
    (capacity < t + n * s → n + 1 < 2 ^ 31 ∧
      (min (capacity / s) (n - (capacity - t) / s) + 1) * s < 2 ^ 31)

instance : Decidable (SumsFit capacity t n s) :=
  inferInstanceAs (Decidable (_ ∧ _ ∧ (_ → _)))

theorem parts_before (hs : 0 < s) (ht : t ≤ capacity) (h : capacity < t + n * s) :
    0 ≤ (capacity - t) / s ∧ (capacity - t) / s < n :=
  ⟨Int.ediv_nonneg (by omega) (Int.le_of_lt hs), Int.ediv_lt_of_lt_mul hs (by omega)⟩

theorem splitParts_eq (hs : 0 < s) (hcap : s ≤ capacity) (hn : n < 2 ^ 31) (ht : -2 ^ 31 ≤ t)
    (hle : t ≤ capacity) (hgt : capacity < t + n * s) (hsum : t + n * s < 2 ^ 31)
    (hg : g.totsize = t) :
    splitParts capacity n s (n.toNat + 2) g 0 0 [] =
      if n + 1 < 2 ^ 31 ∧ (min (capacity / s) (n - (capacity - t) / s) + 1) * s < 2 ^ 31 then
        .ok (g.wrote (volumeParts capacity t n s), volumeParts capacity t n s)
      else .error .undefined := by
  obtain ⟨hk, hkn⟩ := parts_before hs hle hgt
  have hmul : ((capacity - t) / s + 1) * s ≤ n * s :=
    Int.mul_le_mul_of_nonneg_right (by omega) (by omega)
  have hcount : fillCount capacity s (n + 1 - 0).toNat t = (capacity - t) / s + 1 := by
    rw [fillCount, if_pos hle]
    omega
  have hfill := fillVolume_eq capacity hs ht (by omega) (Int.le_refl 0) (by decide)
    (n + 1 - 0).toNat
  rw [hcount, if_pos (by omega), ← Int.add_assoc] at hfill
  rw [splitParts_pass (by omega) hfill (Int.le_refl 0) hk hg, Int.zero_add, Int.sub_zero,
    splitParts_rest hs hcap hn hk hkn _ (by omega) rfl, GenState.wrote_cons]
  rfl

end Split

/-- What `rd_map_size` finds for a package, with the real size of a compressed one. -/
def SrcPkg.sizes (p : SrcPkg) : Int × Int :=
  match p.pkgmap.bind rdMapSize with
  | none => (0, 0)
  | some m => (m.nparts, m.cmpsize.getD m.maxpsize)

def StaysWhole (capacity t n s : Int) : Prop := capacity = 0 ∨ t + n * s ≤ capacity

instance : Decidable (StaysWhole capacity t n s) := inferInstanceAs (Decidable (_ ∨ _))

/-- The parts per volume that are written for a package. -/
def countsFor (capacity t n s : Int) : List Int :=
  if StaysWhole capacity t n s ∨ n ≤ 0 then [] else volumeParts capacity t n s

def totalBehind (capacity t n s : Int) : Int :=
  if StaysWhole capacity t n s then t + n * s else if n ≤ 0 then t else 0

/-- The state of `genheader` behind a package. -/
def GenState.addEntry (g : GenState) (capacity : Int) (p : SrcPkg) : GenState :=
  let (n, s) := p.sizes
  let counts := countsFor capacity g.totsize n s
  ⟨catAndCount (writeCounts (catAndCount g.hdrbuf (entryHead p.name n s)) counts) ['\n'],
    totalBehind capacity g.totsize n s,
    if StaysWhole capacity g.totsize n s then g.volcnt else g.volcnt + counts.length - 1,
    g.toc ++ [⟨p.name, n, s, counts⟩]⟩

/-- A package whose files can be read, whose header entry is not too long, and whose parts fit a
volume. -/
structure Acceptable (capacity : Int) (p : SrcPkg) : Prop where
  info : p.pkginfo.isSome
  map : (p.pkgmap.bind rdMapSize).isSome
  name : (entryHead p.name p.sizes.1 p.sizes.2).length < ENTRY_MAX
  parts : 0 ≤ p.sizes.1
  size : 0 ≤ p.sizes.2
  fits : p.sizes.2 ≤ capacity

/-- The value is that of an `int`. -/
def IsInt (x : Int) : Prop := -2 ^ 31 ≤ x ∧ x < 2 ^ 31

instance (x : Int) : Decidable (IsInt x) := inferInstanceAs (Decidable (_ ∧ _))

theorem int_of_isInt (h : IsInt x) : int x = .ok x := if_pos h

theorem int_of_not_isInt (h : ¬ IsInt x) : int x = .error .undefined := if_neg h

theorem int_eq_ok_iff : int x = .ok y ↔ IsInt x ∧ x = y := by
  by_cases h : IsInt x
  · rw [int_of_isInt h, Except.ok.injEq, and_iff_right h]
  · rw [int_of_not_isInt h]
    exact iff_of_false (fun h' => by cases h') fun h' => h h'.1

theorem scanInt_isInt (h : scanInt 32 s = some (x, t)) : IsInt x := by
  simp only [scanInt] at h
  split at h
  · cases h
  · cases h
    exact wrap_bounds (w := 32) (by decide) _

theorem rdMapSize_isInt (h : rdMapSize f = some m) :
    IsInt m.nparts ∧ IsInt (m.cmpsize.getD m.maxpsize) := by
  rw [rdMapSize] at h
  split at h
  · obtain ⟨⟨npts, s⟩, h₁, h⟩ := Option.bind_eq_some_iff.mp h
    obtain ⟨⟨maxpsz, s'⟩, h₂, h⟩ := Option.bind_eq_some_iff.mp h
    cases h
    refine ⟨scanInt_isInt h₁, ?_⟩
    cases h₃ : scanInt 32 s' with
    | none => exact scanInt_isInt h₂
    | some r => exact scanInt_isInt (t := r.2) h₃
  · cases h

theorem SrcPkg.sizes_isInt (p : SrcPkg) : IsInt p.sizes.1 ∧ IsInt p.sizes.2 := by
  rw [SrcPkg.sizes]
  split
  · decide
  · next m hm =>
    obtain ⟨f, _, hf⟩ := Option.bind_eq_some_iff.mp hm
    exact rdMapSize_isInt hf

section Entries
variable {capacity : Int} {p : SrcPkg} {g : GenState} {m : MapSize}

theorem SrcPkg.sizes_eq (hm : p.pkgmap.bind rdMapSize = some m) :
    p.sizes = (m.nparts, m.cmpsize.getD m.maxpsize) := by
  rw [SrcPkg.sizes, hm]

theorem size_pos (hle : t ≤ capacity) (hn : 0 ≤ n) (h : capacity < t + n * s) : 0 < n ∧ 0 < s := by
  have hns : 0 < n * s := by omega
  rcases Int.lt_or_eq_of_le hn with h' | h'
  · exact ⟨h', Int.pos_of_mul_pos_right hns h'⟩
  · rw [← h', Int.zero_mul] at hns
    omega

/-- What `genEntry` finds in front of its sums. -/
structure Readable (capacity : Int) (p : SrcPkg) : Prop where
  map : (p.pkgmap.bind rdMapSize).isSome
  name : (entryHead p.name p.sizes.1 p.sizes.2).length < ENTRY_MAX
  fits : capacity ≠ 0 → p.sizes.2 ≤ capacity

theorem genEntry_sums (hp : Readable capacity p) (h₁ : IsInt (p.sizes.1 * p.sizes.2))
    (h₂ : IsInt (g.totsize + p.sizes.1 * p.sizes.2)) (ht : IsInt g.totsize)
    (hpos : capacity ≠ 0 → 0 < capacity) :
    genEntry capacity g p =
      if StaysWhole capacity g.totsize p.sizes.1 p.sizes.2 then
        .ok { g with
          hdrbuf := catAndCount (catAndCount g.hdrbuf (entryHead p.name p.sizes.1 p.sizes.2)) ['\n']
          totsize := g.totsize + p.sizes.1 * p.sizes.2
          toc := g.toc ++ [⟨p.name, p.sizes.1, p.sizes.2, []⟩] }
      else
        splitParts capacity p.sizes.1 p.sizes.2 (p.sizes.1.toNat + 2)
            { g with hdrbuf := catAndCount g.hdrbuf (entryHead p.name p.sizes.1 p.sizes.2) } 0 0
              [] >>=
          fun r => .ok { r.1 with
            hdrbuf := catAndCount r.1.hdrbuf ['\n']
            volcnt := r.1.volcnt - 1
            toc := r.1.toc ++ [⟨p.name, p.sizes.1, p.sizes.2, r.2⟩] } := by
  obtain ⟨m, hm⟩ := Option.isSome_iff_exists.mp hp.map
  obtain ⟨-, hname, hfits⟩ := hp
  rw [genEntry, hm]
  simp only [SrcPkg.sizes_eq hm] at *
  generalize m.nparts = n at *
  generalize m.cmpsize.getD m.maxpsize = s at *
  rw [if_neg (by omega), if_neg (by omega), int_of_isInt h₁]
  simp only [bind, Except.bind, int_of_isInt h₂]
  by_cases hw : StaysWhole capacity g.totsize n s
  · have hstay : ¬ (capacity ≠ 0 ∧ capacity < g.totsize + n * s) := by
      rcases hw with hw | hw <;> omega
    simp only [if_neg hstay, if_pos hw]
  · have hsplit : capacity ≠ 0 ∧ capacity < g.totsize + n * s := by
      rw [StaysWhole] at hw
      omega
    have hback : int (g.totsize + n * s - n * s) = .ok g.totsize := by
      rw [Int.add_sub_cancel, int_of_isInt ht]
    have := hpos hsplit.1
    simp only [if_pos hsplit, if_neg hw, if_pos (show g.totsize + n * s ≠ 0 by omega), hback]

theorem genEntry_whole (hp : Readable capacity p) (h₁ : IsInt (p.sizes.1 * p.sizes.2))
    (h₂ : IsInt (g.totsize + p.sizes.1 * p.sizes.2)) (ht : IsInt g.totsize)
    (hpos : capacity ≠ 0 → 0 < capacity)
    (hw : StaysWhole capacity g.totsize p.sizes.1 p.sizes.2) :
    genEntry capacity g p = .ok (g.addEntry capacity p) := by
  rw [genEntry_sums hp h₁ h₂ ht hpos, if_pos hw]
  simp only [GenState.addEntry, countsFor, totalBehind, if_pos hw, if_pos (Or.inl hw)]
  rfl

theorem genEntry_void (hp : Readable capacity p) (h₁ : IsInt (p.sizes.1 * p.sizes.2))
    (h₂ : IsInt (g.totsize + p.sizes.1 * p.sizes.2)) (ht : IsInt g.totsize)
    (hpos : capacity ≠ 0 → 0 < capacity)
    (hw : ¬ StaysWhole capacity g.totsize p.sizes.1 p.sizes.2) (hn : p.sizes.1 ≤ 0) :
    genEntry capacity g p = .ok (g.addEntry capacity p) := by
  rw [genEntry_sums hp h₁ h₂ ht hpos, if_neg hw, splitParts, if_neg (by omega)]
  simp only [GenState.addEntry, countsFor, totalBehind, if_neg hw, if_pos (Or.inr hn), if_pos hn]
  rfl

theorem genEntry_split (hp : Readable capacity p) (h₁ : IsInt (p.sizes.1 * p.sizes.2))
    (h₂ : IsInt (g.totsize + p.sizes.1 * p.sizes.2)) (ht : IsInt g.totsize)
    (hle : g.totsize ≤ capacity) (hpos : capacity ≠ 0 → 0 < capacity)
    (hw : ¬ StaysWhole capacity g.totsize p.sizes.1 p.sizes.2) (hn : 0 < p.sizes.1) :
    genEntry capacity g p =
      if SumsFit capacity g.totsize p.sizes.1 p.sizes.2 then .ok (g.addEntry capacity p)
      else .error .undefined := by
  have hgt : capacity ≠ 0 ∧ capacity < g.totsize + p.sizes.1 * p.sizes.2 := by
    rw [StaysWhole] at hw
    omega
  obtain ⟨-, hs⟩ := size_pos hle (Int.le_of_lt hn) hgt.2
  rw [genEntry_sums hp h₁ h₂ ht hpos, if_neg hw,
    splitParts_eq
      (g := { g with hdrbuf := catAndCount g.hdrbuf (entryHead p.name p.sizes.1 p.sizes.2) })
      hs (hp.fits hgt.1) p.sizes_isInt.1.2 ht.1 hle hgt.2 h₂.2 rfl]
  have hc : ¬ (StaysWhole capacity g.totsize p.sizes.1 p.sizes.2 ∨ p.sizes.1 ≤ 0) :=
    fun h => h.elim hw (by omega)
  split
  · next h₄ =>
    rw [if_pos ⟨h₁.2, h₂.2, fun _ => h₄⟩]
    simp only [GenState.addEntry, countsFor, totalBehind, if_neg hw, if_neg hc,
      if_neg (show ¬ p.sizes.1 ≤ 0 by omega)]
    rfl
  · next h₄ =>
    rw [if_neg fun h => h₄ (h.2.2 hgt.2)]
    rfl

theorem genEntry_overflow (hp : Readable capacity p)
    (h : ¬ (IsInt (p.sizes.1 * p.sizes.2) ∧ IsInt (g.totsize + p.sizes.1 * p.sizes.2))) :
    genEntry capacity g p = .error .undefined := by
  obtain ⟨m, hm⟩ := Option.isSome_iff_exists.mp hp.map
  obtain ⟨-, hname, hfits⟩ := hp
  rw [genEntry, hm]
  simp only [SrcPkg.sizes_eq hm] at *
  rw [if_neg (by omega), if_neg (by omega)]
  by_cases h₁ : IsInt (m.nparts * m.cmpsize.getD m.maxpsize)
  · rw [int_of_isInt h₁]
    simp only [bind, Except.bind, int_of_not_isInt fun h₂ => h ⟨h₁, h₂⟩]
  · rw [int_of_not_isInt h₁]
    rfl

theorem Acceptable.readable (hp : Acceptable capacity p) : Readable capacity p :=
  ⟨hp.map, hp.name, fun _ => hp.fits⟩

/-- One package: it is put on the volumes unless a sum is no `int`. -/
theorem genEntry_eq (hcap : 0 < capacity) (hp : Acceptable capacity p) (ht : IsInt g.totsize)
    (hle : g.totsize ≤ capacity) :
    genEntry capacity g p =
      if SumsFit capacity g.totsize p.sizes.1 p.sizes.2 then .ok (g.addEntry capacity p)
      else .error .undefined := by
  have hns := Int.mul_nonneg hp.parts hp.size
  by_cases h : IsInt (p.sizes.1 * p.sizes.2) ∧ IsInt (g.totsize + p.sizes.1 * p.sizes.2)
  · obtain ⟨h₁, h₂⟩ := h
    by_cases hw : StaysWhole capacity g.totsize p.sizes.1 p.sizes.2
    · rw [genEntry_whole hp.readable h₁ h₂ ht (fun _ => hcap) hw, if_pos]
      refine ⟨h₁.2, h₂.2, fun hgt => ?_⟩
      rcases hw with hw | hw <;> omega
    · have hgt : capacity < g.totsize + p.sizes.1 * p.sizes.2 := by
        rw [StaysWhole] at hw
        omega
      have hn := (size_pos hle hp.parts hgt).1
      exact genEntry_split hp.readable h₁ h₂ ht hle (fun _ => hcap) hw hn
  · rw [genEntry_overflow hp.readable h, if_neg]
    rintro ⟨h₁, h₂, -⟩
    rw [IsInt] at ht
    exact h ⟨⟨by omega, h₁⟩, ⟨by omega, h₂⟩⟩

theorem GenState.addEntry_totsize (g : GenState) (capacity : Int) (p : SrcPkg) :
    (g.addEntry capacity p).totsize = totalBehind capacity g.totsize p.sizes.1 p.sizes.2 := rfl

theorem GenState.addEntry_toc (g : GenState) (capacity : Int) (p : SrcPkg) :
    (g.addEntry capacity p).toc = g.toc ++
      [⟨p.name, p.sizes.1, p.sizes.2, countsFor capacity g.totsize p.sizes.1 p.sizes.2⟩] := rfl

end Entries

/-- The blocks that a package's parts add to the volumes: those that are thereby completed, and the
blocks on the volume that is then the current one. -/
def spreadParts (s : Int) : Int → List Int → List Int × Int
  | cur, [] => ([], cur)
  | cur, [c] => ([], cur + c * s)
  | cur, c :: cs => ((cur + c * s) :: (spreadParts s 0 cs).1, (spreadParts s 0 cs).2)

/-- The blocks on each volume, as the entries of the header assign the parts to the volumes, from a
volume with `cur` blocks on. A package without parts per volume stays on the current volume. -/
def volumeLoads : Int → List TocEntry → List Int
  | cur, [] => [cur]
  | cur, e :: es =>
    match e.volnos with
    | [] => volumeLoads (cur + e.nparts * e.maxsiz) es
    | c :: cs => (spreadParts e.maxsiz cur (c :: cs)).1 ++
        volumeLoads (spreadParts e.maxsiz cur (c :: cs)).2 es

theorem spreadParts_cons (s cur c : Int) (hcs : cs ≠ []) :
    spreadParts s cur (c :: cs) =
      ((cur + c * s) :: (spreadParts s 0 cs).1, (spreadParts s 0 cs).2) := by
  cases cs with
  | nil => exact absurd rfl hcs
  | cons d cs => rfl

theorem chunks_ne_nil (q r : Int) : chunks q r ≠ [] := by simp [chunks]

/-- Full volumes stay within the capacity; the last one holds the last portion. -/
theorem spreadParts_chunks (hq : 0 < q) (hle : q * s ≤ capacity) (hr : 0 < r) :
    (∀ v ∈ (spreadParts s 0 (chunks q r)).1, v ≤ capacity) ∧
      (spreadParts s 0 (chunks q r)).2 = lastChunk q r * s := by
  apply chunks_induction hq _ _ hr
  · intro r hr h
    have hz : (r - 1) / q = 0 := Int.ediv_eq_zero_of_lt (by omega) (by omega)
    rw [chunks_of_le hr h, lastChunk, hz, Int.mul_zero, Int.sub_zero]
    exact ⟨List.forall_mem_nil _, Int.zero_add _⟩
  · intro r h ih
    rw [chunks_of_lt hq h, spreadParts_cons s 0 q (chunks_ne_nil _ _)]
    rw [lastChunk_sub hq] at ih
    refine ⟨?_, ih.2⟩
    intro v hv
    rcases List.mem_cons.mp hv with rfl | hv
    · rw [Int.zero_add]
      exact hle
    · exact ih.1 v hv

/-- The condition for a package list to be packed within the capacity, where genheader counts `t`
blocks on the current volume and overlooks `d` more. A package that does not fit is split: the
volume takes as many of its parts as fit behind the `t` blocks that are counted, and the volume of
its last parts is counted as empty. -/
def Packs (capacity : Int) : Int → Int → List (Int × Int) → Prop
  | t, d, [] => t + d ≤ capacity
  | t, d, (n, s) :: ps =>
    SumsFit capacity t n s ∧
      if t + n * s ≤ capacity then Packs capacity (t + n * s) d ps
      else t + d + (capacity - t) / s * s ≤ capacity ∧
        Packs capacity 0 (lastChunk (capacity / s) (n - (capacity - t) / s) * s) ps

instance decidablePacks (capacity : Int) :
    (t d : Int) → (ps : List (Int × Int)) → Decidable (Packs capacity t d ps)
  | t, d, [] => inferInstanceAs (Decidable (t + d ≤ capacity))
  | t, d, (n, s) :: ps =>
    haveI := decidablePacks capacity (t + n * s) d ps
    haveI := decidablePacks capacity 0 (lastChunk (capacity / s) (n - (capacity - t) / s) * s) ps
    inferInstanceAs (Decidable (SumsFit capacity t n s ∧
      if t + n * s ≤ capacity then _ else t + d + (capacity - t) / s * s ≤ capacity ∧ _))

/-- The entries written assign all parts of every split package to volumes, and no volume holds more
than the capacity. -/
def WellPacked (capacity cur : Int) (toc : List TocEntry) : Prop :=
  (∀ e ∈ toc, e.volnos ≠ [] → e.volnos.sum = e.nparts) ∧
    ∀ v ∈ volumeLoads cur toc, v ≤ capacity

instance (capacity cur : Int) (toc : List TocEntry) : Decidable (WellPacked capacity cur toc) :=
  inferInstanceAs (Decidable (_ ∧ _))

section Volumes
variable {capacity t d n s : Int}

theorem wellPacked_nil : WellPacked capacity cur [] ↔ cur ≤ capacity := by
  simp [WellPacked, volumeLoads]

theorem wellPacked_whole (pkg : Str) (toc : List TocEntry) :
    WellPacked capacity (t + d) (⟨pkg, n, s, []⟩ :: toc) ↔
      WellPacked capacity (t + n * s + d) toc := by
  simp only [WellPacked, volumeLoads, List.forall_mem_cons, ne_eq, not_true_eq_false,
    false_implies, true_and, show t + d + n * s = t + n * s + d by ring]

/-- A split package fills the current volume and leaves its last parts on another one. -/
theorem wellPacked_split (hs : 0 < s) (hcap : s ≤ capacity) (hle : t ≤ capacity)
    (hgt : capacity < t + n * s) (pkg : Str) (toc : List TocEntry) :
    WellPacked capacity (t + d) (⟨pkg, n, s, volumeParts capacity t n s⟩ :: toc) ↔
      t + d + (capacity - t) / s * s ≤ capacity ∧
        WellPacked capacity (lastChunk (capacity / s) (n - (capacity - t) / s) * s) toc := by
  obtain ⟨-, hkn⟩ := parts_before hs hle hgt
  have hq : 1 ≤ capacity / s := Int.le_ediv_of_mul_le hs (by omega)
  have hqs : capacity / s * s ≤ capacity := Int.ediv_mul_le _ (by omega)
  obtain ⟨hfull, hlast⟩ := spreadParts_chunks (q := capacity / s) (s := s) (by omega) hqs
    (show 0 < n - (capacity - t) / s by omega)
  have hsum : (volumeParts capacity t n s).sum = n := by
    rw [volumeParts, List.sum_cons, sum_chunks (by omega) (by omega)]
    omega
  have hloads : volumeLoads (t + d) (⟨pkg, n, s, volumeParts capacity t n s⟩ :: toc) =
      (t + d + (capacity - t) / s * s) ::
        ((spreadParts s 0 (chunks (capacity / s) (n - (capacity - t) / s))).1 ++
          volumeLoads (lastChunk (capacity / s) (n - (capacity - t) / s) * s) toc) := by
    simp only [volumeLoads, volumeParts, spreadParts_cons s _ _ (chunks_ne_nil _ _), hlast,
      List.cons_append]
  simp only [WellPacked, hloads, List.forall_mem_cons, List.forall_mem_append, hsum]
  constructor
  · rintro ⟨⟨_, hsums⟩, hfst, _, hrest⟩
    exact ⟨hfst, hsums, hrest⟩
  · rintro ⟨hfst, hsums, hrest⟩
    exact ⟨⟨fun _ => trivial, hsums⟩, hfst, hfull, hrest⟩

end Volumes

/-- The entries that are written for a list of packages, from a running total on. -/
def tocFor (capacity : Int) : Int → List SrcPkg → List TocEntry
  | _, [] => []
  | t, p :: ps => ⟨p.name, p.sizes.1, p.sizes.2, countsFor capacity t p.sizes.1 p.sizes.2⟩ ::
      tocFor capacity (totalBehind capacity t p.sizes.1 p.sizes.2) ps

def AllSumsFit (capacity : Int) : Int → List SrcPkg → Prop
  | _, [] => True
  | t, p :: ps => SumsFit capacity t p.sizes.1 p.sizes.2 ∧
      AllSumsFit capacity (totalBehind capacity t p.sizes.1 p.sizes.2) ps

theorem toc_foldl_addEntry (capacity : Int) (g : GenState) (ps : List SrcPkg) :
    (ps.foldl (fun g p => g.addEntry capacity p) g).toc =
      g.toc ++ tocFor capacity g.totsize ps := by
  induction ps generalizing g with
  | nil => exact (List.append_nil _).symm
  | cons p ps ih =>
    rw [List.foldl_cons, ih, GenState.addEntry_toc, GenState.addEntry_totsize, List.append_assoc]
    rfl

section Capacity
variable {capacity t n s : Int}

theorem staysWhole_iff (hcap : 0 < capacity) :
    StaysWhole capacity t n s ↔ t + n * s ≤ capacity := by
  rw [StaysWhole]
  omega

theorem whole_or_void_iff (hcap : 0 < capacity) (hle : t ≤ capacity) (hn : 0 ≤ n) :
    StaysWhole capacity t n s ∨ n ≤ 0 ↔ t + n * s ≤ capacity := by
  rw [staysWhole_iff hcap]
  refine ⟨fun h => ?_, .inl⟩
  rcases h with h | h
  · exact h
  · rw [show n = 0 by omega, Int.zero_mul]
    omega

theorem countsFor_eq (hcap : 0 < capacity) (hle : t ≤ capacity) (hn : 0 ≤ n) :
    countsFor capacity t n s = if t + n * s ≤ capacity then [] else volumeParts capacity t n s :=
  if_congr (whole_or_void_iff hcap hle hn) rfl rfl

theorem totalBehind_eq (hcap : 0 < capacity) (hle : t ≤ capacity) (hn : 0 ≤ n) :
    totalBehind capacity t n s = if t + n * s ≤ capacity then t + n * s else 0 := by
  by_cases h : t + n * s ≤ capacity
  · rw [totalBehind, if_pos ((staysWhole_iff hcap).mpr h), if_pos h]
  · have hw : ¬ (StaysWhole capacity t n s ∨ n ≤ 0) := mt (whole_or_void_iff hcap hle hn).mp h
    rw [totalBehind, if_neg fun h' => hw (.inl h'), if_neg fun h' => hw (.inr h'), if_neg h]

end Capacity

theorem totalBehind_bounds (hcap : 0 < capacity) (hp : Acceptable capacity p) (ht : IsInt t)
    (hle : t ≤ capacity) (hsum : t + p.sizes.1 * p.sizes.2 < 2 ^ 31) :
    IsInt (totalBehind capacity t p.sizes.1 p.sizes.2) ∧
      totalBehind capacity t p.sizes.1 p.sizes.2 ≤ capacity := by
  have hns := Int.mul_nonneg hp.parts hp.size
  rw [IsInt] at *
  rw [totalBehind_eq hcap hle hp.parts]
  split <;> omega

/-- The loop over the packages: it ends, with the entries written, unless a sum is no `int`. -/
theorem genEntries_eq (hcap : 0 < capacity) (hps : ∀ p ∈ ps, Acceptable capacity p)
    (ht : IsInt g.totsize) (hle : g.totsize ≤ capacity) :
    (AllSumsFit capacity g.totsize ps →
      genEntries capacity g ps = .ok (ps.foldl (fun g p => g.addEntry capacity p) g)) ∧
    (¬ AllSumsFit capacity g.totsize ps → genEntries capacity g ps = .error .undefined) := by
  induction ps generalizing g with
  | nil => exact ⟨fun _ => rfl, fun h => absurd trivial h⟩
  | cons p ps ih =>
    have hp := hps p List.mem_cons_self
    have hentry := genEntry_eq hcap hp ht hle
    by_cases hs : SumsFit capacity g.totsize p.sizes.1 p.sizes.2
    · obtain ⟨ht', hle'⟩ := totalBehind_bounds hcap hp ht hle hs.2.1
      have ih := ih (g := g.addEntry capacity p) (fun q hq => hps q (List.mem_cons_of_mem _ hq))
        ht' hle'
      rw [if_pos hs] at hentry
      have hstep : genEntries capacity g (p :: ps) =
          genEntries capacity (g.addEntry capacity p) ps := by
        rw [genEntries, hentry]
        rfl
      rw [hstep]
      exact ⟨fun h => ih.1 h.2, fun h => ih.2 fun h' => h ⟨hs, h'⟩⟩
    · rw [if_neg hs] at hentry
      have hstep : genEntries capacity g (p :: ps) = .error .undefined := by
        rw [genEntries, hentry]
        rfl
      exact ⟨fun h => absurd h.1 hs, fun _ => hstep⟩

/-- The entries are well packed, from a volume with `t` counted and `d` overlooked blocks. -/
theorem wellPacked_tocFor_iff (hcap : 0 < capacity) (hps : ∀ p ∈ ps, Acceptable capacity p)
    (ht : IsInt t) (hle : t ≤ capacity) :
    AllSumsFit capacity t ps ∧ WellPacked capacity (t + d) (tocFor capacity t ps) ↔
      Packs capacity t d (ps.map SrcPkg.sizes) := by
  induction ps generalizing t d with
  | nil => exact (and_iff_right trivial).trans wellPacked_nil
  | cons p ps ih =>
    have hp := hps p List.mem_cons_self
    have hrest : ∀ q ∈ ps, Acceptable capacity q := fun q hq => hps q (List.mem_cons_of_mem _ hq)
    rw [List.map_cons, AllSumsFit, tocFor, Packs, and_assoc]
    apply and_congr_right
    intro hsums
    obtain ⟨ht', hle'⟩ := totalBehind_bounds hcap hp ht hle hsums.2.1
    rw [totalBehind_eq hcap hle hp.parts] at *
    rw [countsFor_eq hcap hle hp.parts]
    by_cases h : t + p.sizes.1 * p.sizes.2 ≤ capacity
    · rw [if_pos h] at *
      rw [if_pos h, if_pos h, wellPacked_whole]
      exact ih hrest ht' hle'
    · have hs := (size_pos hle hp.parts (Int.not_le.mp h)).2
      rw [if_neg h, if_neg h, if_neg h, wellPacked_split hs hp.fits hle (by omega), and_left_comm]
      apply and_congr_right
      intro _
      rw [← ih hrest (by decide : IsInt 0) (Int.le_of_lt hcap), Int.zero_add]

/-- The blocks of the `pkginfo` files. -/
def infoBlocks (ps : List SrcPkg) : Int :=
  (ps.map fun p => ((p.pkginfo.getD 0 / BLK_SIZE + 1 : Nat) : Int)).sum

/-- The blocks that the `pkginfo` files take on the first volume. -/
def pkginfoBlocks (ps : List SrcPkg) : Int := infoBlocks ps + (ps.length / 4 + 1 : Nat)

/-- The blocks that `genheader` counts for them: the sum is converted to `int`. -/
def countedBlocks (ps : List SrcPkg) : Int := wrap 32 (infoBlocks ps) + (ps.length / 4 + 1 : Nat)

theorem pkginfoTotal_eq (hps : ∀ p ∈ ps, p.pkginfo.isSome) (x : Int) :
    pkginfoTotal (wrap 32 x) ps = .ok (wrap 32 (x + infoBlocks ps)) := by
  induction ps generalizing x with
  | nil => rw [pkginfoTotal, infoBlocks, List.map_nil, List.sum_nil, Int.add_zero]
  | cons p ps ih =>
    obtain ⟨size, hsize⟩ := Option.isSome_iff_exists.mp (hps p List.mem_cons_self)
    have hblocks : infoBlocks (p :: ps) = ((size / BLK_SIZE + 1 : Nat) : Int) + infoBlocks ps := by
      simp only [infoBlocks, List.map_cons, List.sum_cons, hsize, Option.getD_some]
    simp only [pkginfoTotal, hsize]
    rw [wrap_wrap_add, ih fun q hq => hps q (List.mem_cons_of_mem _ hq), hblocks, Int.add_assoc]

theorem tocFor_packages (capacity t : Int) (ps : List SrcPkg) :
    (tocFor capacity t ps).map (fun e => (e.pkg, e.nparts, e.maxsiz)) =
      ps.map fun p => (p.name, p.sizes.1, p.sizes.2) := by
  induction ps generalizing t with
  | nil => rfl
  | cons p ps ih => rw [tocFor, List.map_cons, ih, List.map_cons]

theorem genheader_eq (hps : ∀ p ∈ ps, Acceptable capacity p) (h : countedBlocks ps ≤ capacity) :
    genheader capacity ps =
      if countedBlocks ps < 2 ^ 31 then do
        let g ← genEntries capacity
          ⟨catAndCount (catAndCount ⟨[], BLK_SIZE⟩ HDR_PREFIX) ['\n'], countedBlocks ps, 1, []⟩ ps
        .ok { g with hdrbuf := catAndCount (catAndCount g.hdrbuf HDR_SUFFIX) ['\n'] }
      else .error .undefined := by
  have htotal : pkginfoTotal 0 ps = .ok (wrap 32 (infoBlocks ps)) := by
    have ht := pkginfoTotal_eq (fun p hp => (hps p hp).info) 0
    rw [Int.zero_add] at ht
    exact ht
  have hint : int (wrap 32 (infoBlocks ps) + (ps.length / 4 + 1 : Nat)) =
      if countedBlocks ps < 2 ^ 31 then .ok (countedBlocks ps) else .error .undefined := by
    have hb := (wrap_bounds (w := 32) (by decide) (infoBlocks ps)).1
    exact int_eq (by omega)
  simp only [genheader, htotal, bind, Except.bind, hint]
  by_cases hlt : countedBlocks ps < 2 ^ 31
  · simp only [if_pos hlt, if_neg (show ¬ (capacity ≠ 0 ∧ countedBlocks ps > capacity) by omega)]
  · simp only [if_neg hlt]

theorem capacity_pos (hcap : capacity ≠ 0) (hps : ∀ p ∈ ps, Acceptable capacity p)
    (h : countedBlocks ps ≤ capacity) : 0 < capacity := by
  cases ps with
  | nil =>
    have hone : countedBlocks [] = 1 := by decide
    omega
  | cons p ps =>
    have hp := hps p List.mem_cons_self
    have h₁ := hp.size
    have h₂ := hp.fits
    omega

/-- For packages whose `pkginfo` files and parts are accepted, the packing loop of `genheader` ends;
and it writes counts that sum up to the number of parts and leaves no volume with more blocks than
the capacity exactly when the sums are in range and every volume with the last parts of a split
package has room for what is put there besides. -/
theorem genheader_packs_iff (hcap : capacity ≠ 0) (hps : ∀ p ∈ ps, Acceptable capacity p)
    (h : countedBlocks ps ≤ capacity) :
    genheader capacity ps ≠ .error .running ∧
      ((∃ g, genheader capacity ps = .ok g ∧
          g.toc.map (fun e => (e.pkg, e.nparts, e.maxsiz)) =
            ps.map (fun p => (p.name, p.sizes.1, p.sizes.2)) ∧
          WellPacked capacity (pkginfoBlocks ps) g.toc) ↔
        countedBlocks ps < 2 ^ 31 ∧
          Packs capacity (countedBlocks ps) (pkginfoBlocks ps - countedBlocks ps)
            (ps.map SrcPkg.sizes)) := by
  have hpos := capacity_pos hcap hps h
  rw [genheader_eq hps h]
  by_cases hlt : countedBlocks ps < 2 ^ 31
  · have hbound : IsInt (countedBlocks ps) := by
      have hb := (wrap_bounds (w := 32) (by decide) (infoBlocks ps)).1
      refine ⟨?_, hlt⟩
      rw [countedBlocks]
      omega
    have hpack := wellPacked_tocFor_iff (d := pkginfoBlocks ps - countedBlocks ps) hpos hps hbound h
    rw [show countedBlocks ps + (pkginfoBlocks ps - countedBlocks ps) = pkginfoBlocks ps by omega]
      at hpack
    rw [if_pos hlt, ← hpack]
    obtain ⟨hok, hbad⟩ := genEntries_eq (g := ⟨catAndCount (catAndCount ⟨[], BLK_SIZE⟩ HDR_PREFIX)
      ['\n'], countedBlocks ps, 1, []⟩) hpos hps hbound h
    by_cases hsums : AllSumsFit capacity (countedBlocks ps) ps
    · rw [hok hsums]
      refine ⟨(by intro he; cases he), ?_⟩
      have htoc := toc_foldl_addEntry capacity ⟨catAndCount (catAndCount ⟨[], BLK_SIZE⟩ HDR_PREFIX)
        ['\n'], countedBlocks ps, 1, []⟩ ps
      rw [List.nil_append] at htoc
      constructor
      · rintro ⟨g, hg, -, hw⟩
        cases hg
        exact ⟨hlt, hsums, htoc ▸ hw⟩
      · rintro ⟨-, -, hw⟩
        refine ⟨_, rfl, ?_, ?_⟩
        · exact (congrArg _ htoc).trans (tocFor_packages _ _ _)
        · exact htoc ▸ hw
    · rw [hbad hsums]
      refine ⟨by decide, ?_⟩
      constructor
      · rintro ⟨g, hg, -⟩
        cases hg
      · rintro ⟨-, hs, -⟩
        exact absurd hs hsums
  · rw [if_neg hlt]
    refine ⟨by decide, ?_⟩
    constructor
    · rintro ⟨g, hg, -⟩
      cases hg
    · rintro ⟨hlt', -⟩
      exact absurd hlt' hlt

/-- A package with a small `pkginfo` file. -/
def samplePkg (name pkgmap : String) : SrcPkg := ⟨name.toList, some 100, some pkgmap.toList⟩

theorem acceptable_sample (capacity : Int) (p : SrcPkg) (h : p.pkginfo.isSome ∧
    (p.pkgmap.bind rdMapSize).isSome ∧ (entryHead p.name p.sizes.1 p.sizes.2).length < ENTRY_MAX ∧
    0 ≤ p.sizes.1 ∧ 0 ≤ p.sizes.2 ∧ p.sizes.2 ≤ capacity) : Acceptable capacity p :=
  ⟨h.1, h.2.1, h.2.2.1, h.2.2.2.1, h.2.2.2.2.1, h.2.2.2.2.2⟩

instance (capacity : Int) (p : SrcPkg) : Decidable (Acceptable capacity p) :=
  decidable_of_iff _ ⟨acceptable_sample capacity p, fun h => ⟨h.1, h.2, h.3, h.4, h.5, h.6⟩⟩

theorem genheader_packs_iff_split :
    ∃ g, genheader 10 [samplePkg "SUNWa" ": 1 2", samplePkg "SUNWb" ": 3 5"] = .ok g ∧
      g.toc.map (fun e => (e.pkg, e.nparts, e.maxsiz)) =
        [("SUNWa".toList, 1, 2), ("SUNWb".toList, 3, 5)] ∧
      WellPacked 10 3 g.toc :=
  (genheader_packs_iff (by decide) (by decide) (by decide)).2.mpr (by decide)

def tailPkgs : List SrcPkg := [samplePkg "SUNWa" ": 3 5", samplePkg "SUNWb" ": 1 5"]

/-- The second volume takes the last two parts of the first package and then the second package. -/
theorem genheader_forgets_tail :
    (∀ p ∈ tailPkgs, Acceptable 10 p) ∧ countedBlocks tailPkgs ≤ 10 ∧
      ∃ g, genheader 10 tailPkgs = .ok g ∧
        g.toc = [⟨"SUNWa".toList, 3, 5, [1, 2]⟩, ⟨"SUNWb".toList, 1, 5, []⟩] ∧
        volumeLoads (pkginfoBlocks tailPkgs) g.toc = [8, 15] ∧
        ¬ WellPacked 10 (pkginfoBlocks tailPkgs) g.toc := by
  refine ⟨by decide, by decide, ?_⟩
  have hrun : (genheader 10 tailPkgs).toOption.any fun g =>
      decide (g.toc = [⟨"SUNWa".toList, 3, 5, [1, 2]⟩, ⟨"SUNWb".toList, 1, 5, []⟩] ∧
        volumeLoads (pkginfoBlocks tailPkgs) g.toc = [8, 15] ∧
        ¬ WellPacked 10 (pkginfoBlocks tailPkgs) g.toc) := by
    decide +kernel
  obtain ⟨g, hg, hprop⟩ := exists_of_toOption_any hrun
  exact ⟨g, hg, of_decide_eq_true hprop⟩

end Pkgtools
