import Pkgtools.CLib.LinkedList
import Pkgtools.Delmap

namespace Pkgtools
open CLib
set_option autoImplicit true

/-- What `eptstat` reads and changes: the list of an entry, its counter and its class, and the
global counter. A record is `single` if it was allocated by itself and not as part of a block. -/
structure EptState where
  refs : Linked Pinfo
  single : Nat → Bool
  npkgs : Int
  pkgClass : Str
  otherstoo : Nat

structure EptScan where
  last : Option Nat
  me : Option Nat
  myparent : Option Nat
  others : Nat
  deriving DecidableEq, Repr

/-- A turn of the loop at the record `p`. -/
def eptScanStep (pkg : Str) (s : EptScan) (p : Nat) (pinfo : Pinfo) : EptScan :=
  if pinfo.pkg = pkg then { s with myparent := s.last, me := some p, last := some p }
  else { s with others := s.others + 1, last := some p }

/-- The loop over the list, for at most `fuel` records. -/
def eptScan (cells : Cells Pinfo) (pkg : Str) : (fuel : Nat) → Option Nat → EptScan → Option EptScan
  | _, none, s => some s
  | 0, some _, _ => none
  | fuel + 1, some p, s =>
    (cells p).bind fun c => eptScan cells pkg fuel c.next (eptScanStep pkg s p c.info)

/-- `eptstat` on the linked list. `fresh` is the record that `bl_next_avail` would return, of zeros
and in a block; a record in a block must not be freed. -/
def eptstatIn (fresh fuel : Nat) (st : EptState) (pkg : Str) (c : Char) :
    Option (EptState × Option Nat) :=
  (eptScan st.refs.cells pkg fuel st.refs.head ⟨none, none, none, 0⟩).bind fun s =>
    let st := { st with otherstoo := s.others }
    if c = nul then some (st, s.me)
    else match s.me with
      | some me =>
        (st.refs.cells me).bind fun r => (st.refs.link s.myparent r.next).bind fun refs =>
          let last := if s.me = s.last then s.myparent else s.last
          let npkgs := wrap 16 (st.npkgs - 1)
          if c = statNext then
            if st.single me then some ({ st with refs := refs.put me none, npkgs := npkgs }, none)
            else none
          else
            let npkgs := wrap 16 (npkgs + 1)
            let pkgClass :=
              if npkgs = 1 ∧ r.info.aclass ≠ [] then r.info.aclass else st.pkgClass
            ((refs.put me (some ⟨markPinfo pkg c r.info, none⟩)).link last (some me)).map
              fun refs =>
              ({ st with refs := refs, npkgs := npkgs, pkgClass := pkgClass }, some me)
      | none =>
        if c = statNext ∨ c = rmRdy then some (st, none)
        else
          let me : Cell Pinfo := ⟨markPinfo pkg c ⟨nul, [], 0, []⟩, none⟩
          ((st.refs.put fresh (some me)).link s.last (some fresh)).map fun refs =>
            ({ st with
                refs := refs
                single := Function.update st.single fresh false
                npkgs := wrap 16 (st.npkgs + 1) }, some fresh)

def foreignRefs (pkg : Str) (l : List (Nat × Pinfo)) : List (Nat × Pinfo) :=
  l.filter fun x => x.2.pkg ≠ pkg

section Scan
variable {cells : Cells Pinfo} {pkg : Str} {l A B : List (Nat × Pinfo)} {s : EptScan}

def scanList (pkg : Str) (l : List (Nat × Pinfo)) (s : EptScan) : EptScan :=
  l.foldl (fun s x => eptScanStep pkg s x.1 x.2) s

theorem eptScan_eq (hs : Segment cells h l none) (hf : l.length ≤ fuel) (s : EptScan) :
    eptScan cells pkg fuel h s = some (scanList pkg l s) := by
  induction l generalizing fuel h s with
  | nil =>
    obtain rfl := hs
    rw [eptScan]
    rfl
  | cons x l ih =>
    obtain ⟨rfl, next, hc, hl⟩ := hs
    cases fuel with
    | zero => exact absurd hf (Nat.not_succ_le_zero _)
    | succ fuel =>
      rw [eptScan, hc, Option.bind_some]
      exact ih hl (Nat.le_of_succ_le_succ hf) _

theorem scanList_last (s : EptScan) : (scanList pkg l s).last = (lastAddr l).or s.last := by
  induction l using List.reverseRecOn with
  | nil => rfl
  | append_singleton l x _ =>
    rw [scanList, List.foldl_append, List.foldl_cons, List.foldl_nil, lastAddr_concat,
      Option.some_or, eptScanStep]
    split <;> rfl

theorem scanList_others (s : EptScan) :
    (scanList pkg l s).others = s.others + (foreignRefs pkg l).length := by
  induction l generalizing s with
  | nil => rfl
  | cons x l ih =>
    have hstep : scanList pkg (x :: l) s = scanList pkg l (eptScanStep pkg s x.1 x.2) := rfl
    rw [hstep, ih, eptScanStep, foreignRefs, foreignRefs]
    by_cases hx : x.2.pkg = pkg
    · rw [if_pos hx, List.filter_cons_of_neg (by simpa using hx)]
    · rw [if_neg hx, List.filter_cons_of_pos (by simpa using hx), List.length_cons]
      dsimp only
      omega

theorem scanList_absent (hl : ∀ x ∈ l, x.2.pkg ≠ pkg) (s : EptScan) :
    (scanList pkg l s).me = s.me ∧ (scanList pkg l s).myparent = s.myparent := by
  induction l generalizing s with
  | nil => exact ⟨rfl, rfl⟩
  | cons x l ih =>
    have hstep : scanList pkg (x :: l) s = scanList pkg l (eptScanStep pkg s x.1 x.2) := rfl
    obtain ⟨hme, hparent⟩ := ih (fun y hy => hl y (List.mem_cons_of_mem _ hy))
      (eptScanStep pkg s x.1 x.2)
    rw [hstep, hme, hparent, eptScanStep, if_neg (hl x List.mem_cons_self)]
    exact ⟨rfl, rfl⟩

/-- The last reference of the package is found, with the one in front of it. -/
theorem scanList_found (hx : x.pkg = pkg) (hB : ∀ y ∈ B, y.2.pkg ≠ pkg) :
    (scanList pkg (A ++ (p, x) :: B) ⟨none, none, none, 0⟩).me = some p ∧
      (scanList pkg (A ++ (p, x) :: B) ⟨none, none, none, 0⟩).myparent = lastAddr A := by
  have hsplit : scanList pkg (A ++ (p, x) :: B) ⟨none, none, none, 0⟩ =
      scanList pkg B (eptScanStep pkg (scanList pkg A ⟨none, none, none, 0⟩) p x) := by
    rw [scanList, List.foldl_append]
    rfl
  obtain ⟨hme, hparent⟩ := scanList_absent hB
    (eptScanStep pkg (scanList pkg A ⟨none, none, none, 0⟩) p x)
  rw [hsplit, hme, hparent, eptScanStep, if_pos hx]
  refine ⟨rfl, ?_⟩
  dsimp only
  rw [scanList_last, Option.or_none]

end Scan

section Steps
variable {st : EptState} {pkg : Str} {c : Char} {l A B : List (Nat × Pinfo)} {x : Pinfo}

theorem foreignRefs_split (hx : x.pkg = pkg) :
    foreignRefs pkg (A ++ (p, x) :: B) = foreignRefs pkg (A ++ B) := by
  rw [foreignRefs, foreignRefs, List.filter_append, List.filter_cons_of_neg (by simpa using hx),
    List.filter_append]

theorem holds_unlink (hs : st.refs.Holds (A ++ (p, x) :: B)) :
    ∃ next refs, st.refs.cells p = some ⟨x, next⟩ ∧ st.refs.link (lastAddr A) next = some refs ∧
      refs.Holds (A ++ B) ∧ p ∉ addrs (A ++ B) := by
  obtain ⟨m, hA, rfl, next, hc, hB⟩ := segment_append.mp hs.segment
  have hn := hs.nodup
  have hmap : addrs (A ++ (p, x) :: B) = addrs A ++ p :: addrs B := by simp
  rw [hmap] at hn
  have hp : p ∉ addrs (A ++ B) := by
    rw [addrs, List.map_append]
    exact (List.nodup_middle.mp hn |> List.nodup_cons.mp).1
  have hAB : (addrs (A ++ B)).Nodup := by
    rw [addrs, List.map_append]
    exact (List.nodup_middle.mp hn |> List.nodup_cons.mp).2
  have hdisj : ∀ q ∈ addrs B, q ∉ addrs A := by
    intro q hq hqA
    rw [addrs, List.map_append, List.nodup_append] at hAB
    exact hAB.2.2 q hqA q hq rfl
  obtain ⟨refs, hlink, hseg, hframe⟩ := link_segment hA (List.nodup_append.mp hn).1 next
  refine ⟨next, refs, hc, hlink, ⟨segment_append.mpr ⟨next, hseg, ?_⟩, hAB⟩, hp⟩
  exact hB.congr fun q hq => hframe q (hdisj q hq)

theorem holds_append {refs : Linked Pinfo} (hs : refs.Holds l) (hp : p ∉ addrs l) (x : Pinfo) :
    ∃ refs', (refs.put p (some ⟨x, none⟩)).link (lastAddr l) (some p) = some refs' ∧
      refs'.Holds (l ++ [(p, x)]) := by
  have hput : Segment (refs.put p (some ⟨x, none⟩)).cells (refs.put p (some ⟨x, none⟩)).head l
      none := by
    apply hs.segment.congr
    intro q hq
    apply Function.update_of_ne
    rintro rfl
    exact hp hq
  obtain ⟨refs', hlink, hseg, hframe⟩ := link_segment hput hs.nodup (some p)
  refine ⟨refs', hlink, segment_append.mpr ⟨some p, hseg, rfl, none, ?_, rfl⟩, ?_⟩
  · rw [hframe p hp]
    exact Function.update_self _ _ _
  · rw [addrs, List.map_append, List.map_singleton]
    refine List.nodup_append.mpr ⟨hs.nodup, List.nodup_singleton _, ?_⟩
    rintro q hq r hr rfl
    obtain rfl := List.mem_singleton.mp hr
    exact hp hq

/-- Once the reference has been taken out, the last one is the one in front of it if it was at the
end. -/
theorem last_unlink (hp : p ∉ addrs (A ++ B)) :
    (if some p = lastAddr (A ++ (p, x) :: B) then lastAddr A else lastAddr (A ++ (p, x) :: B)) =
      lastAddr (A ++ B) := by
  cases B using List.reverseRecOn with
  | nil => rw [lastAddr_concat, if_pos rfl, List.append_nil]
  | append_singleton B y =>
    have hne : p ≠ y.1 := by
      rintro rfl
      exact hp (by simp)
    rw [← List.cons_append, ← List.append_assoc, ← List.append_assoc, lastAddr_concat,
      lastAddr_concat, if_neg (by simpa using hne)]

theorem eptstatIn_found (hs : st.refs.Holds (A ++ (p, x) :: B)) (hx : x.pkg = pkg)
    (hB : ∀ y ∈ B, y.2.pkg ≠ pkg) (hc : c ≠ nul) (fresh : Nat)
    (hf : (A ++ (p, x) :: B).length ≤ fuel) :
    ∃ refs : Linked Pinfo, refs.Holds (A ++ B) ∧ p ∉ addrs (A ++ B) ∧
      eptstatIn fresh fuel st pkg c =
        let st := { st with otherstoo := (foreignRefs pkg (A ++ B)).length }
        let npkgs := wrap 16 (st.npkgs - 1)
        if c = statNext then
          if st.single p then some ({ st with refs := refs.put p none, npkgs := npkgs }, none)
          else none
        else
          let npkgs := wrap 16 (npkgs + 1)
          let pkgClass := if npkgs = 1 ∧ x.aclass ≠ [] then x.aclass else st.pkgClass
          ((refs.put p (some ⟨markPinfo pkg c x, none⟩)).link (lastAddr (A ++ B)) (some p)).map
            fun refs => ({ st with refs := refs, npkgs := npkgs, pkgClass := pkgClass },
              some p) := by
  obtain ⟨next, refs, hcell, hlink, hholds, hp⟩ := holds_unlink hs
  have hscan := @eptScan_eq _ pkg _ _ _ hs.segment hf ⟨none, none, none, 0⟩
  obtain ⟨hme, hparent⟩ := @scanList_found pkg A B p x hx hB
  have hlast := @scanList_last pkg (A ++ (p, x) :: B) ⟨none, none, none, 0⟩
  have hothers := @scanList_others pkg (A ++ (p, x) :: B) ⟨none, none, none, 0⟩
  rw [Option.or_none] at hlast
  rw [foreignRefs_split hx, Nat.zero_add] at hothers
  refine ⟨refs, hholds, hp, ?_⟩
  rw [eptstatIn, hscan, Option.bind_some]
  dsimp only
  rw [if_neg hc, hothers, hme]
  dsimp only
  rw [hcell, Option.bind_some, hparent, hlink, Option.bind_some]
  dsimp only
  rw [hlast, last_unlink hp]

theorem eptstatIn_absent (hs : st.refs.Holds l) (hl : ∀ y ∈ l, y.2.pkg ≠ pkg) (hc : c ≠ nul)
    (fresh : Nat) (hf : l.length ≤ fuel) :
    eptstatIn fresh fuel st pkg c =
      let st := { st with otherstoo := l.length }
      if c = statNext ∨ c = rmRdy then some (st, none)
      else
        let me : Cell Pinfo := ⟨markPinfo pkg c ⟨nul, [], 0, []⟩, none⟩
        ((st.refs.put fresh (some me)).link (lastAddr l) (some fresh)).map fun refs =>
          ({ st with
              refs := refs
              single := Function.update st.single fresh false
              npkgs := wrap 16 (st.npkgs + 1) }, some fresh) := by
  have hscan := @eptScan_eq _ pkg _ _ _ hs.segment hf ⟨none, none, none, 0⟩
  obtain ⟨hme, -⟩ := scanList_absent hl ⟨none, none, none, 0⟩
  have hlast := @scanList_last pkg l ⟨none, none, none, 0⟩
  have hothers := @scanList_others pkg l ⟨none, none, none, 0⟩
  have hall : foreignRefs pkg l = l := List.filter_eq_self.mpr fun x hx => decide_eq_true (hl x hx)
  rw [Option.or_none] at hlast
  rw [hall, Nat.zero_add] at hothers
  rw [eptstatIn, hscan, Option.bind_some]
  dsimp only
  rw [if_neg hc, hothers, hme, hlast]

end Steps

/-- The list of a package's references and those of others after `eptstat`. -/
structure EptLaw (pkg : Str) (c : Char) (l l' : List (Nat × Pinfo)) (st' : EptState)
    (me : Option Nat) : Prop where
  others : foreignRefs pkg l' = foreignRefs pkg l
  otherstoo : st'.otherstoo = (foreignRefs pkg l).length
  npkgs : st'.npkgs = l'.length
  absent : c = statNext ∨ c = rmRdy ∧ (∀ x ∈ l, x.2.pkg ≠ pkg) →
    (∀ x ∈ l', x.2.pkg ≠ pkg) ∧ me = none
  last : ¬ (c = statNext ∨ c = rmRdy ∧ ∀ x ∈ l, x.2.pkg ≠ pkg) →
    ∃ p x, l' = foreignRefs pkg l ++ [(p, x)] ∧ x.pkg = pkg ∧ me = some p ∧
      ((∃ y ∈ l, y.2.pkg = pkg ∧ y.2.status = servedFile) → x.status = servedFile) ∧
      ((∀ y ∈ l, y.2.pkg = pkg → y.2.status ≠ servedFile) →
        x.status = if c = dupEntry then nul else c)

/-- A reference that is dropped is no part of a block, and one more reference can be counted. -/
def EptDefined (st : EptState) (l : List (Nat × Pinfo)) (pkg : Str) (c : Char) : Prop :=
  (c = statNext → ∀ x ∈ l, x.2.pkg = pkg → st.single x.1 = true) ∧
    ((l.length : Int) = 2 ^ 15 - 1 → (∃ x ∈ l, x.2.pkg = pkg) ∨ c = statNext ∨ c = rmRdy)

section Law
variable {st : EptState} {pkg : Str} {c : Char} {l A B : List (Nat × Pinfo)} {x : Pinfo}

theorem split_once (honce : (l.filter fun x => x.2.pkg = pkg).length ≤ 1) (hx : y ∈ l)
    (hpkg : y.2.pkg = pkg) :
    ∃ A B, l = A ++ y :: B ∧ (∀ z ∈ A, z.2.pkg ≠ pkg) ∧ ∀ z ∈ B, z.2.pkg ≠ pkg := by
  obtain ⟨A, B, rfl⟩ := List.append_of_mem hx
  rw [List.filter_append, List.filter_cons_of_pos (by simpa using hpkg), List.length_append,
    List.length_cons] at honce
  have hA : A.filter (fun x => x.2.pkg = pkg) = [] := List.eq_nil_of_length_eq_zero (by omega)
  have hB : B.filter (fun x => x.2.pkg = pkg) = [] := List.eq_nil_of_length_eq_zero (by omega)
  refine ⟨A, B, rfl, fun z hz => ?_, fun z hz => ?_⟩
  · simpa using List.filter_eq_nil_iff.mp hA z hz
  · simpa using List.filter_eq_nil_iff.mp hB z hz

theorem foreignRefs_self (hl : ∀ y ∈ l, y.2.pkg ≠ pkg) : foreignRefs pkg l = l :=
  List.filter_eq_self.mpr fun x hx => decide_eq_true (hl x hx)

theorem markPinfo_status (pkg : Str) (c : Char) (x : Pinfo) :
    (x.status = servedFile → (markPinfo pkg c x).status = servedFile) ∧
      (x.status ≠ servedFile → (markPinfo pkg c x).status = if c = dupEntry then nul else c) := by
  constructor
  · intro h
    rw [markPinfo]
    dsimp only
    rw [if_neg (not_not.mpr h), h]
  · intro h
    rw [markPinfo]
    dsimp only
    rw [if_pos h]

theorem law_present (hc : c ≠ nul) (hpkg : pkg.length ≤ pkgsiz)
    (hs : st.refs.Holds (A ++ (p, x) :: B)) (hx : x.pkg = pkg) (hA : ∀ y ∈ A, y.2.pkg ≠ pkg)
    (hB : ∀ y ∈ B, y.2.pkg ≠ pkg) (hn : st.npkgs = (A ++ (p, x) :: B).length)
    (hshort : st.npkgs < 2 ^ 15) (hf : (A ++ (p, x) :: B).length ≤ fuel) :
    (∃ st' l' me, eptstatIn fresh fuel st pkg c = some (st', me) ∧ st'.refs.Holds l' ∧
      EptLaw pkg c (A ++ (p, x) :: B) l' st' me) ↔ (c = statNext → st.single p = true) := by
  obtain ⟨refs, hholds, hp, hrun⟩ := eptstatIn_found hs hx hB hc fresh hf
  have hAB : ∀ y ∈ A ++ B, y.2.pkg ≠ pkg := by
    intro y hy
    rcases List.mem_append.mp hy with hy | hy
    · exact hA y hy
    · exact hB y hy
  have hforeign : foreignRefs pkg (A ++ (p, x) :: B) = A ++ B := by
    rw [foreignRefs_split hx, foreignRefs_self hAB]
  have hlen : ((A ++ (p, x) :: B).length : Int) = (A ++ B).length + 1 := by
    rw [List.length_append, List.length_append, List.length_cons]
    omega
  have hless : wrap 16 (st.npkgs - 1) = (A ++ B).length := by
    have hw : wrap 16 (st.npkgs - 1) = st.npkgs - 1 :=
      wrap_of_signed (by decide) (by omega) (by omega)
    rw [hw, hn, hlen]
    omega
  have hno : ¬ (c = rmRdy ∧ ∀ z ∈ A ++ (p, x) :: B, z.2.pkg ≠ pkg) := fun h =>
    h.2 (p, x) (by simp) hx
  rw [hrun, foreignRefs_self hAB]
  dsimp only
  by_cases hnext : c = statNext
  · rw [if_pos hnext]
    by_cases hsingle : st.single p = true
    · rw [if_pos hsingle]
      refine iff_of_true ⟨_, A ++ B, none, rfl, ⟨?_, hholds.nodup⟩, ?_, ?_, ?_, ?_, ?_⟩
        fun _ => hsingle
      · apply hholds.segment.congr
        intro q hq
        apply Function.update_of_ne
        rintro rfl
        exact hp hq
      · rw [hforeign, foreignRefs_self hAB]
      · rw [hforeign]
      · exact hless
      · exact fun _ => ⟨hAB, rfl⟩
      · exact fun h => absurd (.inl hnext) h
    · rw [if_neg hsingle]
      refine iff_of_false ?_ fun h => hsingle (h hnext)
      rintro ⟨_, _, _, h, -⟩
      cases h
  · rw [if_neg hnext]
    obtain ⟨refs', hlink, hholds'⟩ := holds_append hholds hp (markPinfo pkg c x)
    have hname : (markPinfo pkg c x).pkg = pkg := List.take_of_length_le hpkg
    obtain ⟨hserved, hother⟩ := markPinfo_status pkg c x
    rw [hlink, Option.map_some]
    refine iff_of_true ⟨_, A ++ B ++ [(p, markPinfo pkg c x)], some p, rfl, hholds', ?_, ?_, ?_, ?_,
      ?_⟩ fun h => absurd h hnext
    · rw [hforeign, foreignRefs_split hname, List.append_nil, foreignRefs_self hAB]
    · rw [hforeign]
    · have hw : wrap 16 (((A ++ B).length : Int) + 1) = (A ++ B).length + 1 :=
        wrap_of_signed (by decide) (by omega) (by omega)
      dsimp only
      rw [hless, hw]
      simp only [List.length_append, List.length_singleton]
      omega
    · exact fun h => absurd (h.resolve_left hnext) hno
    · intro _
      refine ⟨p, _, by rw [hforeign], hname, rfl, ?_, ?_⟩
      · rintro ⟨y, hy, hypkg, hstatus⟩
        have hyx : y = (p, x) := by
          rcases List.mem_append.mp hy with hy | hy
          · exact absurd hypkg (hA y hy)
          · rcases List.mem_cons.mp hy with rfl | hy
            · rfl
            · exact absurd hypkg (hB y hy)
        subst hyx
        exact hserved hstatus
      · exact fun h => hother (h (p, x) (by simp) hx)

theorem law_absent (hc : c ≠ nul) (hpkg : pkg.length ≤ pkgsiz) (hs : st.refs.Holds l)
    (hl : ∀ y ∈ l, y.2.pkg ≠ pkg) (hn : st.npkgs = l.length) (hshort : st.npkgs < 2 ^ 15)
    (hfresh : fresh ∉ addrs l) (hf : l.length ≤ fuel) :
    (∃ st' l' me, eptstatIn fresh fuel st pkg c = some (st', me) ∧ st'.refs.Holds l' ∧
      EptLaw pkg c l l' st' me) ↔ ((l.length : Int) = 2 ^ 15 - 1 → c = statNext ∨ c = rmRdy) := by
  have hrun := eptstatIn_absent hs hl hc fresh hf
  have hforeign := foreignRefs_self hl
  rw [hrun]
  dsimp only
  by_cases hnext : c = statNext ∨ c = rmRdy
  · rw [if_pos hnext]
    refine iff_of_true ⟨_, l, none, rfl, hs, ?_, ?_, ?_, ?_, ?_⟩ fun _ => hnext
    · rfl
    · rw [hforeign]
    · exact hn
    · exact fun _ => ⟨hl, rfl⟩
    · exact fun h => absurd (hnext.imp_right fun h => ⟨h, hl⟩) h
  · obtain ⟨refs', hlink, hholds'⟩ := holds_append hs hfresh (markPinfo pkg c ⟨nul, [], 0, []⟩)
    have hname : (markPinfo pkg c ⟨nul, [], 0, []⟩).pkg = pkg := List.take_of_length_le hpkg
    have hstatus := (markPinfo_status pkg c ⟨nul, [], 0, []⟩).2 (by decide : nul ≠ servedFile)
    rw [if_neg hnext, hlink, Option.map_some]
    constructor
    · rintro ⟨st', l', me, h, -, hlaw⟩ hfull
      obtain ⟨rfl, rfl⟩ := Prod.mk.inj (Option.some_inj.mp h)
      have hcount := hlaw.npkgs
      dsimp only at hcount
      rw [hn, hfull] at hcount
      have hw : wrap 16 ((2 : Int) ^ 15 - 1 + 1) = -2 ^ 15 := by decide
      omega
    · intro hfull
      refine ⟨_, l ++ [(fresh, markPinfo pkg c ⟨nul, [], 0, []⟩)], some fresh, rfl, hholds', ?_, ?_,
        ?_, ?_, ?_⟩
      · rw [foreignRefs_split hname, List.append_nil]
      · rw [hforeign]
      · have hne : (l.length : Int) ≠ 2 ^ 15 - 1 := fun h => hnext (hfull h)
        have hw : wrap 16 (st.npkgs + 1) = st.npkgs + 1 :=
          wrap_of_signed (by decide) (by omega) (by omega)
        dsimp only
        rw [hw, hn, List.length_append, List.length_singleton]
        rfl
      · exact fun h => absurd (h.imp_right And.left) hnext
      · intro _
        refine ⟨fresh, _, by rw [hforeign], hname, rfl, ?_, fun _ => hstatus⟩
        rintro ⟨y, hy, hypkg, -⟩
        exact absurd hypkg (hl y hy)

theorem findPinfo_middle (A : List Pinfo) {x : Pinfo} {B : List Pinfo} (hx : x.pkg = pkg)
    (hB : ∀ y ∈ B, y.pkg ≠ pkg) : findPinfo pkg (A ++ x :: B) = some A.length := by
  induction A with
  | nil => rw [List.nil_append, findPinfo, findPinfo_eq_none.mpr hB, List.length_nil, if_pos hx]
  | cons y A ih => rw [List.cons_append, findPinfo, ih, List.length_cons]

structure EptState.Shows (st : EptState) (l : List (Nat × Pinfo)) (e : Cfent) : Prop where
  refs : st.refs.Holds l
  pinfo : e.pinfo = l.map Prod.snd
  npkgs : e.npkgs = st.npkgs
  pkgClass : e.pkgClass = st.pkgClass

theorem exists_last_ref (h : ∃ y ∈ l, y.2.pkg = pkg) :
    ∃ A p x B, l = A ++ (p, x) :: B ∧ x.pkg = pkg ∧ ∀ y ∈ B, y.2.pkg ≠ pkg := by
  induction l with
  | nil =>
    obtain ⟨y, hy, -⟩ := h
    exact absurd hy List.not_mem_nil
  | cons z l ih =>
    by_cases hl : ∃ y ∈ l, y.2.pkg = pkg
    · obtain ⟨A, p, x, B, rfl, hx, hB⟩ := ih hl
      exact ⟨z :: A, p, x, B, rfl, hx, hB⟩
    · obtain ⟨y, hy, hypkg⟩ := h
      rcases List.mem_cons.mp hy with rfl | hy
      · exact ⟨[], y.1, y.2, l, rfl, hypkg, fun w hw hwpkg => hl ⟨w, hw, hwpkg⟩⟩
      · exact absurd ⟨y, hy, hypkg⟩ hl

/-- What `eptstat` does with the records is what it does with the package list. -/
theorem eptstatIn_refines {e : Cfent} (hc : c ≠ nul) (hs : st.Shows l e) (hfresh : fresh ∉ addrs l)
    (hf : l.length ≤ fuel) (hrun : eptstatIn fresh fuel st pkg c = some (st', me)) :
    ∃ l', st'.Shows l' (eptstat e pkg c).1 ∧
      me = (eptstat e pkg c).2.bind fun i => (addrs l')[i]? := by
  by_cases hl : ∃ y ∈ l, y.2.pkg = pkg
  · obtain ⟨A, p, x, B, rfl, hx, hB⟩ := exists_last_ref hl
    obtain ⟨refs, hholds, hp, hrun'⟩ := eptstatIn_found hs.refs hx hB hc fresh hf
    have hpinfo : e.pinfo = A.map Prod.snd ++ x :: B.map Prod.snd := by
      rw [hs.pinfo, List.map_append, List.map_cons]
    have hfind : findPinfo pkg e.pinfo = some (A.map Prod.snd).length := by
      rw [hpinfo]
      apply findPinfo_middle _ hx
      intro y hy
      obtain ⟨z, hz, rfl⟩ := List.mem_map.mp hy
      exact hB z hz
    have herase : e.pinfo.eraseIdx (A.map Prod.snd).length = (A ++ B).map Prod.snd := by
      rw [hpinfo, List.eraseIdx_append_of_length_le (Nat.le_refl _), Nat.sub_self,
        List.eraseIdx_cons_zero, List.map_append]
    have hget : e.pinfo.getD (A.map Prod.snd).length ⟨nul, [], 0, []⟩ = x := by
      rw [hpinfo]
      simp
    rw [hrun'] at hrun
    rw [eptstat, if_neg hc, hfind]
    dsimp only at hrun ⊢
    rw [herase, hget]
    by_cases hnext : c = statNext
    · rw [if_pos hnext] at hrun ⊢
      split at hrun
      · obtain ⟨rfl, rfl⟩ := Prod.mk.inj (Option.some_inj.mp hrun)
        refine ⟨A ++ B, ⟨⟨?_, hholds.nodup⟩, rfl, ?_, hs.pkgClass⟩, rfl⟩
        · apply hholds.segment.congr
          intro q hq
          apply Function.update_of_ne
          rintro rfl
          exact hp hq
        · dsimp only
          rw [hs.npkgs]
      · cases hrun
    · rw [if_neg hnext] at hrun ⊢
      obtain ⟨refs', hlink, hholds'⟩ := holds_append hholds hp (markPinfo pkg c x)
      rw [hlink, Option.map_some] at hrun
      obtain ⟨rfl, rfl⟩ := Prod.mk.inj (Option.some_inj.mp hrun)
      refine ⟨A ++ B ++ [(p, markPinfo pkg c x)], ⟨hholds', ?_, ?_, ?_⟩, ?_⟩
      · simp
      · dsimp only
        rw [hs.npkgs]
      · dsimp only
        rw [hs.npkgs, hs.pkgClass]
      · simp
  · have hl : ∀ y ∈ l, y.2.pkg ≠ pkg := fun y hy hypkg => hl ⟨y, hy, hypkg⟩
    have hfind : findPinfo pkg e.pinfo = none := by
      rw [findPinfo_eq_none, hs.pinfo]
      intro y hy
      obtain ⟨z, hz, rfl⟩ := List.mem_map.mp hy
      exact hl z hz
    rw [eptstatIn_absent hs.refs hl hc fresh hf] at hrun
    rw [eptstat, if_neg hc, hfind]
    dsimp only at hrun ⊢
    by_cases hnext : c = statNext ∨ c = rmRdy
    · rw [if_pos hnext] at hrun ⊢
      obtain ⟨rfl, rfl⟩ := Prod.mk.inj (Option.some_inj.mp hrun)
      exact ⟨l, ⟨hs.refs, hs.pinfo, hs.npkgs, hs.pkgClass⟩, rfl⟩
    · rw [if_neg hnext] at hrun ⊢
      obtain ⟨refs', hlink, hholds'⟩ :=
        holds_append hs.refs hfresh (markPinfo pkg c ⟨nul, [], 0, []⟩)
      rw [hlink, Option.map_some] at hrun
      obtain ⟨rfl, rfl⟩ := Prod.mk.inj (Option.some_inj.mp hrun)
      refine ⟨l ++ [(fresh, markPinfo pkg c ⟨nul, [], 0, []⟩)], ⟨hholds', ?_, ?_, hs.pkgClass⟩, ?_⟩
      · simp [hs.pinfo]
      · dsimp only
        rw [hs.npkgs]
      · simp [hs.pinfo]

end Law

def rowRefs (n : Nat) (x : Pinfo) : Linked Pinfo where
  cells p := if p < n then some ⟨x, if p + 1 < n then some (p + 1) else none⟩ else none
  head := if 0 < n then some 0 else none

def rowList (n : Nat) (x : Pinfo) : List (Nat × Pinfo) := (List.range n).map fun p => (p, x)

theorem rowRefs_holds (n : Nat) (x : Pinfo) : (rowRefs n x).Holds (rowList n x) := by
  have hrow (k p : Nat) (h : p + k = n) : Segment (rowRefs n x).cells
      (if p < n then some p else none) ((List.range' p k).map fun p => (p, x)) none := by
    induction k generalizing p with
    | zero => exact if_neg (by omega)
    | succ k ih =>
      rw [if_pos (by omega), List.range'_succ, List.map_cons]
      exact ⟨rfl, _, if_pos (by omega), ih (p + 1) (by omega)⟩
  constructor
  · rw [rowList, List.range_eq_range']
    exact hrow n 0 (Nat.zero_add n)
  · rw [rowList, addrs, List.map_map]
    exact List.nodup_range.map fun _ _ h => h

/-- The law of `eptstat` holds where it does not free a part of a block and does not count more
references than a `short` holds. -/
theorem eptstatIn_law_iff (st : EptState) (l : List (Nat × Pinfo)) (pkg : Str) (c : Char)
    (fresh fuel : Nat) (hc : c ≠ nul) (hpkg : pkg.length ≤ pkgsiz) (hs : st.refs.Holds l)
    (honce : (l.filter fun x => x.2.pkg = pkg).length ≤ 1) (hn : st.npkgs = l.length)
    (hshort : st.npkgs < 2 ^ 15) (hfresh : fresh ∉ addrs l) (hf : l.length ≤ fuel) :
    (∃ st' l' me, eptstatIn fresh fuel st pkg c = some (st', me) ∧ st'.refs.Holds l' ∧
      EptLaw pkg c l l' st' me) ↔ EptDefined st l pkg c := by
  by_cases hl : ∃ y ∈ l, y.2.pkg = pkg
  · obtain ⟨y, hy, hypkg⟩ := id hl
    obtain ⟨A, B, rfl, hA, hB⟩ := split_once honce hy hypkg
    rw [law_present hc hpkg hs hypkg hA hB hn hshort hf, EptDefined]
    constructor
    · intro h
      refine ⟨fun hnext x hx hxpkg => ?_, fun _ => .inl hl⟩
      rcases List.mem_append.mp hx with hx | hx
      · exact absurd hxpkg (hA x hx)
      · rcases List.mem_cons.mp hx with rfl | hx
        · exact h hnext
        · exact absurd hxpkg (hB x hx)
    · exact fun h hnext => h.1 hnext y hy hypkg
  · have hl' : ∀ y ∈ l, y.2.pkg ≠ pkg := fun y hy hypkg => hl ⟨y, hy, hypkg⟩
    rw [law_absent hc hpkg hs hl' hn hshort hfresh hf, EptDefined]
    constructor
    · intro h
      exact ⟨fun _ x hx hxpkg => absurd hxpkg (hl' x hx), fun hfull => .inr (h hfull)⟩
    · exact fun h hfull => (h.2 hfull).resolve_left hl

/-- A second package for an entry. -/
theorem eptstatIn_law_iff_second :
    ∃ st' l' me, eptstatIn 1 1 ⟨rowRefs 1 ⟨nul, "a".toList, 0, []⟩, fun _ => true, 1, [], 0⟩
      "b".toList instRdy = some (st', me) ∧ st'.refs.Holds l' ∧
        EptLaw "b".toList instRdy (rowList 1 ⟨nul, "a".toList, 0, []⟩) l' st' me :=
  (eptstatIn_law_iff _ _ _ _ _ _ (by decide) (by decide) (rowRefs_holds _ _) (by decide) rfl
    (by decide) (by decide) (by decide)).mpr ⟨fun h => absurd h (by decide), by decide⟩

/-- One package more than can be counted; and a reference that `eptstat` itself has made and is
then to free. -/
theorem eptstatIn_overflows :
    (¬ ∃ st' l' me, eptstatIn 32767 32767
      ⟨rowRefs 32767 ⟨nul, "a".toList, 0, []⟩, fun _ => true, 32767, [], 0⟩ "b".toList instRdy =
        some (st', me) ∧ st'.refs.Holds l' ∧
          EptLaw "b".toList instRdy (rowList 32767 ⟨nul, "a".toList, 0, []⟩) l' st' me) ∧
    ∃ st', eptstatIn 0 0 ⟨rowRefs 0 ⟨nul, [], 0, []⟩, fun _ => true, 0, [], 0⟩ "b".toList instRdy =
      some (st', some 0) ∧ eptstatIn 1 1 st' "b".toList statNext = none := by
  have hlen : (rowList 32767 ⟨nul, "a".toList, 0, []⟩).length = 32767 := by simp [rowList]
  constructor
  · rw [law_absent (by decide) (by decide) (rowRefs_holds _ _)]
    · intro h
      rcases h (by rw [hlen]; rfl) with h | h
      · exact absurd h (by decide)
      · exact absurd h (by decide)
    · intro y hy
      obtain ⟨p, -, rfl⟩ := List.mem_map.mp hy
      exact (by decide : "a".toList ≠ "b".toList)
    · rw [hlen]
      rfl
    · exact (by decide : (32767 : Int) < 2 ^ 15)
    · simp [rowList]
    · rw [hlen]
  · exact ⟨_, rfl, rfl⟩

end Pkgtools
