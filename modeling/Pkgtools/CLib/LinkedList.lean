import Mathlib.Data.List.Induction
import Mathlib.Data.List.Nodup
import Mathlib.Logic.Function.Basic

namespace CLib
set_option autoImplicit true

structure Cell (α : Type) where
  info : α
  next : Option Nat

abbrev Cells (α : Type) := Nat → Option (Cell α)

/-- A singly linked list: the records and the pointer to the first one. -/
structure Linked (α : Type) where
  cells : Cells α
  head : Option Nat

namespace Linked
variable {α : Type}

def put (s : Linked α) (p : Nat) (c : Option (Cell α)) : Linked α :=
  { s with cells := Function.update s.cells p c }

/-- Where a list has the pointer to the element behind `parent` it gets another one. -/
def link (s : Linked α) (parent target : Option Nat) : Option (Linked α) :=
  match parent with
  | none => some { s with head := target }
  | some p => (s.cells p).map fun c => s.put p (some { c with next := target })

end Linked

/-- The records from the pointer `h` on are those of the list, and the last one points to `e`. -/
def Segment (cells : Cells α) : Option Nat → List (Nat × α) → Option Nat → Prop
  | h, [], e => h = e
  | h, (p, x) :: l, e => h = some p ∧ ∃ next, cells p = some ⟨x, next⟩ ∧ Segment cells next l e

abbrev addrs (l : List (Nat × α)) : List Nat := l.map Prod.fst

def lastAddr (l : List (Nat × α)) : Option Nat := l.getLast?.map Prod.fst

/-- The linked list has these records, at different addresses. -/
structure Linked.Holds (s : Linked α) (l : List (Nat × α)) : Prop where
  segment : Segment s.cells s.head l none
  nodup : (addrs l).Nodup

section Segment
variable {α : Type} {cells cells' : Cells α} {a b l : List (Nat × α)} {h e : Option Nat}

theorem segment_append :
    Segment cells h (a ++ b) e ↔ ∃ m, Segment cells h a m ∧ Segment cells m b e := by
  induction a generalizing h with
  | nil => simp [Segment]
  | cons x a ih =>
    obtain ⟨p, x⟩ := x
    rw [List.cons_append]
    constructor
    · rintro ⟨hh, next, hc, hs⟩
      obtain ⟨m, ha, hb⟩ := ih.mp hs
      exact ⟨m, ⟨hh, next, hc, ha⟩, hb⟩
    · rintro ⟨m, ⟨hh, next, hc, ha⟩, hb⟩
      exact ⟨hh, next, hc, ih.mpr ⟨m, ha, hb⟩⟩

theorem Segment.congr (hs : Segment cells h l e) (heq : ∀ p ∈ addrs l, cells' p = cells p) :
    Segment cells' h l e := by
  induction l generalizing h with
  | nil => exact hs
  | cons x l ih =>
    obtain ⟨hh, next, hc, hl⟩ := hs
    refine ⟨hh, next, ?_, ih hl fun p hp => heq p (List.mem_cons_of_mem _ hp)⟩
    rw [heq x.1 List.mem_cons_self, hc]

/-- A pointer determines the records behind it. -/
theorem Segment.eq (ha : Segment cells h a none) (hb : Segment cells h b none) : a = b := by
  induction a generalizing h b with
  | nil =>
    obtain rfl := ha
    cases b with
    | nil => rfl
    | cons y b => cases hb.1
  | cons x a ih =>
    obtain ⟨rfl, next, hc, ha⟩ := ha
    cases b with
    | nil => cases hb
    | cons y b =>
      obtain ⟨hh, next', hc', hb⟩ := hb
      obtain ⟨p, x⟩ := x
      obtain ⟨q, y⟩ := y
      obtain rfl := Option.some_inj.mp hh
      obtain ⟨rfl, rfl⟩ := Cell.mk.inj (Option.some_inj.mp (hc.symm.trans hc'))
      rw [ih ha hb]

theorem lastAddr_concat (l : List (Nat × α)) (x : Nat × α) : lastAddr (l ++ [x]) = some x.1 := by
  rw [lastAddr, List.getLast?_concat, Option.map_some]

/-- The pointer behind a segment is set; all records outside of the segment are as before. -/
theorem link_segment {s : Linked α} (hs : Segment s.cells s.head a e) (hn : (addrs a).Nodup)
    (target : Option Nat) :
    ∃ s', s.link (lastAddr a) target = some s' ∧ Segment s'.cells s'.head a target ∧
      ∀ p, p ∉ addrs a → s'.cells p = s.cells p := by
  cases a using List.reverseRecOn with
  | nil => exact ⟨_, rfl, rfl, fun _ _ => rfl⟩
  | append_singleton a x =>
    obtain ⟨m, ha, rfl, next, hc, -⟩ := segment_append.mp hs
    rw [addrs, List.map_append, List.map_singleton, List.nodup_append] at hn
    have hx (p : Nat) (hp : p ∈ addrs a) : p ≠ x.1 := hn.2.2 p hp x.1 (List.mem_singleton_self _)
    refine ⟨s.put x.1 (some ⟨x.2, target⟩), ?_, ?_, ?_⟩
    · rw [lastAddr_concat, Linked.link, hc, Option.map_some]
    · refine segment_append.mpr ⟨some x.1, ha.congr fun p hp => ?_, rfl, target, ?_, rfl⟩
      · exact Function.update_of_ne (hx p hp) _ _
      · exact Function.update_self _ _ _
    · intro p hp
      apply Function.update_of_ne
      rintro rfl
      exact hp (by simp)

end Segment

end CLib
