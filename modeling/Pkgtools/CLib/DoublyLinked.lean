import Mathlib.Data.List.Induction
import Mathlib.Data.List.Nodup
import Mathlib.Logic.Function.Basic

namespace CLib
set_option autoImplicit true

structure DCell (α : Type) where
  info : α
  prev : Option Nat
  next : Option Nat

/-- A doubly linked list: the allocated records, by their addresses, and the pointer to the first
one. -/
structure DLinked (α : Type) where
  cells : Nat → Option (DCell α)
  first : Option Nat

namespace DLinked
variable {α : Type}

def put (s : DLinked α) (p : Nat) (c : Option (DCell α)) : DLinked α :=
  { s with cells := Function.update s.cells p c }

@[simp] theorem put_self (s : DLinked α) (p : Nat) (c : Option (DCell α)) :
    (s.put p c).cells p = c := Function.update_self _ _ _

theorem put_ne (s : DLinked α) {p q : Nat} (h : q ≠ p) (c : Option (DCell α)) :
    (s.put p c).cells q = s.cells q := Function.update_of_ne h _ _

def modify (s : DLinked α) (p : Nat) (f : DCell α → DCell α) : Option (DLinked α) :=
  (s.cells p).map fun c => s.put p (some (f c))

/-- The record in front gets another `next`. The one in front of the first is `first`. -/
def setNext (s : DLinked α) (prev target : Option Nat) : Option (DLinked α) :=
  match prev with
  | none => some { s with first := target }
  | some p => s.modify p fun c => { c with next := target }

/-- The record behind, if there is one, gets another `prev`. -/
def setPrev (s : DLinked α) (next target : Option Nat) : Option (DLinked α) :=
  match next with
  | none => some s
  | some p => s.modify p fun c => { c with prev := target }

/-- Put the record `p` in front of the record `x`, or of all. -/
def place (s : DLinked α) (p : Nat) (info : α) (x : Option Nat) : Option (DLinked α) :=
  match x with
  | some x => do
    let cx ← s.cells x
    let s := s.put p (some ⟨info, cx.prev, some x⟩)
    let s ← s.setNext cx.prev (some p)
    s.setPrev (some x) (some p)
  | none => do
    let s' := s.put p (some ⟨info, none, s.first⟩)
    let s' ← s'.setPrev s.first (some p)
    some { s' with first := some p }

/-- Take the record `p` out, and free it. -/
def remove (s : DLinked α) (p : Nat) : Option (DLinked α) := do
  let c ← s.cells p
  let s ← s.setNext c.prev c.next
  let s ← s.setPrev c.next c.prev
  some (s.put p none)

end DLinked

/-- The pointer to the first of these records, or `e`. -/
def firstOr (e : Option Nat) : List (Nat × α) → Option Nat
  | [] => e
  | r :: _ => some r.1

/-- The pointer to the last of these records, or `e`. -/
def lastOr (e : Option Nat) : List (Nat × α) → Option Nat
  | [] => e
  | r :: l => lastOr (some r.1) l

/-- The records are those of the list. The first one has `b` in front of it, the last one `e` behind
it. -/
def DSegment (cells : Nat → Option (DCell α)) (b : Option Nat) : List (Nat × α) → Option Nat → Prop
  | [], _ => True
  | (p, x) :: l, e => cells p = some ⟨x, b, firstOr e l⟩ ∧ DSegment cells (some p) l e

/-- The doubly linked list has these records, at different addresses. -/
structure DLinked.Holds (s : DLinked α) (l : List (Nat × α)) : Prop where
  first : s.first = firstOr none l
  segment : DSegment s.cells none l none
  nodup : (l.map Prod.fst).Nodup

section Segment
variable {α : Type} {cells cells' : Nat → Option (DCell α)} {l A B : List (Nat × α)}
  {b e : Option Nat}

theorem firstOr_append (A B : List (Nat × α)) (e : Option Nat) :
    firstOr e (A ++ B) = firstOr (firstOr e B) A := by
  cases A <;> rfl

theorem lastOr_append (A B : List (Nat × α)) (b : Option Nat) :
    lastOr b (A ++ B) = lastOr (lastOr b A) B := by
  induction A generalizing b with
  | nil => rfl
  | cons r A ih => exact ih (some r.1)

theorem dsegment_append : DSegment cells b (A ++ B) e ↔
    DSegment cells b A (firstOr e B) ∧ DSegment cells (lastOr b A) B e := by
  induction A generalizing b with
  | nil => exact (and_iff_right trivial).symm
  | cons r A ih =>
    rw [List.cons_append, DSegment, DSegment, ih, firstOr_append, lastOr, and_assoc]

theorem DSegment.congr (h : DSegment cells b l e) (heq : ∀ p ∈ l.map Prod.fst, cells' p = cells p) :
    DSegment cells' b l e := by
  induction l generalizing b with
  | nil => trivial
  | cons r l ih =>
    obtain ⟨hr, hl⟩ := h
    refine ⟨?_, ih hl fun p hp => heq p (List.mem_cons_of_mem _ hp)⟩
    rw [heq r.1 List.mem_cons_self, hr]

theorem DSegment.get (h : DSegment cells b (A ++ (p, x) :: B) e) :
    cells p = some ⟨x, lastOr b A, firstOr e B⟩ := (dsegment_append.mp h).2.1

end Segment

section Links
variable {α : Type} {s : DLinked α} {l A B : List (Nat × α)} {b e : Option Nat}

theorem DLinked.modify_eq (h : s.cells p = some c) (f : DCell α → DCell α) :
    s.modify p f = some (s.put p (some (f c))) := by
  rw [modify, h, Option.map_some]

/-- The pointer behind a list is set; all records outside of the list are as before. -/
theorem DSegment.setNext (h : DSegment s.cells none A e) (hfirst : s.first = firstOr e A)
    (hn : (A.map Prod.fst).Nodup) (t : Option Nat) :
    ∃ s', s.setNext (lastOr none A) t = some s' ∧ DSegment s'.cells none A t ∧
      s'.first = firstOr t A ∧ ∀ q ∉ A.map Prod.fst, s'.cells q = s.cells q := by
  cases A using List.reverseRecOn with
  | nil => exact ⟨_, rfl, trivial, rfl, fun _ _ => rfl⟩
  | append_singleton A r =>
    obtain ⟨p, x⟩ := r
    obtain ⟨hA, hp, -⟩ := dsegment_append.mp h
    rw [List.map_append, List.map_singleton, List.nodup_append] at hn
    have hne (q : Nat) (hq : q ∈ A.map Prod.fst) : q ≠ p :=
      hn.2.2 q hq p (List.mem_singleton_self _)
    refine ⟨s.put p (some ⟨x, lastOr none A, t⟩), ?_, ?_, ?_, ?_⟩
    · rw [lastOr_append]
      exact DLinked.modify_eq hp _
    · exact dsegment_append.mpr ⟨hA.congr fun q hq => DLinked.put_ne s (hne q hq) _,
        DLinked.put_self s p _, trivial⟩
    · rw [firstOr_append] at hfirst ⊢
      exact hfirst
    · intro q hq
      apply DLinked.put_ne
      rintro rfl
      exact hq (by simp)

theorem DSegment.setPrev (h : DSegment s.cells b B none) (hn : (B.map Prod.fst).Nodup)
    (t : Option Nat) :
    ∃ s', s.setPrev (firstOr none B) t = some s' ∧ DSegment s'.cells t B none ∧
      s'.first = s.first ∧ ∀ q ∉ B.map Prod.fst, s'.cells q = s.cells q := by
  cases B with
  | nil => exact ⟨s, rfl, trivial, rfl, fun _ _ => rfl⟩
  | cons r B =>
    obtain ⟨p, x⟩ := r
    obtain ⟨hp, hB⟩ := h
    rw [List.map_cons, List.nodup_cons] at hn
    refine ⟨s.put p (some ⟨x, t, firstOr none B⟩), DLinked.modify_eq hp _,
      ⟨DLinked.put_self s p _, hB.congr fun q hq => ?_⟩, rfl, fun q hq => ?_⟩
    · apply DLinked.put_ne
      rintro rfl
      exact hn.1 hq
    · apply DLinked.put_ne
      rintro rfl
      exact hq List.mem_cons_self

theorem DLinked.Holds.place_front (h : s.Holds l) (hp : p ∉ l.map Prod.fst) (x : α) :
    ∃ s', s.place p x none = some s' ∧ s'.Holds ((p, x) :: l) ∧
      ∀ q ∉ p :: l.map Prod.fst, s'.cells q = s.cells q := by
  have hput : DSegment (s.put p (some ⟨x, none, s.first⟩)).cells none l none := by
    refine h.segment.congr fun q hq => put_ne s ?_ _
    rintro rfl
    exact hp hq
  obtain ⟨s', hrun, hl, -, hframe⟩ := hput.setPrev h.nodup (some p)
  refine ⟨{ s' with first := some p }, ?_, ⟨rfl, ⟨?_, hl⟩, List.nodup_cons.mpr ⟨hp, h.nodup⟩⟩, ?_⟩
  · rw [place, h.first] at *
    simp only [Option.bind_eq_bind, hrun, Option.bind_some]
  · have hcell := hframe p hp
    rw [put_self, h.first] at hcell
    exact hcell
  · intro q hq
    rw [List.mem_cons, not_or] at hq
    exact (hframe q hq.2).trans (put_ne s hq.1 _)

/-- The pointers across a gap between two parts of a list are set. -/
theorem DSegment.setGap (hA : DSegment s.cells none A e) (hB : DSegment s.cells b B none)
    (hfirst : s.first = firstOr e A) (hn : (A.map Prod.fst ++ B.map Prod.fst).Nodup)
    (t u : Option Nat) :
    ∃ s₁ s₂, s.setNext (lastOr none A) t = some s₁ ∧ s₁.setPrev (firstOr none B) u = some s₂ ∧
      DSegment s₂.cells none A t ∧ DSegment s₂.cells u B none ∧ s₂.first = firstOr t A ∧
      ∀ q ∉ A.map Prod.fst ++ B.map Prod.fst, s₂.cells q = s.cells q := by
  obtain ⟨hnA, hnB, hAB⟩ := List.nodup_append.mp hn
  obtain ⟨s₁, hrun₁, hA₁, hfirst₁, hframe₁⟩ := hA.setNext hfirst hnA t
  have hB₁ : DSegment s₁.cells b B none :=
    hB.congr fun q hq => hframe₁ q fun hqA => hAB q hqA q hq rfl
  obtain ⟨s₂, hrun₂, hB₂, hfirst₂, hframe₂⟩ := hB₁.setPrev hnB u
  refine ⟨s₁, s₂, hrun₁, hrun₂, ?_, hB₂, hfirst₂.trans hfirst₁, fun q hq => ?_⟩
  · exact hA₁.congr fun q hq => hframe₂ q fun hqB => hAB q hq q hqB rfl
  · rw [List.mem_append, not_or] at hq
    rw [hframe₂ q hq.2, hframe₁ q hq.1]

theorem DLinked.Holds.place_before (h : s.Holds (A ++ (q, y) :: B))
    (hp : p ∉ (A ++ (q, y) :: B).map Prod.fst) (x : α) :
    ∃ s', s.place p x (some q) = some s' ∧ s'.Holds (A ++ (p, x) :: (q, y) :: B) ∧
      ∀ r ∉ p :: (A ++ (q, y) :: B).map Prod.fst, s'.cells r = s.cells r := by
  have hcell := h.segment.get
  obtain ⟨hA, hB⟩ := dsegment_append.mp h.segment
  have hn := h.nodup
  have hfirst := h.first
  rw [List.map_append] at hp hn ⊢
  rw [firstOr_append] at hfirst
  have hput (r : Nat) (hr : r ∈ A.map Prod.fst ++ ((q, y) :: B).map Prod.fst) :
      (s.put p (some ⟨x, lastOr none A, some q⟩)).cells r = s.cells r :=
    put_ne s (by rintro rfl; exact hp hr) _
  have hA₁ := hA.congr fun r hr => hput r (List.mem_append_left _ hr)
  have hB₁ := hB.congr fun r hr => hput r (List.mem_append_right _ hr)
  obtain ⟨s₁, s₂, hrun₁, hrun₂, hA₂, hB₂, hfirst₂, hframe⟩ :=
    hA₁.setGap hB₁ hfirst hn (some p) (some p)
  refine ⟨s₂, ?_, ⟨?_, ?_, ?_⟩, ?_⟩
  · simp only [place, hcell, Option.bind_eq_bind, Option.bind_some, hrun₁]
    exact hrun₂
  · rw [firstOr_append]
    exact hfirst₂
  · refine dsegment_append.mpr ⟨hA₂, ?_, hB₂⟩
    rw [hframe p hp, put_self]
    rfl
  · rw [List.map_append]
    exact (List.nodup_middle.mpr (List.nodup_cons.mpr ⟨hp, hn⟩))
  · intro r hr
    rw [List.mem_cons, not_or] at hr
    rw [hframe r hr.2, put_ne s hr.1]

theorem DLinked.Holds.remove (h : s.Holds (A ++ (p, x) :: B)) :
    ∃ s', s.remove p = some s' ∧ s'.Holds (A ++ B) ∧ s'.cells p = none ∧
      ∀ r ∉ (A ++ (p, x) :: B).map Prod.fst, s'.cells r = s.cells r := by
  have hcell := h.segment.get
  obtain ⟨hA, -, hB⟩ := dsegment_append.mp h.segment
  have hn := h.nodup
  have hfirst := h.first
  rw [List.map_append, List.map_cons] at hn ⊢
  obtain ⟨hp, hn⟩ := List.nodup_cons.mp (List.nodup_middle.mp hn)
  rw [firstOr_append] at hfirst
  obtain ⟨s₁, s₂, hrun₁, hrun₂, hA₂, hB₂, hfirst₂, hframe⟩ :=
    hA.setGap hB hfirst hn (firstOr none B) (lastOr none A)
  have hput (r : Nat) (hr : r ∈ A.map Prod.fst ++ B.map Prod.fst) :
      (s₂.put p none).cells r = s₂.cells r := put_ne s₂ (by rintro rfl; exact hp hr) _
  refine ⟨s₂.put p none, ?_, ⟨?_, ?_, ?_⟩, put_self s₂ p _, ?_⟩
  · simp only [DLinked.remove, hcell, Option.bind_eq_bind, Option.bind_some, hrun₁, hrun₂]
  · rw [firstOr_append]
    exact hfirst₂
  · exact dsegment_append.mpr ⟨hA₂.congr fun r hr => hput r (List.mem_append_left _ hr),
      hB₂.congr fun r hr => hput r (List.mem_append_right _ hr)⟩
  · rwa [List.map_append]
  · intro r hr
    rw [List.mem_append, List.mem_cons, not_or, not_or] at hr
    rw [put_ne s₂ hr.2.1, hframe r (by simp [hr.1, hr.2.2])]

theorem DLinked.Holds.modify (h : s.Holds (A ++ (p, x) :: B)) (y : α) :
    ∃ s', (s.modify p fun c => { c with info := y }) = some s' ∧ s'.Holds (A ++ (p, y) :: B) ∧
      ∀ r ≠ p, s'.cells r = s.cells r := by
  have hcell := h.segment.get
  obtain ⟨hA, -, hB⟩ := dsegment_append.mp h.segment
  have hn := h.nodup
  have hfirst := h.first
  rw [List.map_append, List.map_cons] at hn
  obtain ⟨hp, -⟩ := List.nodup_cons.mp (List.nodup_middle.mp hn)
  have hput (r : Nat) (hr : r ≠ p) := put_ne s hr (some ⟨y, lastOr none A, firstOr none B⟩)
  have hA₁ := hA.congr fun r hr => hput r fun he => hp (he ▸ List.mem_append_left _ hr)
  have hB₁ := hB.congr fun r hr => hput r fun he => hp (he ▸ List.mem_append_right _ hr)
  refine ⟨_, modify_eq hcell _, ⟨?_, ?_, ?_⟩, hput⟩
  · rw [firstOr_append] at hfirst ⊢
    exact hfirst
  · exact dsegment_append.mpr ⟨hA₁, put_self s p _, hB₁⟩
  · rwa [List.map_append, List.map_cons]

end Links

def NextSegment (cells : Nat → Option (DCell α)) : List (Nat × α) → Prop
  | [] => True
  | (p, x) :: l => (∃ b, cells p = some ⟨x, b, firstOr none l⟩) ∧ NextSegment cells l

section Next
variable {α : Type} {cells cells' : Nat → Option (DCell α)} {l : List (Nat × α)} {b : Option Nat}

theorem DSegment.nexts (h : DSegment cells b l none) : NextSegment cells l := by
  induction l generalizing b with
  | nil => trivial
  | cons r l ih => exact ⟨⟨b, h.1⟩, ih h.2⟩

theorem NextSegment.congr (h : NextSegment cells l)
    (heq : ∀ p ∈ l.map Prod.fst, cells' p = cells p) : NextSegment cells' l := by
  induction l with
  | nil => trivial
  | cons r l ih =>
    obtain ⟨⟨b, hr⟩, hl⟩ := h
    refine ⟨⟨b, ?_⟩, ih hl fun p hp => heq p (List.mem_cons_of_mem _ hp)⟩
    rw [heq r.1 List.mem_cons_self, hr]

end Next

end CLib
