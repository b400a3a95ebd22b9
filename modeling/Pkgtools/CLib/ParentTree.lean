import Mathlib.Data.List.Nodup
import Mathlib.Logic.Function.Basic

namespace CLib
set_option autoImplicit true

inductive Side where
  | left
  | right
  deriving DecidableEq, Repr

def Side.other : Side → Side
  | .left => .right
  | .right => .left

@[simp] theorem Side.other_other (d : Side) : d.other.other = d := by
  cases d <;> rfl

@[simp] theorem Side.other_ne (d : Side) : d.other ≠ d := by
  cases d <;> decide

structure TreeCell (α : Type) where
  info : α
  parent : Option Nat
  left : Option Nat
  right : Option Nat

namespace TreeCell
variable {α : Type}

def child (c : TreeCell α) : Side → Option Nat
  | .left => c.left
  | .right => c.right

def setChild (c : TreeCell α) : Side → Option Nat → TreeCell α
  | .left, q => { c with left := q }
  | .right, q => { c with right := q }

/-- The record with the child `t` on the side `d` and the child `u` on the other. -/
def of (d : Side) (x : α) (parent t u : Option Nat) : TreeCell α :=
  match d with
  | .left => ⟨x, parent, t, u⟩
  | .right => ⟨x, parent, u, t⟩

variable (d : Side) (x y : α) (parent q t u : Option Nat)

@[simp] theorem of_info : (of d x parent t u).info = x := by cases d <;> rfl

@[simp] theorem of_parent : (of d x parent t u).parent = parent := by cases d <;> rfl

@[simp] theorem of_child : (of d x parent t u).child d = t := by cases d <;> rfl

@[simp] theorem of_child_other : (of d x parent t u).child d.other = u := by cases d <;> rfl

@[simp] theorem of_setChild : (of d x parent t u).setChild d q = of d x parent q u := by
  cases d <;> rfl

@[simp] theorem of_setChild_other :
    (of d x parent t u).setChild d.other q = of d x parent t q := by
  cases d <;> rfl

@[simp] theorem of_withParent :
    ({ of d x parent t u with parent := q } : TreeCell α) = of d x q t u := by
  cases d <;> rfl

@[simp] theorem of_withInfo :
    ({ of d x parent t u with info := y } : TreeCell α) = of d y parent t u := by
  cases d <;> rfl

theorem of_other : of d.other x parent t u = of d x parent u t := by cases d <;> rfl

end TreeCell

/-- The allocated records, by their addresses, and the pointer to the root of the tree. -/
structure TreeHeap (α : Type) where
  cells : Nat → Option (TreeCell α)
  head : Option Nat

namespace TreeHeap
variable {α : Type}

def put (s : TreeHeap α) (p : Nat) (c : Option (TreeCell α)) : TreeHeap α :=
  { s with cells := Function.update s.cells p c }

@[simp] theorem put_self (s : TreeHeap α) (p : Nat) (c : Option (TreeCell α)) :
    (s.put p c).cells p = c := Function.update_self _ _ _

theorem put_ne (s : TreeHeap α) {p q : Nat} (h : q ≠ p) (c : Option (TreeCell α)) :
    (s.put p c).cells q = s.cells q := Function.update_of_ne h _ _

@[simp] theorem put_head (s : TreeHeap α) (p : Nat) (c : Option (TreeCell α)) :
    (s.put p c).head = s.head := rfl

def modify (s : TreeHeap α) (p : Nat) (f : TreeCell α → TreeCell α) : Option (TreeHeap α) :=
  (s.cells p).map fun c => s.put p (some (f c))

theorem modify_eq {s : TreeHeap α} (h : s.cells p = some c) (f : TreeCell α → TreeCell α) :
    s.modify p f = some (s.put p (some (f c))) := by
  rw [modify, h, Option.map_some]

/-- The parent gets a new child where it had the old one, the left one if it had that there. -/
def hang (s : TreeHeap α) (parent : Option Nat) (old : Nat) (new : Option Nat) :
    Option (TreeHeap α) :=
  match parent with
  | none => some s
  | some p => s.modify p fun c => c.setChild (if c.left = some old then .left else .right) new

/-- A child, if there is one, gets another parent. -/
def adopt (s : TreeHeap α) (child parent : Option Nat) : Option (TreeHeap α) :=
  match child with
  | none => some s
  | some q => s.modify q fun c => { c with parent := parent }

/-- Rotate the record `x` to the side `d`: its child of the other side takes its place. -/
def rotate (d : Side) (s : TreeHeap α) (x : Nat) : Option (TreeHeap α) := do
  let cx ← s.cells x
  let y ← cx.child d.other
  let b := (← s.cells y).child d
  let s ← s.modify y fun c => { c with parent := cx.parent }
  let s ← s.hang cx.parent x (some y)
  let s ← s.modify y fun c => c.setChild d (some x)
  let s ← s.modify x fun c => { c with parent := some y }
  let s ← s.modify x fun c => c.setChild d.other b
  let s ← s.adopt b (some x)
  some (if s.head = some x then { s with head := some y } else s)

def SameCells (s s' : TreeHeap α) : Prop := ∀ p, (s'.cells p).isSome = (s.cells p).isSome

variable {s s₁ s₂ s' : TreeHeap α} {p q : Option Nat} {x y : Nat}

theorem SameCells.rfl : s.SameCells s := fun _ => Eq.refl _

theorem SameCells.trans (h₁ : s.SameCells s₁) (h₂ : s₁.SameCells s₂) : s.SameCells s₂ :=
  fun p => (h₂ p).trans (h₁ p)

theorem SameCells.modify (h : s.modify x f = some s') : s.SameCells s' := by
  obtain ⟨c, hc, rfl⟩ := Option.map_eq_some_iff.mp h
  intro q
  by_cases hq : q = x
  · rw [hq, put_self, hc]
    exact Eq.refl _
  · rw [put_ne s hq]

theorem SameCells.hang (h : s.hang p x q = some s') : s.SameCells s' := by
  cases p with
  | none =>
    cases h
    exact .rfl
  | some p => exact .modify h

theorem SameCells.adopt (h : s.adopt p q = some s') : s.SameCells s' := by
  cases p with
  | none =>
    cases h
    exact .rfl
  | some p => exact .modify h

theorem SameCells.rotate (h : s.rotate d x = some s') : s.SameCells s' := by
  simp only [TreeHeap.rotate, Option.bind_eq_bind, Option.bind_eq_some_iff] at h
  obtain ⟨cx, -, y, -, cy, -, s₁, h₁, s₂, h₂, s₃, h₃, s₄, h₄, s₅, h₅, s₆, h₆, h₇⟩ := h
  have hsame := (((((SameCells.modify h₁).trans (.hang h₂)).trans (.modify h₃)).trans
    (.modify h₄)).trans (.modify h₅)).trans (.adopt h₆)
  cases h₇
  split
  · exact hsame
  · exact hsame

end TreeHeap

/-- A binary tree of records with their addresses. -/
inductive PTree (α : Type) where
  | nil
  | node (p : Nat) (l : PTree α) (x : α) (r : PTree α)

namespace PTree
variable {α : Type}

def ptr : PTree α → Option Nat
  | nil => none
  | node p _ _ _ => some p

/-- The tree with the child `t` on the side `d` and the child `u` on the other. -/
def join (d : Side) (p : Nat) (x : α) (t u : PTree α) : PTree α :=
  match d with
  | .left => node p t x u
  | .right => node p u x t

def addrs : PTree α → List Nat
  | nil => []
  | node p l _ r => p :: (l.addrs ++ r.addrs)

def toList : PTree α → List (Nat × α)
  | nil => []
  | node p l x r => l.toList ++ (p, x) :: r.toList

/-- The records in the order in which they come in the direction `d`. -/
def along (d : Side) (t : PTree α) : List (Nat × α) :=
  match d with
  | .left => t.toList.reverse
  | .right => t.toList

def depth : PTree α → Nat
  | nil => 0
  | node _ l _ r => max l.depth r.depth + 1

theorem depth_join (d : Side) (p : Nat) (x : α) (t u : PTree α) :
    (join d p x t u).depth = max t.depth u.depth + 1 := by
  cases d with
  | left => rfl
  | right => exact congrArg (· + 1) (Nat.max_comm _ _)

theorem addrs_perm (t : PTree α) : t.addrs.Perm (t.toList.map Prod.fst) := by
  induction t with
  | nil => exact .refl _
  | node p l x r ihl ihr =>
    rw [addrs, toList, List.map_append, List.map_cons]
    exact ((ihl.append ihr).cons p).trans List.perm_middle.symm

theorem along_join (d : Side) (p : Nat) (x : α) (t u : PTree α) :
    (join d p x t u).along d = u.along d ++ (p, x) :: t.along d := by
  cases d <;> simp [join, along, toList]

@[simp] theorem ptr_join (d : Side) (p : Nat) (x : α) (t u : PTree α) :
    (join d p x t u).ptr = some p := by
  cases d <;> rfl

theorem join_other (d : Side) (p : Nat) (x : α) (t u : PTree α) :
    join d.other p x t u = join d p x u t := by
  cases d <;> rfl

theorem addrs_join (d : Side) (p : Nat) (x : α) (t u : PTree α) :
    (join d p x t u).addrs.Perm (p :: (t.addrs ++ u.addrs)) := by
  cases d with
  | left => exact .refl _
  | right => exact List.perm_append_comm.cons p

theorem mem_addrs_of_ptr {t : PTree α} (h : t.ptr = some p) : p ∈ t.addrs := by
  cases t with
  | nil => cases h
  | node q l x r =>
    cases h
    exact List.mem_cons_self

theorem exists_join {t : PTree α} (d : Side) (h : t.ptr = some p) :
    ∃ x u v, t = join d p x u v := by
  cases t with
  | nil => cases h
  | node q l x r =>
    cases h
    cases d with
    | left => exact ⟨x, l, r, rfl⟩
    | right => exact ⟨x, r, l, rfl⟩

end PTree

/-- What is around a subtree: it is the child on the side `d` of a record with another child, which
stands in the rest of the tree. -/
inductive TreeCtx (α : Type) where
  | top
  | node (d : Side) (c : TreeCtx α) (p : Nat) (x : α) (u : PTree α)

namespace TreeCtx
variable {α : Type}

def parent : TreeCtx α → Option Nat
  | top => none
  | node _ _ p _ _ => some p

def fill : TreeCtx α → PTree α → PTree α
  | top, t => t
  | node d c p x u, t => c.fill (PTree.join d p x t u)

/-- The root of the tree around a subtree with the root `q`. -/
def root : TreeCtx α → Option Nat → Option Nat
  | top, q => q
  | node _ c p _ _, _ => c.root (some p)

def before : TreeCtx α → List (Nat × α)
  | top => []
  | node .left c _ _ _ => c.before
  | node .right c p x u => c.before ++ u.toList ++ [(p, x)]

def after : TreeCtx α → List (Nat × α)
  | top => []
  | node .left c p x u => (p, x) :: u.toList ++ c.after
  | node .right c _ _ _ => c.after

theorem toList_fill (c : TreeCtx α) (t : PTree α) :
    (c.fill t).toList = c.before ++ t.toList ++ c.after := by
  induction c generalizing t with
  | top => simp [fill, before, after]
  | node d c p x u ih =>
    rw [fill, ih]
    cases d <;> simp [before, after, PTree.join, PTree.toList]

/-- The records that come after the subtree in the direction `d`. -/
def ahead (d : Side) (c : TreeCtx α) : List (Nat × α) :=
  match d with
  | .left => c.before.reverse
  | .right => c.after

theorem ahead_same (d : Side) (c : TreeCtx α) (p : Nat) (x : α) (u : PTree α) :
    (node d c p x u).ahead d = c.ahead d := by
  cases d <;> rfl

theorem ahead_other (d : Side) (c : TreeCtx α) (p : Nat) (x : α) (u : PTree α) :
    (node d.other c p x u).ahead d = (p, x) :: u.along d ++ c.ahead d := by
  cases d <;> simp [ahead, before, after, PTree.along, Side.other]

def depth : TreeCtx α → Nat
  | top => 0
  | node _ c _ _ _ => c.depth + 1

theorem depth_fill (c : TreeCtx α) (t : PTree α) : c.depth + t.depth ≤ (c.fill t).depth := by
  induction c generalizing t with
  | top => exact Nat.le_of_eq (Nat.zero_add _)
  | node d c p x u ih =>
    have hjoin := ih (PTree.join d p x t u)
    rw [PTree.depth_join] at hjoin
    rw [depth, fill]
    omega

theorem depth_fill_congr (c : TreeCtx α) {t u : PTree α} (h : t.depth = u.depth) :
    (c.fill t).depth = (c.fill u).depth := by
  induction c generalizing t u with
  | top => exact h
  | node d c p x v ih => exact ih (by rw [PTree.depth_join, PTree.depth_join, h])

theorem exists_fill (c₀ : TreeCtx α) {t : PTree α} {A B : List (Nat × α)}
    (h : t.toList = A ++ (p, x) :: B) :
    ∃ c l r, c₀.fill t = fill c (.node p l x r) ∧ c₀.before ++ A = c.before ++ l.toList ∧
      B ++ c₀.after = r.toList ++ c.after := by
  induction t generalizing c₀ A B with
  | nil => simp [PTree.toList] at h
  | node q l y r ihl ihr =>
    rw [PTree.toList, List.append_eq_append_iff] at h
    rcases h with ⟨E, rfl, hB⟩ | ⟨E, hA, hB⟩
    · cases E with
      | nil =>
        rw [List.nil_append, List.cons.injEq] at hB
        obtain ⟨hx, rfl⟩ := hB
        cases hx
        exact ⟨c₀, l, r, rfl, by rw [List.append_nil], rfl⟩
      | cons e E =>
        rw [List.cons_append, List.cons.injEq] at hB
        obtain ⟨rfl, hB⟩ := hB
        obtain ⟨c, l', r', hfill, hbefore, hafter⟩ := ihr (node .right c₀ q y l) hB
        refine ⟨c, l', r', hfill, ?_, hafter⟩
        rw [← hbefore]
        simp [before]
    · cases E with
      | nil =>
        rw [List.nil_append, List.cons.injEq] at hB
        rw [List.append_nil] at hA
        obtain ⟨hx, rfl⟩ := hB
        cases hx
        exact ⟨c₀, l, r, rfl, by rw [hA], rfl⟩
      | cons e E =>
        rw [List.cons_append, List.cons.injEq] at hB
        obtain ⟨rfl, rfl⟩ := hB
        obtain ⟨c, l', r', hfill, hbefore, hafter⟩ := ihl (node .left c₀ q y r) hA
        refine ⟨c, l', r', hfill, hbefore, ?_⟩
        rw [← hafter]
        simp [after]

theorem exists_leftmost (c₀ : TreeCtx α) {t : PTree α} {B : List (Nat × α)}
    (h : t.toList = (p, x) :: B) :
    ∃ c r, c₀.fill t = fill c (.node p .nil x r) ∧ c.before = c₀.before ∧
      B ++ c₀.after = r.toList ++ c.after := by
  induction t generalizing c₀ B with
  | nil => cases h
  | node q l y r ihl ihr =>
    cases l with
    | nil =>
      cases h
      exact ⟨c₀, r, rfl, rfl, rfl⟩
    | node q' l' y' r' =>
      obtain ⟨E, hE⟩ : ∃ E, (PTree.node q' l' y' r').toList = (p, x) :: E := by
        rw [PTree.toList] at h
        cases hl : (PTree.node q' l' y' r').toList with
        | nil => simp [PTree.toList] at hl
        | cons e E =>
          rw [hl, List.cons_append, List.cons.injEq] at h
          exact ⟨E, by rw [h.1]⟩
      obtain ⟨c, r₁, hfill, hbefore, hafter⟩ := ihl (node .left c₀ q y r) hE
      refine ⟨c, r₁, hfill, hbefore, ?_⟩
      rw [PTree.toList, hE, List.cons_append, List.cons.injEq] at h
      rw [← h.2, ← hafter]
      simp [after]

def addrs : TreeCtx α → List Nat
  | top => []
  | node _ c p _ u => p :: (u.addrs ++ c.addrs)

theorem addrs_fill (c : TreeCtx α) (t : PTree α) : (c.fill t).addrs.Perm (t.addrs ++ c.addrs) := by
  induction c generalizing t with
  | top => rw [addrs, List.append_nil, fill]
  | node d c p x u ih =>
    refine (ih _).trans (((PTree.addrs_join d p x t u).append_right _).trans ?_)
    rw [addrs, List.cons_append, List.append_assoc]
    exact List.perm_middle.symm

theorem mem_addrs_of_parent {c : TreeCtx α} (h : c.parent = some p) : p ∈ c.addrs := by
  cases c with
  | top => cases h
  | node d c q x u =>
    cases h
    exact List.mem_cons_self

theorem mem_addrs_of_root {c : TreeCtx α} (h : c.root (some q) = some p) : p = q ∨ p ∈ c.addrs := by
  induction c generalizing q with
  | top => exact .inl (Option.some.inj h).symm
  | node d c r x u ih =>
    rcases ih h with rfl | hp
    · exact .inr List.mem_cons_self
    · exact .inr (List.mem_cons_of_mem _ (List.mem_append_right _ hp))

theorem root_ptr (c : TreeCtx α) (t : PTree α) : c.root t.ptr = (c.fill t).ptr := by
  induction c generalizing t with
  | top => rfl
  | node d c p x u ih =>
    rw [fill, ← ih, PTree.ptr_join]
    rfl

end TreeCtx

/-- The records of a tree are there, below the given parent. -/
def Stored (cells : Nat → Option (TreeCell α)) (parent : Option Nat) : PTree α → Prop
  | .nil => True
  | .node p l x r =>
    cells p = some ⟨x, parent, l.ptr, r.ptr⟩ ∧ Stored cells (some p) l ∧ Stored cells (some p) r

/-- The records around a subtree with the root `q` are there. -/
def StoredCtx (cells : Nat → Option (TreeCell α)) : TreeCtx α → Option Nat → Prop
  | .top, _ => True
  | .node d c p x u, q =>
    cells p = some (.of d x c.parent q u.ptr) ∧ Stored cells (some p) u ∧ StoredCtx cells c (some p)

/-- The tree on the heap is `t` in its context, with the records at different addresses. -/
structure TreeHeap.At (s : TreeHeap α) (c : TreeCtx α) (t : PTree α) : Prop where
  stored : Stored s.cells c.parent t
  ctx : StoredCtx s.cells c t.ptr
  head : s.head = c.root t.ptr
  nodup : (t.addrs ++ c.addrs).Nodup

section Stored
variable {α : Type} {cells cells' : Nat → Option (TreeCell α)} {parent : Option Nat} {t u : PTree α}
  {c : TreeCtx α} {d : Side} {s : TreeHeap α}

theorem stored_join : Stored cells parent (.join d p x t u) ↔
    cells p = some (.of d x parent t.ptr u.ptr) ∧ Stored cells (some p) t ∧
      Stored cells (some p) u := by
  cases d with
  | left => exact Iff.rfl
  | right => exact and_congr_right fun _ => and_comm

theorem Stored.allocated (h : Stored cells parent t) (hp : p ∈ t.addrs) : cells p ≠ none := by
  induction t generalizing parent with
  | nil => cases hp
  | node q l x r ihl ihr =>
    obtain ⟨hc, hl, hr⟩ := h
    rcases List.mem_cons.mp hp with rfl | hp
    · rw [hc]
      exact Option.some_ne_none _
    · exact (List.mem_append.mp hp).elim (ihl hl) (ihr hr)

theorem StoredCtx.allocated (h : StoredCtx cells c q) (hp : p ∈ c.addrs) : cells p ≠ none := by
  induction c generalizing q with
  | top => cases hp
  | node d c r x u ih =>
    obtain ⟨hc, hu, hctx⟩ := h
    rcases List.mem_cons.mp hp with rfl | hp
    · rw [hc]
      exact Option.some_ne_none _
    · exact (List.mem_append.mp hp).elim hu.allocated (ih hctx)

theorem Stored.congr (h : Stored cells parent t) (heq : ∀ p ∈ t.addrs, cells' p = cells p) :
    Stored cells' parent t := by
  induction t generalizing parent with
  | nil => trivial
  | node p l x r ihl ihr =>
    obtain ⟨hc, hl, hr⟩ := h
    refine ⟨?_, ihl hl fun q hq => heq q ?_, ihr hr fun q hq => heq q ?_⟩
    · rw [heq p List.mem_cons_self, hc]
    · exact List.mem_cons_of_mem _ (List.mem_append_left _ hq)
    · exact List.mem_cons_of_mem _ (List.mem_append_right _ hq)

/-- Only the root knows the parent of a tree. -/
theorem Stored.reparent (h : Stored cells parent t) (hn : t.addrs.Nodup)
    (hroot : ∀ p, t.ptr = some p → cells' p = (cells p).map fun c => { c with parent := parent' })
    (heq : ∀ p ∈ t.addrs, t.ptr ≠ some p → cells' p = cells p) : Stored cells' parent' t := by
  cases t with
  | nil => trivial
  | node p l x r =>
    obtain ⟨hc, hl, hr⟩ := h
    obtain ⟨hp, -⟩ := List.nodup_cons.mp hn
    have hrest (q : Nat) (hq : q ∈ l.addrs ++ r.addrs) : cells' q = cells q := by
      refine heq q (List.mem_cons_of_mem _ hq) ?_
      rintro ⟨⟩
      exact hp hq
    refine ⟨?_, hl.congr fun q hq => hrest q ?_, hr.congr fun q hq => hrest q ?_⟩
    · rw [hroot p rfl, hc]
      rfl
    · exact List.mem_append_left _ hq
    · exact List.mem_append_right _ hq

theorem StoredCtx.congr (h : StoredCtx cells c q) (heq : ∀ p ∈ c.addrs, cells' p = cells p) :
    StoredCtx cells' c q := by
  induction c generalizing q with
  | top => trivial
  | node d c p x u ih =>
    obtain ⟨hp, hu, hc⟩ := h
    refine ⟨?_, hu.congr fun r hr => heq r ?_, ih hc fun r hr => heq r ?_⟩
    · rw [heq p List.mem_cons_self, hp]
    · exact List.mem_cons_of_mem _ (List.mem_append_left _ hr)
    · exact List.mem_cons_of_mem _ (List.mem_append_right _ hr)

/-- Only the parent knows the root of a subtree. -/
theorem StoredCtx.rehole (h : StoredCtx cells c q) (hn : c.addrs.Nodup)
    (hparent : ∀ d c₀ p x u, c = .node d c₀ p x u →
      cells' p = (cells p).map fun c => c.setChild d q')
    (heq : ∀ p ∈ c.addrs, c.parent ≠ some p → cells' p = cells p) : StoredCtx cells' c q' := by
  cases c with
  | top => trivial
  | node d c p x u =>
    obtain ⟨hp, hu, hc⟩ := h
    obtain ⟨hnot, -⟩ := List.nodup_cons.mp hn
    have hrest (r : Nat) (hr : r ∈ u.addrs ++ c.addrs) : cells' r = cells r := by
      refine heq r (List.mem_cons_of_mem _ hr) ?_
      rintro ⟨⟩
      exact hnot hr
    refine ⟨?_, hu.congr fun r hr => hrest r ?_, hc.congr fun r hr => hrest r ?_⟩
    · rw [hparent d c p x u rfl, hp]
      simp
    · exact List.mem_append_left _ hr
    · exact List.mem_append_right _ hr

/-- To look at a child is to put the record into the context. -/
theorem TreeHeap.at_down : s.At c (.join d p x t u) ↔ s.At (.node d c p x u) t := by
  have hperm : ((PTree.join d p x t u).addrs ++ c.addrs).Perm
      (t.addrs ++ (TreeCtx.node d c p x u).addrs) := by
    have h₁ := (PTree.addrs_join d p x t u).append_right c.addrs
    refine h₁.trans ?_
    rw [TreeCtx.addrs, List.cons_append, List.append_assoc]
    exact List.perm_middle.symm
  constructor
  · rintro ⟨hstored, hctx, hhead, hnodup⟩
    obtain ⟨hp, ht, hu⟩ := stored_join.mp hstored
    rw [PTree.ptr_join] at hctx hhead
    exact ⟨ht, ⟨hp, hu, hctx⟩, hhead, hperm.nodup_iff.mp hnodup⟩
  · rintro ⟨hstored, ⟨hp, hu, hctx⟩, hhead, hnodup⟩
    refine ⟨stored_join.mpr ⟨hp, hstored, hu⟩, ?_, ?_, hperm.nodup_iff.mpr hnodup⟩
    · rwa [PTree.ptr_join]
    · rwa [PTree.ptr_join]

theorem TreeHeap.At.get (h : s.At c (.join d p x t u)) :
    s.cells p = some (.of d x c.parent t.ptr u.ptr) :=
  (stored_join.mp h.stored).1

theorem TreeHeap.At.free (h : s.At c t) (hp : s.cells p = none) : p ∉ t.addrs ∧ p ∉ c.addrs :=
  ⟨fun ht => h.stored.allocated ht hp, fun hc => h.ctx.allocated hc hp⟩

theorem TreeHeap.At.put_other (h : s.At c t) (ht : p ∉ t.addrs) (hc : p ∉ c.addrs)
    (r : Option (TreeCell α)) : (s.put p r).At c t := by
  refine ⟨h.stored.congr fun q hq => put_ne s ?_ r, h.ctx.congr fun q hq => put_ne s ?_ r, h.head,
    h.nodup⟩
  · rintro rfl
    exact ht hq
  · rintro rfl
    exact hc hq

theorem TreeHeap.At.whole (h : s.At c t) : s.At .top (c.fill t) := by
  induction c generalizing t with
  | top => exact h
  | node d c p x u ih => exact ih (at_down.mpr h)

theorem TreeHeap.At.focus (c : TreeCtx α) (h : s.At .top (c.fill t)) : s.At c t := by
  induction c generalizing t with
  | top => exact h
  | node d c p x u ih => exact at_down.mp (ih h)

theorem TreeHeap.At.apart (h : s.At c (.join d p x t u)) :
    p ∉ t.addrs ∧ p ∉ u.addrs ∧ p ∉ c.addrs ∧ (t.addrs ++ u.addrs ++ c.addrs).Nodup := by
  have hperm := (PTree.addrs_join d p x t u).append_right c.addrs
  have hn := hperm.nodup_iff.mp h.nodup
  rw [List.cons_append, List.nodup_cons, List.mem_append, List.mem_append] at hn
  simp only [not_or] at hn
  exact ⟨hn.1.1.1, hn.1.1.2, hn.1.2, hn.2⟩

theorem TreeHeap.At.setInfo (h : s.At c (.join d p x t u)) (f : α → α) :
    ∃ s', (s.modify p fun r => { r with info := f r.info }) = some s' ∧
      s'.At c (.join d p (f x) t u) := by
  obtain ⟨hnt, hnu, hnc, -⟩ := h.apart
  obtain ⟨hp, ht, hu⟩ := stored_join.mp h.stored
  refine ⟨_, modify_eq hp _, ?_, ?_, ?_, ?_⟩
  · refine stored_join.mpr ⟨?_, ht.congr fun q hq => put_ne s ?_ _,
      hu.congr fun q hq => put_ne s ?_ _⟩
    · rw [put_self, TreeCell.of_info, TreeCell.of_withInfo]
    · rintro rfl
      exact hnt hq
    · rintro rfl
      exact hnu hq
  · have hctx := h.ctx
    rw [PTree.ptr_join] at hctx ⊢
    refine hctx.congr fun q hq => put_ne s ?_ _
    rintro rfl
    exact hnc hq
  · have hhead := h.head
    rw [PTree.ptr_join] at hhead ⊢
    exact hhead
  · have hn := h.nodup
    cases d <;> exact hn

theorem StoredCtx.parent_child (h : StoredCtx cells c p) (hq : c.parent = some q) :
    ∃ cell, cells q = some cell ∧ (cell.left = p ∨ cell.right = p) := by
  cases c with
  | top => cases hq
  | node d c r x u =>
    cases hq
    refine ⟨_, h.1, ?_⟩
    cases d with
    | left => exact .inl rfl
    | right => exact .inr rfl

theorem TreeHeap.hang_spec (hctx : StoredCtx s.cells c (some p)) (hp : p ∉ c.addrs)
    (hn : c.addrs.Nodup) (new : Option Nat) :
    ∃ s', s.hang c.parent p new = some s' ∧ StoredCtx s'.cells c new ∧ s'.head = s.head ∧
      ∀ q, c.parent ≠ some q → s'.cells q = s.cells q := by
  cases c with
  | top => exact ⟨s, rfl, trivial, rfl, fun _ _ => rfl⟩
  | node d c q x u =>
    have hcell := hctx.1
    have hside : (if (TreeCell.of d x c.parent (some p) u.ptr).left = some p then Side.left
        else Side.right) = d := by
      cases d with
      | left => exact if_pos rfl
      | right =>
        refine if_neg fun hu => hp ?_
        exact List.mem_cons_of_mem _ (List.mem_append_left _ (PTree.mem_addrs_of_ptr hu))
    have hhang : s.hang (some q) p new =
        some (s.put q (some ((TreeCell.of d x c.parent (some p) u.ptr).setChild d new))) := by
      rw [hang, modify_eq hcell, hside]
    have hother (r : Nat) (hr : some q ≠ some r) (cell : Option (TreeCell α)) :
        (s.put q cell).cells r = s.cells r := put_ne s (fun he => hr (congrArg some he.symm)) _
    refine ⟨_, hhang, hctx.rehole hn ?_ fun r _ hr => hother r hr _, rfl, fun r hr => hother r hr _⟩
    rintro _ _ _ _ _ ⟨⟩
    rw [hcell, put_self, Option.map_some]

theorem TreeHeap.adopt_spec (h : Stored s.cells parent t) (new : Option Nat) :
    ∃ s', s.adopt t.ptr new = some s' ∧ s'.head = s.head ∧
      (∀ q, t.ptr = some q → s'.cells q = (s.cells q).map fun r => { r with parent := new }) ∧
      ∀ q, t.ptr ≠ some q → s'.cells q = s.cells q := by
  cases t with
  | nil =>
    refine ⟨s, rfl, rfl, ?_, fun _ _ => rfl⟩
    intro q hq
    cases hq
  | node p l x r =>
    have hcell := h.1
    refine ⟨_, modify_eq hcell _, rfl, ?_, ?_⟩
    · rintro q ⟨⟩
      rw [put_self, hcell, Option.map_some]
    · intro q hq
      refine put_ne s ?_ _
      rintro rfl
      exact hq rfl

/-- A subtree takes the place of its parent, which has no other child. -/
theorem TreeHeap.At.lift (h : s.At c (.join d p x t .nil)) :
    ∃ s₁ s₂, (match c.parent with
      | some q => s.hang (some q) p t.ptr
      | none => some { s with head := t.ptr }) = some s₁ ∧
      s₁.adopt t.ptr c.parent = some s₂ ∧ s₂.At c t ∧ s.SameCells s₂ := by
  obtain ⟨hpt, -, hpc, hn⟩ := h.apart
  obtain ⟨hp, ht, -⟩ := stored_join.mp h.stored
  rw [PTree.addrs, List.append_nil] at hn
  obtain ⟨htn, hcn, htc⟩ := List.nodup_append.mp hn
  have hctx := h.ctx
  have hhead := h.head
  rw [PTree.ptr_join] at hctx hhead
  have hhang : ∃ s₁, (match c.parent with
      | some q => s.hang (some q) p t.ptr
      | none => some { s with head := t.ptr }) = some s₁ ∧ StoredCtx s₁.cells c t.ptr ∧
      s₁.head = c.root t.ptr ∧ (∀ q, q ∉ c.addrs → s₁.cells q = s.cells q) ∧ s.SameCells s₁ := by
    cases c with
    | top => exact ⟨{ s with head := t.ptr }, rfl, trivial, rfl, fun _ _ => rfl, .rfl⟩
    | node d' c q y u =>
      obtain ⟨s₁, hrun, hctx₁, hhead₁, hcells₁⟩ := hang_spec hctx hpc hcn t.ptr
      refine ⟨s₁, hrun, hctx₁, hhead₁.trans hhead, fun r hr => hcells₁ r ?_, .hang hrun⟩
      exact fun he => hr (TreeCtx.mem_addrs_of_parent he)
  obtain ⟨s₁, hrun₁, hctx₁, hhead₁, hcells₁, hsame₁⟩ := hhang
  have ht₁ : Stored s₁.cells (some p) t :=
    ht.congr fun q hq => hcells₁ q fun hqc => htc q hq q hqc rfl
  obtain ⟨s₂, hrun₂, hhead₂, hroot₂, hcells₂⟩ := adopt_spec ht₁ c.parent
  refine ⟨s₁, s₂, hrun₁, hrun₂, ⟨?_, ?_, ?_, hn⟩, hsame₁.trans (.adopt hrun₂)⟩
  · exact ht₁.reparent htn hroot₂ fun q _ hq => hcells₂ q hq
  · refine hctx₁.congr fun q hq => hcells₂ q fun hqt => ?_
    exact htc q (PTree.mem_addrs_of_ptr hqt) q hq rfl
  · rw [hhead₂, hhead₁]

end Stored

section Rotate
variable {α : Type} {c : TreeCtx α} {d : Side} {s : TreeHeap α} {px py : Nat} {x y : α}
  {a b e : PTree α}

/-- What a rotation does to the records. -/
theorem TreeHeap.rotate_cells (hx : s.cells px = some (.of d x c.parent a.ptr (some py)))
    (hy : s.cells py = some (.of d y (some px) b.ptr e.ptr)) (hb : Stored s.cells (some py) b)
    (hctx : StoredCtx s.cells c (some px)) (hxy : px ≠ py) (hcx : px ∉ c.addrs) (hcy : py ∉ c.addrs)
    (hcn : c.addrs.Nodup) (hbx : px ∉ b.addrs) (hby : py ∉ b.addrs)
    (hbc : ∀ q ∈ b.addrs, q ∉ c.addrs) :
    ∃ s', s.rotate d px = some s' ∧ StoredCtx s'.cells c (some py) ∧
      s'.cells px = some (.of d x (some py) a.ptr b.ptr) ∧
      s'.cells py = some (.of d y c.parent (some px) e.ptr) ∧
      s'.head = (if s.head = some px then some py else s.head) ∧
      (∀ q, b.ptr = some q →
        s'.cells q = (s.cells q).map fun r => { r with parent := some px }) ∧
      ∀ q, q ≠ px → q ≠ py → q ∉ c.addrs → b.ptr ≠ some q → s'.cells q = s.cells q := by
  have hparent (q : Nat) (hq : q ∉ c.addrs) : c.parent ≠ some q :=
    fun he => hq (TreeCtx.mem_addrs_of_parent he)
  have hctx₁ : StoredCtx (s.put py (some (.of d y c.parent b.ptr e.ptr))).cells c (some px) := by
    refine hctx.congr fun q hq => put_ne s ?_ _
    rintro rfl
    exact hcy hq
  obtain ⟨s₂, hhang, hctx₂, hhead₂, hcells₂⟩ := hang_spec hctx₁ hcx hcn (some py)
  have hx₂ : s₂.cells px = some (.of d x c.parent a.ptr (some py)) := by
    rw [hcells₂ px (hparent px hcx), put_ne s hxy, hx]
  have hy₂ : s₂.cells py = some (.of d y c.parent b.ptr e.ptr) := by
    rw [hcells₂ py (hparent py hcy), put_self]
  let s₃ := s₂.put py (some (.of d y c.parent (some px) e.ptr))
  let s₄ := s₃.put px (some (.of d x (some py) a.ptr (some py)))
  let s₅ := s₄.put px (some (.of d x (some py) a.ptr b.ptr))
  have hx₃ : s₃.cells px = some (.of d x c.parent a.ptr (some py)) := by rw [put_ne s₂ hxy, hx₂]
  have hrun : s.rotate d px = (s₅.adopt b.ptr (some px)).map fun s =>
      if s.head = some px then { s with head := some py } else s := by
    simp only [TreeHeap.rotate, Option.bind_eq_bind, hx, Option.bind_some, TreeCell.of_child_other,
      hy, TreeCell.of_child, TreeCell.of_parent, modify_eq hy, TreeCell.of_withParent, hhang,
      modify_eq hy₂, TreeCell.of_setChild]
    rw [modify_eq hx₃, TreeCell.of_withParent, Option.bind_some, modify_eq (put_self s₃ px _),
      TreeCell.of_setChild_other, Option.bind_some]
    cases hs : s₅.adopt b.ptr (some px) <;> rfl
  have hhead₅ : s₅.head = s.head := hhead₂
  have hrest₅ (q : Nat) (hqx : q ≠ px) (hqy : q ≠ py) (hqc : q ∉ c.addrs) :
      s₅.cells q = s.cells q := by
    rw [put_ne s₄ hqx, put_ne s₃ hqx, put_ne s₂ hqy, hcells₂ q (hparent q hqc), put_ne s hqy]
  have hctx₅ : StoredCtx s₅.cells c (some py) := by
    refine hctx₂.congr fun q hq => ?_
    have hqx : q ≠ px := by
      rintro rfl
      exact hcx hq
    have hqy : q ≠ py := by
      rintro rfl
      exact hcy hq
    rw [put_ne s₄ hqx, put_ne s₃ hqx, put_ne s₂ hqy]
  have hx₅ : s₅.cells px = some (.of d x (some py) a.ptr b.ptr) := put_self s₄ px _
  have hy₅ : s₅.cells py = some (.of d y c.parent (some px) e.ptr) := by
    rw [put_ne s₄ hxy.symm, put_ne s₃ hxy.symm, put_self]
  have hb₅ : Stored s₅.cells (some py) b := by
    refine hb.congr fun q hq => hrest₅ q ?_ ?_ (hbc q hq)
    · rintro rfl
      exact hbx hq
    · rintro rfl
      exact hby hq
  obtain ⟨s₆, hadopt, hhead₆, hroot₆, hcells₆⟩ := adopt_spec hb₅ (some px)
  have hbptr (q : Nat) (hq : q ∉ b.addrs) : b.ptr ≠ some q :=
    fun he => hq (PTree.mem_addrs_of_ptr he)
  have hcells (s : TreeHeap α) :
      (if s.head = some px then { s with head := some py } else s).cells = s.cells := by
    split <;> rfl
  rw [hadopt, Option.map_some] at hrun
  refine ⟨_, hrun, ?_, ?_, ?_, ?_, ?_, ?_⟩
  · rw [hcells]
    exact hctx₅.congr fun q hq => hcells₆ q (hbptr q fun hqb => hbc q hqb hq)
  · rw [hcells, hcells₆ px (hbptr px hbx), hx₅]
  · rw [hcells, hcells₆ py (hbptr py hby), hy₅]
  · rw [← hhead₅, ← hhead₆]
    split <;> rfl
  · intro q hq
    have hmem := PTree.mem_addrs_of_ptr hq
    rw [hcells, hroot₆ q hq, hrest₅ q ?_ ?_ (hbc q hmem)]
    · rintro rfl
      exact hbx hmem
    · rintro rfl
      exact hby hmem
  · intro q hqx hqy hqc hqb
    rw [hcells, hcells₆ q hqb, hrest₅ q hqx hqy hqc]

theorem PTree.addrs_rotated (d : Side) (px py : Nat) (x y : α) (a b e : PTree α) :
    (PTree.join d py y (.join d px x a b) e).addrs.Perm
      (PTree.join d px x a (.join d py y b e)).addrs := by
  have hnew : (PTree.join d py y (.join d px x a b) e).addrs.Perm
      (py :: px :: (a.addrs ++ (b.addrs ++ e.addrs))) := by
    refine (addrs_join _ _ _ _ _).trans (.cons _ ?_)
    refine ((addrs_join _ _ _ _ _).append_right _).trans ?_
    rw [List.cons_append, List.append_assoc]
  have hold : (PTree.join d px x a (.join d py y b e)).addrs.Perm
      (px :: py :: (a.addrs ++ (b.addrs ++ e.addrs))) := by
    refine (addrs_join _ _ _ _ _).trans (.cons _ ?_)
    exact ((addrs_join _ _ _ _ _).append_left _).trans List.perm_middle
  exact hnew.trans ((List.Perm.swap _ _ _).trans hold.symm)

theorem TreeHeap.At.rotate (h : s.At c (.join d px x a (.join d py y b e))) :
    ∃ s', s.rotate d px = some s' ∧ s'.At c (.join d py y (.join d px x a b) e) := by
  obtain ⟨hx, ha, hyb⟩ := stored_join.mp h.stored
  obtain ⟨hy, hb, he⟩ := stored_join.mp hyb
  rw [PTree.ptr_join] at hx
  have hdown := h
  rw [← PTree.join_other] at hdown
  obtain ⟨hyb, hye, hyc, hn⟩ := (at_down.mp hdown).apart
  simp only [TreeCtx.addrs, List.mem_cons, List.mem_append, not_or] at hyc
  obtain ⟨hyx, hya, hyc⟩ := hyc
  rw [TreeCtx.addrs, List.nodup_append, List.nodup_append, List.nodup_cons, List.nodup_append] at hn
  obtain ⟨⟨hbn, -, hbe⟩, ⟨hxac, -, hcn, hac⟩, hrest⟩ := hn
  simp only [List.mem_append, not_or] at hxac
  simp only [List.mem_append, List.mem_cons] at hrest
  have hbx (q : Nat) (hq : q ∈ b.addrs) : q ≠ px := hrest q (.inl hq) px (.inl rfl)
  have hex (q : Nat) (hq : q ∈ e.addrs) : q ≠ px := hrest q (.inr hq) px (.inl rfl)
  have hctx := h.ctx
  rw [PTree.ptr_join] at hctx
  have hbc (q : Nat) (hq : q ∈ b.addrs) : q ∉ c.addrs :=
    fun hqc => hrest q (.inl hq) q (.inr (.inr hqc)) rfl
  obtain ⟨s', hrun, hctx', hx', hy', hhead', hroot', hcells'⟩ := rotate_cells hx hy hb hctx
    (Ne.symm hyx) hxac.2 hyc hcn (fun hq => hbx px hq rfl) hyb hbc
  have hbptr (q : Nat) (hq : q ∉ b.addrs) : b.ptr ≠ some q :=
    fun he => hq (PTree.mem_addrs_of_ptr he)
  refine ⟨s', hrun, ?_, ?_, ?_, ?_⟩
  · refine stored_join.mpr ⟨?_, stored_join.mpr ⟨hx', ?_, ?_⟩, ?_⟩
    · rw [hy', PTree.ptr_join]
    · refine ha.congr fun q hq => hcells' q ?_ ?_ ?_ (hbptr q ?_)
      · rintro rfl
        exact hxac.1 hq
      · rintro rfl
        exact hya hq
      · exact fun hqc => hac q hq q hqc rfl
      · exact fun hqb => hrest q (.inl hqb) q (.inr (.inl hq)) rfl
    · refine hb.reparent hbn hroot' fun q hq hqr => hcells' q (hbx q hq) ?_ (hbc q hq) hqr
      rintro rfl
      exact hyb hq
    · refine he.congr fun q hq => hcells' q (hex q hq) ?_ ?_ (hbptr q ?_)
      · rintro rfl
        exact hye hq
      · exact fun hqc => hrest q (.inr hq) q (.inr (.inr hqc)) rfl
      · exact fun hqb => hbe q hqb q hq rfl
  · rwa [PTree.ptr_join]
  · have hhead := h.head
    rw [PTree.ptr_join] at hhead ⊢
    rw [hhead', hhead]
    cases c with
    | top => exact if_pos rfl
    | node d' c q x' u =>
      refine if_neg fun hroot => ?_
      have hroot' : (TreeCtx.node d' c q x' u).root (some py) = some px := hroot
      exact (TreeCtx.mem_addrs_of_root hroot').elim (fun he => hyx he.symm) hxac.2
  · exact ((PTree.addrs_rotated d px py x y a b e).append_right _).nodup_iff.mpr h.nodup

theorem TreeHeap.At.rotate_other (h : s.At c (.join d px x (.join d py y e b) a)) :
    ∃ s', s.rotate d.other px = some s' ∧ s'.At c (.join d py y e (.join d px x b a)) := by
  have hother : s.At c (.join d.other px x a (.join d.other py y b e)) := by
    rwa [PTree.join_other, PTree.join_other]
  obtain ⟨s', hrun, h'⟩ := hother.rotate
  rw [PTree.join_other, PTree.join_other] at h'
  exact ⟨s', hrun, h'⟩

end Rotate

end CLib
