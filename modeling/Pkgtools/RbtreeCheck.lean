import Pkgtools.RbtreeTrans

namespace Pkgtools
open CLib
set_option autoImplicit true

/-- Where `check_redblack_tree` has come from: the parent, the left or the right child. -/
inductive PrevStep where
  | parent
  | left
  | right
  deriving DecidableEq, Repr

/-- A problem that `check_redblack_tree` reports: "Red node with red child at" a node, or "Different
black-heights at" it. -/
inductive TreeProblem where
  | redNode (p : Nat)
  | blackHeights (p : Nat)
  deriving DecidableEq, Repr

/-- The black nodes below and at a child, from its `nBlackHeight`. -/
def childHeight (s : BtRbTree) (nBlackHeight : Nat → Int) : Option Nat → Option Int
  | none => some 0
  | some q => do
    let child ← s.cells q
    some (nBlackHeight q + if child.info.isBlack then 1 else 0)

/-- The two checks of a node. Its `nBlackHeight` is set. -/
def checkNode (s : BtRbTree) (nBlackHeight : Nat → Int) (p : Nat) :
    Option (List TreeProblem × (Nat → Int)) := do
  let pNode ← s.cells p
  let redLeft ← s.isRed pNode.left
  let redRight ← s.isRed pNode.right
  let leftHeight ← childHeight s nBlackHeight pNode.left
  let rightHeight ← childHeight s nBlackHeight pNode.right
  some ((if !pNode.info.isBlack && (redLeft || redRight) then [.redNode p] else []) ++
      (if leftHeight ≠ rightHeight then [.blackHeights p] else []),
    Function.update nBlackHeight p leftHeight)

/-- The loop of `check_redblack_tree`. -/
def checkLoop (s : BtRbTree) : Nat → Option Nat → PrevStep → (Nat → Int) → List TreeProblem →
    Option (List TreeProblem)
  | 0, _, _, _, _ => none
  | _ + 1, none, _, _, msg => some msg
  | fuel + 1, some p, .parent, nBlackHeight, msg => do
    let pNode ← s.cells p
    match pNode.left with
    | some q => checkLoop s fuel (some q) .parent nBlackHeight msg
    | none => checkLoop s fuel (some p) .left nBlackHeight msg
  | fuel + 1, some p, .left, nBlackHeight, msg => do
    let pNode ← s.cells p
    match pNode.right with
    | some q => checkLoop s fuel (some q) .parent nBlackHeight msg
    | none => checkLoop s fuel (some p) .right nBlackHeight msg
  | fuel + 1, some p, .right, nBlackHeight, msg => do
    let pNode ← s.cells p
    let (problems, nBlackHeight) ← checkNode s nBlackHeight p
    match pNode.parent with
    | some q =>
      let parent ← s.cells q
      let prevStep := if parent.left = some p then PrevStep.left else .right
      checkLoop s fuel (some q) prevStep nBlackHeight (msg ++ problems)
    | none => checkLoop s fuel none .right nBlackHeight (msg ++ problems)

def checkRedblackTree (fuel : Nat) (s : BtRbTree) (nBlackHeight : Nat → Int)
    (msg : List TreeProblem) : Option (List TreeProblem) :=
  checkLoop s fuel s.head .parent nBlackHeight msg

/-- The loop of `memRbtreeIntegrityCheck` over the tables, in the order in which the hash gives
them. -/
def memRbtreeIntegrityCheck (fuel : BtRbTree → Nat) (tree : Rbtree)
    (nBlackHeight : Nat → Nat → Int) :
    List Nat → List TreeProblem → Option (List TreeProblem)
  | [], msg => some msg
  | n :: tables, msg => do
    let s ← tree.tblHash n
    let msg ← checkRedblackTree (fuel s) s (nBlackHeight n) msg
    memRbtreeIntegrityCheck fuel tree nBlackHeight tables msg

/-- The black nodes on the path of left children from the root down. -/
def spineHeight : PTree BtRbRecord → Int
  | .nil => 0
  | .node _ l x _ => spineHeight l + if x.isBlack then 1 else 0

/-- The problems of a tree, those of a node behind those of its children. -/
def treeProblems : PTree BtRbRecord → List TreeProblem
  | .nil => []
  | .node p l x r => treeProblems l ++ treeProblems r ++
    ((if !x.isBlack && (!l.isBlack BtRbRecord.isBlack || !r.isBlack BtRbRecord.isBlack) then
      [.redNode p] else []) ++ if spineHeight l ≠ spineHeight r then [.blackHeights p] else [])

/-- The step at a node with which `check_redblack_tree` goes to the child on a side. -/
def stepInto : Side → PrevStep
  | .left => .parent
  | .right => .left

/-- The step at a node with which it has come back from the child on a side. -/
def stepOut : Side → PrevStep
  | .left => .left
  | .right => .right

def stepBack : TreeCtx BtRbRecord → PrevStep
  | .top => .right
  | .node d _ _ _ _ => stepOut d

/-- The `nBlackHeight` of the root is set. -/
def HeightSet (nBlackHeight : Nat → Int) (t : PTree BtRbRecord) : Prop :=
  ∀ p l x r, t = .node p l x r → nBlackHeight p = spineHeight l

/-- What a walk through the subtree `t` does to the `nBlackHeight` of the nodes. -/
structure Walked (h h' : Nat → Int) (t : PTree BtRbRecord) : Prop where
  set : HeightSet h' t
  keep : ∀ q ∉ t.addrs, h' q = h q

section Problems
variable {t l r : PTree BtRbRecord}

theorem spineHeight_of_balanced (h : Balanced BtRbRecord.isBlack t n) : spineHeight t = n := by
  induction t generalizing n with
  | nil =>
    rw [CLib.Balanced] at h
    rw [h]
    rfl
  | node p l x r ihl ihr =>
    obtain ⟨m, hl, -, rfl⟩ := h
    rw [spineHeight, ihl hl]
    cases x.isBlack <;> simp

/-- A tree has no problem exactly when it is a red-black tree, the color of its root aside. -/
theorem treeProblems_eq_nil (t : PTree BtRbRecord) : treeProblems t = [] ↔
    NoRedRed BtRbRecord.isBlack t ∧ ∃ n, Balanced BtRbRecord.isBlack t n := by
  induction t with
  | nil => exact ⟨fun _ => ⟨trivial, 0, rfl⟩, fun _ => rfl⟩
  | node p l x r ihl ihr =>
    have hred : (!x.isBlack && (!l.isBlack BtRbRecord.isBlack || !r.isBlack BtRbRecord.isBlack)) =
        false ↔ (x.isBlack = false →
          l.isBlack BtRbRecord.isBlack = true ∧ r.isBlack BtRbRecord.isBlack = true) := by
      cases x.isBlack <;> simp
    have hparts : treeProblems (.node p l x r) = [] ↔
        (treeProblems l = [] ∧ treeProblems r = []) ∧
        (x.isBlack = false →
          l.isBlack BtRbRecord.isBlack = true ∧ r.isBlack BtRbRecord.isBlack = true) ∧
        spineHeight l = spineHeight r := by
      rw [treeProblems, List.append_eq_nil_iff, List.append_eq_nil_iff, List.append_eq_nil_iff,
        ← hred]
      simp
    rw [hparts, ihl, ihr]
    constructor
    · rintro ⟨⟨⟨hl, m, hm⟩, hr, n, hn⟩, hx, hheight⟩
      rw [spineHeight_of_balanced hm, spineHeight_of_balanced hn, Int.natCast_inj] at hheight
      exact ⟨⟨hx, hl, hr⟩, _, m, hm, hheight ▸ hn, rfl⟩
    · rintro ⟨⟨hx, hl, hr⟩, _, m, hm, hn, -⟩
      exact ⟨⟨⟨hl, m, hm⟩, hr, m, hn⟩, hx,
        (spineHeight_of_balanced hm).trans (spineHeight_of_balanced hn).symm⟩

end Problems

section Check
variable {s : BtRbTree} {c : TreeCtx BtRbRecord} {t l r : PTree BtRbRecord}

theorem childHeight_ptr (h : Stored s.cells parent t) (hset : HeightSet nBlackHeight t) :
    childHeight s nBlackHeight t.ptr = some (spineHeight t) := by
  cases t with
  | nil => rfl
  | node p l x r =>
    rw [PTree.ptr, childHeight, h.1]
    simp only [Option.bind_eq_bind, Option.bind_some, hset p l x r rfl, spineHeight]

theorem checkNode_eq (h : s.At c (.node p l x r)) (hl : HeightSet nBlackHeight l)
    (hr : HeightSet nBlackHeight r) :
    checkNode s nBlackHeight p =
      some ((if !x.isBlack && (!l.isBlack BtRbRecord.isBlack || !r.isBlack BtRbRecord.isBlack) then
        [.redNode p] else []) ++ (if spineHeight l ≠ spineHeight r then [.blackHeights p] else []),
        Function.update nBlackHeight p (spineHeight l)) := by
  obtain ⟨hcell, hsl, hsr⟩ := h.stored
  simp only [checkNode, hcell, Option.bind_eq_bind, Option.bind_some, isRed_ptr hsl, isRed_ptr hsr,
    childHeight_ptr hsl hl, childHeight_ptr hsr hr]

theorem checkLoop_into (d : Side) (h : s.At c (.join d p x t u)) (nBlackHeight : Nat → Int)
    (msg : List TreeProblem) (fuel : Nat) :
    checkLoop s (fuel + 1) (some p) (stepInto d) nBlackHeight msg =
      match t.ptr with
      | some q => checkLoop s fuel (some q) .parent nBlackHeight msg
      | none => checkLoop s fuel (some p) (stepOut d) nBlackHeight msg := by
  cases d with
  | left =>
    rw [stepInto, checkLoop, h.get]
    rfl
  | right =>
    rw [stepInto, checkLoop, h.get]
    rfl

theorem checkLoop_back (h : s.At c (.node p l x r))
    (hrun : checkNode s nBlackHeight p = some (problems, nBlackHeight')) (msg : List TreeProblem)
    (fuel : Nat) :
    checkLoop s (fuel + 1) (some p) .right nBlackHeight msg =
      checkLoop s fuel c.parent (stepBack c) nBlackHeight' (msg ++ problems) := by
  rw [checkLoop, h.stored.1]
  simp only [Option.bind_eq_bind, Option.bind_some, hrun]
  cases c with
  | top => rfl
  | node d c q y u =>
    have hup := (TreeHeap.at_down.mpr h).get
    simp only [TreeCtx.parent, hup, Option.bind_some, stepBack]
    cases d with
    | left => exact congrArg (checkLoop s fuel (some q) · _ _) (if_pos rfl)
    | right =>
      have hne : u.ptr ≠ some p := by
        intro hu
        have hpu := PTree.mem_addrs_of_ptr hu
        have hn := h.nodup
        rw [PTree.addrs, TreeCtx.addrs, List.cons_append, List.nodup_cons] at hn
        exact hn.1 (List.mem_append_right _ (List.mem_cons_of_mem _ (List.mem_append_left _ hpu)))
      exact congrArg (checkLoop s fuel (some q) · _ _) (if_neg hne)

/-- The loop is in the subtree `t` for three steps at each node, and then at the parent. -/
def WalksThrough (s : BtRbTree) (c : TreeCtx BtRbRecord) (t : PTree BtRbRecord) : Prop :=
  ∀ p, t.ptr = some p → ∀ nBlackHeight msg, ∃ nBlackHeight', Walked nBlackHeight nBlackHeight' t ∧
    ∀ fuel, checkLoop s (fuel + 3 * t.toList.length) (some p) .parent nBlackHeight msg =
      checkLoop s fuel c.parent (stepBack c) nBlackHeight' (msg ++ treeProblems t)

theorem checkLoop_child (d : Side) (h : s.At c (.join d p x t u))
    (ht : WalksThrough s (.node d c p x u) t) (nBlackHeight : Nat → Int) (msg : List TreeProblem) :
    ∃ nBlackHeight', Walked nBlackHeight nBlackHeight' t ∧
      ∀ fuel, checkLoop s (fuel + 3 * t.toList.length + 1) (some p) (stepInto d) nBlackHeight msg =
        checkLoop s fuel (some p) (stepOut d) nBlackHeight' (msg ++ treeProblems t) := by
  cases t with
  | nil =>
    refine ⟨nBlackHeight, ⟨fun _ _ _ _ he => (by cases he), fun _ _ => rfl⟩, fun fuel => ?_⟩
    rw [checkLoop_into d h, treeProblems, List.append_nil]
    rfl
  | node q l y r =>
    obtain ⟨nBlackHeight', hwalk, hrun⟩ := ht q rfl nBlackHeight msg
    refine ⟨nBlackHeight', hwalk, fun fuel => ?_⟩
    rw [checkLoop_into d h]
    exact hrun fuel

theorem checkLoop_subtree (h : s.At c t) : WalksThrough s c t := by
  induction t generalizing c with
  | nil =>
    intro p hp
    cases hp
  | node q l x r ihl ihr =>
    intro p hp nBlackHeight msg
    obtain rfl : q = p := Option.some.inj hp
    have hleft : s.At c (.join .left q x l r) := h
    have hright : s.At c (.join .right q x r l) := h
    obtain ⟨h₁, hwalk₁, hrun₁⟩ :=
      checkLoop_child .left hleft (ihl (TreeHeap.at_down.mp hleft)) nBlackHeight msg
    obtain ⟨h₂, hwalk₂, hrun₂⟩ :=
      checkLoop_child .right hright (ihr (TreeHeap.at_down.mp hright)) h₁ (msg ++ treeProblems l)
    have hn := h.nodup
    rw [PTree.addrs, List.cons_append, List.nodup_cons, List.append_assoc] at hn
    have hlr (p : Nat) (hp : p ∈ l.addrs) : p ∉ r.addrs := fun hpr =>
      (List.nodup_append.mp hn.2).2.2 p hp p (List.mem_append_left _ hpr) rfl
    have hset₁ : HeightSet h₂ l := by
      intro p l' y r' he
      rw [hwalk₂.keep p (hlr p (PTree.mem_addrs_of_ptr (by rw [he]; rfl))), hwalk₁.set p l' y r' he]
    refine ⟨Function.update h₂ q (spineHeight l), ⟨?_, ?_⟩, fun fuel => ?_⟩
    · intro p l' y r' he
      cases he
      exact Function.update_self _ _ _
    · intro p hp
      rw [PTree.addrs, List.mem_cons, List.mem_append, not_or, not_or] at hp
      rw [Function.update_of_ne hp.1, hwalk₂.keep p hp.2.2, hwalk₁.keep p hp.2.1]
    · have hfuel : fuel + 3 * (PTree.node q l x r).toList.length =
          (fuel + 1 + 3 * r.toList.length + 1) + 3 * l.toList.length + 1 := by
        rw [PTree.toList, List.length_append, List.length_cons]
        omega
      rw [hfuel, treeProblems, ← List.append_assoc msg (treeProblems l ++ treeProblems r),
        ← List.append_assoc msg (treeProblems l)]
      have hback := checkLoop_back h (checkNode_eq h hset₁ hwalk₂.set)
        (msg ++ treeProblems l ++ treeProblems r) fuel
      exact (hrun₁ _).trans ((hrun₂ _).trans hback)

theorem checkRedblackTree_eq (h : s.At .top t) (hfuel : 3 * t.toList.length < fuel)
    (nBlackHeight : Nat → Int) (msg : List TreeProblem) :
    checkRedblackTree fuel s nBlackHeight msg = some (msg ++ treeProblems t) := by
  obtain ⟨k, rfl⟩ : ∃ k, fuel = k + 1 + 3 * t.toList.length :=
    ⟨fuel - 1 - 3 * t.toList.length, by omega⟩
  rw [checkRedblackTree, h.head, TreeCtx.root]
  cases t with
  | nil => rw [treeProblems, List.append_nil]; rfl
  | node p l x r =>
    obtain ⟨_, -, hrun⟩ := checkLoop_subtree h p rfl nBlackHeight msg
    exact hrun (k + 1)

end Check

section Integrity
variable {tree : Rbtree} {tables : List Nat} {trees : Nat → PTree BtRbRecord}
  {fuel : BtRbTree → Nat}

/-- A table is linked: the parents and children of its nodes point to each other. -/
def LinkedTables (fuel : BtRbTree → Nat) (tree : Rbtree) (trees : Nat → PTree BtRbRecord)
    (tables : List Nat) : Prop :=
  ∀ n ∈ tables, ∃ s, tree.tblHash n = some s ∧ s.At .top (trees n) ∧
    3 * (trees n).toList.length < fuel s

theorem memRbtreeIntegrityCheck_eq (h : LinkedTables fuel tree trees tables)
    (nBlackHeight : Nat → Nat → Int) (msg : List TreeProblem) :
    memRbtreeIntegrityCheck fuel tree nBlackHeight tables msg =
      some (msg ++ tables.flatMap fun n => treeProblems (trees n)) := by
  induction tables generalizing msg with
  | nil => rw [memRbtreeIntegrityCheck, List.flatMap_nil, List.append_nil]
  | cons n tables ih =>
    obtain ⟨s, htable, hat, hfuel⟩ := h n List.mem_cons_self
    rw [memRbtreeIntegrityCheck, htable]
    simp only [Option.bind_eq_bind, Option.bind_some, checkRedblackTree_eq hat hfuel]
    rw [ih fun m hm => h m (List.mem_cons_of_mem _ hm), List.flatMap_cons, List.append_assoc]

/-- The check ends, and it reports nothing exactly when in each table no red node has a red child
and all paths have the same number of black nodes. -/
theorem memRbtreeIntegrityCheck_iff (h : LinkedTables fuel tree trees tables)
    (nBlackHeight : Nat → Nat → Int) :
    ∃ msg, memRbtreeIntegrityCheck fuel tree nBlackHeight tables [] = some msg ∧
      (msg = [] ↔ ∀ n ∈ tables, NoRedRed BtRbRecord.isBlack (trees n) ∧
        ∃ k, Balanced BtRbRecord.isBlack (trees n) k) := by
  refine ⟨_, memRbtreeIntegrityCheck_eq h nBlackHeight [], ?_⟩
  rw [List.nil_append, List.flatMap_eq_nil_iff]
  exact forall₂_congr fun n _ => treeProblems_eq_nil (trees n)

def redPair (left top : Blob) : BtRbTree :=
  ⟨fun p => if p = 1 then some ⟨⟨top, [], false⟩, none, some 2, none⟩
    else if p = 2 then some ⟨⟨left, [], false⟩, some 1, none, none⟩ else none, some 1⟩

/-- The tree of `redPair`. -/
def redPairTree (left top : Blob) : PTree BtRbRecord :=
  .node 1 (.node 2 .nil ⟨left, [], false⟩ .nil) ⟨top, [], false⟩ .nil

theorem memRbtreeIntegrityCheck_iff_redPair : ∃ msg,
    memRbtreeIntegrityCheck (fun _ => 7) (sqliteRbtreeOpen.setTable 2 (some (redPair [1] [2])))
      (fun _ _ => 0) [2] [] = some msg ∧
    (msg = [] ↔ ∀ n ∈ [2], NoRedRed BtRbRecord.isBlack (redPairTree [1] [2]) ∧
      ∃ k, Balanced BtRbRecord.isBlack (redPairTree [1] [2]) k) := by
  have hat : (redPair [1] [2]).At .top (redPairTree [1] [2]) :=
    ⟨⟨rfl, ⟨rfl, trivial, trivial⟩, trivial⟩, trivial, rfl, by decide⟩
  have hsize : 3 * (redPairTree [1] [2]).toList.length < 7 := by decide
  have hlinked : LinkedTables (fun _ => 7) (sqliteRbtreeOpen.setTable 2 (some (redPair [1] [2])))
      (fun _ => redPairTree [1] [2]) [2] := by
    intro n hn
    rw [List.mem_singleton.mp hn]
    exact ⟨redPair [1] [2], rfl, hat, hsize⟩
  exact memRbtreeIntegrityCheck_iff hlinked _

example : memRbtreeIntegrityCheck (fun _ => 7)
    (sqliteRbtreeOpen.setTable 2 (some (redPair [1] [2]))) (fun _ _ => 0) [2] [] =
      some [.redNode 1] := by decide

/-- In every run the check reports nothing. -/
theorem memRbtreeIntegrityCheck_silent (h : RbtRun M tree a)
    (htables : ∀ n ∈ tables, tree.tblHash n ≠ none) (nBlackHeight : Nat → Nat → Int) :
    memRbtreeIntegrityCheck M.fuel tree nBlackHeight tables [] = some [] := by
  induction tables with
  | nil => rfl
  | cons n tables ih =>
    have htab := h.refines.holds n
    cases hs : tree.tblHash n with
    | none => exact absurd hs (htables n List.mem_cons_self)
    | some s =>
      rw [hs] at htab
      generalize a.store n = T at htab
      cases htab with
      | some ht =>
        have hcheck := checkRedblackTree_eq ht.at_top (Nat.lt_of_lt_of_le (by omega)
          (M.fuel_enough s _ ht)) (nBlackHeight n) []
        rw [List.nil_append, (treeProblems_eq_nil _).mpr ⟨ht.noRedRed, ht.balanced⟩] at hcheck
        rw [memRbtreeIntegrityCheck, hs]
        simp only [Option.bind_eq_bind, Option.bind_some, hcheck]
        exact ih fun m hm => htables m (List.mem_cons_of_mem _ hm)

/-- The check after a record has been put into the first table. -/
theorem memRbtreeIntegrityCheck_silent_insert : ∃ tree₀ tree,
    memRbtreeBeginTrans sqliteRbtreeOpen = some (tree₀, 0) ∧
    rbtCall firstFree tree₀ (.insert 2 [1] [7]) = some tree ∧
    memRbtreeIntegrityCheck firstFree.fuel tree (fun _ _ => 0) [2] [] = some [] := by
  have h₀ := RbtRun.call (M := firstFree) .opened .beginTrans trivial rfl
  have hlegal : LegalCall { sqliteRbtreeOpen with eTransState := .inTransaction }
      (.insert 2 [1] [7]) := ⟨by decide, Option.some_ne_none _⟩
  obtain ⟨tree, hcall, h⟩ := rbtCall_refines firstFree h₀.refines _ hlegal
  refine ⟨_, tree, rfl, hcall,
    memRbtreeIntegrityCheck_silent (h₀.call _ hlegal hcall) (fun n hn hnone => ?_) _⟩
  rw [List.mem_singleton.mp hn] at hnone
  have htab := h.holds 2
  rw [hnone] at htab
  generalize hT : SnapshotStore.store _ 2 = T at htab
  cases htab
  cases hT

end Integrity

end Pkgtools
