import Pkgtools.RbtreeInsert

namespace Pkgtools
open CLib
set_option autoImplicit true

/-- `if( p ) p->isBlack = 1;` -/
def BtRbTree.blacken (t : BtRbTree) : Option Nat → Option BtRbTree
  | none => some t
  | some p => t.setBlack p true

/-- The branch of `do_delete_balancing` for a red sibling of a left child, or of a right one. It
returns the new sibling too. -/
def deleteRedSibling (d : Side) (t : BtRbTree) (pParent pSib : Nat) :
    Option (BtRbTree × Option Nat) := do
  let t ← t.setBlack pSib true
  let t ← t.setBlack pParent false
  let t ← sideRotate d t pParent
  some (t, (← t.cells pParent).child d.other)

/-- The branch for a sibling whose outer child is black: its red child takes its place. -/
def deleteInnerChild (d : Side) (t : BtRbTree) (pParent pSib : Nat) : Option (BtRbTree × Nat) := do
  let t ← t.blacken ((← t.cells pSib).child d)
  let t ← t.setBlack pSib false
  let t ← sideRotate d.other t pSib
  some (t, ← (← t.cells pParent).child d.other)

/-- The last branch, for a sibling whose outer child is red. -/
def deleteOuterChild (d : Side) (t : BtRbTree) (pParent pSib : Nat) :
    Option (BtRbTree × Option Nat) := do
  let t ← t.setBlack pSib (← t.cells pParent).info.isBlack
  let t ← t.setBlack pParent true
  let t ← t.blacken ((← t.cells pSib).child d.other)
  let t ← sideRotate d t pParent
  some (t, t.head)

/-- The body of the loop of `do_delete_balancing` behind the branch for a red sibling. It returns
the new `pX`. -/
def deleteBlackSibling (d : Side) (t : BtRbTree) (pParent : Nat) (pSib : Option Nat) :
    Option (BtRbTree × Option Nat) := do
  match pSib with
  | none => some (t, some pParent)
  | some pSib =>
    let sib ← t.cells pSib
    let inner ← t.isRed (sib.child d)
    let outer ← t.isRed (sib.child d.other)
    if !inner && !outer then
      some (← t.setBlack pSib false, some pParent)
    else if !outer then
      let (t, pSib) ← deleteInnerChild d t pParent pSib
      deleteOuterChild d t pParent pSib
    else deleteOuterChild d t pParent pSib

/-- The body of the loop, for a left child or for a right one. -/
def deleteSibling (d : Side) (t : BtRbTree) (pParent : Nat) : Option (BtRbTree × Option Nat) := do
  let pSib := (← t.cells pParent).child d.other
  if ← t.isRed pSib then
    let (t, pSib) ← deleteRedSibling d t pParent (← pSib)
    deleteBlackSibling d t pParent pSib
  else deleteBlackSibling d t pParent pSib

def doDeleteBalancing : Nat → BtRbTree → Option Nat → Option Nat → Option BtRbTree
  | 0, _, _, _ => none
  | fuel + 1, t, pX, pParent => do
    if pX = t.head || (← t.isRed pX) then t.blacken pX
    else
      let pParent ← pParent
      let d := childSide (← t.cells pParent) pX
      let (t, pX) ← deleteSibling d t pParent
      doDeleteBalancing fuel t pX (← t.cells (← pX)).parent

/-- The end of `memRbtreeDelete`, which splices out the node `pZ` and frees it. -/
def spliceOut (fuel : Nat) (t : BtRbTree) (pZ : Nat) : Option BtRbTree := do
  let z ← t.cells pZ
  -- assert( !pZ->pLeft || !pZ->pRight );
  guard (z.left = none ∨ z.right = none)
  let pChild := z.left.or z.right
  let t ← match z.parent with
    | some p => do
      let parent ← t.cells p
      -- assert( pZ == pZ->pParent->pLeft || pZ == pZ->pParent->pRight );
      guard (parent.left = some pZ ∨ parent.right = some pZ)
      t.hang (some p) pZ pChild
    | none => some { t with head := pChild }
  let t ← t.adopt pChild z.parent
  let t ← if z.info.isBlack then doDeleteBalancing fuel t pChild z.parent else some t
  some (t.put pZ none)

/-- The branch of `memRbtreeDelete` for a node `pZ` that does not have two children: where the
cursor goes. -/
def leaveNode (fuel : Nat) (t : BtRbTree) (pZ : Nat) : Option RbtCursor := do
  let (pCur, res) ← memRbtreeNext fuel t ⟨some pZ, .none⟩
  let pCur := { pCur with eSkip := .next }
  if res = 0 then some pCur
  else
    let (pCur, _) ← memRbtreeLast fuel t pCur
    let (pCur, _) ← memRbtreePrevious fuel t pCur
    some { pCur with eSkip := .prev }

/-- The branch for a node `pZ` with two children, which gets the key and the data of the next one.
It returns the next one. -/
def takeNext (fuel : Nat) (t : BtRbTree) (pZ : Nat) : Option (BtRbTree × Nat) := do
  let (pCur, dummy) ← memRbtreeNext fuel t ⟨some pZ, .none⟩
  -- assert( dummy == 0 );
  guard (dummy = 0)
  let pNext ← pCur.pNode
  let next ← t.cells pNext
  let t ← t.modify pZ fun n =>
    { n with info := { n.info with key := next.info.key, data := next.info.data } }
  some (t, pNext)

/-- `memRbtreeDelete` behind the rollback operation, for a cursor at the node `pZ`. -/
def deleteNode (fuel : Nat) (t : BtRbTree) (pZ : Nat) : Option (BtRbTree × RbtCursor) := do
  let z ← t.cells pZ
  if z.left.isSome && z.right.isSome then
    let (t, pNext) ← takeNext fuel t pZ
    some (← spliceOut fuel t pNext, ⟨some pZ, .next⟩)
  else
    let pCur ← leaveNode fuel t pZ
    some (← spliceOut fuel t pZ, pCur)

section Balance
variable {s s' : BtRbTree} {c : TreeCtx BtRbRecord} {t u a b : PTree BtRbRecord} {d : Side}
  {p q pX : Nat} {x y : BtRbRecord}

/-- What the balancing is to give: a red-black tree with the nodes `l`. -/
def Repaired (s : BtRbTree) (l : List (Nat × Blob × Blob)) : Prop :=
  ∃ t, s.At .top t ∧ NoRedRed BtRbRecord.isBlack t ∧ (∃ n, Balanced BtRbRecord.isBlack t n) ∧
    t.isBlack BtRbRecord.isBlack = true ∧ treeNodes t = l

/-- The tree is a red-black tree but for a subtree with one black node too few on each path, and a
root that may be red. -/
structure DoubleBlack (c : TreeCtx BtRbRecord) (t : PTree BtRbRecord) (m n : Nat) : Prop where
  below : NoRedRedBelow BtRbRecord.isBlack t
  balanced : Balanced BtRbRecord.isBlack t m
  ctxRed : NoRedRedCtx BtRbRecord.isBlack c true
  ctxBalanced : BalancedCtx BtRbRecord.isBlack c (m + 1) n
  rootBlack : RootBlack BtRbRecord.isBlack c

theorem doDeleteBalancing_root (fuel : Nat) (h : s.At .top t)
    (hbelow : NoRedRedBelow BtRbRecord.isBlack t) (hbal : ∃ n, Balanced BtRbRecord.isBlack t n)
    (pParent : Option Nat) :
    ∃ s', doDeleteBalancing (fuel + 1) s s.head pParent = some s' ∧ Repaired s' (treeNodes t) := by
  have hhead : s.head = t.ptr := h.head
  have hred := isRed_ptr h.stored
  rw [← hhead] at hred
  rw [doDeleteBalancing, hred]
  simp only [decide_true, Bool.true_or, if_true, Option.bind_eq_bind, Option.bind_some]
  cases t with
  | nil =>
    rw [hhead]
    exact ⟨s, rfl, .nil, h, trivial, ⟨0, rfl⟩, rfl, rfl⟩
  | node q l x r =>
    obtain ⟨s', hrun, h'⟩ := at_setBlack (d := .left) h true
    obtain ⟨_, m, hl, hr, -⟩ := hbal
    rw [hhead]
    exact ⟨s', hrun, _, h', ⟨fun hx => absurd hx (by simp), hbelow⟩, ⟨m + 1, m, hl, hr, rfl⟩, rfl,
      by simp [treeNodes, nodeOf, PTree.join, PTree.toList]⟩

theorem doDeleteBalancing_red (fuel : Nat) (h : s.At c t) (hv : DoubleBlack c t m n)
    (hred : t.isBlack BtRbRecord.isBlack = false) :
    ∃ s', doDeleteBalancing (fuel + 1) s t.ptr c.parent = some s' ∧
      Repaired s' (treeNodes (c.fill t)) := by
  obtain ⟨q, x, a, b, rfl, hx⟩ := exists_join_of_red .left hred
  obtain ⟨s', hrun, h'⟩ := at_setBlack h true
  obtain ⟨k, ha, hb, hk⟩ := balanced_join.mp hv.balanced
  rw [hx, Bool.toNat_false, Nat.add_zero] at hk
  subst hk
  have hnew : NoRedRed BtRbRecord.isBlack (.join .left q { x with isBlack := true } a b) :=
    noRedRed_join.mpr ⟨fun hx => absurd hx (by simp), noRedRedBelow_join.mp hv.below⟩
  refine ⟨s', ?_, _, h'.whole, noRedRed_fill.mpr ⟨hnew, hv.ctxRed⟩, ⟨n, balanced_fill.mpr
    ⟨m + 1, balanced_join.mpr ⟨m, ha, hb, rfl⟩, hv.ctxBalanced⟩⟩, ?_, treeNodes_fill ?_⟩
  · rw [doDeleteBalancing, isRed_ptr h.stored, hred]
    simp only [Bool.not_false, Bool.or_true, if_true, Option.bind_eq_bind, Option.bind_some,
      PTree.ptr_join, BtRbTree.blacken, hrun]
  · have hroot := hv.rootBlack
    cases c with
    | top => rfl
    | node d c p y u => exact rootBlack_iff.mp hroot
  · simp [treeNodes, nodeOf, PTree.join, PTree.toList]

/-- A red sibling becomes the parent of the parent, and an inner child the new sibling. -/
theorem deleteRedSibling_spec (h : s.At (.node d c p x (.join d q y a b)) t) :
    ∃ s', deleteRedSibling d s p q = some (s', a.ptr) ∧
      s'.At (.node d (.node d c q { y with isBlack := true } b) p { x with isBlack := false } a)
        t := by
  have hp := TreeHeap.at_down.mpr h
  rw [← PTree.join_other] at hp
  obtain ⟨s₁, hrun₁, h₁⟩ := at_setBlack (TreeHeap.at_down.mp hp) true
  have hp₁ := TreeHeap.at_down.mpr h₁
  rw [PTree.join_other] at hp₁
  obtain ⟨s₂, hrun₂, h₂⟩ := at_setBlack hp₁ false
  obtain ⟨s₃, hrun₃, h₃⟩ := h₂.rotate
  have hcell := (TreeHeap.at_down.mp h₃).get
  refine ⟨s₃, ?_, TreeHeap.at_down.mp (TreeHeap.at_down.mp h₃)⟩
  simp only [deleteRedSibling, Option.bind_eq_bind, hrun₁, hrun₂, sideRotate_eq, hrun₃, hcell,
    Option.bind_some, TreeCell.of_child_other]

theorem doubleBlack_redSibling (hv : DoubleBlack (.node d c p x (.join d q y a b)) t m n)
    (hy : y.isBlack = false) :
    DoubleBlack (.node d (.node d c q { y with isBlack := true } b) p { x with isBlack := false } a)
      t m n ∧ a.isBlack BtRbRecord.isBlack = true := by
  obtain ⟨hbelow, hbal, ⟨hx, hu, hc⟩, ⟨hub, hcb⟩, hroot⟩ := hv
  obtain ⟨hchildren, ha, hb⟩ := noRedRed_join.mp hu
  obtain ⟨hablack, hbblack⟩ := hchildren hy
  have hxb : x.isBlack = true := by
    cases hx' : x.isBlack with
    | true => rfl
    | false => rw [isBlack_join] at hx; exact absurd (hx hx').2 (by simp [hy])
  obtain ⟨k, hka, hkb, hk⟩ := balanced_join.mp hub
  rw [hy, Bool.toNat_false, Nat.add_zero] at hk
  subst hk
  rw [hxb] at hc hcb
  exact ⟨⟨hbelow, hbal, ⟨fun _ => ⟨rfl, hablack⟩, ha, fun hy => absurd hy (by simp), hb, hc⟩,
    ⟨hka, hkb, hcb⟩, hroot.tail.cons rfl⟩, hablack⟩

/-- The red outer child and the sibling move up. -/
theorem deleteOuterChild_spec
    (h : s.At (.node d c p x (.join d q y a (.join d r z b e))) t) :
    ∃ s', deleteOuterChild d s p q = some (s', s'.head) ∧
      s'.At c (.join d q { y with isBlack := x.isBlack } (.join d p { x with isBlack := true } t a)
        (.join d r { z with isBlack := true } b e)) := by
  have hp := TreeHeap.at_down.mpr h
  have hcell := hp.get
  rw [← PTree.join_other] at hp
  obtain ⟨s₁, hrun₁, h₁⟩ := at_setBlack (TreeHeap.at_down.mp hp) x.isBlack
  have hp₁ := TreeHeap.at_down.mpr h₁
  rw [PTree.join_other] at hp₁
  obtain ⟨s₂, hrun₂, h₂⟩ := at_setBlack hp₁ true
  rw [← PTree.join_other] at h₂
  have hsib := TreeHeap.at_down.mp h₂
  have hcell₂ := hsib.get
  rw [← PTree.join_other] at hsib
  obtain ⟨s₃, hrun₃, h₃⟩ := at_setBlack (TreeHeap.at_down.mp hsib) true
  have hp₃ := TreeHeap.at_down.mpr h₃
  rw [PTree.join_other] at hp₃
  have hp₃ := TreeHeap.at_down.mpr hp₃
  rw [PTree.join_other] at hp₃
  obtain ⟨s₄, hrun₄, h₄⟩ := hp₃.rotate
  refine ⟨s₄, ?_, h₄⟩
  simp only [deleteOuterChild, Option.bind_eq_bind, hcell, TreeCell.of_info, hrun₁, hrun₂, hcell₂,
    TreeCell.of_child_other, PTree.ptr_join, BtRbTree.blacken, hrun₃, sideRotate_eq, hrun₄,
    Option.bind_some]

/-- The red inner child takes the place of the sibling, which becomes its outer child. -/
theorem deleteInnerChild_spec
    (h : s.At (.node d c p x (.join d q y (.join d r z a b) e)) t) :
    ∃ s', deleteInnerChild d s p q = some (s', r) ∧
      s'.At (.node d c p x (.join d r { z with isBlack := true } a
        (.join d q { y with isBlack := false } b e))) t := by
  have hp := TreeHeap.at_down.mpr h
  rw [← PTree.join_other] at hp
  have hsib := TreeHeap.at_down.mp hp
  have hcell := hsib.get
  obtain ⟨s₁, hrun₁, h₁⟩ := at_setBlack (TreeHeap.at_down.mp hsib) true
  obtain ⟨s₂, hrun₂, h₂⟩ := at_setBlack (TreeHeap.at_down.mpr h₁) false
  obtain ⟨s₃, hrun₃, h₃⟩ := h₂.rotate_other
  have hp₃ := TreeHeap.at_down.mpr h₃
  rw [PTree.join_other] at hp₃
  refine ⟨s₃, ?_, TreeHeap.at_down.mp hp₃⟩
  simp only [deleteInnerChild, Option.bind_eq_bind, hcell, TreeCell.of_child, PTree.ptr_join,
    BtRbTree.blacken, hrun₁, hrun₂, sideRotate_eq, hrun₃, hp₃.get, TreeCell.of_child_other,
    Option.bind_some]

theorem doubleBlack_innerChild
    (hv : DoubleBlack (.node d c p x (.join d q y (.join d r z a b) e)) t m n)
    (hy : y.isBlack = true) (hz : z.isBlack = false) (he : e.isBlack BtRbRecord.isBlack = true) :
    DoubleBlack (.node d c p x (.join d r { z with isBlack := true } a
      (.join d q { y with isBlack := false } b e))) t m n := by
  obtain ⟨hbelow, hbal, ⟨hx, hu, hc⟩, ⟨hub, hcb⟩, hroot⟩ := hv
  obtain ⟨-, hr, hen⟩ := noRedRed_join.mp hu
  obtain ⟨hchildren, ha, hb⟩ := noRedRed_join.mp hr
  obtain ⟨hab, hbb⟩ := hchildren hz
  obtain ⟨k, hkr, hke, hk⟩ := balanced_join.mp hub
  rw [hy, Bool.toNat_true, Nat.add_right_cancel_iff] at hk
  subst hk
  obtain ⟨k, hka, hkb, hk⟩ := balanced_join.mp hkr
  rw [hz, Bool.toNat_false, Nat.add_zero] at hk
  subst hk
  refine ⟨hbelow, hbal, ⟨fun hx' => ⟨rfl, isBlack_join⟩, ?_, hc⟩, ⟨?_, hcb⟩, ?_⟩
  · exact noRedRed_join.mpr ⟨fun hz => absurd hz (by simp), ha,
      noRedRed_join.mpr ⟨fun _ => ⟨hbb, he⟩, hb, hen⟩⟩
  · exact balanced_join.mpr ⟨m, hka, balanced_join.mpr ⟨m, hkb, hke, rfl⟩, rfl⟩
  · cases c with
    | top => exact hroot
    | node d c p x u => exact hroot

theorem doubleBlack_outerChild
    (hv : DoubleBlack (.node d c p x (.join d q y a (.join d r z b e))) t m n)
    (ht : t.isBlack BtRbRecord.isBlack = true) (hy : y.isBlack = true) (hz : z.isBlack = false) :
    NoRedRed BtRbRecord.isBlack (c.fill (.join d q { y with isBlack := x.isBlack }
      (.join d p { x with isBlack := true } t a) (.join d r { z with isBlack := true } b e))) ∧
    Balanced BtRbRecord.isBlack (c.fill (.join d q { y with isBlack := x.isBlack }
      (.join d p { x with isBlack := true } t a) (.join d r { z with isBlack := true } b e)))
        n := by
  obtain ⟨hbelow, hbal, ⟨hx, hu, hc⟩, ⟨hub, hcb⟩, hroot⟩ := hv
  obtain ⟨-, ha, hr⟩ := noRedRed_join.mp hu
  obtain ⟨-, hb, he⟩ := noRedRed_join.mp hr
  obtain ⟨k, hka, hkr, hk⟩ := balanced_join.mp hub
  rw [hy, Bool.toNat_true, Nat.add_right_cancel_iff] at hk
  subst hk
  obtain ⟨k, hkb, hke, hk⟩ := balanced_join.mp hkr
  rw [hz, Bool.toNat_false, Nat.add_zero] at hk
  subst hk
  constructor
  · refine noRedRed_fill.mpr ⟨noRedRed_join.mpr ⟨fun _ => ⟨isBlack_join, isBlack_join⟩, ?_, ?_⟩, ?_⟩
    · exact noRedRed_join.mpr ⟨fun hx => absurd hx (by simp), hbelow.of_black ht, ha⟩
    · exact noRedRed_join.mpr ⟨fun hz => absurd hz (by simp), hb, he⟩
    · rw [isBlack_join]
      exact hc
  · exact balanced_fill.mpr ⟨_, balanced_join.mpr ⟨m + 1, balanced_join.mpr ⟨m, hbal, hka, rfl⟩,
      balanced_join.mpr ⟨m, hkb, hke, rfl⟩, rfl⟩, hcb⟩

/-- The tree is whole again, but for a root that may be red. -/
def Balancing (s : BtRbTree) (l : List (Nat × Blob × Blob)) : Prop :=
  ∃ t, s.At .top t ∧ t ≠ .nil ∧ NoRedRed BtRbRecord.isBlack t ∧
    (∃ n, Balanced BtRbRecord.isBlack t n) ∧ treeNodes t = l

theorem fill_ne_nil (c : TreeCtx BtRbRecord) (d : Side) : c.fill (.join d p x t u) ≠ .nil := by
  induction c generalizing d p x t u with
  | top => cases d <;> simp [TreeCtx.fill, PTree.join]
  | node d' c q y v ih => exact ih d'

/-- What the loop does for a black sibling: the violation goes up to the parent, or ends. -/
theorem deleteBlackSibling_spec (h : s.At (.node d c p x u) t)
    (hv : DoubleBlack (.node d c p x u) t m n) (ht : t.isBlack BtRbRecord.isBlack = true)
    (hu : u.isBlack BtRbRecord.isBlack = true) :
    (∃ s' t' k, deleteBlackSibling d s p u.ptr = some (s', some p) ∧ t'.ptr = some p ∧ s'.At c t' ∧
      DoubleBlack c t' k n ∧ t'.isBlack BtRbRecord.isBlack = x.isBlack ∧
      treeNodes t' = treeNodes (.join d p x t u)) ∨
    ∃ s', deleteBlackSibling d s p u.ptr = some (s', s'.head) ∧
      Balancing s' (treeNodes (c.fill (.join d p x t u))) := by
  cases u with
  | nil => exact absurd hv.ctxBalanced.1 (Nat.succ_ne_zero m)
  | node q l y r =>
    obtain ⟨z, a, b, hq⟩ := PTree.exists_join d (show (PTree.node q l y r).ptr = some q from rfl)
    obtain rfl : y = z := by cases d <;> cases hq <;> rfl
    rw [hq] at h hv hu ⊢
    rw [isBlack_join] at hu
    have hsib := TreeHeap.at_down.mpr h
    rw [← PTree.join_other] at hsib
    have hsib := TreeHeap.at_down.mp hsib
    have hcell := hsib.get
    obtain ⟨-, ha, hb⟩ := stored_join.mp hsib.stored
    have hstart : deleteBlackSibling d s p (PTree.join d q y a b).ptr =
        if a.isBlack BtRbRecord.isBlack && b.isBlack BtRbRecord.isBlack then
          (s.setBlack q false).map fun t => (t, some p)
        else if b.isBlack BtRbRecord.isBlack then
          (deleteInnerChild d s p q).bind fun r => deleteOuterChild d r.1 p r.2
        else deleteOuterChild d s p q := by
      simp only [deleteBlackSibling, PTree.ptr_join, hcell, Option.bind_eq_bind, Option.bind_some,
        TreeCell.of_child, TreeCell.of_child_other, isRed_ptr ha, isRed_ptr hb, Bool.not_not]
      congr 1
      cases s.setBlack q false <;> rfl
    have houter {s₁ : BtRbTree} {q r : Nat} {y z : BtRbRecord} {a b e : PTree BtRbRecord}
        (h₁ : s₁.At (.node d c p x (.join d q y a (.join d r z b e))) t)
        (hv₁ : DoubleBlack (.node d c p x (.join d q y a (.join d r z b e))) t m n)
        (hy : y.isBlack = true) (hz : z.isBlack = false) :
        ∃ s', deleteOuterChild d s₁ p q = some (s', s'.head) ∧
          Balancing s' (treeNodes (c.fill (.join d p x t (.join d q y a (.join d r z b e))))) := by
      obtain ⟨s', hrun, h'⟩ := deleteOuterChild_spec h₁
      obtain ⟨hnr, hbal⟩ := doubleBlack_outerChild hv₁ ht hy hz
      refine ⟨s', hrun, _, h'.whole, fill_ne_nil c d, hnr, ⟨n, hbal⟩, treeNodes_fill ?_⟩
      cases d <;> simp [treeNodes, nodeOf, PTree.join, PTree.toList]
    cases hbb : b.isBlack BtRbRecord.isBlack with
    | false =>
      obtain ⟨r, z, b₁, b₂, rfl, hz⟩ := exists_join_of_red d hbb
      obtain ⟨s', hrun, hres⟩ := houter h hv hu hz
      refine .inr ⟨s', ?_, hres⟩
      rw [hstart, hbb, Bool.and_false, if_neg (by decide), if_neg (by decide), hrun]
    | true =>
      cases hab : a.isBlack BtRbRecord.isBlack with
      | false =>
        obtain ⟨r, z, a₁, a₂, rfl, hz⟩ := exists_join_of_red d hab
        obtain ⟨s₁, hrun₁, h₁⟩ := deleteInnerChild_spec h
        have hv₁ := doubleBlack_innerChild hv hu hz hbb
        obtain ⟨s', hrun, hres⟩ := houter h₁ hv₁ rfl rfl
        refine .inr ⟨s', ?_, ?_⟩
        · rw [hstart, hab, hbb, Bool.false_and, if_neg (by decide), if_pos rfl, hrun₁,
            Option.bind_some, hrun]
        · have hnodes : treeNodes (c.fill (.join d p x t (.join d r { z with isBlack := true } a₁
              (.join d q { y with isBlack := false } a₂ b)))) =
              treeNodes (c.fill (.join d p x t (.join d q y (.join d r z a₁ a₂) b))) := by
            refine treeNodes_fill ?_
            cases d <;> simp [treeNodes, nodeOf, PTree.join, PTree.toList]
          rwa [hnodes] at hres
      | true =>
        obtain ⟨hbelow, hbal, ⟨hx, hun, hc⟩, ⟨hub, hcb⟩, hroot⟩ := hv
        obtain ⟨-, han, hbn⟩ := noRedRed_join.mp hun
        obtain ⟨k, hka, hkb, hk⟩ := balanced_join.mp hub
        rw [hu, Bool.toNat_true, Nat.add_right_cancel_iff] at hk
        subst hk
        obtain ⟨s', hrun, h'⟩ := at_setBlack hsib false
        have hp := TreeHeap.at_down.mpr h'
        rw [PTree.join_other] at hp
        refine .inl ⟨s', .join d p x t (.join d q { y with isBlack := false } a b),
          m + x.isBlack.toNat, ?_, PTree.ptr_join _ _ _ _ _, hp, ⟨?_, ?_, ?_, ?_, hroot.tail⟩,
          isBlack_join, ?_⟩
        · rw [hstart, hab, hbb, Bool.true_and, if_pos rfl, hrun]
          rfl
        · exact noRedRedBelow_join.mpr ⟨hbelow.of_black ht,
            noRedRed_join.mpr ⟨fun _ => ⟨hab, hbb⟩, han, hbn⟩⟩
        · exact balanced_join.mpr ⟨m, hbal, balanced_join.mpr ⟨m, hka, hkb, rfl⟩, rfl⟩
        · exact hc.mono fun _ => rfl
        · rwa [Nat.add_right_comm] at hcb
        · cases d <;> simp [treeNodes, nodeOf, PTree.join, PTree.toList]

theorem head_ne_ptr (h : s.At (.node d c p x u) t) : t.ptr ≠ s.head := by
  cases ht : t.ptr with
  | none =>
    have hhead := (TreeHeap.at_down.mpr h).head
    rw [TreeCtx.root_ptr] at hhead
    intro hnone
    rw [hhead] at hnone
    cases hfill : c.fill (.join d p x t u) with
    | nil => exact fill_ne_nil c d hfill
    | node q l y r =>
      rw [hfill] at hnone
      cases hnone
  | some q => exact (at_head_ne h ht).symm

theorem sibling_ne_ptr (h : s.At (.node d c p x u) t) (hu : u.ptr ≠ none) : u.ptr ≠ t.ptr := by
  cases ht : t.ptr with
  | none => exact hu
  | some q => exact at_sibling_ne h ht

theorem parent_of_at (h : s.At c t) (hp : t.ptr = some p) :
    ∃ n, s.cells p = some n ∧ n.parent = c.parent := by
  obtain ⟨x, a, b, rfl⟩ := PTree.exists_join .left hp
  exact ⟨_, h.get, TreeCell.of_parent _ _ _ _ _⟩

theorem doDeleteBalancing_at (h : s.At c t) (hp : t.ptr = some p) (fuel : Nat) :
    (((some p).bind fun q => s.cells q).bind fun n => doDeleteBalancing fuel s (some p) n.parent) =
      doDeleteBalancing fuel s t.ptr c.parent := by
  obtain ⟨n, hn, hparent⟩ := parent_of_at h hp
  rw [Option.bind_some, hn, Option.bind_some, hparent, hp]

theorem doDeleteBalancing_end (fuel : Nat) (h : Balancing s l) :
    ∃ s', ((s.head.bind fun p => s.cells p).bind fun n =>
      doDeleteBalancing (fuel + 1) s s.head n.parent) = some s' ∧ Repaired s' l := by
  obtain ⟨t, hat, hne, hnr, hbal, rfl⟩ := h
  obtain ⟨s', hrun, hres⟩ := doDeleteBalancing_root fuel hat hnr.below hbal none
  have hhead : s.head = t.ptr := hat.head
  cases ht : t.ptr with
  | none =>
    cases t with
    | nil => exact absurd rfl hne
    | node q l x r => cases ht
  | some q =>
    refine ⟨s', ?_, hres⟩
    rw [hhead] at hrun ⊢
    rw [← hrun]
    nth_rewrite 1 2 [ht]
    exact doDeleteBalancing_at hat ht (fuel + 1)

/-- The balancing gives a red-black tree with the same nodes. -/
theorem doDeleteBalancing_spec (fuel : Nat) (hfuel : c.depth + 1 < fuel) (h : s.At c t)
    (hv : DoubleBlack c t m n) :
    ∃ s', doDeleteBalancing fuel s t.ptr c.parent = some s' ∧
      Repaired s' (treeNodes (c.fill t)) := by
  induction fuel generalizing s c t m with
  | zero => omega
  | succ fuel ih =>
    obtain ⟨fuel, rfl⟩ : ∃ k, fuel = k + 1 := ⟨fuel - 1, by omega⟩
    cases c with
    | top =>
      obtain ⟨s', hrun, hres⟩ := doDeleteBalancing_root (fuel + 1) h hv.below ⟨m, hv.balanced⟩ none
      rw [show s.head = t.ptr from h.head] at hrun
      exact ⟨s', hrun, hres⟩
    | node d c p x u =>
      cases ht : t.isBlack BtRbRecord.isBlack with
      | false => exact doDeleteBalancing_red (fuel + 1) h hv ht
      | true =>
        have hune : u.ptr ≠ none := by
          cases u with
          | nil => exact absurd hv.ctxBalanced.1 (Nat.succ_ne_zero m)
          | node q l y r => exact Option.some_ne_none q
        have hcell := (TreeHeap.at_down.mpr h).get
        have hstored : Stored s.cells (some p) u := h.ctx.2.1
        have hstep : doDeleteBalancing (fuel + 2) s t.ptr (some p) = (deleteSibling d s p).bind
            fun r => (r.2.bind fun q => r.1.cells q).bind fun n =>
              doDeleteBalancing (fuel + 1) r.1 r.2 n.parent := by
          rw [doDeleteBalancing, isRed_ptr h.stored, ht]
          simp only [head_ne_ptr h, decide_false, Bool.not_true, Bool.or_self, Bool.false_eq_true,
            if_false, Option.bind_eq_bind, Option.bind_some, hcell,
            childSide_of (sibling_ne_ptr h hune)]
          congr 1
          funext r
          cases r.2 <;> rfl
        rw [TreeCtx.parent, hstep]
        rw [TreeCtx.depth] at hfuel
        cases hub : u.isBlack BtRbRecord.isBlack with
        | false =>
          obtain ⟨q, y, a, b, rfl, hy⟩ := exists_join_of_red d hub
          obtain ⟨s₁, hrun₁, h₁⟩ := deleteRedSibling_spec h
          obtain ⟨hv₁, hab⟩ := doubleBlack_redSibling hv hy
          have hsib : deleteSibling d s p = deleteBlackSibling d s₁ p a.ptr := by
            have hred := isRed_ptr hstored
            rw [hub, PTree.ptr_join] at hred
            simp only [deleteSibling, hcell, Option.bind_eq_bind, Option.bind_some,
              TreeCell.of_child_other, PTree.ptr_join, hred, Bool.not_false, if_true, hrun₁]
          have hnodes : treeNodes ((TreeCtx.node d c q { y with isBlack := true } b).fill
              (.join d p { x with isBlack := false } t a)) =
              treeNodes (c.fill (.join d p x t (.join d q y a b))) := by
            refine treeNodes_fill (c := c) ?_
            cases d <;> simp [treeNodes, nodeOf, PTree.join, PTree.toList]
          rw [hsib, TreeCtx.fill, ← hnodes]
          rcases deleteBlackSibling_spec h₁ hv₁ ht hab with
            ⟨s₂, t', k, hrun₂, hp, h₂, hv₂, hred, hlist⟩ | ⟨s₂, hrun₂, hres⟩
          · obtain ⟨s', hrun, hres⟩ := doDeleteBalancing_red fuel h₂ hv₂ hred
            refine ⟨s', ?_, treeNodes_fill hlist ▸ hres⟩
            rw [hrun₂, Option.bind_some, doDeleteBalancing_at h₂ hp, hrun]
          · obtain ⟨s', hrun, hres⟩ := doDeleteBalancing_end fuel hres
            exact ⟨s', by rw [hrun₂, Option.bind_some, hrun], hres⟩
        | true =>
          have hsib : deleteSibling d s p = deleteBlackSibling d s p u.ptr := by
            simp only [deleteSibling, hcell, Option.bind_eq_bind, Option.bind_some,
              TreeCell.of_child_other, isRed_ptr hstored, hub, Bool.not_true, Bool.false_eq_true,
              if_false]
          rw [hsib, TreeCtx.fill]
          rcases deleteBlackSibling_spec h hv ht hub with
            ⟨s₂, t', k, hrun₂, hp, h₂, hv₂, -, hlist⟩ | ⟨s₂, hrun₂, hres⟩
          · obtain ⟨s', hrun, hres⟩ := ih (by omega) h₂ hv₂
            refine ⟨s', ?_, treeNodes_fill hlist ▸ hres⟩
            rw [hrun₂, Option.bind_some, doDeleteBalancing_at h₂ hp, hrun]
          · obtain ⟨s', hrun, hres⟩ := doDeleteBalancing_end fuel hres
            exact ⟨s', by rw [hrun₂, Option.bind_some, hrun], hres⟩

theorem blacken_sameCells {q : Option Nat} (h : s.blacken q = some s') : s.SameCells s' := by
  cases q with
  | none =>
    cases h
    exact .rfl
  | some q => exact .modify h

theorem deleteOuterChild_sameCells (h : deleteOuterChild d s p q = some (s', r)) :
    s.SameCells s' := by
  simp only [deleteOuterChild, Option.bind_eq_bind, Option.bind_eq_some_iff, Option.some.injEq,
    Prod.mk.injEq] at h
  obtain ⟨_, -, s₁, h₁, s₂, h₂, _, -, s₃, h₃, s₄, h₄, rfl, -⟩ := h
  exact (((TreeHeap.SameCells.modify h₁).trans (.modify h₂)).trans (blacken_sameCells h₃)).trans
    (sideRotate_sameCells h₄)

theorem deleteInnerChild_sameCells (h : deleteInnerChild d s p q = some (s', r)) :
    s.SameCells s' := by
  simp only [deleteInnerChild, Option.bind_eq_bind, Option.bind_eq_some_iff, Option.some.injEq,
    Prod.mk.injEq] at h
  obtain ⟨_, -, s₁, h₁, s₂, h₂, s₃, h₃, _, -, _, -, rfl, -⟩ := h
  exact ((blacken_sameCells h₁).trans (.modify h₂)).trans (sideRotate_sameCells h₃)

theorem deleteBlackSibling_sameCells {q r : Option Nat}
    (h : deleteBlackSibling d s p q = some (s', r)) : s.SameCells s' := by
  cases q with
  | none =>
    cases h
    exact .rfl
  | some q =>
    simp only [deleteBlackSibling, Option.bind_eq_bind, Option.bind_eq_some_iff] at h
    obtain ⟨_, -, inner, -, outer, -, h⟩ := h
    split at h
    · simp only [Option.bind_eq_some_iff, Option.some.injEq, Prod.mk.injEq] at h
      obtain ⟨s₁, h₁, rfl, -⟩ := h
      exact .modify h₁
    · split at h
      · simp only [Option.bind_eq_some_iff] at h
        obtain ⟨⟨s₁, q'⟩, h₁, h₂⟩ := h
        exact (deleteInnerChild_sameCells h₁).trans (deleteOuterChild_sameCells h₂)
      · exact deleteOuterChild_sameCells h

theorem deleteSibling_sameCells {r : Option Nat} (h : deleteSibling d s p = some (s', r)) :
    s.SameCells s' := by
  simp only [deleteSibling, Option.bind_eq_bind, Option.bind_eq_some_iff] at h
  obtain ⟨_, -, red, -, h⟩ := h
  split at h
  · simp only [Option.bind_eq_some_iff] at h
    obtain ⟨q, -, ⟨s₁, q'⟩, h₁, h₂⟩ := h
    simp only [deleteRedSibling, Option.bind_eq_bind, Option.bind_eq_some_iff, Option.some.injEq,
      Prod.mk.injEq] at h₁
    obtain ⟨s₂, hs₂, s₃, hs₃, s₄, hs₄, _, -, rfl, -⟩ := h₁
    exact (((TreeHeap.SameCells.modify hs₂).trans (.modify hs₃)).trans
      (sideRotate_sameCells hs₄)).trans (deleteBlackSibling_sameCells h₂)
  · exact deleteBlackSibling_sameCells h

theorem doDeleteBalancing_sameCells (fuel : Nat) {pX pParent : Option Nat}
    (h : doDeleteBalancing fuel s pX pParent = some s') : s.SameCells s' := by
  induction fuel generalizing s pX pParent with
  | zero => cases h
  | succ fuel ih =>
    simp only [doDeleteBalancing, Option.bind_eq_bind, Option.bind_eq_some_iff] at h
    obtain ⟨red, -, h⟩ := h
    split at h
    · exact blacken_sameCells h
    · simp only [Option.bind_eq_some_iff] at h
      obtain ⟨p, -, _, -, ⟨s₁, pX'⟩, h₁, q, -, _, -, h₂⟩ := h
      exact (deleteSibling_sameCells h₁).trans (ih h₂)

end Balance

section Delete
variable {s s' : BtRbTree} {c : TreeCtx BtRbRecord} {t u : PTree BtRbRecord} {d : Side}
  {p q pX : Nat} {x y : BtRbRecord}

theorem spliceOut_attach (h : s.At c (.join d p x t .nil)) (fuel : Nat) :
    ∃ s₁, s₁.At c t ∧ s.SameCells s₁ ∧ spliceOut fuel s p =
      ((if x.isBlack then doDeleteBalancing fuel s₁ t.ptr c.parent else some s₁).map fun s =>
        s.put p none) := by
  obtain ⟨s₁, s₂, hrun₁, hrun₂, h₂, hsame⟩ := h.lift
  refine ⟨s₂, h₂, hsame, ?_⟩
  have hcell : s.cells p = some (.of d x c.parent t.ptr none) := h.get
  have hone : (TreeCell.of d x c.parent t.ptr none).left = none ∨
      (TreeCell.of d x c.parent t.ptr none).right = none := by
    cases d <;> simp [TreeCell.of]
  have hchild : (TreeCell.of d x c.parent t.ptr none).left.or
      (TreeCell.of d x c.parent t.ptr none).right = t.ptr := by
    cases d <;> simp [TreeCell.of]
  rw [spliceOut, hcell]
  simp only [Option.bind_eq_bind, Option.bind_some, hchild, guard, if_pos hone, Option.pure_def,
    TreeCell.of_parent, TreeCell.of_info]
  have hend : (s₁.adopt t.ptr c.parent).bind (fun s => (if x.isBlack then
      doDeleteBalancing fuel s t.ptr c.parent else some s).bind fun s => some (s.put p none)) =
      (if x.isBlack then doDeleteBalancing fuel s₂ t.ptr c.parent else some s₂).map fun s =>
        s.put p none := by
    rw [hrun₂, Option.bind_some, Option.map_eq_bind]
    rfl
  rw [← hend]
  cases hc : c.parent with
  | none =>
    rw [hc] at hrun₁
    cases hrun₁
    dsimp only
    congr 1
    funext s
    split <;> rfl
  | some q =>
    obtain ⟨parent, hparent, hside⟩ := h.ctx.parent_child hc
    rw [PTree.ptr_join] at hside
    rw [hc] at hrun₁
    dsimp only at hrun₁ ⊢
    rw [hparent, Option.bind_some, if_pos hside, Option.bind_some, hrun₁, Option.bind_some]
    congr 1
    funext s
    split <;> rfl

theorem repaired_splice (h : HoldsRedBlack s (c.fill (.join d p x t .nil))) (h₁ : s₁.At c t)
    (hfuel : c.depth + 1 < fuel) :
    ∃ s', (if x.isBlack then doDeleteBalancing fuel s₁ t.ptr c.parent else some s₁) = some s' ∧
      s₁.SameCells s' ∧ Repaired s' (treeNodes (c.fill t)) := by
  obtain ⟨hnr, hcr⟩ := noRedRed_fill.mp h.noRedRed
  obtain ⟨n, hbal⟩ := h.balanced
  obtain ⟨_, hbal, hcb⟩ := balanced_fill.mp hbal
  obtain ⟨m, ht, hnil, rfl⟩ := balanced_join.mp hbal
  obtain ⟨hchild, htn, -⟩ := noRedRed_join.mp hnr
  rw [isBlack_join] at hcr
  have hroot := rootBlack_of_fill h.rootBlack
  cases hx : x.isBlack with
  | true =>
    rw [hx] at hcr hcb
    obtain ⟨s', hrun, hres⟩ := doDeleteBalancing_spec fuel hfuel h₁ ⟨htn.below, ht, hcr, hcb, hroot⟩
    exact ⟨s', by rw [if_pos rfl, hrun], doDeleteBalancing_sameCells fuel hrun, hres⟩
  | false =>
    rw [hx] at hcr hcb
    refine ⟨s₁, if_neg (by decide), .rfl, c.fill t, h₁.whole, ?_, ⟨n, ?_⟩, ?_, rfl⟩
    · exact noRedRed_fill.mpr ⟨htn, hcr.mono fun hf => absurd hf (by decide)⟩
    · exact balanced_fill.mpr ⟨m, ht, hcb⟩
    · cases c with
      | top =>
        have hblack := h.rootBlack
        rw [TreeCtx.fill, isBlack_join, hx] at hblack
        cases hblack
      | node d' c q y u => exact rootBlack_iff.mp hroot

/-- A node without a second child is taken out of the tree. -/
theorem spliceOut_spec (fuel : Nat) (h : HoldsRedBlack s (c.fill (.join d p x t .nil)))
    (hfuel : c.depth + 1 < fuel) :
    ∃ s' t', spliceOut fuel s p = some s' ∧ HoldsRedBlack s' t' ∧
      treeNodes t' = treeNodes (c.fill t) := by
  obtain ⟨s₁, h₁, hsame₁, hrun₁⟩ := spliceOut_attach (h.at_top.focus c) fuel
  obtain ⟨s₂, hrun₂, hsame₂, t', h₂, hnr, hbal, hroot, hnodes⟩ := repaired_splice h h₁ hfuel
  have haddrs (q : Nat) : q ∈ t'.addrs ↔ q ∈ t.addrs ∨ q ∈ c.addrs := by
    rw [mem_addrs_iff, hnodes, ← mem_addrs_iff, (c.addrs_fill t).mem_iff, List.mem_append]
  have hgone : p ∉ t'.addrs := by
    obtain ⟨hpt, -, hpc, -⟩ := (h.at_top.focus c).apart
    rw [haddrs, not_or]
    exact ⟨hpt, hpc⟩
  refine ⟨s₂.put p none, t', ?_, ⟨h₂.put_other hgone List.not_mem_nil none, hnr, hbal, hroot, ?_⟩,
    hnodes⟩
  · rw [hrun₁, hrun₂]
    rfl
  · intro q hq
    have hqp : q ≠ p := by
      rintro rfl
      exact hq (TreeHeap.put_self s₂ q none)
    rw [TreeHeap.put_ne s₂ hqp] at hq
    have hsame := (hsame₁.trans hsame₂) q
    rw [Option.isSome_iff_ne_none.mpr hq] at hsame
    have hmem := h.owned q (Option.isSome_iff_ne_none.mp hsame.symm)
    rw [(c.addrs_fill _).mem_iff, List.mem_append, (PTree.addrs_join d p x t .nil).mem_iff,
      List.mem_cons, PTree.addrs, List.append_nil] at hmem
    rw [haddrs]
    exact hmem.imp_left fun hm => hm.resolve_left hqp

/-- The cursor between the records `A` and `B`, where a record was. -/
def cursorBetween (A B : List (Nat × Blob × Blob)) : RbtCursor :=
  match B with
  | r :: _ => ⟨some r.1, .next⟩
  | [] => ⟨A.getLast?.map Prod.fst, .prev⟩

theorem leaveNode_spec (h : s.At .top t) (ht : t.toList = A ++ (p, x) :: B)
    (hfuel : t.depth ≤ fuel) :
    leaveNode fuel s p = some (cursorBetween (A.map nodeOf) (B.map nodeOf)) := by
  simp only [leaveNode, memRbtreeNext_of h ht hfuel (show ESkip.none ≠ .next by decide),
    Option.bind_eq_bind, Option.bind_some]
  cases B with
  | cons r B => rfl
  | nil =>
    have hne : t.toList ≠ [] := by
      rw [ht]
      exact List.append_ne_nil_of_right_ne_nil _ (List.cons_ne_nil _ _)
    have hlast : memRbtreeLast fuel s ⟨none, .next⟩ = some (⟨some p, .none⟩, 0) := by
      have hend := moveToEnd_spec (d := .left) h hfuel ⟨none, .next⟩
      rw [if_neg hne, PTree.along, ht, List.reverse_append] at hend
      exact hend
    have hprev := memRbtreePrevious_of h ht hfuel (show ESkip.none ≠ .prev by decide)
    simp only [List.head?_nil, Option.map_none, cursorRes, Option.isNone_none, if_true, hlast,
      hprev, Option.bind_some, show ¬ (1 : Int) = 0 by decide, if_false, List.map_nil,
      cursorBetween, List.getLast?_map, Option.map_map]
    rfl

theorem deleteNode_one (h : HoldsTree s (c.fill (.join d p x u .nil)))
    (ht : (c.fill (.join d p x u .nil)).toList = A ++ (p, x) :: B)
    (hfuel : (c.fill (.join d p x u .nil)).depth + 1 < fuel) :
    ∃ s' t', deleteNode fuel s p = some (s', cursorBetween (A.map nodeOf) (B.map nodeOf)) ∧
      HoldsRedBlack s' t' ∧ treeNodes t' = treeNodes (c.fill u) := by
  have hdepth := c.depth_fill (.join d p x u .nil)
  rw [PTree.depth_join] at hdepth
  obtain ⟨s', t', hrun, h', hnodes⟩ := spliceOut_spec fuel h.toHoldsRedBlack (by omega)
  have hcell : s.cells p = some (.of d x c.parent u.ptr none) := (h.at_top.focus c).get
  have hcond : ((TreeCell.of d x c.parent u.ptr none).left.isSome &&
      (TreeCell.of d x c.parent u.ptr none).right.isSome) = false := by
    cases d <;> simp [TreeCell.of]
  refine ⟨s', t', ?_, h', hnodes⟩
  simp only [deleteNode, hcell, Option.bind_eq_bind, Option.bind_some, hcond, Bool.false_eq_true,
    if_false, leaveNode_spec h.at_top ht (show _ ≤ fuel by omega), hrun]

/-- A record with two children gets the key and the data of the next one, which is taken out. -/
theorem deleteNode_two (h : HoldsTree s (c.fill (.node p l x r))) (hl : l ≠ .nil)
    (hr : r.toList = (q, y) :: B) (hfuel : (c.fill (.node p l x r)).depth + 1 < fuel) :
    ∃ s' t', deleteNode fuel s p = some (s', ⟨some p, .next⟩) ∧ HoldsRedBlack s' t' ∧
      treeNodes t' = c.before.map nodeOf ++ l.toList.map nodeOf ++
        (p, y.key, y.data) :: (B.map nodeOf ++ c.after.map nodeOf) := by
  have ht : (c.fill (.node p l x r)).toList =
      (c.before ++ l.toList) ++ (p, x) :: ((q, y) :: (B ++ c.after)) := by
    rw [TreeCtx.toList_fill, PTree.toList, hr]
    simp
  have hnext := memRbtreeNext_of h.at_top ht (show _ ≤ fuel by omega) (show ESkip.none ≠
    .next by decide)
  have hp : s.cells p = some ⟨x, c.parent, l.ptr, r.ptr⟩ := (h.at_top.focus c).stored.1
  have hlp : l.ptr.isSome = true := by
    cases l with
    | nil => exact absurd rfl hl
    | node _ _ _ _ => rfl
  have hrp : r.ptr.isSome = true := by
    cases r with
    | nil => cases hr
    | node _ _ _ _ => rfl
  have hq : ∃ n, s.cells q = some n ∧ n.info = y := by
    obtain ⟨c₁, r₁, hfill, -, -⟩ := TreeCtx.exists_leftmost (.node .right c p x l) hr
    have hat : s.At .top (c₁.fill (.node q .nil y r₁)) := hfill ▸ h.at_top
    exact ⟨_, (hat.focus c₁).stored.1, rfl⟩
  obtain ⟨n, hq, rfl⟩ := hq
  obtain ⟨s₁, hrun₁, h₁⟩ := holdsRedBlack_setInfo h.toHoldsRedBlack
    (fun i => { i with key := n.info.key, data := n.info.data }) rfl
  obtain ⟨c₂, r₂, hfill, hbefore, hafter⟩ := TreeCtx.exists_leftmost
    (.node .right c p { x with key := n.info.key, data := n.info.data } l) hr
  have h₂ : HoldsRedBlack s₁ (c₂.fill (.join .right q n.info r₂ .nil)) := hfill ▸ h₁
  have hdepth : (c₂.fill (.node q .nil n.info r₂)).depth = (c.fill (.node p l x r)).depth := by
    rw [← hfill]
    exact c.depth_fill_congr rfl
  have hdepth₂ := c₂.depth_fill (.node q .nil n.info r₂)
  rw [PTree.depth] at hdepth₂
  obtain ⟨s', t', hrun, h', hnodes⟩ := spliceOut_spec fuel h₂ (by omega)
  refine ⟨s', t', ?_, h', ?_⟩
  · simp only [deleteNode, hp, Option.bind_eq_bind, Option.bind_some, hlp, hrp, Bool.and_self,
      if_true, takeNext, hnext, List.head?_cons, Option.map_some, cursorRes, Option.isNone_some,
      Bool.false_eq_true, if_false, guard, Option.pure_def, hq, hrun₁, hrun]
  · rw [hnodes, treeNodes, TreeCtx.toList_fill, hbefore, List.append_assoc, ← hafter]
    simp [TreeCtx.before, TreeCtx.after, nodeOf]

/-- A record is deleted, and the cursor is between its neighbours. -/
theorem deleteNode_spec (h : HoldsTree s t) (ht : t.toList = A ++ (p, x) :: B)
    (hfuel : t.depth + 1 < fuel) :
    ∃ s' t' A' B', deleteNode fuel s p = some (s', cursorBetween A' B') ∧ HoldsTree s' t' ∧
      treeNodes t' = A' ++ B' ∧ A'.map Prod.snd = (A.map nodeOf).map Prod.snd ∧
      B'.map Prod.snd = (B.map nodeOf).map Prod.snd := by
  obtain ⟨c, l, r, hfill, hA, hB⟩ := TreeCtx.exists_fill .top ht
  have hwhole : t = c.fill (.node p l x r) := hfill
  rw [TreeCtx.before, List.nil_append] at hA
  rw [TreeCtx.after, List.append_nil] at hB
  subst hwhole
  have hsorted := sortedTree_entries.mp h.sorted
  rw [treeEntries, treeNodes, ht, List.map_append, List.map_append, List.map_cons, List.map_cons]
    at hsorted
  have hend {s' : BtRbTree} {t' : PTree BtRbRecord} {A' B' : List (Nat × Blob × Blob)}
      (h' : HoldsRedBlack s' t') (hnodes : treeNodes t' = A' ++ B')
      (hA' : A'.map Prod.snd = (A.map nodeOf).map Prod.snd)
      (hB' : B'.map Prod.snd = (B.map nodeOf).map Prod.snd) : HoldsTree s' t' := by
    refine ⟨h', sortedTree_entries.mpr ?_⟩
    rw [treeEntries, hnodes, List.map_append, hA', hB']
    exact hsorted.sublist (.append_left (List.sublist_cons_self _ _) _)
  have hone {d : Side} {u : PTree BtRbRecord} (hu : PTree.node p l x r = .join d p x u .nil) :
      ∃ s' t' A' B', deleteNode fuel s p = some (s', cursorBetween A' B') ∧ HoldsTree s' t' ∧
        treeNodes t' = A' ++ B' ∧ A'.map Prod.snd = (A.map nodeOf).map Prod.snd ∧
        B'.map Prod.snd = (B.map nodeOf).map Prod.snd := by
    have hlist : treeNodes (c.fill u) = A.map nodeOf ++ B.map nodeOf := by
      rw [treeNodes, TreeCtx.toList_fill, hA, hB]
      cases d <;> cases hu <;> simp [PTree.toList]
    rw [hu] at h ht hfuel
    obtain ⟨s', t', hrun, h', hnodes⟩ := deleteNode_one h ht hfuel
    rw [hlist] at hnodes
    exact ⟨s', t', _, _, hrun, hend h' hnodes rfl rfl, hnodes, rfl, rfl⟩
  cases l with
  | nil => exact hone (d := .right) rfl
  | node q l' y r' =>
    cases hr : r.toList with
    | nil =>
      cases r with
      | nil => exact hone (d := .left) rfl
      | node _ _ _ _ => simp [PTree.toList] at hr
    | cons z B₁ =>
      obtain ⟨q', y'⟩ := z
      obtain ⟨s', t', hrun, h', hnodes⟩ := deleteNode_two h (by simp) hr hfuel
      have hB' : (((p, y'.key, y'.data) :: (B₁.map nodeOf ++ c.after.map nodeOf) :
          List (Nat × Blob × Blob))).map Prod.snd = (B.map nodeOf).map Prod.snd := by
        rw [hB, hr]
        simp [nodeOf]
      rw [← List.map_append, ← hA] at hnodes
      have hcursor : (⟨some p, .next⟩ : RbtCursor) = cursorBetween (A.map nodeOf)
          ((p, y'.key, y'.data) :: (B₁.map nodeOf ++ c.after.map nodeOf)) := rfl
      rw [hcursor] at hrun
      exact ⟨s', t', _, _, hrun, hend h' hnodes rfl hB', hnodes, rfl, hB'⟩

theorem cursorBetween_next (h : HoldsTree s t) (ht : treeNodes t = A ++ B)
    (hfuel : t.depth ≤ fuel) :
    memRbtreeNext fuel s (cursorBetween A B) =
      some (⟨B.head?.map Prod.fst, .none⟩, cursorRes (B.head?.map Prod.fst)) := by
  cases B with
  | cons r B => rfl
  | nil =>
    rw [cursorBetween]
    cases hlast : A.getLast? with
    | none => rfl
    | some r =>
      obtain ⟨A, rfl⟩ := List.getLast?_eq_some_iff.mp hlast
      rw [List.append_nil, treeNodes] at ht
      obtain ⟨l₁, l₂, hl, -, h₂⟩ := List.map_eq_append_iff.mp ht
      obtain ⟨a, l, rfl, rfl, hnil⟩ := List.map_eq_cons_iff.mp h₂
      obtain rfl := List.map_eq_nil_iff.mp hnil
      exact memRbtreeNext_of h.at_top (p := a.1) (x := a.2) hl hfuel (by decide)

theorem cursorBetween_previous (h : HoldsTree s t) (ht : treeNodes t = A ++ B)
    (hfuel : t.depth ≤ fuel) :
    memRbtreePrevious fuel s (cursorBetween A B) =
      some (⟨A.getLast?.map Prod.fst, .none⟩, cursorRes (A.getLast?.map Prod.fst)) := by
  cases B with
  | nil =>
    rw [cursorBetween]
    cases A.getLast? <;> rfl
  | cons r B =>
    rw [treeNodes] at ht
    obtain ⟨l₁, l₂, hl, rfl, h₂⟩ := List.map_eq_append_iff.mp ht
    obtain ⟨a, l, rfl, rfl, -⟩ := List.map_eq_cons_iff.mp h₂
    have hprev := memRbtreePrevious_of h.at_top (p := a.1) (x := a.2) hl hfuel
      (show ESkip.next ≠ .prev by decide)
    rw [List.getLast?_map, Option.map_map]
    exact hprev

/-- After a deletion `memRbtreeNext` goes to the record behind the deleted one, and
`memRbtreePrevious` to the one in front of it. -/
theorem deleteNode_neighbours (h : HoldsTree s t) (ht : t.toList = A ++ (p, x) :: B)
    (hfuel : t.depth + 1 < fuel) :
    ∃ s' t' A' B' pCur, deleteNode fuel s p = some (s', pCur) ∧ HoldsTree s' t' ∧
      treeNodes t' = A' ++ B' ∧ A'.map Prod.snd = (A.map nodeOf).map Prod.snd ∧
      B'.map Prod.snd = (B.map nodeOf).map Prod.snd ∧
      ∀ fuel', t'.depth ≤ fuel' →
        memRbtreeNext fuel' s' pCur =
          some (⟨B'.head?.map Prod.fst, .none⟩, cursorRes (B'.head?.map Prod.fst)) ∧
        memRbtreePrevious fuel' s' pCur =
          some (⟨A'.getLast?.map Prod.fst, .none⟩, cursorRes (A'.getLast?.map Prod.fst)) := by
  obtain ⟨s', t', A', B', hrun, h', hnodes, hA, hB⟩ := deleteNode_spec h ht hfuel
  exact ⟨s', t', A', B', _, hrun, h', hnodes, hA, hB, fun fuel' hdepth =>
    ⟨cursorBetween_next h' hnodes hdepth, cursorBetween_previous h' hnodes hdepth⟩⟩

/-- The record at the root, with two records in front of it and one behind, is deleted. -/
theorem deleteNode_neighbours_root : ∃ s' t' A' B' pCur,
    deleteNode 6 fourRecords 4 = some (s', pCur) ∧ HoldsTree s' t' ∧
      treeNodes t' = A' ++ B' ∧ A'.map Prod.snd = [([1], []), ([2], [])] ∧
      B'.map Prod.snd = [([6], [])] ∧
      ∀ fuel', t'.depth ≤ fuel' →
        memRbtreeNext fuel' s' pCur =
          some (⟨B'.head?.map Prod.fst, .none⟩, cursorRes (B'.head?.map Prod.fst)) ∧
        memRbtreePrevious fuel' s' pCur =
          some (⟨A'.getLast?.map Prod.fst, .none⟩, cursorRes (A'.getLast?.map Prod.fst)) :=
  deleteNode_neighbours (A := [(9, plainRecord 1 false), (2, plainRecord 2 true)])
    (B := [(6, plainRecord 6 true)]) holdsTree_four rfl (by decide)

end Delete

end Pkgtools
