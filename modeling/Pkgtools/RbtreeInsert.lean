import Pkgtools.RbtreeCursor

namespace Pkgtools
open CLib
set_option autoImplicit true

/-- The part of `memRbtreeInsert` that makes a node at the address `pNode`, below the one where the
cursor is. -/
def insertNode (fuel : Nat) (t : BtRbTree) (cur : Option Nat) (res : Int) (pNode : Nat)
    (key data : Blob) : Option BtRbTree := do
  let t := t.put pNode (some ⟨⟨key, data, false⟩, none, none, none⟩)
  let t ←
    match cur with
    | some p => do
      let d := if res = -1 then Side.right else Side.left
      -- assert( !pCur->pNode->pRight ), or the same of pLeft
      guard ((← t.cells p).child d = none)
      let t ← t.modify pNode fun n => { n with parent := some p }
      t.modify p fun n => n.setChild d (some pNode)
    | none => some { t with head := some pNode }
  doInsertBalancing fuel t pNode

section Insert
variable {s s' : BtRbTree} {c : TreeCtx BtRbRecord} {t t' : PTree BtRbRecord} {key data : Blob}
  {pNode : Nat}

theorem sideRotate_sameCells (h : sideRotate d s p = some s') : s.SameCells s' := by
  rw [sideRotate_eq] at h
  exact .rotate h

theorem insertRotate_sameCells (h : insertRotate d s pX pG = some (s', pX')) : s.SameCells s' := by
  simp only [insertRotate, Option.bind_eq_bind, Option.bind_eq_some_iff] at h
  obtain ⟨cX, -, pP, -, cP, -, h⟩ := h
  split at h
  · simp only [Option.bind_some, Option.bind_eq_some_iff, Option.some.injEq, Prod.mk.injEq] at h
    obtain ⟨s₁, h₁, cX', -, pP', -, cP', -, _, -, s₂, h₂, s₃, h₃, s₄, h₄, rfl, -⟩ := h
    exact (((sideRotate_sameCells h₁).trans (.modify h₂)).trans (.modify h₃)).trans
      (sideRotate_sameCells h₄)
  · simp only [Option.bind_some, Option.bind_eq_some_iff, Option.some.injEq, Prod.mk.injEq] at h
    obtain ⟨cX', -, pP', -, cP', -, _, -, s₂, h₂, s₃, h₃, s₄, h₄, rfl, -⟩ := h
    exact ((TreeHeap.SameCells.modify h₂).trans (.modify h₃)).trans (sideRotate_sameCells h₄)

theorem insertBalanceLoop_sameCells (fuel : Nat) (h : insertBalanceLoop fuel s pX = some s') :
    s.SameCells s' := by
  induction fuel generalizing s pX with
  | zero => cases h
  | succ fuel ih =>
    rw [insertBalanceLoop] at h
    split at h
    · cases h
      exact .rfl
    · simp only [Option.bind_eq_bind, Option.bind_eq_some_iff] at h
      obtain ⟨cX, -, pP, -, cP, -, h⟩ := h
      split at h
      · cases h
        exact .rfl
      · simp only [Option.bind_eq_some_iff] at h
        obtain ⟨pG, -, cG, -, _, -, red, -, h⟩ := h
        split at h
        · simp only [Option.bind_eq_some_iff] at h
          obtain ⟨s₁, h₁, pU, -, s₂, h₂, s₃, h₃, h₄⟩ := h
          exact (((TreeHeap.SameCells.modify h₁).trans (.modify h₂)).trans (.modify h₃)).trans
            (ih h₄)
        · simp only [Option.bind_eq_some_iff] at h
          obtain ⟨⟨s₁, pX'⟩, h₁, h₂⟩ := h
          exact (insertRotate_sameCells h₁).trans (ih h₂)

theorem doInsertBalancing_sameCells (h : doInsertBalancing fuel s pX = some s') :
    s.SameCells s' := by
  simp only [doInsertBalancing, Option.bind_eq_bind, Option.bind_eq_some_iff] at h
  obtain ⟨s₁, h₁, p, -, h₂⟩ := h
  exact (insertBalanceLoop_sameCells fuel h₁).trans (.modify h₂)

theorem insertNode_attach (h : s.At c .nil) (hfree : s.cells pNode = none) (key data : Blob)
    (fuel : Nat) :
    ∃ s', s'.At c (.node pNode .nil ⟨key, data, false⟩ .nil) ∧
      (∀ q, (s'.cells q).isSome = ((s.cells q).isSome || decide (q = pNode))) ∧
      insertNode fuel s c.parent (placeRes c) pNode key data =
        doInsertBalancing fuel s' pNode := by
  obtain ⟨-, hfreec⟩ := h.free hfree
  let s₁ := s.put pNode (some ⟨⟨key, data, false⟩, none, none, none⟩)
  have hnew (q : Nat) : (s₁.cells q).isSome = ((s.cells q).isSome || decide (q = pNode)) := by
    by_cases hq : q = pNode
    · rw [hq, TreeHeap.put_self, decide_eq_true rfl, Bool.or_true]
      rfl
    · rw [TreeHeap.put_ne s hq, decide_eq_false hq, Bool.or_false]
  cases c with
  | top =>
    exact ⟨{ s₁ with head := some pNode },
      ⟨⟨TreeHeap.put_self s pNode _, trivial, trivial⟩, trivial, rfl, List.nodup_singleton pNode⟩,
      hnew, rfl⟩
  | node d c p x u =>
    let s₂ := s₁.put pNode (some ⟨⟨key, data, false⟩, some p, none, none⟩)
    have hne : p ≠ pNode := by
      rintro rfl
      exact hfreec List.mem_cons_self
    have hside : (if placeRes (.node d c p x u) = -1 then Side.right else Side.left) = d := by
      cases d with
      | left =>
        have hres : ¬ (1 : Int) = -1 := by decide
        exact if_neg hres
      | right => exact if_pos rfl
    have hcell : s.cells p = some (.of d x c.parent none u.ptr) := h.ctx.1
    have hcell₁ : s₁.cells p = some (.of d x c.parent none u.ptr) := by
      rw [TreeHeap.put_ne s hne, hcell]
    have hcell₂ : s₂.cells p = some (.of d x c.parent none u.ptr) := by
      rw [TreeHeap.put_ne s₁ hne, hcell₁]
    let s₃ := s₂.put p (some (.of d x c.parent (some pNode) u.ptr))
    have hrun₂ : s₁.modify pNode (fun n => { n with parent := some p }) = some s₂ := by
      rw [TreeHeap.modify_eq (TreeHeap.put_self s pNode _)]
    have hrun₃ : s₂.modify p (fun n => n.setChild d (some pNode)) = some s₃ := by
      rw [TreeHeap.modify_eq hcell₂, TreeCell.of_setChild]
    have hother (q : Nat) (hp : q ≠ p) (hq : q ≠ pNode) : s₃.cells q = s.cells q := by
      rw [TreeHeap.put_ne s₂ hp, TreeHeap.put_ne s₁ hq, TreeHeap.put_ne s hq]
    refine ⟨s₃, ⟨⟨?_, trivial, trivial⟩, ?_, ?_, ?_⟩, ?_, ?_⟩
    · rw [TreeHeap.put_ne s₂ hne.symm, TreeHeap.put_self]
      rfl
    · have hn := h.nodup
      refine h.ctx.rehole hn ?_ ?_
      · rintro _ _ _ _ _ ⟨⟩
        rw [hcell, TreeHeap.put_self]
        simp [PTree.ptr]
      · intro q hq hqp
        refine hother q (fun he => hqp (congrArg some he.symm)) ?_
        rintro rfl
        exact hfreec hq
    · exact h.head
    · exact List.nodup_cons.mpr ⟨hfreec, h.nodup⟩
    · intro q
      rw [← hnew q]
      exact ((TreeHeap.SameCells.modify hrun₂).trans (.modify hrun₃)) q
    · unfold insertNode
      dsimp only [TreeCtx.parent, Option.bind_eq_bind]
      rw [hside, hcell₁, Option.bind_some, TreeCell.of_child, guard, if_pos rfl, Option.pure_def,
        Option.bind_some, hrun₂, Option.bind_some, hrun₃]
      rfl

theorem rootBlack_of_fill (h : (c.fill t).isBlack BtRbRecord.isBlack = true) :
    RootBlack BtRbRecord.isBlack c := by
  cases c with
  | top => trivial
  | node d c p x u => exact rootBlack_iff.mpr h

/-- The new node is where its key belongs, and the tree is a red-black tree again. -/
theorem insertNode_spec (data : Blob) (h : HoldsTree s (c.fill .nil)) (haround : Around key c)
    (hfree : s.cells pNode = none) (hfuel : c.depth < fuel) :
    ∃ s' t', insertNode fuel s c.parent (placeRes c) pNode key data = some s' ∧ HoldsTree s' t' ∧
      treeNodes t' = c.before.map nodeOf ++ (pNode, key, data) :: c.after.map nodeOf := by
  obtain ⟨s₁, hat₁, hnew, hrun⟩ := insertNode_attach (h.at_top.focus c) hfree
    key data fuel
  obtain ⟨-, hcr⟩ := noRedRed_fill.mp h.noRedRed
  obtain ⟨n, hbal⟩ := h.balanced
  obtain ⟨m, hm, hcb⟩ := balanced_fill.mp hbal
  obtain rfl : m = 0 := hm
  have hv : RedViolation c (.node pNode .nil ⟨key, data, false⟩ .nil) 0 n :=
    ⟨rfl, ⟨fun _ => ⟨rfl, rfl⟩, trivial, trivial⟩, ⟨0, rfl, rfl, rfl⟩, hcr, hcb,
      rootBlack_of_fill h.rootBlack⟩
  obtain ⟨s', t', hrun', hat', hnr', hbal', hroot', hnodes'⟩ :=
    doInsertBalancing_spec fuel hfuel hat₁ rfl hv
  have hnodes : treeNodes t' = c.before.map nodeOf ++ (pNode, key, data) :: c.after.map nodeOf := by
    rw [hnodes', treeNodes, TreeCtx.toList_fill]
    simp [PTree.toList, nodeOf]
  have hold : treeNodes (c.fill .nil) = c.before.map nodeOf ++ c.after.map nodeOf := by
    rw [treeNodes, TreeCtx.toList_fill]
    simp [PTree.toList]
  refine ⟨s', t', hrun.trans hrun', ⟨⟨hat', hnr', hbal', hroot', ?_⟩, ?_⟩, hnodes⟩
  · intro p hp
    have hsame := (doInsertBalancing_sameCells hrun') p
    rw [mem_addrs_iff, hnodes]
    rw [hnew p, Option.isSome_iff_ne_none.mpr hp] at hsame
    simp only [List.map_append, List.map_cons, List.mem_append, List.mem_cons]
    by_cases hpn : p = pNode
    · exact .inr (.inl hpn)
    · rw [decide_eq_false hpn, Bool.or_false] at hsame
      have hmem := h.owned p (Option.isSome_iff_ne_none.mp hsame.symm)
      rw [mem_addrs_iff, hold, List.map_append, List.mem_append] at hmem
      exact hmem.imp id .inr
  · have hsorted := sortedTree_iff.mp h.sorted
    rw [hold, List.pairwise_append] at hsorted
    obtain ⟨hbefore, hafter, hbetween⟩ := hsorted
    rw [sortedTree_iff, hnodes, List.pairwise_append, List.pairwise_cons]
    refine ⟨hbefore, ⟨?_, hafter⟩, ?_⟩
    · intro b hb
      obtain ⟨r, hr, rfl⟩ := List.mem_map.mp hb
      exact haround.after r hr
    · intro a ha b hb
      rcases List.mem_cons.mp hb with rfl | hb
      · obtain ⟨r, hr, rfl⟩ := List.mem_map.mp ha
        exact haround.before r hr
      · exact hbetween a ha b hb

theorem treeNodes_fill_node (c : TreeCtx BtRbRecord) (p : Nat) (l r : PTree BtRbRecord)
    (x : BtRbRecord) : treeNodes (c.fill (.node p l x r)) =
      c.before.map nodeOf ++ l.toList.map nodeOf ++
      (p, x.key, x.data) :: (r.toList.map nodeOf ++ c.after.map nodeOf) := by
  rw [treeNodes, TreeCtx.toList_fill]
  simp [PTree.toList, nodeOf]

theorem holdsRedBlack_setInfo (h : HoldsRedBlack s (c.fill (.node p l x r)))
    (f : BtRbRecord → BtRbRecord)
    (hf : (f x).isBlack = x.isBlack) :
    ∃ s', (s.modify p fun n => { n with info := f n.info }) = some s' ∧
      HoldsRedBlack s' (c.fill (.node p l (f x) r)) := by
  obtain ⟨s', hrun, hat'⟩ := (show s.At c (.join .left p x l r) from h.at_top.focus c).setInfo f
  obtain ⟨n, hbal⟩ := h.balanced
  refine ⟨s', hrun, hat'.whole, noRedRed_replace hf h.noRedRed, ⟨n, balanced_replace hf hbal⟩,
    ?_, ?_⟩
  · rw [← h.rootBlack]
    exact isBlack_fill c hf
  · intro q hq
    have hsame := (TreeHeap.SameCells.modify hrun) q
    rw [Option.isSome_iff_ne_none.mpr hq] at hsame
    have hmem := h.owned q (Option.isSome_iff_ne_none.mp hsame.symm)
    rw [mem_addrs_iff, treeNodes_fill_node] at hmem ⊢
    simpa using hmem

theorem holdsTree_setData (h : HoldsTree s (c.fill (.node p l x r))) (data : Blob) :
    ∃ s', (s.modify p fun n => { n with info := { n.info with data } }) = some s' ∧
      HoldsTree s' (c.fill (.node p l { x with data } r)) := by
  obtain ⟨s', hrun, h'⟩ := holdsRedBlack_setInfo h.toHoldsRedBlack (fun r => { r with data }) rfl
  refine ⟨s', hrun, h', ?_⟩
  have hkeys : (treeNodes (c.fill (.node p l { x with data } r))).map (fun a => a.2.1) =
      (treeNodes (c.fill (.node p l x r))).map fun a => a.2.1 := by
    rw [treeNodes_fill_node, treeNodes_fill_node]
    simp only [List.map_append, List.map_cons]
  have hsorted := List.pairwise_map.mpr (sortedTree_iff.mp h.sorted)
  rw [← hkeys] at hsorted
  exact sortedTree_iff.mpr (List.pairwise_map.mp hsorted)

end Insert

end Pkgtools
