import Pkgtools.CLib.RedBlack
import Mathlib.Data.List.Lex
import Mathlib.Order.Fin.Basic

namespace Pkgtools
open CLib
set_option autoImplicit true

abbrev Blob := List (Fin 256)

/-- `memcmp`. -/
def memcmp : Blob → Blob → Nat → Int
  | a :: s, b :: t, n + 1 => if a = b then memcmp s t n else (a.val : Int) - b.val
  | _, _, _ => 0

/-- `key_compare`. -/
def keyCompare (key₁ key₂ : Blob) : Int :=
  let mcmp := memcmp key₁ key₂ (min key₁.length key₂.length)
  if mcmp = 0 then
    if key₁.length = key₂.length then 0
    else if key₁.length < key₂.length then -1 else 1
  else if 0 < mcmp then 1 else -1

/-- The fields of a `BtRbNode` that are no pointers to other nodes. -/
structure BtRbRecord where
  key : Blob
  data : Blob
  isBlack : Bool
  deriving DecidableEq, Repr

/-- The nodes of a `BtRbTree` and its `pHead`. -/
abbrev BtRbTree := TreeHeap BtRbRecord

namespace BtRbTree

/-- `p && !p->isBlack`. -/
def isRed (t : BtRbTree) : Option Nat → Option Bool
  | none => some false
  | some p => (t.cells p).map fun n => !n.info.isBlack

def setBlack (t : BtRbTree) (p : Nat) (b : Bool) : Option BtRbTree :=
  t.modify p fun n => { n with info := { n.info with isBlack := b } }

end BtRbTree

def leftRotate (t : BtRbTree) (pX : Nat) : Option BtRbTree := t.rotate .left pX

def rightRotate (t : BtRbTree) (pX : Nat) : Option BtRbTree := t.rotate .right pX

/-- `leftRotate` or `rightRotate`. -/
def sideRotate : Side → BtRbTree → Nat → Option BtRbTree
  | .left => leftRotate
  | .right => rightRotate

/-- The side on which the node `p` is a child, the right one unless it is the left child. -/
def childSide (parent : TreeCell BtRbRecord) (p : Option Nat) : Side :=
  if p = parent.left then .left else .right

/-- The branch of `do_insert_balancing` for a black uncle, with the parent of `pX` on the side `d`
of the grandparent. It returns the new `pX` too. -/
def insertRotate (d : Side) (t : BtRbTree) (pX pGrandparent : Nat) : Option (BtRbTree × Nat) := do
  let pParent ← (← t.cells pX).parent
  let (t, pX) ←
    if some pX = (← t.cells pParent).child d.other then do
      some (← sideRotate d t pParent, pParent)
    else some (t, pX)
  let pParent ← (← t.cells pX).parent
  -- assert( pGrandparent == pX->pParent->pParent );
  guard ((← t.cells pParent).parent = some pGrandparent)
  let t ← t.setBlack pGrandparent false
  let t ← t.setBlack pParent true
  some (← sideRotate d.other t pGrandparent, pX)

/-- The loop of `do_insert_balancing`. -/
def insertBalanceLoop : Nat → BtRbTree → Nat → Option BtRbTree
  | 0, _, _ => none
  | fuel + 1, t, pX => do
    if some pX = t.head then some t
    else
      let pParent ← (← t.cells pX).parent
      let parent ← t.cells pParent
      if parent.info.isBlack then some t
      else
        -- assert( pGrandparent ); assert( pGrandparent->isBlack );
        let pGrandparent ← parent.parent
        let grandparent ← t.cells pGrandparent
        guard grandparent.info.isBlack
        let d := childSide grandparent (some pParent)
        let pUncle := grandparent.child d.other
        if ← t.isRed pUncle then
          let t ← t.setBlack pGrandparent false
          let t ← t.setBlack (← pUncle) true
          let t ← t.setBlack pParent true
          insertBalanceLoop fuel t pGrandparent
        else
          let (t, pX) ← insertRotate d t pX pGrandparent
          insertBalanceLoop fuel t pX

def doInsertBalancing (fuel : Nat) (t : BtRbTree) (pX : Nat) : Option BtRbTree := do
  let t ← insertBalanceLoop fuel t pX
  t.setBlack (← t.head) true

section Compare
variable {key₁ key₂ : Blob}

theorem memcmp_spec (key₁ key₂ : Blob) :
    (memcmp key₁ key₂ (min key₁.length key₂.length) = 0 →
      (key₁.length = key₂.length ↔ key₁ = key₂) ∧ (key₁.length < key₂.length ↔ key₁ < key₂)) ∧
    (memcmp key₁ key₂ (min key₁.length key₂.length) < 0 → key₁ < key₂) ∧
    (0 < memcmp key₁ key₂ (min key₁.length key₂.length) → key₂ < key₁) := by
  induction key₁ generalizing key₂ with
  | nil =>
    cases key₂ with
    | nil => simp [memcmp]
    | cons b t => simp [memcmp]
  | cons a s ih =>
    cases key₂ with
    | nil => simp [memcmp]
    | cons b t =>
      obtain ⟨hzero, hneg, hpos⟩ := ih t
      rw [List.length_cons, List.length_cons, Nat.succ_min_succ, memcmp]
      split
      · rename_i hab
        subst hab
        simp only [List.cons_lt_cons_iff, lt_self_iff_false, false_or, true_and, List.cons.injEq,
          Nat.succ_inj, Nat.succ_lt_succ_iff]
        exact ⟨hzero, hneg, hpos⟩
      · rename_i hab
        have hval : a.val ≠ b.val := fun he => hab (Fin.val_injective he)
        refine ⟨fun h => absurd h (by omega), fun h => ?_, fun h => ?_⟩
        · exact List.cons_lt_cons_iff.mpr (.inl (Fin.lt_def.mpr (by omega)))
        · exact List.cons_lt_cons_iff.mpr (.inl (Fin.lt_def.mpr (by omega)))

theorem keyCompare_cases (key₁ key₂ : Blob) :
    (keyCompare key₁ key₂ = 0 ∧ key₁ = key₂) ∨ (keyCompare key₁ key₂ = -1 ∧ key₁ < key₂) ∨
      (keyCompare key₁ key₂ = 1 ∧ key₂ < key₁) := by
  obtain ⟨hzero, hneg, hpos⟩ := memcmp_spec key₁ key₂
  rw [keyCompare]
  split
  · rename_i h
    obtain ⟨heq, hlt⟩ := hzero h
    split
    · rename_i hlen
      exact .inl ⟨rfl, heq.mp hlen⟩
    · rename_i hlen
      split
      · rename_i hless
        exact .inr (.inl ⟨rfl, hlt.mp hless⟩)
      · rename_i hless
        refine .inr (.inr ⟨rfl, ?_⟩)
        rcases lt_trichotomy key₁ key₂ with h | h | h
        · exact absurd (hlt.mpr h) hless
        · exact absurd (heq.mpr h) hlen
        · exact h
  · rename_i h
    split
    · rename_i hless
      exact .inr (.inr ⟨rfl, hpos hless⟩)
    · exact .inr (.inl ⟨rfl, hneg (by omega)⟩)

end Compare

/-- A node but for its color: its address, key and data. -/
def nodeOf (r : Nat × BtRbRecord) : Nat × Blob × Blob := (r.1, r.2.key, r.2.data)

def treeNodes (t : PTree BtRbRecord) : List (Nat × Blob × Blob) := t.toList.map nodeOf

section Balance
variable {s s' : BtRbTree} {c : TreeCtx BtRbRecord} {t u a b : PTree BtRbRecord} {d : Side}
  {p pX pG : Nat} {x y : BtRbRecord}

theorem sideRotate_eq (d : Side) (t : BtRbTree) (p : Nat) : sideRotate d t p = t.rotate d p := by
  cases d <;> rfl

theorem at_setBlack (h : s.At c (.join d p x t u)) (b : Bool) :
    ∃ s', s.setBlack p b = some s' ∧ s'.At c (.join d p { x with isBlack := b } t u) :=
  h.setInfo fun r => { r with isBlack := b }

theorem isRed_ptr (h : Stored s.cells parent t) :
    BtRbTree.isRed s t.ptr = some (!t.isBlack BtRbRecord.isBlack) := by
  cases t with
  | nil => rfl
  | node p l x r =>
    rw [PTree.ptr, BtRbTree.isRed, h.1]
    rfl

theorem childSide_of {q q' : Option Nat} (h : q' ≠ q) (d : Side) (x : BtRbRecord)
    (parent : Option Nat) : childSide (.of d x parent q q') q = d := by
  cases d with
  | left => exact if_pos rfl
  | right => exact if_neg h.symm

theorem at_head_ne (h : s.At (.node d c p x u) t) (hp : t.ptr = some pX) : s.head ≠ some pX := by
  have hdown := TreeHeap.at_down.mpr h
  have hhead := hdown.head
  rw [PTree.ptr_join] at hhead
  obtain ⟨hpt, -, -, hn⟩ := hdown.apart
  have hmem := PTree.mem_addrs_of_ptr hp
  rw [hhead]
  intro hroot
  rcases TreeCtx.mem_addrs_of_root hroot with rfl | hc
  · exact hpt hmem
  · rw [List.append_assoc, List.nodup_append] at hn
    exact hn.2.2 pX hmem pX (List.mem_append_right _ hc) rfl

theorem at_sibling_ne (h : s.At (.node d c p x u) t) (hp : t.ptr = some pX) : u.ptr ≠ some pX := by
  obtain ⟨-, -, -, hn⟩ := (TreeHeap.at_down.mpr h).apart
  rw [List.append_assoc, List.nodup_append] at hn
  intro hu
  exact hn.2.2 pX (PTree.mem_addrs_of_ptr hp) pX
    (List.mem_append_left _ (PTree.mem_addrs_of_ptr hu)) rfl

theorem insertRotate_outer (h : s.At (.node d (.node d c pG y u) p x b) t) (hp : t.ptr = some pX) :
    ∃ s', insertRotate d s pX pG = some (s', pX) ∧
      s'.At (.node d c p { x with isBlack := true } (.join d pG { y with isBlack := false } b u))
        t := by
  have hsib := at_sibling_ne h hp
  obtain ⟨z, a₁, a₂, rfl⟩ := PTree.exists_join d hp
  have hX := h.get
  have hP := TreeHeap.at_down.mpr h
  have hcell := hP.get
  obtain ⟨s₁, hrun₁, h₁⟩ := at_setBlack (TreeHeap.at_down.mpr hP) false
  obtain ⟨s₂, hrun₂, h₂⟩ := at_setBlack (TreeHeap.at_down.mp h₁) true
  obtain ⟨s₃, hrun₃, h₃⟩ := (TreeHeap.at_down.mpr h₂).rotate_other
  refine ⟨s₃, ?_, TreeHeap.at_down.mp h₃⟩
  simp only [insertRotate, hX, hcell, Option.bind_eq_bind, Option.bind_some, TreeCell.of_parent,
    TreeCtx.parent, TreeCell.of_child_other, if_neg hsib.symm, guard, if_true, Option.pure_def,
    hrun₁, hrun₂, sideRotate_eq, hrun₃]

/-- A red child on the inner side becomes the parent of its parent first. -/
theorem insertRotate_inner
    (h : s.At (.node d.other (.node d c pG y u) p x b) (.join d pX z a₁ a₂)) :
    ∃ s', insertRotate d s pX pG = some (s', p) ∧
      s'.At (.node d c pX { z with isBlack := true } (.join d pG { y with isBlack := false } a₂ u))
        (.join d p x b a₁) := by
  have hX := h.get
  have hP := TreeHeap.at_down.mpr h
  rw [PTree.join_other] at hP
  have hcell := hP.get
  obtain ⟨s₀, hrun₀, h₀⟩ := hP.rotate
  have hcell₀ := h₀.get
  have hp₀ := (TreeHeap.at_down.mp h₀).get
  obtain ⟨s₁, hrun₁, h₁⟩ := at_setBlack (TreeHeap.at_down.mpr h₀) false
  obtain ⟨s₂, hrun₂, h₂⟩ := at_setBlack (TreeHeap.at_down.mp h₁) true
  obtain ⟨s₃, hrun₃, h₃⟩ := (TreeHeap.at_down.mpr h₂).rotate_other
  refine ⟨s₃, ?_, TreeHeap.at_down.mp h₃⟩
  simp only [insertRotate, hX, hcell, hp₀, hcell₀, Option.bind_eq_bind, Option.bind_some,
    TreeCell.of_parent, TreeCtx.parent, TreeCell.of_child_other, PTree.ptr_join, if_true, guard,
    Option.pure_def, hrun₀, hrun₁, hrun₂, sideRotate_eq, hrun₃]

/-- The tree is a red-black tree but for a red record below a red parent. -/
structure RedViolation (c : TreeCtx BtRbRecord) (t : PTree BtRbRecord) (m n : Nat) : Prop where
  red : t.isBlack BtRbRecord.isBlack = false
  noRedRed : NoRedRed BtRbRecord.isBlack t
  balanced : Balanced BtRbRecord.isBlack t m
  ctxRed : NoRedRedCtx BtRbRecord.isBlack c true
  ctxBalanced : BalancedCtx BtRbRecord.isBlack c m n
  rootBlack : RootBlack BtRbRecord.isBlack c

theorem treeNodes_fill (h : treeNodes t = treeNodes u) :
    treeNodes (c.fill t) = treeNodes (c.fill u) := by
  rw [treeNodes, treeNodes, TreeCtx.toList_fill, TreeCtx.toList_fill]
  simp only [List.map_append]
  exact congrArg (_ ++ · ++ _) h

theorem exists_join_of_red (d : Side) (h : t.isBlack BtRbRecord.isBlack = false) :
    ∃ p x a b, t = .join d p x a b ∧ x.isBlack = false := by
  cases t with
  | nil => cases h
  | node p l x r =>
    cases d with
    | left => exact ⟨p, x, l, r, rfl, h⟩
    | right => exact ⟨p, x, r, l, rfl, h⟩

theorem insertBalanceLoop_spec (fuel : Nat) (hfuel : c.depth < fuel) (h : s.At c t)
    (hp : t.ptr = some pX) (hv : RedViolation c t m n) :
    ∃ s' t', insertBalanceLoop fuel s pX = some s' ∧ s'.At .top t' ∧
      NoRedRed BtRbRecord.isBlack t' ∧ Balanced BtRbRecord.isBlack t' n ∧
      treeNodes t' = treeNodes (c.fill t) := by
  induction fuel generalizing s c t pX m with
  | zero => omega
  | succ fuel ih =>
    obtain ⟨hred, hnr, hbal, hcr, hcb, hroot⟩ := hv
    cases c with
    | top =>
      refine ⟨s, t, ?_, h, hnr, ?_, rfl⟩
      · rw [insertBalanceLoop, if_pos (h.head.trans hp).symm]
      · rwa [← show m = n from hcb]
    | node d₁ c₁ p x b =>
      have hhead := at_head_ne h hp
      obtain ⟨z, a₁, a₂, ht⟩ := PTree.exists_join d₁ hp
      have hX : s.cells pX = some (.of d₁ z (some p) a₁.ptr a₂.ptr) := by
        rw [ht] at h
        exact h.get
      have hP := (TreeHeap.at_down.mpr h).get
      obtain ⟨hx, hbr, hc₁r⟩ := hcr
      obtain ⟨hbb, hc₁b⟩ := hcb
      cases hxb : x.isBlack with
      | true =>
        have hnt : NoRedRed BtRbRecord.isBlack ((TreeCtx.node d₁ c₁ p x b).fill t) := by
          refine noRedRed_fill.mpr ⟨hnr, ?_, hbr, hc₁r⟩
          rw [hxb]
          exact fun he => absurd he (by decide)
        refine ⟨s, (TreeCtx.node d₁ c₁ p x b).fill t, ?_, h.whole, hnt,
          balanced_fill.mpr ⟨m, hbal, hbb, hc₁b⟩, rfl⟩
        rw [insertBalanceLoop, if_neg (Ne.symm hhead)]
        simp only [hX, hP, Option.bind_eq_bind, Option.bind_some, TreeCell.of_parent,
          TreeCell.of_info, hxb, if_true]
      | false =>
        obtain ⟨-, hbblack⟩ := hx hxb
        cases c₁ with
        | top =>
          have hxt : x.isBlack = true := hroot
          rw [hxb] at hxt
          cases hxt
        | node d₂ c pG y u =>
          have hyb : y.isBlack = true := by
            cases hy : y.isBlack with
            | true => rfl
            | false =>
              have hfalse := (hc₁r.1 hy).1
              rw [hxb] at hfalse
              cases hfalse
          obtain ⟨-, hur, hcr⟩ := hc₁r
          obtain ⟨hub, hcb⟩ := hc₁b
          rw [hxb, Bool.toNat_false, Nat.add_zero] at hub hcb
          rw [hyb, Bool.toNat_true] at hcb
          rw [hyb] at hcr
          have hG := (TreeHeap.at_down.mpr (TreeHeap.at_down.mpr h)).get
          rw [PTree.ptr_join] at hG
          have hu := at_sibling_ne (TreeHeap.at_down.mpr h) (PTree.ptr_join d₁ p x t b)
          have hside := childSide_of hu d₂ y c.parent
          have hstored : Stored s.cells (some pG) u := (TreeHeap.at_down.mpr h).ctx.2.1
          have hP' : s.cells p = some (.of d₁ x (some pG) t.ptr b.ptr) := hP
          have hstep : insertBalanceLoop (fuel + 1) s pX =
            (if !u.isBlack BtRbRecord.isBlack then (do
                let t ← BtRbTree.setBlack s pG false
                let t ← t.setBlack (← u.ptr) true
                let t ← t.setBlack p true
                insertBalanceLoop fuel t pG)
              else (insertRotate d₂ s pX pG).bind fun x => insertBalanceLoop fuel x.1 x.2) := by
            rw [insertBalanceLoop, if_neg (Ne.symm hhead)]
            simp only [hX, hP', hG, Option.bind_eq_bind, Option.bind_some, TreeCell.of_parent,
              TreeCell.of_info, hxb, hyb, guard, if_true, Option.pure_def, hside,
              Bool.false_eq_true, if_false, TreeCell.of_child_other, isRed_ptr hstored]
          cases hub' : u.isBlack BtRbRecord.isBlack with
          | false =>
            obtain ⟨q, w, u₁, u₂, rfl, hw⟩ := exists_join_of_red d₂.other hub'
            obtain ⟨s₁, hrun₁, h₁⟩ :=
              at_setBlack (TreeHeap.at_down.mpr (TreeHeap.at_down.mpr h)) false
            rw [← PTree.join_other] at h₁
            obtain ⟨s₂, hrun₂, h₂⟩ := at_setBlack (TreeHeap.at_down.mp h₁) true
            have hG₂ := TreeHeap.at_down.mpr h₂
            rw [PTree.join_other] at hG₂
            obtain ⟨s₃, hrun₃, h₃⟩ := at_setBlack (TreeHeap.at_down.mp hG₂) true
            have hv : RedViolation c (.join d₂ pG { y with isBlack := false }
                (.join d₁ p { x with isBlack := true } t b)
                (.join d₂.other q { w with isBlack := true } u₁ u₂)) (m + 1) n := by
              obtain ⟨-, hu₁, hu₂⟩ := noRedRed_join.mp hur
              obtain ⟨k, hk₁, hk₂, hk⟩ := balanced_join.mp hub
              rw [hw, Bool.toNat_false, Nat.add_zero] at hk
              rw [← hk] at hk₁ hk₂
              refine ⟨isBlack_join, noRedRed_join.mpr ⟨fun _ => ⟨isBlack_join, isBlack_join⟩,
                noRedRed_join.mpr ⟨nofun, hnr, hbr⟩, noRedRed_join.mpr ⟨nofun, hu₁, hu₂⟩⟩, ?_,
                  hcr, hcb,
                hroot.tail.tail⟩
              exact balanced_join.mpr ⟨m + 1, balanced_join.mpr ⟨m, hbal, hbb, rfl⟩,
                balanced_join.mpr ⟨m, hk₁, hk₂, rfl⟩, rfl⟩
            have hdepth : c.depth < fuel := by
              simp only [TreeCtx.depth] at hfuel
              omega
            obtain ⟨s', t', hrun', hat', hnr', hbal', hlist'⟩ :=
              ih hdepth (TreeHeap.at_down.mpr h₃) (PTree.ptr_join _ _ _ _ _) hv
            refine ⟨s', t', ?_, hat', hnr', hbal', hlist'.trans (treeNodes_fill ?_)⟩
            · rw [hstep, hub']
              simp only [Bool.not_false, if_true, PTree.ptr_join, Option.bind_eq_bind,
                Option.bind_some, hrun₁, hrun₂, hrun₃, hrun']
            · cases d₁ <;> cases d₂ <;> simp [treeNodes, nodeOf, PTree.join, PTree.toList,
                Side.other]
          | true =>
            have hnext {q : Nat} {x' : BtRbRecord} {t' b' : PTree BtRbRecord} {s' : BtRbTree}
                {pX' : Nat} (hrun₁ : insertRotate d₂ s pX pG = some (s', pX'))
                (h' : s'.At (.node d₂ c q { x' with isBlack := true }
                  (.join d₂ pG { y with isBlack := false } b' u)) t')
                (hp' : t'.ptr = some pX') (hred' : t'.isBlack BtRbRecord.isBlack = false)
                (hnr' : NoRedRed BtRbRecord.isBlack t') (hbal' : Balanced BtRbRecord.isBlack t' m)
                (hbb' : b'.isBlack BtRbRecord.isBlack = true)
                  (hbr' : NoRedRed BtRbRecord.isBlack b')
                (hbbal' : Balanced BtRbRecord.isBlack b' m)
                (hlist : treeNodes (.join d₂ q x' t' (.join d₂ pG y b' u)) =
                  treeNodes (.join d₂ pG y (.join d₁ p x t b) u)) :
                ∃ s' t'', insertBalanceLoop (fuel + 1) s pX = some s' ∧ s'.At .top t'' ∧
                  NoRedRed BtRbRecord.isBlack t'' ∧ Balanced BtRbRecord.isBlack t'' n ∧
                  treeNodes t'' = treeNodes
                    ((TreeCtx.node d₁ (.node d₂ c pG y u) p x b).fill t) := by
              have hother : NoRedRed BtRbRecord.isBlack
                  (.join d₂ pG { y with isBlack := false } b' u) :=
                noRedRed_join.mpr ⟨fun _ => ⟨hbb', hub'⟩, hbr', hur⟩
              have hotherBal : Balanced BtRbRecord.isBlack
                  (.join d₂ pG { y with isBlack := false } b' u) m :=
                balanced_join.mpr ⟨m, hbbal', hub, rfl⟩
              have hroot' : RootBlack BtRbRecord.isBlack (.node d₂ c q { x' with isBlack := true }
                  (.join d₂ pG { y with isBlack := false } b' u)) := hroot.tail.tail.cons rfl
              obtain ⟨s'', t'', hrun', hat', hnr'', hbal'', hlist'⟩ := ih
                (by simp only [TreeCtx.depth] at hfuel ⊢; omega) h' hp'
                ⟨hred', hnr', hbal', ⟨nofun, hother, hcr⟩, ⟨hotherBal, hcb⟩, hroot'⟩
              have hcolors : treeNodes (.join d₂ q { x' with isBlack := true } t'
                  (.join d₂ pG { y with isBlack := false } b' u)) =
                  treeNodes (.join d₂ q x' t' (.join d₂ pG y b' u)) := by
                cases d₂ <;> simp [treeNodes, nodeOf, PTree.join, PTree.toList]
              have hfill := treeNodes_fill (c := c) (hcolors.trans hlist)
              refine ⟨s'', t'', ?_, hat', hnr'', hbal'', hlist'.trans hfill⟩
              rw [hstep, hub', hrun₁]
              exact hrun'
            by_cases hd : d₁ = d₂
            · subst hd
              obtain ⟨s', hrun₁, h'⟩ := insertRotate_outer h hp
              refine hnext hrun₁ h' hp hred hnr hbal hbblack hbr hbb ?_
              cases d₁ <;> simp [treeNodes, nodeOf, PTree.join, PTree.toList]
            · obtain rfl : d₁ = d₂.other := by
                cases d₁ <;> cases d₂ <;> simp_all [Side.other]
              obtain ⟨z, a₁, a₂, rfl⟩ := PTree.exists_join d₂ hp
              obtain ⟨s', hrun₁, h'⟩ := insertRotate_inner h
              rw [isBlack_join] at hred
              obtain ⟨hchildren, hnr₁, hnr₂⟩ := noRedRed_join.mp hnr
              obtain ⟨hblack₁, hblack₂⟩ := hchildren hred
              obtain ⟨k, hk₁, hk₂, hk⟩ := balanced_join.mp hbal
              rw [hred, Bool.toNat_false, Nat.add_zero] at hk
              subst hk
              refine hnext hrun₁ h' (PTree.ptr_join _ _ _ _ _) (isBlack_join.trans hxb) ?_ ?_
                hblack₂
                hnr₂ hk₂ ?_
              · exact noRedRed_join.mpr ⟨fun _ => ⟨hbblack, hblack₁⟩, hbr, hnr₁⟩
              · exact balanced_join.mpr ⟨m, hbb, hk₁, by rw [hxb]; rfl⟩
              · cases d₂ <;> simp [treeNodes, nodeOf, PTree.join, PTree.toList, Side.other]

/-- The balancing after an insertion gives a red-black tree with the same records, whose root is
black. -/
theorem doInsertBalancing_spec (fuel : Nat) (hfuel : c.depth < fuel) (h : s.At c t)
    (hp : t.ptr = some pX) (hv : RedViolation c t m n) :
    ∃ s' t', doInsertBalancing fuel s pX = some s' ∧ s'.At .top t' ∧
      NoRedRed BtRbRecord.isBlack t' ∧ (∃ k, Balanced BtRbRecord.isBlack t' k) ∧
      t'.isBlack BtRbRecord.isBlack = true ∧
      treeNodes t' = treeNodes (c.fill t) := by
  obtain ⟨s₁, t₁, hrun₁, h₁, hnr₁, hbal₁, hlist₁⟩ := insertBalanceLoop_spec fuel hfuel h hp hv
  have hne : t₁.toList ≠ [] := by
    intro he
    rw [treeNodes, he, treeNodes, TreeCtx.toList_fill] at hlist₁
    cases t with
    | nil => cases hp
    | node q l x r => simp [PTree.toList] at hlist₁
  cases t₁ with
  | nil => exact absurd rfl hne
  | node q l x r =>
    obtain ⟨s₂, hrun₂, h₂⟩ := at_setBlack (d := .left) h₁ true
    refine ⟨s₂, _, ?_, h₂, ?_, ?_, rfl, ?_⟩
    · rw [doInsertBalancing, hrun₁]
      simp only [Option.bind_eq_bind, Option.bind_some]
      rw [show s₁.head = some q from h₁.head, Option.bind_some, hrun₂]
    · exact ⟨fun hx => absurd hx (by simp), hnr₁.2⟩
    · obtain ⟨k, hl, hr, -⟩ := hbal₁
      exact ⟨k + 1, k, hl, hr, rfl⟩
    · rw [← hlist₁]
      simp [treeNodes, nodeOf, PTree.join, PTree.toList]

end Balance

end Pkgtools
