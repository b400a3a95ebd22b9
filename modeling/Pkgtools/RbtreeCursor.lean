import Pkgtools.Rbtree
import Mathlib.Data.Nat.Log

namespace Pkgtools
open CLib
set_option autoImplicit true

/-- `RbtCursor.eSkip`, without `SKIP_INVALID`, which is never set. -/
inductive ESkip where
  | none
  | next
  | prev
  deriving DecidableEq, Repr

/-- The `pNode` and the `eSkip` of an `RbtCursor`. -/
structure RbtCursor where
  pNode : Option Nat
  eSkip : ESkip
  deriving DecidableEq, Repr

/-- The loop of `memRbtreeMoveto`, with `pCur->pNode`, `pTmp` and `*pRes`. -/
def movetoLoop : Nat → BtRbTree → Blob → Option Nat → Option Nat → Int →
    Option (Option Nat × Option Nat × Int)
  | 0, _, _, _, _, _ => none
  | _ + 1, _, _, none, pTmp, res => some (none, pTmp, res)
  | fuel + 1, t, key, some p, pTmp, res =>
    if res = 0 then some (some p, pTmp, res)
    else do
      let node ← t.cells p
      let res := keyCompare node.info.key key
      let next := if res = 1 then node.left else if res = -1 then node.right else some p
      movetoLoop fuel t key next (some p) res

/-- `memRbtreeMoveto`: the cursor, and `*pRes`. -/
def memRbtreeMoveto (fuel : Nat) (t : BtRbTree) (key : Blob) : Option (RbtCursor × Int) := do
  let (pNode, pTmp, res) ← movetoLoop fuel t key t.head none (-1)
  some (⟨pNode.or pTmp, .none⟩, res)

/-- `while( pCur->pNode->pLeft ) pCur->pNode = pCur->pNode->pLeft;` or the same of `pRight`. -/
def descend (d : Side) : Nat → BtRbTree → Nat → Option Nat
  | 0, _, _ => none
  | fuel + 1, t, p => do
    match (← t.cells p).child d with
    | none => some p
    | some q => descend d fuel t q

/-- `while( pCur->pNode && (pCur->pNode->pRight == pX) )` or the same of `pLeft`, with the
assignments in it. -/
def ascend (d : Side) : Nat → BtRbTree → Nat → Option Nat → Option (Option Nat)
  | 0, _, _, _ => none
  | _ + 1, _, _, none => some none
  | fuel + 1, t, pX, some p => do
    let node ← t.cells p
    if node.child d = some pX then ascend d fuel t p node.parent else some (some p)

/-- `if( !pCur->pNode ) *pRes = 1; else *pRes = 0;` -/
def cursorRes (pNode : Option Nat) : Int := if pNode.isNone then 1 else 0

/-- The body of `memRbtreeFirst` and of `memRbtreeLast`. -/
def moveToEnd (d : Side) (fuel : Nat) (t : BtRbTree) (pCur : RbtCursor) :
    Option (RbtCursor × Int) := do
  let pNode ← match t.head with
    | none => some pCur.pNode
    | some p => (descend d fuel t p).map some
  some (⟨pNode, .none⟩, cursorRes pNode)

def memRbtreeFirst := moveToEnd .left

def memRbtreeLast := moveToEnd .right

/-- The body of `memRbtreeNext` and of `memRbtreePrevious`. -/
def moveAlong (d : Side) (skip : ESkip) (fuel : Nat) (t : BtRbTree) (pCur : RbtCursor) :
    Option (RbtCursor × Int) := do
  let pNode ← match pCur.pNode with
    | none => some none
    | some p =>
      if pCur.eSkip = skip then some (some p)
      else do
        let node ← t.cells p
        match node.child d with
        | some q => (descend d.other fuel t q).map some
        | none => ascend d fuel t p node.parent
  some (⟨pNode, .none⟩, cursorRes pNode)

def memRbtreeNext := moveAlong .right .next

def memRbtreePrevious := moveAlong .left .prev

/-- `*pRes` for a cursor above the place of a key that is not there. -/
def placeRes : TreeCtx BtRbRecord → Int
  | .node .left _ _ _ _ => 1
  | _ => -1

theorem placeRes_ne_zero (c : TreeCtx BtRbRecord) : placeRes c ≠ 0 := by
  have h₁ : (1 : Int) ≠ 0 := by decide
  have h₂ : (-1 : Int) ≠ 0 := by decide
  cases c with
  | top => exact h₂
  | node d c q y u =>
    cases d with
    | left => exact h₁
    | right => exact h₂

/-- The place of a key in a tree: all records in front of it are less and all behind it greater. -/
structure Around (key : Blob) (c : TreeCtx BtRbRecord) : Prop where
  before : ∀ r ∈ c.before, r.2.key < key
  after : ∀ r ∈ c.after, key < r.2.key

def SortedTree (t : PTree BtRbRecord) : Prop := t.toList.Pairwise fun a b => a.2.key < b.2.key

theorem sortedTree_iff {t : PTree BtRbRecord} :
    SortedTree t ↔ (treeNodes t).Pairwise fun a b => a.2.1 < b.2.1 := by
  rw [treeNodes, List.pairwise_map]
  rfl

def treeEntries (t : PTree BtRbRecord) : List (Blob × Blob) := (treeNodes t).map Prod.snd

theorem sortedTree_entries {t : PTree BtRbRecord} :
    SortedTree t ↔ (treeEntries t).Pairwise fun a b => a.1 < b.1 := by
  rw [sortedTree_iff, treeEntries, List.pairwise_map]

theorem mem_addrs_iff {t : PTree BtRbRecord} : p ∈ t.addrs ↔ p ∈ (treeNodes t).map Prod.fst := by
  rw [(PTree.addrs_perm t).mem_iff, treeNodes, List.map_map]
  rfl

/-- A red-black tree. The records on the heap are those of the tree. -/
structure HoldsRedBlack (s : BtRbTree) (t : PTree BtRbRecord) : Prop where
  at_top : s.At .top t
  noRedRed : NoRedRed BtRbRecord.isBlack t
  balanced : ∃ n, Balanced BtRbRecord.isBlack t n
  rootBlack : t.isBlack BtRbRecord.isBlack = true
  owned : ∀ p, s.cells p ≠ none → p ∈ t.addrs

/-- A red-black tree with increasing keys, as it is between two operations. -/
structure HoldsTree (s : BtRbTree) (t : PTree BtRbRecord) : Prop extends HoldsRedBlack s t where
  sorted : SortedTree t

/-- A bound on the number of records that a search in a tree with `n` records looks at. -/
def pathBound (n : Nat) : Nat := 2 * Nat.log 2 (n + 1)

theorem HoldsTree.depth_le {s : BtRbTree} {t : PTree BtRbRecord} (h : HoldsTree s t) :
    t.depth ≤ pathBound t.toList.length := by
  obtain ⟨n, hn⟩ := h.balanced
  have hdepth := h.noRedRed.depth_le hn
  rw [h.rootBlack, if_pos rfl, Nat.add_zero] at hdepth
  have hlog : n ≤ Nat.log 2 (t.toList.length + 1) :=
    Nat.le_log_of_pow_le (by decide) hn.pow_le
  rw [pathBound]
  omega

section Moveto
variable {s : BtRbTree} {c : TreeCtx BtRbRecord} {t : PTree BtRbRecord} {key : Blob}

theorem sortedTree_node (h : SortedTree (.node p l x r)) :
    (∀ a ∈ l.toList, a.2.key < x.key) ∧ (∀ a ∈ r.toList, x.key < a.2.key) ∧ SortedTree l ∧
      SortedTree r := by
  rw [SortedTree, PTree.toList, List.pairwise_append, List.pairwise_cons] at h
  obtain ⟨hl, ⟨hx, hr⟩, hlr⟩ := h
  exact ⟨fun a ha => hlr a ha (p, x) List.mem_cons_self, hx, hl, hr⟩

/-- Where `memRbtreeMoveto` ends: at the record with the key, or above the place of the key. -/
inductive MovedTo (s : BtRbTree) (key : Blob) (whole : PTree BtRbRecord) :
    Option (Option Nat × Int) → Prop where
  | found (c : TreeCtx BtRbRecord) (p : Nat) (l r : PTree BtRbRecord) (x : BtRbRecord)
      (hwhole : whole = c.fill (.node p l x r)) (hat : s.At c (.node p l x r))
        (hkey : x.key = key) :
      MovedTo s key whole (some (some p, 0))
  | missing (c : TreeCtx BtRbRecord) (hwhole : whole = c.fill .nil) (hat : s.At c .nil)
      (haround : Around key c) : MovedTo s key whole (some (c.parent, placeRes c))

theorem movetoLoop_found (fuel : Nat) (s : BtRbTree) (key : Blob) (p : Nat) (pTmp : Option Nat) :
    movetoLoop (fuel + 1) s key (some p) pTmp 0 = some (some p, pTmp, 0) := by
  rw [movetoLoop, if_pos rfl]

theorem movetoLoop_spec (fuel : Nat) (hfuel : t.depth < fuel) (h : s.At c t)
    (hsorted : SortedTree t) (haround : Around key c) :
    MovedTo s key (c.fill t) ((movetoLoop fuel s key t.ptr c.parent (placeRes c)).map fun x =>
      (x.1.or x.2.1, x.2.2)) := by
  induction t generalizing c fuel with
  | nil =>
    cases fuel with
    | zero => omega
    | succ fuel => exact .missing c rfl h haround
  | node p l x r ihl ihr =>
    cases fuel with
    | zero => omega
    | succ fuel =>
      obtain ⟨hl, hr, hsl, hsr⟩ := sortedTree_node hsorted
      have hcell : s.cells p = some ⟨x, c.parent, l.ptr, r.ptr⟩ := h.stored.1
      have hres := placeRes_ne_zero c
      rw [PTree.depth] at hfuel
      rw [PTree.ptr, movetoLoop, if_neg hres, hcell]
      simp only [Option.bind_eq_bind, Option.bind_some]
      rcases keyCompare_cases x.key key with ⟨hcmp, hkey⟩ | ⟨hcmp, hkey⟩ | ⟨hcmp, hkey⟩
      · rw [hcmp]
        cases fuel with
        | zero => omega
        | succ fuel =>
          rw [if_neg (by decide), if_neg (by decide), movetoLoop_found]
          exact .found c p l r x rfl h hkey
      · rw [hcmp, if_neg (by decide), if_pos rfl]
        refine ihr fuel (by omega) (TreeHeap.at_down (d := .right).mp h) hsr ⟨?_, haround.after⟩
        intro a ha
        rw [TreeCtx.before, List.append_assoc, List.mem_append, List.mem_append,
          List.mem_singleton] at ha
        rcases ha with ha | ha | rfl
        · exact haround.before a ha
        · exact lt_trans (hl a ha) hkey
        · exact hkey
      · rw [hcmp, if_pos rfl]
        refine ihl fuel (by omega) (TreeHeap.at_down (d := .left).mp h) hsl ⟨haround.before, ?_⟩
        intro a ha
        rw [TreeCtx.after, List.cons_append, List.mem_cons, List.mem_append] at ha
        rcases ha with rfl | ha | ha
        · exact hkey
        · exact lt_trans hkey (hr a ha)
        · exact haround.after a ha

theorem memRbtreeMoveto_spec (fuel : Nat) (hfuel : t.depth < fuel) (h : s.At .top t)
    (hsorted : SortedTree t) (key : Blob) :
    MovedTo s key t ((memRbtreeMoveto fuel s key).map fun x => (x.1.pNode, x.2)) := by
  have hmoved : MovedTo s key t ((movetoLoop fuel s key t.ptr none (-1)).map fun x =>
      (x.1.or x.2.1, x.2.2)) :=
    movetoLoop_spec fuel hfuel h hsorted ⟨by simp [TreeCtx.before], by simp [TreeCtx.after]⟩
  have hhead : s.head = t.ptr := h.head
  rw [memRbtreeMoveto, hhead]
  cases hloop : movetoLoop fuel s key t.ptr none (-1) with
  | none =>
    rw [hloop] at hmoved
    exact hmoved
  | some x =>
    rw [hloop] at hmoved
    exact hmoved

theorem memRbtreeMoveto_cases (fuel : Nat) (hs : HoldsTree s t) (hfuel : t.depth < fuel)
    (key : Blob) :
    (∃ c p l r x, t = TreeCtx.fill c (.node p l x r) ∧ s.At c (.node p l x r) ∧ x.key = key ∧
      memRbtreeMoveto fuel s key = some (⟨some p, .none⟩, 0)) ∨
    ∃ c, t = TreeCtx.fill c .nil ∧ s.At c .nil ∧ Around key c ∧
      memRbtreeMoveto fuel s key = some (⟨c.parent, .none⟩, placeRes c) := by
  have hmove := memRbtreeMoveto_spec fuel hfuel hs.at_top hs.sorted key
  rw [memRbtreeMoveto] at hmove ⊢
  cases hloop : movetoLoop fuel s key s.head none (-1) with
  | none =>
    rw [hloop] at hmove
    cases hmove
  | some a =>
    rw [hloop] at hmove
    generalize hq : ((some a).bind _).map _ = q at hmove
    simp only [Option.bind_eq_bind, Option.bind_some] at hq ⊢
    cases hmove with
    | found c p l r x hwhole hat hkey =>
      simp only [Option.map_some, Option.some.injEq, Prod.mk.injEq] at hq
      exact .inl ⟨c, p, l, r, x, hwhole, hat, hkey, by rw [hq.1, hq.2]⟩
    | missing c hwhole hat haround =>
      simp only [Option.map_some, Option.some.injEq, Prod.mk.injEq] at hq
      exact .inr ⟨c, hwhole, hat, haround, by rw [hq.1, hq.2]⟩

/-- Where a search for a key ends: at its record, or at one that is next to its place. -/
inductive MovetoEnd (t : PTree BtRbRecord) (key : Blob) : Option Nat → Int → Prop where
  | found (ht : t.toList = A ++ (p, x) :: B) (hkey : x.key = key) : MovetoEnd t key (some p) 0
  | less (ht : t.toList = A ++ (p, x) :: B) (hless : x.key < key) (hB : ∀ b ∈ B, key < b.2.key) :
      MovetoEnd t key (some p) (-1)
  | greater (ht : t.toList = A ++ (p, x) :: B) (hgreater : key < x.key)
      (hA : ∀ a ∈ A, a.2.key < key) : MovetoEnd t key (some p) 1
  | empty (ht : t.toList = []) : MovetoEnd t key none (-1)

/-- The search ends after so many records at the record of the key, or next to its place. -/
theorem memRbtreeMoveto_ends (h : HoldsTree s t) (hfuel : pathBound t.toList.length < fuel)
    (key : Blob) :
    ∃ q res, memRbtreeMoveto fuel s key = some (⟨q, .none⟩, res) ∧ MovetoEnd t key q res := by
  have hdepth := h.depth_le
  rcases memRbtreeMoveto_cases fuel h (by omega) key with
    ⟨c, p, l, r, x, rfl, hat, hkey, hrun⟩ | ⟨c, rfl, hat, ⟨hbefore, hafter⟩, hrun⟩
  · refine ⟨some p, 0, hrun,
      .found (A := c.before ++ l.toList) (x := x) (B := r.toList ++ c.after) ?_ hkey⟩
    rw [TreeCtx.toList_fill, PTree.toList]
    simp
  · refine ⟨_, _, hrun, ?_⟩
    have hlist : (c.fill .nil).toList = c.before ++ c.after := by
      rw [TreeCtx.toList_fill]
      simp [PTree.toList]
    cases c with
    | top => exact .empty rfl
    | node d c p x u =>
      cases d with
      | left =>
        rw [TreeCtx.after] at hlist hafter
        exact .greater hlist (hafter (p, x) List.mem_cons_self) hbefore
      | right =>
        rw [TreeCtx.before, List.append_assoc, List.append_assoc, ← List.append_assoc] at hlist
        exact .less hlist (hbefore (p, x) (List.mem_append_right _ List.mem_cons_self)) hafter

def plainRecord (key : Nat) (isBlack : Bool) : BtRbRecord :=
  ⟨[⟨key % 256, Nat.mod_lt key (Nat.zero_lt_succ 255)⟩], [], isBlack⟩

/-- Three black records, with a red one below the first of them. -/
def fourTree : PTree BtRbRecord :=
  .node 4 (.node 2 (.node 9 .nil (plainRecord 1 false) .nil) (plainRecord 2 true) .nil)
    (plainRecord 4 true) (.node 6 .nil (plainRecord 6 true) .nil)

def fourRecords : BtRbTree where
  cells p :=
    if p = 4 then some ⟨plainRecord 4 true, none, some 2, some 6⟩
    else if p = 2 then some ⟨plainRecord 2 true, some 4, some 9, none⟩
    else if p = 9 then some ⟨plainRecord 1 false, some 2, none, none⟩
    else if p = 6 then some ⟨plainRecord 6 true, some 4, none, none⟩
    else none
  head := some 4

theorem holdsTree_four : HoldsTree fourRecords fourTree where
  at_top := ⟨⟨rfl, ⟨rfl, ⟨rfl, trivial, trivial⟩, trivial⟩, rfl, trivial, trivial⟩, trivial, rfl,
    by decide⟩
  noRedRed := ⟨(fun h => by cases h),
    ⟨(fun h => by cases h), ⟨fun _ => ⟨rfl, rfl⟩, trivial, trivial⟩,
    trivial⟩, (fun h => by cases h), trivial, trivial⟩
  balanced := ⟨2, 1, ⟨0, ⟨0, rfl, rfl, rfl⟩, rfl, rfl⟩, ⟨0, rfl, rfl, rfl⟩, rfl⟩
  rootBlack := rfl
  owned p hp := by
    have haddrs : fourTree.addrs = [4, 2, 9, 6] := rfl
    rw [haddrs]
    by_contra hne
    simp only [List.mem_cons, List.not_mem_nil, or_false, not_or] at hne
    obtain ⟨h₁, h₂, h₃, h₄⟩ := hne
    exact hp (by simp only [fourRecords, if_neg h₁, if_neg h₂, if_neg h₃, if_neg h₄])
  sorted := by
    rw [SortedTree]
    decide

/-- A search for a key that is between two of those in the tree. -/
theorem memRbtreeMoveto_ends_between : ∃ q res,
    memRbtreeMoveto 6 fourRecords [5] = some (⟨q, .none⟩, res) ∧ MovetoEnd fourTree [5] q res :=
  memRbtreeMoveto_ends holdsTree_four (by decide) [5]

end Moveto

section Step
variable {s : BtRbTree} {c : TreeCtx BtRbRecord} {t u : PTree BtRbRecord} {d : Side} {skip : ESkip}
  {A B : List (Nat × BtRbRecord)}

theorem descend_spec (d : Side) (fuel : Nat) (hfuel : t.depth ≤ fuel) (h : s.At c t)
    (hp : t.ptr = some p) :
    ∃ r, (t.along d).head? = some r ∧ descend d.other fuel s p = some r.1 := by
  induction fuel generalizing c t p with
  | zero =>
    cases t with
    | nil => cases hp
    | node q l x r =>
      rw [PTree.depth] at hfuel
      omega
  | succ fuel ih =>
    obtain ⟨x, t, u, rfl⟩ := PTree.exists_join d hp
    rw [PTree.depth_join] at hfuel
    rw [PTree.along_join, descend, h.get]
    simp only [Option.bind_eq_bind, Option.bind_some, TreeCell.of_child_other]
    cases u with
    | nil =>
      refine ⟨(p, x), ?_, rfl⟩
      cases d <;> rfl
    | node q l y r =>
      rw [← PTree.join_other] at h
      obtain ⟨z, hz, hrun⟩ := ih (by omega) (TreeHeap.at_down.mp h) rfl
      refine ⟨z, ?_, hrun⟩
      rw [List.head?_append, hz]
      rfl

theorem ascend_spec (d : Side) (fuel : Nat) (hfuel : c.depth < fuel) (h : s.At c t)
    (hp : t.ptr = some pX) :
    ascend d fuel s pX c.parent = some ((c.ahead d).head?.map Prod.fst) := by
  induction c generalizing fuel t pX with
  | top =>
    cases fuel with
    | zero => omega
    | succ fuel => cases d <;> rfl
  | node d' c p x u ih =>
    cases fuel with
    | zero => omega
    | succ fuel =>
      rw [TreeCtx.depth] at hfuel
      have hcell := (TreeHeap.at_down.mpr h).get
      have hne := at_sibling_ne h hp
      rw [TreeCtx.parent, ascend, hcell]
      simp only [Option.bind_eq_bind, Option.bind_some, TreeCell.of_parent]
      by_cases hd : d' = d
      · subst hd
        rw [TreeCell.of_child, if_pos hp, TreeCtx.ahead_same]
        exact ih fuel (by omega) (TreeHeap.at_down.mpr h) (PTree.ptr_join _ _ _ _ _)
      · obtain rfl : d' = d.other := by
          cases d <;> cases d' <;> simp_all [Side.other]
        have hother : (TreeCell.of d.other x c.parent t.ptr u.ptr).child d = u.ptr := by
          rw [TreeCell.of_other, TreeCell.of_child]
        rw [hother, if_neg hne, TreeCtx.ahead_other]
        rfl

theorem moveAlong_focus (hskip : e ≠ skip) (hfuel : (c.fill (.join d p x t u)).depth ≤ fuel)
    (h : s.At c (.join d p x t u)) :
    moveAlong d skip fuel s ⟨some p, e⟩ =
      let q := (t.along d ++ c.ahead d).head?.map Prod.fst
      some (⟨q, .none⟩, cursorRes q) := by
  have hdepth := c.depth_fill (.join d p x t u)
  rw [PTree.depth_join] at hdepth
  simp only [moveAlong, hskip, if_false, h.get, Option.bind_eq_bind, Option.bind_some,
    TreeCell.of_child, TreeCell.of_parent]
  cases t with
  | nil =>
    have hrun := ascend_spec d fuel (by omega) h (PTree.ptr_join _ _ _ _ _)
    have hnil : (PTree.nil : PTree BtRbRecord).along d = [] := by cases d <;> rfl
    rw [hnil, List.nil_append]
    simp only [PTree.ptr, hrun, Option.bind_some]
  | node q l y r =>
    obtain ⟨z, hz, hrun⟩ := descend_spec d fuel (by omega) (TreeHeap.at_down.mp h) rfl
    rw [List.head?_append, hz]
    simp only [PTree.ptr, hrun, Option.map_some, Option.bind_some, Option.some_or]

theorem memRbtreeNext_of (h : s.At .top t) (ht : t.toList = A ++ (p, x) :: B)
    (hfuel : t.depth ≤ fuel) (he : e ≠ .next) :
    memRbtreeNext fuel s ⟨some p, e⟩ =
      some (⟨B.head?.map Prod.fst, .none⟩, cursorRes (B.head?.map Prod.fst)) := by
  obtain ⟨c, l, r, hfill, hA, hB⟩ := TreeCtx.exists_fill .top ht
  rw [TreeCtx.after, List.append_nil] at hB
  have ht : t = c.fill (.join .right p x r l) := hfill
  subst ht
  rw [hB]
  exact moveAlong_focus (d := .right) he hfuel (h.focus c)

theorem memRbtreePrevious_of (h : s.At .top t) (ht : t.toList = A ++ (p, x) :: B)
    (hfuel : t.depth ≤ fuel) (he : e ≠ .prev) :
    memRbtreePrevious fuel s ⟨some p, e⟩ =
      some (⟨A.getLast?.map Prod.fst, .none⟩, cursorRes (A.getLast?.map Prod.fst)) := by
  obtain ⟨c, l, r, hfill, hA, hB⟩ := TreeCtx.exists_fill .top ht
  rw [TreeCtx.before, List.nil_append] at hA
  have ht : t = c.fill (.join .left p x l r) := hfill
  subst ht
  rw [hA, ← List.head?_reverse, List.reverse_append]
  exact moveAlong_focus (d := .left) he hfuel (h.focus c)

/-- `memRbtreeFirst` and `memRbtreeLast` go to the ends of the tree, if it has any records. -/
theorem moveToEnd_spec (h : s.At .top t) (hfuel : t.depth ≤ fuel) (pCur : RbtCursor) :
    moveToEnd d.other fuel s pCur =
      let q := ((t.along d).head?.map Prod.fst).or (if t.toList = [] then pCur.pNode else none)
      some (⟨q, .none⟩, cursorRes q) := by
  rw [moveToEnd, show s.head = t.ptr from h.head]
  cases t with
  | nil => cases d <;> rfl
  | node q l x r =>
    obtain ⟨z, hz, hrun⟩ := descend_spec d fuel hfuel h rfl
    simp only [PTree.ptr, hrun, Option.map_some, Option.bind_eq_bind, Option.bind_some, hz,
      Option.some_or]

/-- So many calls of `memRbtreeNext` or `memRbtreePrevious`. -/
def moveTimes (move : RbtCursor → Option (RbtCursor × Int)) :
    Nat → RbtCursor × Int → Option (RbtCursor × Int)
  | 0, a => some a
  | k + 1, a => (move a.1).bind (moveTimes move k)

/-- The cursor at a record of a list, or at none behind its end. -/
def cursorAt (l : List (Nat × BtRbRecord)) (k : Nat) : RbtCursor × Int :=
  (⟨l[k]?.map Prod.fst, .none⟩, cursorRes (l[k]?.map Prod.fst))

theorem moveTimes_cursorAt {move : RbtCursor → Option (RbtCursor × Int)}
    {l : List (Nat × BtRbRecord)}
    (hend : move ⟨none, .none⟩ = some (⟨none, .none⟩, 1))
    (hmove : ∀ A p x B, l = A ++ (p, x) :: B →
      move ⟨some p, .none⟩ = some (⟨B.head?.map Prod.fst, .none⟩, cursorRes (B.head?.map Prod.fst)))
    (k i : Nat) : moveTimes move k (cursorAt l i) = some (cursorAt l (i + k)) := by
  induction k generalizing i with
  | zero => rfl
  | succ k ih =>
    have hstep : move (cursorAt l i).1 = some (cursorAt l (i + 1)) := by
      rw [cursorAt, cursorAt]
      cases hi : l[i]? with
      | none =>
        have hle := List.getElem?_eq_none_iff.mp hi
        rw [List.getElem?_eq_none_iff.mpr (show l.length ≤ i + 1 by omega)]
        exact hend
      | some r =>
        obtain ⟨hlt, hr⟩ := List.getElem?_eq_some_iff.mp hi
        have hl : l = l.take i ++ (r.1, r.2) :: l.drop (i + 1) := by
          rw [← hr, ← List.drop_eq_getElem_cons hlt, List.take_append_drop]
        rw [Option.map_some, hmove _ _ _ _ hl, List.head?_drop]
    rw [moveTimes, hstep, Option.bind_some, ih, Nat.add_right_comm, Nat.add_assoc]

/-- `memRbtreeFirst` and then `memRbtreeNext` go through all records in the order of their keys, and
`memRbtreeLast` and `memRbtreePrevious` back, with a bounded number of steps for each move. -/
theorem rbtreeScan_spec (h : HoldsTree s t) (hfuel : pathBound t.toList.length < fuel)
    (hcur : t.toList = [] → pCur.pNode = none) (k : Nat) :
    (memRbtreeFirst fuel s pCur).bind (moveTimes (memRbtreeNext fuel s) k) =
      some (cursorAt t.toList k) ∧
    (memRbtreeLast fuel s pCur).bind (moveTimes (memRbtreePrevious fuel s) k) =
      some (cursorAt t.toList.reverse k) := by
  have hdepth : t.depth ≤ fuel := h.depth_le.trans (Nat.le_of_lt hfuel)
  have hstart (q : Option Nat) :
      q.or (if t.toList = [] then pCur.pNode else none) = q := by
    split
    · rename_i hnil
      rw [hcur hnil, Option.or_none]
    · exact Option.or_none
  have hzero (l : List (Nat × BtRbRecord)) : cursorAt l 0 =
      (⟨l.head?.map Prod.fst, .none⟩, cursorRes (l.head?.map Prod.fst)) := by
    rw [cursorAt, List.head?_eq_getElem?]
  constructor
  · have hfirst := moveToEnd_spec (d := .right) h.at_top hdepth pCur
    simp only [PTree.along, hstart, ← hzero] at hfirst
    rw [show memRbtreeFirst fuel s pCur = _ from hfirst, Option.bind_some,
      moveTimes_cursorAt rfl ?_ k 0, Nat.zero_add]
    intro A p x B ht
    exact memRbtreeNext_of h.at_top ht hdepth (by decide)
  · have hlast := moveToEnd_spec (d := .left) h.at_top hdepth pCur
    simp only [PTree.along, hstart, ← hzero] at hlast
    rw [show memRbtreeLast fuel s pCur = _ from hlast, Option.bind_some,
      moveTimes_cursorAt rfl ?_ k 0, Nat.zero_add]
    intro A p x B ht
    have ht : t.toList = B.reverse ++ (p, x) :: A.reverse := by
      rw [← List.reverse_reverse t.toList, ht]
      simp
    have hprev := memRbtreePrevious_of h.at_top ht hdepth (show ESkip.none ≠ .prev by decide)
    rwa [List.getLast?_reverse] at hprev

/-- The third of four records, from both ends. -/
theorem rbtreeScan_spec_four :
    (memRbtreeFirst 6 fourRecords ⟨none, .none⟩).bind
        (moveTimes (memRbtreeNext 6 fourRecords) 2) = some (cursorAt fourTree.toList 2) ∧
      (memRbtreeLast 6 fourRecords ⟨none, .none⟩).bind
        (moveTimes (memRbtreePrevious 6 fourRecords) 2) =
        some (cursorAt fourTree.toList.reverse 2) :=
  rbtreeScan_spec holdsTree_four (by decide) (fun h => absurd h (by decide)) 2

example : cursorAt fourTree.toList 2 = (⟨some 4, .none⟩, 0) ∧
    cursorAt fourTree.toList.reverse 2 = (⟨some 2, .none⟩, 0) := by decide

end Step

end Pkgtools
