import Pkgtools.RbtreeDelete

namespace Pkgtools
open CLib
set_option autoImplicit true

/-- `Rbtree.eTransState`. -/
inductive TransState where
  | none
  | inTransaction
  | inCheckpoint
  | rollback
  deriving DecidableEq, Repr

/-- A `BtRollbackOp`. -/
inductive RollbackOp where
  | insert (iTab : Nat) (key data : Blob)
  | delete (iTab : Nat) (key : Blob)
  | create (iTab : Nat)
  | drop (iTab : Nat)
  deriving DecidableEq, Repr

/-- An `Rbtree`. The lists of operations are Lean lists; `pCheckRollbackTail` is the end of one. -/
structure Rbtree where
  aMetaData : List Int
  nextIdx : Nat
  tblHash : Nat → Option BtRbTree
  eTransState : TransState
  pTransRollback : List RollbackOp
  pCheckRollback : List RollbackOp

/-- What the runs rest on: `sqliteMalloc` gives a free address, and no loop is cut short. -/
structure Runtime where
  malloc : BtRbTree → Nat
  fuel : BtRbTree → Nat
  malloc_free : ∀ s t, HoldsTree s t → s.cells (malloc s) = none
  fuel_enough : ∀ s t, HoldsTree s t → 3 * t.toList.length + 3 ≤ fuel s

namespace Rbtree

def setTable (tree : Rbtree) (n : Nat) (t : Option BtRbTree) : Rbtree :=
  { tree with tblHash := Function.update tree.tblHash n t }

end Rbtree

def btreeCreateTable (tree : Rbtree) (n : Nat) : Rbtree :=
  tree.setTable n (some ⟨fun _ => none, none⟩)

def btreeLogRollbackOp (tree : Rbtree) (op : RollbackOp) : Option Rbtree :=
  match tree.eTransState with
  | .inTransaction => some { tree with pTransRollback := op :: tree.pTransRollback }
  | .inCheckpoint => some { tree with pCheckRollback := op :: tree.pCheckRollback }
  -- assert( pRbtree->eTransState == TRANS_INCHECKPOINT || ... == TRANS_INTRANSACTION );
  | _ => none

/-- `if( pRbtree->eTransState != TRANS_ROLLBACK )` and the logging in it. -/
def logUnlessRollback (tree : Rbtree) (op : RollbackOp) : Option Rbtree :=
  if tree.eTransState = .rollback then some tree else btreeLogRollbackOp tree op

def sqliteRbtreeOpen : Rbtree :=
  btreeCreateTable ⟨[0, 0, 4] ++ List.replicate 7 0, 3, fun _ => none, .none, [], []⟩ 2

def memRbtreeCreateTable (tree : Rbtree) : Option (Rbtree × Nat) := do
  -- assert( tree->eTransState != TRANS_NONE );
  guard (tree.eTransState ≠ .none)
  let n := tree.nextIdx
  let tree := btreeCreateTable { tree with nextIdx := n + 1 } n
  some (← logUnlessRollback tree (.drop n), n)

/-- The loop of `memRbtreeClearTable`. -/
def clearLoop : Nat → Rbtree → Nat → BtRbTree → Option Nat → Option (Rbtree × BtRbTree)
  | 0, _, _, _, _ => none
  | _ + 1, tree, _, t, none => some (tree, t)
  | fuel + 1, tree, n, t, some pNode => do
    let node ← t.cells pNode
    if node.left.isSome then clearLoop fuel tree n t node.left
    else if node.right.isSome then clearLoop fuel tree n t node.right
    else
      let tree ← logUnlessRollback tree (.insert n node.info.key node.info.data)
      let t := t.put pNode none
      let t ← match node.parent with
        | none => some t
        | some pTmp => t.modify pTmp fun c =>
          if c.left = some pNode then { c with left := none }
          else if c.right = some pNode then { c with right := none } else c
      clearLoop fuel tree n t node.parent

def memRbtreeClearTable (M : Runtime) (tree : Rbtree) (n : Nat) : Option Rbtree := do
  -- assert(pTree);
  let t ← tree.tblHash n
  let (tree, t) ← clearLoop (M.fuel t) tree n t t.head
  some (tree.setTable n (some { t with head := none }))

def memRbtreeDropTable (M : Runtime) (tree : Rbtree) (n : Nat) : Option Rbtree := do
  -- assert( tree->eTransState != TRANS_NONE );
  guard (tree.eTransState ≠ .none)
  let tree ← memRbtreeClearTable M tree n
  logUnlessRollback (tree.setTable n none) (.create n)

/-- `memRbtreeInsert` with a cursor for the table `iTree`. -/
def memRbtreeInsert (M : Runtime) (tree : Rbtree) (iTree : Nat) (key data : Blob) :
    Option (Rbtree × RbtCursor) := do
  -- assert( pCur->pRbtree->eTransState != TRANS_NONE );
  guard (tree.eTransState ≠ .none)
  let t ← tree.tblHash iTree
  let (pCur, match_) ← memRbtreeMoveto (M.fuel t) t key
  if match_ ≠ 0 then
    let pNode := M.malloc t
    let t ← insertNode (M.fuel t) t pCur.pNode match_ pNode key data
    let tree ← logUnlessRollback tree (.delete iTree key)
    some (tree.setTable iTree (some t), { pCur with pNode := some pNode })
  else
    let pNode ← pCur.pNode
    let node ← t.cells pNode
    let tree ← logUnlessRollback tree (.insert iTree node.info.key node.info.data)
    let t ← t.modify pNode fun n => { n with info := { n.info with data } }
    some (tree.setTable iTree (some t), pCur)

def memRbtreeDelete (M : Runtime) (tree : Rbtree) (iTree : Nat) (pCur : RbtCursor) :
    Option (Rbtree × RbtCursor) := do
  -- assert( pCur->pRbtree->eTransState != TRANS_NONE );
  guard (tree.eTransState ≠ .none)
  match pCur.pNode with
  | none => some (tree, pCur)
  | some pZ =>
    let t ← tree.tblHash iTree
    let z ← t.cells pZ
    let tree ← logUnlessRollback tree (.insert iTree z.info.key z.info.data)
    let (t, pCur) ← deleteNode (M.fuel t) t pZ
    some (tree.setTable iTree (some t), pCur)

/-- The new tree, and `SQLITE_OK` or `SQLITE_ERROR`. -/
def memRbtreeBeginTrans (tree : Rbtree) : Option (Rbtree × Int) :=
  if tree.eTransState ≠ .none then some (tree, 1)
  else do
    -- assert( tree->pTransRollback == 0 );
    guard (tree.pTransRollback = [])
    some ({ tree with eTransState := .inTransaction }, 0)

def memRbtreeCommit (tree : Rbtree) : Rbtree :=
  { tree with eTransState := .none, pTransRollback := [], pCheckRollback := [] }

/-- One operation of `execute_rollback_list`. -/
def executeRollbackOp (M : Runtime) (tree : Rbtree) : RollbackOp → Option Rbtree
  | .insert iTab key data => (memRbtreeInsert M tree iTab key data).map Prod.fst
  | .delete iTab key => do
    let t ← tree.tblHash iTab
    let (pCur, res) ← memRbtreeMoveto (M.fuel t) t key
    -- assert(res == 0);
    guard (res = 0)
    (memRbtreeDelete M tree iTab pCur).map Prod.fst
  | .create iTab => some (btreeCreateTable tree iTab)
  | .drop iTab => memRbtreeDropTable M tree iTab

def executeRollbackList (M : Runtime) : Rbtree → List RollbackOp → Option Rbtree
  | tree, [] => some tree
  | tree, op :: pList => do executeRollbackList M (← executeRollbackOp M tree op) pList

def memRbtreeRollback (M : Runtime) (tree : Rbtree) : Option Rbtree := do
  let tree := { tree with eTransState := .rollback }
  let tree ← executeRollbackList M tree tree.pCheckRollback
  let tree ← executeRollbackList M tree tree.pTransRollback
  some { tree with eTransState := .none, pTransRollback := [], pCheckRollback := [] }

def memRbtreeBeginCkpt (tree : Rbtree) : Option (Rbtree × Int) :=
  if tree.eTransState ≠ .inTransaction then some (tree, 1)
  else do
    -- assert( tree->pCheckRollback == 0 ); the tail of the list is 0 when its head is
    guard (tree.pCheckRollback = [])
    some ({ tree with eTransState := .inCheckpoint }, 0)

def memRbtreeCommitCkpt (tree : Rbtree) : Rbtree :=
  if tree.eTransState = .inCheckpoint then
    { tree with pTransRollback := tree.pCheckRollback ++ tree.pTransRollback, pCheckRollback := [],
                eTransState := .inTransaction }
  else tree

def memRbtreeRollbackCkpt (M : Runtime) (tree : Rbtree) : Option Rbtree :=
  if tree.eTransState ≠ .inCheckpoint then some tree
  else do
    let tree ← executeRollbackList M { tree with eTransState := .rollback } tree.pCheckRollback
    some { tree with pCheckRollback := [], eTransState := .inTransaction }

/-- The tables by their numbers: the data of each key. -/
abbrev RbtTables := Nat → Option (Blob → Option Blob)

def treeContents (t : PTree BtRbRecord) (key : Blob) : Option Blob := (treeEntries t).lookup key

inductive HoldsTable : Option BtRbTree → Option (Blob → Option Blob) → Prop where
  | none : HoldsTable none none
  | some (h : HoldsTree s t) : HoldsTable (some s) (some (treeContents t))

theorem holdsTree_nil : HoldsTree ⟨fun _ => none, none⟩ .nil :=
  ⟨⟨⟨trivial, trivial, rfl, List.nodup_nil⟩, trivial, ⟨0, rfl⟩, rfl, fun _ hq => absurd rfl hq⟩,
    List.Pairwise.nil⟩

/-- Each table is a red-black tree with the records of the store. -/
def HoldsStore (tblHash : Nat → Option BtRbTree) (st : RbtTables) : Prop :=
  ∀ n, HoldsTable (tblHash n) (st n)

/-- What a rollback operation does to the store. -/
def undo (st : RbtTables) : RollbackOp → RbtTables
  | .insert n key data =>
    Function.update st n ((st n).map fun T => Function.update T key (some data))
  | .delete n key => Function.update st n ((st n).map fun T => Function.update T key none)
  | .create n => Function.update st n (some fun _ => none)
  | .drop n => Function.update st n none

def Undoable (st : RbtTables) : RollbackOp → Prop
  | .insert n _ _ => st n ≠ none
  | .delete n key => ∃ T, st n = some T ∧ T key ≠ none
  | .create n => st n = none
  | .drop n => st n ≠ none

def Undoes : List RollbackOp → RbtTables → RbtTables → Prop
  | [], st, st' => st = st'
  | op :: ops, st, st' => Undoable st op ∧ Undoes ops (undo st op) st'

namespace Rbtree

/-- The operations are put in front of the list of the transaction or of the checkpoint. -/
def pushLog (tree : Rbtree) (ops : List RollbackOp) : Rbtree :=
  match tree.eTransState with
  | .inTransaction => { tree with pTransRollback := ops ++ tree.pTransRollback }
  | .inCheckpoint => { tree with pCheckRollback := ops ++ tree.pCheckRollback }
  | _ => tree

variable (tree : Rbtree) (n : Nat) (t : Option BtRbTree) (ops ops' : List RollbackOp)

@[simp] theorem pushLog_state : (tree.pushLog ops).eTransState = tree.eTransState := by
  rw [pushLog]
  split <;> rfl

@[simp] theorem pushLog_tblHash : (tree.pushLog ops).tblHash = tree.tblHash := by
  rw [pushLog]
  split <;> rfl

@[simp] theorem setTable_state : (tree.setTable n t).eTransState = tree.eTransState := rfl

@[simp] theorem setTable_tblHash :
    (tree.setTable n t).tblHash = Function.update tree.tblHash n t := rfl

theorem setTable_setTable (t' : Option BtRbTree) :
    (tree.setTable n t).setTable n t' = tree.setTable n t' := by
  simp only [setTable, Function.update_idem]

theorem pushLog_setTable : (tree.pushLog ops).setTable n t = (tree.setTable n t).pushLog ops := by
  rw [pushLog, pushLog, setTable_state]
  split <;> rfl

theorem pushLog_pushLog : (tree.pushLog ops).pushLog ops' = tree.pushLog (ops' ++ ops) := by
  rw [pushLog, pushLog_state, pushLog, pushLog]
  cases tree.eTransState <;> simp

theorem pushLog_nil : tree.pushLog [] = tree := by
  rw [pushLog]
  split <;> rfl

end Rbtree

theorem logUnlessRollback_eq {tree : Rbtree} (h : tree.eTransState ≠ .none) (op : RollbackOp) :
    logUnlessRollback tree op = some (tree.pushLog [op]) := by
  rw [logUnlessRollback, btreeLogRollbackOp, Rbtree.pushLog]
  cases hs : tree.eTransState with
  | none => exact absurd hs h
  | inTransaction => rfl
  | inCheckpoint => rfl
  | rollback => rfl

section Contents
variable {A B : List (Blob × Blob)} {t t' : PTree BtRbRecord}

theorem lookup_eq_none (h : ∀ a ∈ A, a.1 ≠ key) : A.lookup key = none := by
  rw [List.lookup_eq_none_iff]
  intro a ha
  simpa using (h a ha).symm

theorem contents_middle (h : (A ++ (key, data) :: B).Pairwise fun a b => a.1 < b.1) :
    (fun k => (A ++ (key, data) :: B).lookup k) =
      Function.update (fun k => (A ++ B).lookup k) key (some data) ∧ (A ++ B).lookup key =
        none := by
  rw [List.pairwise_append, List.pairwise_cons] at h
  obtain ⟨-, ⟨hB, -⟩, hAB⟩ := h
  have hA : A.lookup key = none :=
    lookup_eq_none fun a ha => ne_of_lt (hAB a ha (key, data) List.mem_cons_self)
  have hB : B.lookup key = none := lookup_eq_none fun b hb => (ne_of_lt (hB b hb)).symm
  constructor
  · funext k
    by_cases hk : k = key
    · subst hk
      rw [Function.update_self, List.lookup_append, hA, Option.none_or, List.lookup_cons_self]
    · have hne : (k == key) = false := beq_eq_false_iff_ne.mpr hk
      rw [Function.update_of_ne hk, List.lookup_append, List.lookup_append, List.lookup_cons, hne]
  · rw [List.lookup_append, hA, hB]
    rfl

theorem contents_insert (h : SortedTree t') (ht : treeEntries t = A ++ B)
    (ht' : treeEntries t' = A ++ (key, data) :: B) :
    treeContents t' = Function.update (treeContents t) key (some data) ∧ treeContents t key =
      none := by
  have hmid := contents_middle (ht' ▸ sortedTree_entries.mp h)
  rw [← ht, ← ht'] at hmid
  exact hmid

theorem contents_replace (h : SortedTree t) (ht : treeEntries t = A ++ (key, old) :: B)
    (ht' : treeEntries t' = A ++ (key, data) :: B) :
    treeContents t' = Function.update (treeContents t) key (some data) ∧ treeContents t key =
      some old := by
  have hpair := ht ▸ sortedTree_entries.mp h
  have hmid := contents_middle hpair
  have hpair' : (A ++ (key, data) :: B).Pairwise fun a b => a.1 < b.1 := by
    rw [List.pairwise_append, List.pairwise_cons] at hpair ⊢
    obtain ⟨hA, hB, hAB⟩ := hpair
    refine ⟨hA, hB, fun a ha b hb => ?_⟩
    rcases List.mem_cons.mp hb with rfl | hb
    · exact hAB a ha (key, old) List.mem_cons_self
    · exact hAB a ha b (List.mem_cons_of_mem _ hb)
  have hmid' := contents_middle hpair'
  rw [← ht] at hmid
  rw [← ht'] at hmid'
  have hold : treeContents t = _ := hmid.1
  have hnew : treeContents t' = _ := hmid'.1
  rw [hnew, hold, Function.update_idem, Function.update_self]
  exact ⟨rfl, rfl⟩

theorem contents_delete (t' : PTree BtRbRecord) (h : SortedTree t)
    (ht : treeEntries t = A ++ (key, data) :: B)
    (ht' : treeEntries t' = A ++ B) :
    treeContents t' = Function.update (treeContents t) key none ∧ treeContents t key =
      some data := by
  have hmid := contents_middle (ht ▸ sortedTree_entries.mp h)
  rw [← ht, ← ht'] at hmid
  have hold : treeContents t = _ := hmid.1
  have hnone : treeContents t' key = none := hmid.2
  have hself : Function.update (treeContents t') key none = treeContents t' := by
    rw [← hnone, Function.update_eq_self]
  rw [hold, Function.update_idem, Function.update_self]
  exact ⟨hself.symm, rfl⟩

end Contents

section Operations
variable {M : Runtime} {tree : Rbtree} {st : RbtTables} {n : Nat} {T : Blob → Option Blob}

theorem HoldsStore.update {tblHash : Nat → Option BtRbTree} {s : Option BtRbTree}
    {T : Option (Blob → Option Blob)} (h : HoldsStore tblHash st) (n : Nat)
    (hn : HoldsTable s T) : HoldsStore (Function.update tblHash n s) (Function.update st n T) := by
  intro m
  by_cases hm : m = n
  · subst hm
    rwa [Function.update_self, Function.update_self]
  · rw [Function.update_of_ne hm, Function.update_of_ne hm]
    exact h m

theorem HoldsStore.table (h : HoldsStore tree.tblHash st) (hT : st n = some T) :
    ∃ s t, tree.tblHash n = some s ∧ HoldsTree s t ∧ T = treeContents t := by
  have hn := h n
  rw [hT] at hn
  cases htree : tree.tblHash n with
  | none =>
    rw [htree] at hn
    cases hn
  | some s =>
    rw [htree] at hn
    cases hn with
    | some hs => exact ⟨s, _, rfl, hs, rfl⟩

theorem depth_le_length (t : PTree BtRbRecord) : t.depth ≤ t.toList.length := by
  induction t with
  | nil => exact Nat.le_refl 0
  | node p l x r ihl ihr =>
    rw [PTree.depth, PTree.toList, List.length_append, List.length_cons]
    omega

theorem Runtime.depth_lt (M : Runtime) (h : HoldsTree s t) : t.depth + 1 < M.fuel s := by
  have hfuel := M.fuel_enough s t h
  have hdepth := depth_le_length t
  omega

def undoInsert (n : Nat) (key : Blob) : Option Blob → RollbackOp
  | none => .delete n key
  | some old => .insert n key old

theorem memRbtreeInsert_spec (M : Runtime) (h : HoldsStore tree.tblHash st)
    (hstate : tree.eTransState ≠ .none) (hT : st n = some T) (key data : Blob) :
    ∃ t' pCur, memRbtreeInsert M tree n key data =
        some ((tree.setTable n (some t')).pushLog [undoInsert n key (T key)], pCur) ∧
      HoldsStore (Function.update tree.tblHash n (some t'))
        (Function.update st n (some (Function.update T key (some data)))) := by
  obtain ⟨s, t, htree, hs, rfl⟩ := h.table hT
  have hdepth := M.depth_lt hs
  rcases memRbtreeMoveto_cases (M.fuel s) hs (by omega) key with
    ⟨c, p, l, r, x, rfl, hat, rfl, hrun⟩ | ⟨c, rfl, hat, haround, hrun⟩
  · obtain ⟨s', hset, hs'⟩ := holdsTree_setData hs data
    have hcell : s.cells p = some ⟨x, c.parent, l.ptr, r.ptr⟩ := hat.stored.1
    have ht := treeNodes_fill_node c p l r x
    have ht' := treeNodes_fill_node c p l r { x with data }
    obtain ⟨hnew, hold⟩ := contents_replace (A := (c.before.map nodeOf ++ l.toList.map nodeOf).map
      Prod.snd) (B := (r.toList.map nodeOf ++ c.after.map nodeOf).map Prod.snd) hs.sorted
      (by rw [treeEntries, ht, List.map_append, List.map_cons])
      (by rw [treeEntries, ht', List.map_append, List.map_cons])
    refine ⟨s', ⟨some p, .none⟩, ?_, ?_⟩
    · simp only [memRbtreeInsert, guard, hstate, ne_eq, not_false_eq_true, if_true, Option.pure_def,
        Option.bind_eq_bind, Option.bind_some, htree, hrun, not_true_eq_false, if_false, hcell,
        logUnlessRollback_eq hstate, hset, Rbtree.pushLog_setTable, hold, undoInsert]
    · rw [← hnew]
      exact h.update n (.some hs')
  · have hfree := M.malloc_free s _ hs
    have hdepth_c := c.depth_fill .nil
    obtain ⟨s', t', hins, hs', hnodes⟩ := insertNode_spec data hs haround hfree
      (show c.depth < M.fuel s by omega)
    obtain ⟨hnew, hold⟩ := contents_insert (t := c.fill .nil)
      (A := (c.before.map nodeOf).map Prod.snd)
      (B := (c.after.map nodeOf).map Prod.snd) hs'.sorted
      (by rw [treeEntries, treeNodes, TreeCtx.toList_fill]; simp [PTree.toList])
      (by rw [treeEntries, hnodes, List.map_append, List.map_cons])
    refine ⟨s', ⟨some (M.malloc s), .none⟩, ?_, ?_⟩
    · simp only [memRbtreeInsert, guard, hstate, ne_eq, not_false_eq_true, if_true, Option.pure_def,
        Option.bind_eq_bind, Option.bind_some, htree, hrun, placeRes_ne_zero, hins,
        logUnlessRollback_eq hstate, Rbtree.pushLog_setTable, hold, undoInsert]
    · rw [← hnew]
      exact h.update n (.some hs')

/-- A cursor in a table is at one of its records. -/
theorem exists_record (hs : HoldsTree s t) (hp : s.cells p = some node) :
    ∃ A B, t.toList = A ++ (p, node.info) :: B := by
  have hmem := hs.owned p (by rw [hp]; exact Option.some_ne_none _)
  rw [(PTree.addrs_perm t).mem_iff, List.mem_map] at hmem
  obtain ⟨⟨q, x⟩, hx, rfl⟩ := hmem
  obtain ⟨A, B, ht⟩ := List.append_of_mem hx
  obtain ⟨c, l, r, hfill, -, -⟩ := TreeCtx.exists_fill .top ht
  have hat : s.At .top (c.fill (.node q l x r)) := (show t = c.fill _ from hfill) ▸ hs.at_top
  have hcell : s.cells q = some ⟨x, c.parent, l.ptr, r.ptr⟩ := (hat.focus c).stored.1
  rw [hcell] at hp
  cases hp
  exact ⟨A, B, ht⟩

theorem memRbtreeDelete_spec (M : Runtime) (h : HoldsStore tree.tblHash st)
    (hstate : tree.eTransState ≠ .none) (hn : tree.tblHash n = some s) (hp : s.cells p = some node)
    (e : ESkip) :
    ∃ T t' pCur, st n = some T ∧ T node.info.key = some node.info.data ∧
      memRbtreeDelete M tree n ⟨some p, e⟩ = some ((tree.setTable n (some t')).pushLog
        [.insert n node.info.key node.info.data], pCur) ∧
      HoldsStore (Function.update tree.tblHash n (some t'))
        (Function.update st n (some (Function.update T node.info.key none))) := by
  have htab := h n
  rw [hn] at htab
  cases hT : st n with
  | none =>
    rw [hT] at htab
    cases htab
  | some T =>
    rw [hT] at htab
    cases htab with
    | some hs =>
      rename_i t
      obtain ⟨A, B, ht⟩ := exists_record hs hp
      obtain ⟨s', t', A', B', hrun, hs', hnodes, hA, hB⟩ := deleteNode_spec hs ht (M.depth_lt hs)
      obtain ⟨hnew, hold⟩ := contents_delete t' (A := (A.map nodeOf).map Prod.snd)
        (B := (B.map nodeOf).map Prod.snd) hs.sorted
        (by rw [treeEntries, treeNodes, ht, List.map_append, List.map_cons, List.map_append,
          List.map_cons])
        (by rw [treeEntries, hnodes, List.map_append, hA, hB])
      have hnew : treeContents t' = Function.update (treeContents t) node.info.key none := hnew
      refine ⟨treeContents t, s', cursorBetween A' B', rfl, hold, ?_, ?_⟩
      · simp only [memRbtreeDelete, guard, hstate, ne_eq, not_false_eq_true, if_true,
          Option.pure_def, Option.bind_eq_bind, Option.bind_some, hn, hp,
          logUnlessRollback_eq hstate, hrun, Rbtree.pushLog_setTable]
      · rw [← hnew]
        exact h.update n (.some hs')

/-- The records around an empty subtree are there, and so are those of the tree `t` that is still to
be freed. -/
structure Clearing (s : BtRbTree) (c : TreeCtx BtRbRecord) (t : PTree BtRbRecord) : Prop where
  stored : Stored s.cells c.parent t
  ctx : StoredCtx s.cells c t.ptr
  nodup : (t.addrs ++ c.addrs).Nodup

/-- What freeing a subtree leaves: the records around it with nothing in its place. -/
structure Cleared (s s' : BtRbTree) (c : TreeCtx BtRbRecord) (t : PTree BtRbRecord) : Prop where
  ctx : StoredCtx s'.cells c none
  freed : ∀ q ∈ t.addrs, s'.cells q = none
  other : ∀ q, q ∉ t.addrs → q ∉ c.addrs → s'.cells q = s.cells q

def insertAll (n : Nat) (l : List (Blob × Blob)) : List RollbackOp :=
  l.map fun r => .insert n r.1 r.2

theorem clearLoop_leaf (h : Clearing s c (.node p .nil x .nil)) (hstate : tree.eTransState ≠ .none)
    (n fuel : Nat) :
    ∃ s', clearLoop (fuel + 1) tree n s (some p) =
        clearLoop fuel (tree.pushLog [.insert n x.key x.data]) n s' c.parent ∧
      Cleared s s' c (.node p .nil x .nil) := by
  obtain ⟨⟨hcell, -, -⟩, hctx, hn⟩ := h
  obtain ⟨hpc, hcn⟩ := List.nodup_cons.mp hn
  have hput : StoredCtx (s.put p none).cells c (some p) := by
    refine hctx.congr fun q hq => TreeHeap.put_ne s ?_ none
    rintro rfl
    exact hpc hq
  have hself : (s.put p none).cells p = none := TreeHeap.put_self s p none
  cases c with
  | top =>
    refine ⟨s.put p none, ?_, trivial, ?_, fun q hq _ => TreeHeap.put_ne s ?_ none⟩
    · rw [clearLoop, hcell]
      simp only [Option.bind_eq_bind, Option.bind_some, PTree.ptr, Option.isSome_none,
        Bool.false_eq_true, if_false, logUnlessRollback_eq hstate, TreeCtx.parent]
    · intro q hq
      rw [List.mem_singleton.mp hq, hself]
    · rintro rfl
      exact hq List.mem_cons_self
  | node d c q y u =>
    have hq : (s.put p none).cells q = some (.of d y c.parent (some p) u.ptr) := hput.1
    have hup : u.ptr ≠ some p := by
      intro he
      exact hpc (List.mem_cons_of_mem _ (List.mem_append_left _ (PTree.mem_addrs_of_ptr he)))
    have hqp : p ≠ q := by
      rintro rfl
      exact hpc List.mem_cons_self
    let s' := (s.put p none).put q (some (.of d y c.parent none u.ptr))
    have hmod : (s.put p none).modify q (fun c => if c.left = some p then { c with left := none }
        else if c.right = some p then { c with right := none } else c) = some s' := by
      rw [TreeHeap.modify_eq hq]
      cases d with
      | left =>
        rw [if_pos (show (TreeCell.of .left y c.parent (some p) u.ptr).left = some p from rfl)]
        rfl
      | right =>
        rw [if_neg (show ¬ (TreeCell.of .right y c.parent (some p) u.ptr).left = some p from hup),
          if_pos (show (TreeCell.of .right y c.parent (some p) u.ptr).right = some p from rfl)]
        rfl
    refine ⟨s', ?_, ?_, ?_, ?_⟩
    · rw [clearLoop, hcell]
      simp only [Option.bind_eq_bind, Option.bind_some, PTree.ptr, Option.isSome_none,
        Bool.false_eq_true, if_false, logUnlessRollback_eq hstate, TreeCtx.parent, hmod]
    · refine hput.rehole hcn ?_ fun r _ hr =>
        TreeHeap.put_ne _ (fun he => hr (congrArg some he.symm)) _
      rintro _ _ _ _ _ ⟨⟩
      rw [TreeHeap.put_self, hq, Option.map_some, TreeCell.of_setChild]
    · intro r hr
      rw [List.mem_singleton.mp hr, TreeHeap.put_ne _ hqp, hself]
    · intro r hr hrc
      have hrq : r ≠ q := by
        rintro rfl
        exact hrc List.mem_cons_self
      have hrp : r ≠ p := by
        rintro rfl
        exact hr List.mem_cons_self
      rw [TreeHeap.put_ne _ hrq, TreeHeap.put_ne s hrp]

theorem Cleared.refl (hctx : StoredCtx s.cells c none) : Cleared s s c .nil := by
  refine ⟨hctx, ?_, fun _ _ _ => rfl⟩
  intro q hq
  cases hq

theorem insertAll_append (n : Nat) (l l' : List (Blob × Blob)) :
    insertAll n l ++ insertAll n l' = insertAll n (l ++ l') := (List.map_append).symm

/-- A subtree is freed, and its records are logged. -/
theorem clearLoop_spec (h : Clearing s c t) (hp : t.ptr = some p)
    (hstate : tree.eTransState ≠ .none)
    (n fuel : Nat) (hfuel : 3 * t.toList.length ≤ fuel) :
    ∃ s' l fuel', clearLoop fuel tree n s (some p) =
        clearLoop fuel' (tree.pushLog (insertAll n l)) n s' c.parent ∧
      fuel ≤ fuel' + 3 * t.toList.length ∧ l.Perm (treeEntries t) ∧ Cleared s s' c t := by
  induction t generalizing s c tree fuel p with
  | nil => cases hp
  | node q l x r ihl ihr =>
    obtain rfl : q = p := Option.some.inj hp
    obtain ⟨⟨hcell, hl, hr⟩, hctx, hn⟩ := h
    rw [PTree.toList, List.length_append, List.length_cons] at hfuel ⊢
    have hctxl : StoredCtx s.cells (.node .left c q x r) l.ptr := ⟨hcell, hr, hctx⟩
    have hnl : (l.addrs ++ (TreeCtx.node .left c q x r).addrs).Nodup := by
      refine (List.Perm.nodup_iff ?_).mp hn
      rw [PTree.addrs, TreeCtx.addrs, List.cons_append, List.append_assoc]
      exact List.perm_middle.symm
    -- first the left subtree
    have hleft : ∃ s₁ l₁ fuel₁, clearLoop fuel tree n s (some q) =
          clearLoop fuel₁ (tree.pushLog (insertAll n l₁)) n s₁ (some q) ∧
        fuel ≤ fuel₁ + 3 * l.toList.length + 1 ∧ l₁.Perm (treeEntries l) ∧
        Cleared s s₁ (.node .left c q x r) l := by
      cases hlp : l.ptr with
      | none =>
        cases l with
        | nil =>
          refine ⟨s, [], fuel, ?_, by omega, .refl _, .refl hctxl⟩
          rw [insertAll, List.map_nil, Rbtree.pushLog_nil]
        | node _ _ _ _ => cases hlp
      | some pl =>
        obtain ⟨fuel, rfl⟩ : ∃ k, fuel = k + 1 := ⟨fuel - 1, by omega⟩
        obtain ⟨s₁, l₁, fuel₁, hrun, hle, hperm, hclear⟩ :=
          ihl (c := .node .left c q x r) ⟨hl, hctxl, hnl⟩ hlp hstate fuel (by omega)
        refine ⟨s₁, l₁, fuel₁, ?_, by omega, hperm, hclear⟩
        rw [clearLoop, hcell]
        simp only [Option.bind_eq_bind, Option.bind_some, hlp, Option.isSome_some, if_true, hrun,
          TreeCtx.parent]
    obtain ⟨s₁, l₁, fuel₁, hrun₁, hle₁, hperm₁, hclear₁⟩ := hleft
    obtain ⟨hcell₁, hr₁, hctx₁⟩ := hclear₁.ctx
    have hcell₁ : s₁.cells q = some ⟨x, c.parent, none, r.ptr⟩ := hcell₁
    have hctxr : StoredCtx s₁.cells (.node .right c q x .nil) r.ptr := ⟨hcell₁, trivial, hctx₁⟩
    have hnr : (r.addrs ++ (TreeCtx.node .right c q x .nil).addrs).Nodup := by
      have hsub := (List.nodup_append.mp hnl).2.1
      rw [TreeCtx.addrs] at hsub
      refine (List.Perm.nodup_iff ?_).mp hsub
      rw [TreeCtx.addrs, PTree.addrs, List.nil_append]
      exact List.perm_middle.symm
    have hright : ∃ s₂ l₂ fuel₂, clearLoop fuel₁ (tree.pushLog (insertAll n l₁)) n s₁ (some q) =
          clearLoop fuel₂ (tree.pushLog (insertAll n (l₂ ++ l₁))) n s₂ (some q) ∧
        fuel₁ ≤ fuel₂ + 3 * r.toList.length + 1 ∧ l₂.Perm (treeEntries r) ∧
        Cleared s₁ s₂ (.node .right c q x .nil) r := by
      cases hrp : r.ptr with
      | none =>
        cases r with
        | nil => exact ⟨s₁, [], fuel₁, rfl, by omega, .refl _, .refl hctxr⟩
        | node _ _ _ _ => cases hrp
      | some pr =>
        obtain ⟨fuel₁, rfl⟩ : ∃ k, fuel₁ = k + 1 := ⟨fuel₁ - 1, by omega⟩
        have hstate₁ : (tree.pushLog (insertAll n l₁)).eTransState ≠ .none := by
          rwa [Rbtree.pushLog_state]
        obtain ⟨s₂, l₂, fuel₂, hrun, hle, hperm, hclear⟩ := ihr (c := .node .right c q x .nil)
          ⟨hr₁, hctxr, hnr⟩ hrp hstate₁ fuel₁ (by omega)
        rw [Rbtree.pushLog_pushLog, insertAll_append] at hrun
        refine ⟨s₂, l₂, fuel₂, ?_, by omega, hperm, hclear⟩
        rw [clearLoop, hcell₁]
        simp only [Option.bind_eq_bind, Option.bind_some, Option.isSome_none, Bool.false_eq_true,
          if_false, hrp, Option.isSome_some, if_true, hrun, TreeCtx.parent]
    obtain ⟨s₂, l₂, fuel₂, hrun₂, hle₂, hperm₂, hclear₂⟩ := hright
    obtain ⟨hcell₂, -, hctx₂⟩ := hclear₂.ctx
    have hn₂ : ((PTree.node q .nil x .nil).addrs ++ c.addrs).Nodup := by
      have hsub := (List.nodup_append.mp hnr).2.1
      exact hsub
    obtain ⟨fuel₂, rfl⟩ : ∃ k, fuel₂ = k + 1 := ⟨fuel₂ - 1, by omega⟩
    have hstate₂ : (tree.pushLog (insertAll n (l₂ ++ l₁))).eTransState ≠ .none := by
      rwa [Rbtree.pushLog_state]
    obtain ⟨s₃, hrun₃, hclear₃⟩ := clearLoop_leaf ⟨⟨hcell₂, trivial, trivial⟩, hctx₂, hn₂⟩ hstate₂
      n fuel₂
    have hlog : (tree.pushLog (insertAll n (l₂ ++ l₁))).pushLog [.insert n x.key x.data] =
        tree.pushLog (insertAll n ((x.key, x.data) :: (l₂ ++ l₁))) := Rbtree.pushLog_pushLog _ _ _
    rw [hlog] at hrun₃
    refine ⟨s₃, (x.key, x.data) :: (l₂ ++ l₁), fuel₂, ?_, by omega, ?_, hclear₃.ctx, ?_, ?_⟩
    · rw [hrun₁, hrun₂, hrun₃]
    · have hentries : treeEntries (.node q l x r) = treeEntries l ++ (x.key, x.data) ::
          treeEntries r := by
        simp [treeEntries, treeNodes, nodeOf, PTree.toList]
      rw [hentries]
      refine List.Perm.trans ?_ List.perm_middle.symm
      exact ((hperm₂.append hperm₁).trans List.perm_append_comm).cons _
    · intro a ha
      rw [PTree.addrs, List.mem_cons, List.mem_append] at ha
      have hlast (hq : a ≠ q) (hc : a ∉ c.addrs) : s₃.cells a = s₂.cells a :=
        hclear₃.other a (by rwa [PTree.addrs, PTree.addrs, List.nil_append, List.mem_singleton]) hc
      rcases ha with rfl | ha | ha
      · exact hclear₃.freed a List.mem_cons_self
      · have hout := (List.nodup_append.mp hnl).2.2 a ha
        rw [TreeCtx.addrs] at hout
        have haq : a ≠ q := hout q List.mem_cons_self
        have har : a ∉ r.addrs := fun hr =>
          hout a (List.mem_cons_of_mem _ (List.mem_append_left _ hr)) rfl
        have hac : a ∉ c.addrs := fun hc =>
          hout a (List.mem_cons_of_mem _ (List.mem_append_right _ hc)) rfl
        rw [hlast haq hac, hclear₂.other a har ?_, hclear₁.freed a ha]
        rw [TreeCtx.addrs, PTree.addrs, List.nil_append, List.mem_cons, not_or]
        exact ⟨haq, hac⟩
      · have hout := (List.nodup_append.mp hnr).2.2 a ha
        rw [TreeCtx.addrs, PTree.addrs, List.nil_append] at hout
        rw [hlast (hout q List.mem_cons_self) fun hc => hout a (List.mem_cons_of_mem _ hc) rfl,
          hclear₂.freed a ha]
    · intro a ha hc
      rw [PTree.addrs, List.mem_cons, List.mem_append, not_or, not_or] at ha
      obtain ⟨haq, hal, har⟩ := ha
      rw [hclear₃.other a ?_ hc, hclear₂.other a har ?_, hclear₁.other a hal ?_]
      · rw [TreeCtx.addrs, List.mem_cons, List.mem_append, not_or, not_or]
        exact ⟨haq, har, hc⟩
      · rw [TreeCtx.addrs, PTree.addrs, List.nil_append, List.mem_cons, not_or]
        exact ⟨haq, hc⟩
      · rwa [PTree.addrs, PTree.addrs, List.nil_append, List.mem_singleton]

theorem memRbtreeClearTable_spec (M : Runtime) (h : HoldsStore tree.tblHash st)
    (hstate : tree.eTransState ≠ .none) (hT : st n = some T) :
    ∃ t t' l, memRbtreeClearTable M tree n =
        some ((tree.setTable n (some t')).pushLog (insertAll n l)) ∧ T = treeContents t ∧
          SortedTree t ∧
      l.Perm (treeEntries t) ∧ HoldsTable (some t') (some fun _ => none) := by
  obtain ⟨s, t, htree, hs, rfl⟩ := h.table hT
  have hfuel := M.fuel_enough s t hs
  have hempty {s' : BtRbTree} (hfree : ∀ q, s'.cells q = none) :
      HoldsTable (some { s' with head := none }) (some fun _ => none) := by
    have hnil : HoldsTree { s' with head := none } .nil :=
      ⟨⟨⟨trivial, trivial, rfl, List.nodup_nil⟩, trivial, ⟨0, rfl⟩, rfl, fun q hq =>
        absurd (hfree q) hq⟩, List.Pairwise.nil⟩
    exact .some hnil
  have hhead : s.head = t.ptr := hs.at_top.head
  cases hp : t.ptr with
  | none =>
    cases t with
    | node _ _ _ _ => cases hp
    | nil =>
      obtain ⟨fuel, hk⟩ : ∃ k, M.fuel s = k + 1 := ⟨M.fuel s - 1, by omega⟩
      refine ⟨.nil, { s with head := none }, [], ?_, rfl, hs.sorted, .refl _, hempty ?_⟩
      · rw [memRbtreeClearTable, htree]
        simp only [Option.bind_eq_bind, Option.bind_some, hhead, hp, hk, clearLoop, insertAll,
          List.map_nil, Rbtree.pushLog_nil]
      · intro q
        by_contra hq
        exact absurd (hs.owned q hq) List.not_mem_nil
  | some p =>
    obtain ⟨s', l, fuel', hrun, hle, hperm, hclear⟩ := clearLoop_spec (c := .top)
      ⟨hs.at_top.stored, trivial, hs.at_top.nodup⟩ hp hstate n (M.fuel s) (by omega)
    obtain ⟨fuel', rfl⟩ : ∃ k, fuel' = k + 1 := ⟨fuel' - 1, by omega⟩
    refine ⟨t, { s' with head := none }, l, ?_, rfl, hs.sorted, hperm, hempty ?_⟩
    · rw [memRbtreeClearTable, htree]
      simp only [Option.bind_eq_bind, Option.bind_some, hhead, hp, hrun, TreeCtx.parent, clearLoop,
        Rbtree.pushLog_setTable]
    · intro q
      by_cases hq : q ∈ t.addrs
      · exact hclear.freed q hq
      · rw [hclear.other q hq List.not_mem_nil]
        by_contra hne
        exact hq (hs.owned q hne)

theorem memRbtreeDropTable_spec (M : Runtime) (h : HoldsStore tree.tblHash st)
    (hstate : tree.eTransState ≠ .none) (hT : st n = some T) :
    ∃ t l, memRbtreeDropTable M tree n =
        some ((tree.setTable n none).pushLog (.create n :: insertAll n l)) ∧ T = treeContents t ∧
      SortedTree t ∧ l.Perm (treeEntries t) := by
  obtain ⟨t, t', l, hrun, hcontents, hsorted, hperm, -⟩ := memRbtreeClearTable_spec M h hstate hT
  refine ⟨t, l, ?_, hcontents, hsorted, hperm⟩
  have hstate' : ((tree.setTable n none).pushLog (insertAll n l)).eTransState ≠ .none := by
    rwa [Rbtree.pushLog_state, Rbtree.setTable_state]
  rw [memRbtreeDropTable, guard, if_pos hstate, hrun]
  simp only [Option.pure_def, Option.bind_eq_bind, Option.bind_some, Rbtree.pushLog_setTable,
    Rbtree.setTable_setTable, logUnlessRollback_eq hstate', Rbtree.pushLog_pushLog]
  rfl

end Operations

end Pkgtools
