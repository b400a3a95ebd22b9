import Mathlib.Data.Fintype.EquivFin
import Pkgtools.RbtreeTable

namespace Pkgtools
open CLib
set_option autoImplicit true

section Rollback
variable {M : Runtime} {tree : Rbtree} {st st' : RbtTables} {n : Nat} {T : Blob → Option Blob}
  {ops ops' : List RollbackOp} {op : RollbackOp}

theorem Undoes.append (h : Undoes ops st st') (h' : Undoes ops' st' st'') :
    Undoes (ops ++ ops') st st'' := by
  induction ops generalizing st with
  | nil =>
    cases h
    exact h'
  | cons op ops ih => exact ⟨h.1, ih h.2⟩

theorem update_ne_none (st : RbtTables) (n : Nat) (T : Blob → Option Blob) :
    Function.update st n (some T) n ≠ none := by
  rw [Function.update_self]
  exact Option.some_ne_none T

def putRecord (T : Blob → Option Blob) (r : Blob × Blob) : Blob → Option Blob :=
  Function.update T r.1 (some r.2)

theorem undoes_insertAll (l : List (Blob × Blob)) (st : RbtTables) (n : Nat)
    (T : Blob → Option Blob) :
    Undoes (insertAll n l) (Function.update st n (some T)) (Function.update st n
      (some (l.foldl putRecord T))) := by
  induction l generalizing T with
  | nil => rfl
  | cons r l ih =>
    refine ⟨update_ne_none st n T, ?_⟩
    rw [undo, Function.update_self, Option.map_some, Function.update_idem]
    exact ih _

theorem foldl_update_eq_some {l : List (Blob × Blob)} (h : l.Pairwise fun a b => a.1 ≠ b.1)
    (T : Blob → Option Blob) (key data : Blob) :
    l.foldl putRecord T key = some data ↔
      (key, data) ∈ l ∨ (∀ r ∈ l, r.1 ≠ key) ∧ T key = some data := by
  induction l generalizing T with
  | nil => simp
  | cons r l ih =>
    obtain ⟨hr, hl⟩ := List.pairwise_cons.mp h
    rw [List.foldl_cons, ih hl, putRecord]
    by_cases hk : key = r.1
    · subst hk
      rw [Function.update_self]
      have hnot (data : Blob) : (r.1, data) ∉ l := fun hm => hr _ hm rfl
      constructor
      · rintro (hm | ⟨-, hd⟩)
        · exact absurd hm (hnot data)
        · cases hd
          exact .inl List.mem_cons_self
      · rintro (hm | ⟨hm, -⟩)
        · rcases List.mem_cons.mp hm with hm | hm
          · exact .inr ⟨fun a ha => (hr a ha).symm, by rw [← hm]⟩
          · exact absurd hm (hnot data)
        · exact absurd rfl (hm r List.mem_cons_self)
    · rw [Function.update_of_ne hk]
      have hne : (key, data) ≠ r := fun he => hk (by rw [← he])
      rw [List.mem_cons, List.forall_mem_cons, or_iff_right hne, and_iff_right (Ne.symm hk)]

theorem contents_eq_some (h : SortedTree t) (key data : Blob) :
    treeContents t key = some data ↔ (key, data) ∈ treeEntries t := by
  constructor
  · intro hk
    obtain ⟨A, B, ht, -⟩ := List.lookup_eq_some_iff.mp hk
    rw [ht]
    exact List.mem_append_right _ List.mem_cons_self
  · intro hm
    obtain ⟨A, B, ht⟩ := List.append_of_mem hm
    obtain ⟨hmid, -⟩ := contents_middle (ht ▸ sortedTree_entries.mp h)
    rw [treeContents, ht]
    exact (congrFun hmid key).trans (Function.update_self key _ _)

/-- The operations of a cleared table bring it back. -/
theorem undoes_clear (h : SortedTree t) (hperm : l.Perm (treeEntries t))
    (hT : st n = some (treeContents t)) :
    Undoes (insertAll n l) (Function.update st n (some fun _ => none)) st := by
  have hdistinct : l.Pairwise fun a b => a.1 ≠ b.1 := by
    have hpair := (sortedTree_entries.mp h).imp ne_of_lt
    exact hperm.symm.pairwise hpair fun {a b} hab => Ne.symm hab
  have hfold : l.foldl putRecord (fun _ => none) = treeContents t := by
    funext key
    refine Option.ext fun data => ?_
    rw [foldl_update_eq_some hdistinct, contents_eq_some h, hperm.mem_iff]
    simp
  have hundo := undoes_insertAll l st n fun _ => none
  rw [hfold, ← hT, Function.update_eq_self] at hundo
  exact hundo

theorem undoes_insert (hT : st n = some T) (key data : Blob) :
    Undoes [undoInsert n key (T key)]
      (Function.update st n (some (Function.update T key (some data)))) st := by
  have hself : Function.update st n (some T) = st := by rw [← hT, Function.update_eq_self]
  cases hk : T key with
  | none =>
    have hnone : Function.update T key none = T := by rw [← hk, Function.update_eq_self]
    refine ⟨⟨_, Function.update_self _ _ _, ?_⟩, ?_⟩
    · rw [Function.update_self]
      exact Option.some_ne_none data
    · rw [undoInsert, undo, Function.update_self, Option.map_some, Function.update_idem,
        Function.update_idem, hnone, hself]
      rfl
  | some old =>
    have hold : Function.update T key (some old) = T := by rw [← hk, Function.update_eq_self]
    refine ⟨update_ne_none st n _, ?_⟩
    rw [undoInsert, undo, Function.update_self, Option.map_some, Function.update_idem,
      Function.update_idem, hold, hself]
    rfl

theorem undoes_delete (hT : st n = some T) (hk : T key = some data) :
    Undoes [.insert n key data] (Function.update st n (some (Function.update T key none))) st := by
  have hself : Function.update st n (some T) = st := by rw [← hT, Function.update_eq_self]
  have hold : Function.update T key (some data) = T := by rw [← hk, Function.update_eq_self]
  refine ⟨update_ne_none st n _, ?_⟩
  rw [undo, Function.update_self, Option.map_some, Function.update_idem, Function.update_idem, hold,
    hself]
  rfl

theorem Rbtree.pushLog_rollback (h : tree.eTransState = .rollback) (ops : List RollbackOp) :
    tree.pushLog ops = tree := by
  rw [Rbtree.pushLog, h]

theorem contents_missing {c : TreeCtx BtRbRecord} (h : Around key c) :
    treeContents (c.fill .nil) key = none := by
  refine lookup_eq_none ?_
  intro a ha
  rw [treeEntries, treeNodes, TreeCtx.toList_fill, PTree.toList, List.append_nil, List.map_append,
    List.map_append, List.mem_append] at ha
  rcases ha with ha | ha
  · obtain ⟨b, hb, rfl⟩ := List.mem_map.mp ha
    obtain ⟨r, hr, rfl⟩ := List.mem_map.mp hb
    exact ne_of_lt (h.before r hr)
  · obtain ⟨b, hb, rfl⟩ := List.mem_map.mp ha
    obtain ⟨r, hr, rfl⟩ := List.mem_map.mp hb
    exact (ne_of_lt (h.after r hr)).symm

theorem executeRollbackOp_spec (M : Runtime) (h : HoldsStore tree.tblHash st)
    (hstate : tree.eTransState = .rollback) (hu : Undoable st op) :
    ∃ f, executeRollbackOp M tree op = some { tree with tblHash := f } ∧
      HoldsStore f (undo st op) := by
  have hne : tree.eTransState ≠ .none := by rw [hstate]; decide
  cases op with
  | insert n key data =>
    obtain ⟨T, hT⟩ := Option.ne_none_iff_exists'.mp hu
    obtain ⟨t', pCur, hrun, h'⟩ := memRbtreeInsert_spec M h hne hT key data
    rw [Rbtree.pushLog_rollback (by exact hstate)] at hrun
    refine ⟨Function.update tree.tblHash n (some t'), ?_, ?_⟩
    · rw [executeRollbackOp, hrun]
      rfl
    · rw [undo, hT]
      exact h'
  | delete n key =>
    obtain ⟨T, hT, hk⟩ := hu
    obtain ⟨s, t, htree, hs, rfl⟩ := h.table hT
    have hdepth := M.depth_lt hs
    rcases memRbtreeMoveto_cases (M.fuel s) hs (by omega) key with
      ⟨c, p, l, r, x, rfl, hat, rfl, hmove⟩ | ⟨c, rfl, hat, haround, hmove⟩
    · have hcell : s.cells p = some ⟨x, c.parent, l.ptr, r.ptr⟩ := hat.stored.1
      obtain ⟨T, t', pCur, hT', -, hrun, h'⟩ := memRbtreeDelete_spec M h hne htree hcell .none
      rw [Rbtree.pushLog_rollback (by exact hstate)] at hrun
      rw [hT'] at hT
      cases hT
      refine ⟨Function.update tree.tblHash n (some t'), ?_, ?_⟩
      · simp only [executeRollbackOp, htree, Option.bind_eq_bind, Option.bind_some, hmove, guard,
          if_true, Option.pure_def, hrun, Option.map_some]
        rfl
      · rw [undo, hT']
        exact h'
    · exact absurd (contents_missing haround) hk
  | create n =>
    exact ⟨_, rfl, h.update n (.some holdsTree_nil)⟩
  | drop n =>
    obtain ⟨T, hT⟩ := Option.ne_none_iff_exists'.mp hu
    obtain ⟨t, l, hrun, -, -, -⟩ := memRbtreeDropTable_spec M h hne hT
    rw [Rbtree.pushLog_rollback (by exact hstate)] at hrun
    exact ⟨Function.update tree.tblHash n none, hrun, h.update n .none⟩

/-- The list is executed from its first operation on. -/
theorem executeRollbackList_spec (M : Runtime) (tree : Rbtree) (h : HoldsStore tree.tblHash st)
    (hstate : tree.eTransState = .rollback) (hu : Undoes ops st st') :
    ∃ f, executeRollbackList M tree ops = some { tree with tblHash := f } ∧ HoldsStore f st' := by
  induction ops generalizing tree st with
  | nil =>
    cases hu
    exact ⟨tree.tblHash, rfl, h⟩
  | cons op ops ih =>
    obtain ⟨f, hrun, hf⟩ := executeRollbackOp_spec M h hstate hu.1
    obtain ⟨f', hrun', hf'⟩ := ih { tree with tblHash := f } hf hstate hu.2
    refine ⟨f', ?_, hf'⟩
    rw [executeRollbackList, hrun]
    exact hrun'

end Rollback

/-- The snapshots that a rollback goes back to. -/
inductive Snapshots where
  | none
  | transaction (begun : RbtTables)
  | checkpoint (begun ckpt : RbtTables)

/-- What an `Rbtree` is for: tables that a transaction, or a checkpoint in it, can be rolled back to
as they were when it began. -/
structure SnapshotStore where
  store : RbtTables
  nextIdx : Nat
  snapshots : Snapshots

/-- A call by the code above the tables. -/
inductive RbtCall where
  | createTable
  | dropTable (n : Nat)
  | clearTable (n : Nat)
  | insert (n : Nat) (key data : Blob)
  | delete (n : Nat) (pCur : RbtCursor)
  | beginTrans
  | commit
  | rollback
  | beginCkpt
  | commitCkpt
  | rollbackCkpt

def rbtCall (M : Runtime) (tree : Rbtree) : RbtCall → Option Rbtree
  | .createTable => (memRbtreeCreateTable tree).map Prod.fst
  | .dropTable n => memRbtreeDropTable M tree n
  | .clearTable n => memRbtreeClearTable M tree n
  | .insert n key data => (memRbtreeInsert M tree n key data).map Prod.fst
  | .delete n pCur => (memRbtreeDelete M tree n pCur).map Prod.fst
  | .beginTrans => (memRbtreeBeginTrans tree).map Prod.fst
  | .commit => some (memRbtreeCommit tree)
  | .rollback => memRbtreeRollback M tree
  | .beginCkpt => (memRbtreeBeginCkpt tree).map Prod.fst
  | .commitCkpt => some (memRbtreeCommitCkpt tree)
  | .rollbackCkpt => memRbtreeRollbackCkpt M tree

def cursorKey (tree : Rbtree) (n : Nat) (pCur : RbtCursor) : Option Blob := do
  let t ← tree.tblHash n
  let node ← t.cells (← pCur.pNode)
  some node.info.key

/-- The calls that the assertions allow: tables that exist, changes in a transaction only, and
cursors at a record or at none. -/
def LegalCall (tree : Rbtree) : RbtCall → Prop
  | .createTable => tree.eTransState ≠ .none
  | .dropTable n => tree.eTransState ≠ .none ∧ tree.tblHash n ≠ none
  | .clearTable n => tree.eTransState ≠ .none ∧ tree.tblHash n ≠ none
  | .insert n _ _ => tree.eTransState ≠ .none ∧ tree.tblHash n ≠ none
  | .delete n pCur =>
    tree.eTransState ≠ .none ∧ (pCur.pNode = none ∨ cursorKey tree n pCur ≠ none)
  | _ => True

namespace SnapshotStore

def change (a : SnapshotStore) (n : Nat) (f : (Blob → Option Blob) → Blob → Option Blob) :
    SnapshotStore :=
  { a with store := Function.update a.store n ((a.store n).map f) }

/-- What a call is to do; `key` is the key at its cursor. -/
def call (a : SnapshotStore) (key : Nat → RbtCursor → Option Blob) : RbtCall → SnapshotStore
  | .createTable =>
    { a with
      store := Function.update a.store a.nextIdx (some fun _ => none)
      nextIdx := a.nextIdx + 1 }
  | .dropTable n => { a with store := Function.update a.store n none }
  | .clearTable n => a.change n fun _ _ => none
  | .insert n key data => a.change n fun T => Function.update T key (some data)
  | .delete n pCur =>
    match key n pCur with
    | some key => a.change n fun T => Function.update T key none
    | none => a
  | .beginTrans =>
    match a.snapshots with
    | .none => { a with snapshots := .transaction a.store }
    | _ => a
  | .commit => { a with snapshots := .none }
  | .rollback =>
    match a.snapshots with
    | .none => a
    | .transaction begun => { a with store := begun, snapshots := .none }
    | .checkpoint begun _ => { a with store := begun, snapshots := .none }
  | .beginCkpt =>
    match a.snapshots with
    | .transaction begun => { a with snapshots := .checkpoint begun a.store }
    | _ => a
  | .commitCkpt =>
    match a.snapshots with
    | .checkpoint begun _ => { a with snapshots := .transaction begun }
    | _ => a
  | .rollbackCkpt =>
    match a.snapshots with
    | .checkpoint begun ckpt => { a with store := ckpt, snapshots := .transaction begun }
    | _ => a

/-- The store of `sqliteRbtreeOpen`, with the empty table 2. -/
def opened : SnapshotStore :=
  ⟨Function.update (fun _ => none) 2 (some fun _ => none), 3, .none⟩

end SnapshotStore

/-- The calls of a run are legal ones, and each has returned. -/
inductive RbtRun (M : Runtime) : Rbtree → SnapshotStore → Prop where
  | opened : RbtRun M sqliteRbtreeOpen .opened
  | call (h : RbtRun M tree a) (c : RbtCall) (hlegal : LegalCall tree c)
      (hcall : rbtCall M tree c = some tree') : RbtRun M tree' (a.call (cursorKey tree) c)

inductive RbtCalls (M : Runtime) : Rbtree → List RbtCall → Rbtree → Prop where
  | nil : RbtCalls M tree [] tree
  | cons (hlegal : LegalCall tree c) (hcall : rbtCall M tree c = some tree₁)
      (h : RbtCalls M tree₁ calls tree') : RbtCalls M tree (c :: calls) tree'

/-- The tables that are still to be created are not there. -/
def Fresh (nextIdx : Nat) (st : RbtTables) : Prop := ∀ n, nextIdx ≤ n → st n = none

/-- The logs lead back to the snapshots. -/
def LogsFor (tree : Rbtree) (st : RbtTables) : Snapshots → Prop
  | .none => tree.eTransState = .none ∧ tree.pTransRollback = [] ∧ tree.pCheckRollback = []
  | .transaction begun => tree.eTransState = .inTransaction ∧ tree.pCheckRollback = [] ∧
      Undoes tree.pTransRollback st begun ∧ Fresh tree.nextIdx begun
  | .checkpoint begun ckpt => tree.eTransState = .inCheckpoint ∧
      Undoes tree.pCheckRollback st ckpt ∧ Undoes tree.pTransRollback ckpt begun ∧
      Fresh tree.nextIdx ckpt ∧ Fresh tree.nextIdx begun

/-- The tables are those of the store, and the logs lead back to its snapshots. -/
structure Refines (tree : Rbtree) (a : SnapshotStore) : Prop where
  holds : HoldsStore tree.tblHash a.store
  nextIdx : tree.nextIdx = a.nextIdx
  fresh : Fresh a.nextIdx a.store
  logs : LogsFor tree a.store a.snapshots

/-- The records that are allocated are those of one tree only. -/
theorem HoldsTree.length_eq {s : BtRbTree} {t u : PTree BtRbRecord} (ht : HoldsTree s t)
    (hu : HoldsTree s u) : t.toList.length = u.toList.length := by
  have hperm : t.addrs.Perm u.addrs := by
    have htn := ht.at_top.nodup
    have hun := hu.at_top.nodup
    rw [TreeCtx.addrs, List.append_nil] at htn hun
    refine (List.perm_ext_iff_of_nodup htn hun).mpr fun p => ⟨fun hp => ?_, fun hp => ?_⟩
    · exact hu.owned p (ht.at_top.stored.allocated hp)
    · exact ht.owned p (hu.at_top.stored.allocated hp)
  have hlen := ((PTree.addrs_perm t).symm.trans (hperm.trans (PTree.addrs_perm u))).length_eq
  rwa [List.length_map, List.length_map] at hlen

open Classical in
noncomputable def firstFree : Runtime where
  malloc s := if h : ∃ p, s.cells p = none then h.choose else 0
  fuel s := if h : ∃ t, HoldsTree s t then 3 * h.choose.toList.length + 3 else 0
  malloc_free s t h := by
    have hfree : ∃ p, s.cells p = none := by
      obtain ⟨p, hp⟩ := Infinite.exists_notMem_finset t.addrs.toFinset
      refine ⟨p, ?_⟩
      by_contra hne
      exact hp (List.mem_toFinset.mpr (h.owned p hne))
    rw [dif_pos hfree]
    exact hfree.choose_spec
  fuel_enough s t h := by
    have hex : ∃ t, HoldsTree s t := ⟨t, h⟩
    rw [dif_pos hex, h.length_eq hex.choose_spec]

section Runs
variable {M : Runtime} {tree tree' : Rbtree} {a : SnapshotStore} {st : RbtTables} {n : Nat}
  {ops : List RollbackOp}

theorem Fresh.mono (h : Fresh m st) (hle : m ≤ n) : Fresh n st := fun k hk => h k (hle.trans hk)

theorem Fresh.update (h : Fresh m st) (hn : n < m) (T : Option (Blob → Option Blob)) :
    Fresh m (Function.update st n T) := by
  intro k hk
  rw [Function.update_of_ne (by omega)]
  exact h k hk

/-- A change is logged with the operations that undo it. -/
theorem Refines.logged (h : Refines tree a) (hstate : tree.eTransState ≠ .none) (m : Nat)
    (hm : a.nextIdx ≤ m) (hholds : HoldsStore f st) (hfresh : Fresh m st)
    (hundo : Undoes ops st a.store) :
    Refines (({ tree with nextIdx := m, tblHash := f } : Rbtree).pushLog ops)
      { a with store := st, nextIdx := m } := by
  obtain ⟨-, hnext, -, hlogs⟩ := h
  cases hs : a.snapshots with
  | none =>
    rw [hs] at hlogs
    exact absurd hlogs.1 hstate
  | transaction begun =>
    rw [hs] at hlogs
    obtain ⟨hstate, hcheck, htrans, hbegun⟩ := hlogs
    rw [hnext] at hbegun
    have hlog : ({ tree with nextIdx := m, tblHash := f } : Rbtree).pushLog ops =
        { tree with nextIdx := m, tblHash := f, pTransRollback := ops ++ tree.pTransRollback } := by
      rw [Rbtree.pushLog, hstate]
    rw [hlog]
    exact ⟨hholds, rfl, hfresh, ⟨hstate, hcheck, hundo.append htrans, hbegun.mono hm⟩⟩
  | checkpoint begun ckpt =>
    rw [hs] at hlogs
    obtain ⟨hstate, hcheck, htrans, hckpt, hbegun⟩ := hlogs
    rw [hnext] at hbegun hckpt
    have hlog : ({ tree with nextIdx := m, tblHash := f } : Rbtree).pushLog ops =
        { tree with nextIdx := m, tblHash := f, pCheckRollback := ops ++ tree.pCheckRollback } := by
      rw [Rbtree.pushLog, hstate]
    rw [hlog]
    exact ⟨hholds, rfl, hfresh, ⟨hstate, hundo.append hcheck, htrans, hckpt.mono hm,
      hbegun.mono hm⟩⟩

theorem Refines.change (h : Refines tree a) (hstate : tree.eTransState ≠ .none)
    (hholds : HoldsStore f (Function.update a.store n T))
    (hundo : Undoes ops (Function.update a.store n T) a.store) (hT : a.store n ≠ none) :
    Refines (({ tree with tblHash := f } : Rbtree).pushLog ops)
      { a with store := Function.update a.store n T } := by
  have hn : n < a.nextIdx := by
    by_contra hle
    exact hT (h.fresh n (by omega))
  have hlogged := h.logged hstate a.nextIdx (Nat.le_refl _) hholds (h.fresh.update hn T) hundo
  have hnext : ({ tree with nextIdx := a.nextIdx, tblHash := f } : Rbtree) =
      { tree with tblHash := f } := by rw [← h.nextIdx]
  rwa [hnext] at hlogged

theorem HoldsStore.isSome_iff (h : HoldsStore tree.tblHash st) (n : Nat) :
    tree.tblHash n ≠ none ↔ st n ≠ none := by
  have hn := h n
  cases htree : tree.tblHash n <;> cases hst : st n <;> rw [htree, hst] at hn
  · simp
  · cases hn
  · cases hn
  · simp

theorem HoldsStore.of_ne_none (h : HoldsStore tree.tblHash st) (hn : tree.tblHash n ≠ none) :
    ∃ T, st n = some T := Option.ne_none_iff_exists'.mp ((h.isSome_iff n).mp hn)

theorem cursorKey_eq_some (h : cursorKey tree n pCur = some key) :
    ∃ s p node, pCur = ⟨some p, pCur.eSkip⟩ ∧ tree.tblHash n = some s ∧ s.cells p = some node ∧
      node.info.key = key := by
  obtain ⟨pNode, e⟩ := pCur
  simp only [cursorKey, Option.bind_eq_bind, Option.bind_eq_some_iff, Option.some.injEq] at h
  obtain ⟨s, hs, p, rfl, node, hnode, hkey⟩ := h
  exact ⟨s, p, node, rfl, hs, hnode, hkey⟩

theorem refines_opened : Refines sqliteRbtreeOpen .opened := by
  have hnone : HoldsStore (fun _ => none) fun _ => none := fun _ => .none
  refine ⟨hnone.update 2 (.some holdsTree_nil), rfl, ?_, rfl, rfl, rfl⟩
  intro n hn
  have hne : n ≠ 2 := Nat.ne_of_gt hn
  show Function.update (fun _ => none) 2 (some fun _ => none) n = none
  rw [Function.update_of_ne hne]

/-- The rollback of a whole transaction. -/
theorem memRbtreeRollback_spec (M : Runtime) (hholds : HoldsStore tree.tblHash st)
    (hcheck : Undoes tree.pCheckRollback st ckpt) (htrans : Undoes tree.pTransRollback ckpt begun) :
    ∃ f, memRbtreeRollback M tree = some ⟨tree.aMetaData, tree.nextIdx, f, .none, [], []⟩ ∧
      HoldsStore f begun := by
  obtain ⟨f, hrun, hf⟩ := executeRollbackList_spec M { tree with eTransState := .rollback }
    hholds rfl hcheck
  obtain ⟨f', hrun', hf'⟩ := executeRollbackList_spec M
    { tree with eTransState := .rollback, tblHash := f } hf rfl htrans
  refine ⟨f', ?_, hf'⟩
  simp only [memRbtreeRollback, hrun, hrun', Option.bind_eq_bind, Option.bind_some]

theorem memRbtreeBeginTrans_none (hstate : tree.eTransState = .none)
    (hlog : tree.pTransRollback = []) :
    memRbtreeBeginTrans tree = some ({ tree with eTransState := .inTransaction }, 0) := by
  rw [memRbtreeBeginTrans, if_neg (not_not.mpr hstate), guard, if_pos hlog]
  rfl

theorem memRbtreeBeginCkpt_inTransaction (hstate : tree.eTransState = .inTransaction)
    (hlog : tree.pCheckRollback = []) :
    memRbtreeBeginCkpt tree = some ({ tree with eTransState := .inCheckpoint }, 0) := by
  rw [memRbtreeBeginCkpt, if_neg (not_not.mpr hstate), guard, if_pos hlog]
  rfl

theorem memRbtreeCreateTable_refines (M : Runtime) (h : Refines tree a)
    (hlegal : LegalCall tree .createTable) :
    ∃ tree', rbtCall M tree .createTable = some tree' ∧
      Refines tree' (a.call (cursorKey tree) .createTable) := by
  have hholds := h.holds
  have hstate : tree.eTransState ≠ .none := hlegal
  have hnext := h.nextIdx
  have hfresh : Fresh (a.nextIdx + 1) a.store := h.fresh.mono (Nat.le_succ _)
  have hgone : a.store a.nextIdx = none := h.fresh _ (Nat.le_refl _)
  have hundo : Undoes [.drop a.nextIdx]
      (Function.update a.store a.nextIdx (some fun _ => none)) a.store := by
    refine ⟨update_ne_none _ _ _, ?_⟩
    rw [undo, Function.update_idem, ← hgone, Function.update_eq_self]
    rfl
  refine ⟨_, ?_, h.logged hstate (a.nextIdx + 1) (Nat.le_succ _)
    (hholds.update a.nextIdx (.some holdsTree_nil)) (hfresh.update (Nat.lt_succ_self _) _) hundo⟩
  have hstate' :
      (btreeCreateTable { tree with nextIdx := a.nextIdx + 1 } a.nextIdx).eTransState ≠ .none :=
    hstate
  have hlog := logUnlessRollback_eq hstate' (.drop a.nextIdx)
  simp only [rbtCall, memRbtreeCreateTable, guard, if_pos hstate, hnext, hlog, Option.bind_eq_bind,
    Option.pure_def, Option.bind_some, Option.map_some]
  rfl

theorem memRbtreeDropTable_refines (M : Runtime) (h : Refines tree a)
    (hlegal : LegalCall tree (.dropTable n)) :
    ∃ tree', rbtCall M tree (.dropTable n) = some tree' ∧
      Refines tree' (a.call (cursorKey tree) (.dropTable n)) := by
  have hholds := h.holds
  obtain ⟨hstate, hn⟩ := hlegal
  obtain ⟨T, hT⟩ := hholds.of_ne_none hn
  obtain ⟨t, l, hrun, rfl, hsorted, hperm⟩ := memRbtreeDropTable_spec M hholds hstate hT
  have hundo : Undoes (.create n :: insertAll n l) (Function.update a.store n none) a.store := by
    refine ⟨Function.update_self _ _ _, ?_⟩
    rw [undo, Function.update_idem]
    exact undoes_clear hsorted hperm hT
  exact ⟨_, hrun, h.change hstate (hholds.update n .none) hundo
    (by rw [hT]; exact Option.some_ne_none _)⟩

theorem memRbtreeClearTable_refines (M : Runtime) (h : Refines tree a)
    (hlegal : LegalCall tree (.clearTable n)) :
    ∃ tree', rbtCall M tree (.clearTable n) = some tree' ∧
      Refines tree' (a.call (cursorKey tree) (.clearTable n)) := by
  have hholds := h.holds
  obtain ⟨hstate, hn⟩ := hlegal
  obtain ⟨T, hT⟩ := hholds.of_ne_none hn
  obtain ⟨t, t', l, hrun, rfl, hsorted, hperm, ht'⟩ := memRbtreeClearTable_spec M hholds hstate hT
  have hcall : a.call (cursorKey tree) (.clearTable n) =
      { a with store := Function.update a.store n (some fun _ => none) } := by
    rw [SnapshotStore.call, SnapshotStore.change, hT, Option.map_some]
  rw [hcall]
  exact ⟨_, hrun, h.change hstate (hholds.update n ht') (undoes_clear hsorted hperm hT)
    (by rw [hT]; exact Option.some_ne_none _)⟩

theorem memRbtreeInsert_refines (M : Runtime) (h : Refines tree a)
    (hlegal : LegalCall tree (.insert n key data)) :
    ∃ tree', rbtCall M tree (.insert n key data) = some tree' ∧
      Refines tree' (a.call (cursorKey tree) (.insert n key data)) := by
  have hholds := h.holds
  obtain ⟨hstate, hn⟩ := hlegal
  obtain ⟨T, hT⟩ := hholds.of_ne_none hn
  obtain ⟨t', pCur, hrun, h'⟩ := memRbtreeInsert_spec M hholds hstate hT key data
  have hcall : a.call (cursorKey tree) (.insert n key data) =
      { a with
        store := Function.update a.store n (some (Function.update T key (some data))) } := by
    rw [SnapshotStore.call, SnapshotStore.change, hT, Option.map_some]
  rw [hcall]
  refine ⟨_, ?_, h.change hstate h' (undoes_insert hT key data)
    (by rw [hT]; exact Option.some_ne_none _)⟩
  rw [rbtCall, hrun]
  rfl

theorem memRbtreeDelete_refines (M : Runtime) (h : Refines tree a)
    (hlegal : LegalCall tree (.delete n pCur)) :
    ∃ tree', rbtCall M tree (.delete n pCur) = some tree' ∧
      Refines tree' (a.call (cursorKey tree) (.delete n pCur)) := by
  have hholds := h.holds
  obtain ⟨hstate, hcur⟩ := hlegal
  cases hkey : cursorKey tree n pCur with
  | none =>
    have hnone : pCur.pNode = none := hcur.resolve_right fun hne => hne hkey
    have hcall : a.call (cursorKey tree) (.delete n pCur) = a := by
      rw [SnapshotStore.call, hkey]
    rw [hcall]
    refine ⟨tree, ?_, h⟩
    simp only [rbtCall, memRbtreeDelete, guard, if_pos hstate, hnone, Option.bind_eq_bind,
      Option.pure_def, Option.bind_some, Option.map_some]
  | some key =>
    obtain ⟨s, p, node, hcursor, htree, hnode, rfl⟩ := cursorKey_eq_some hkey
    obtain ⟨T, t', pCur', hT, hdata, hrun, h'⟩ :=
      memRbtreeDelete_spec M hholds hstate htree hnode pCur.eSkip
    have hcall : a.call (cursorKey tree) (.delete n pCur) = { a with
        store := Function.update a.store n (some (Function.update T node.info.key none)) } := by
      rw [SnapshotStore.call, hkey]
      simp only [SnapshotStore.change, hT, Option.map_some]
    rw [hcall]
    refine ⟨_, ?_, h.change hstate h' (undoes_delete hT hdata)
      (by rw [hT]; exact Option.some_ne_none _)⟩
    rw [rbtCall, hcursor, hrun]
    rfl

theorem memRbtreeBeginTrans_refines (M : Runtime) (h : Refines tree a) :
    ∃ tree', rbtCall M tree .beginTrans = some tree' ∧
      Refines tree' (a.call (cursorKey tree) .beginTrans) := by
  have hholds := h.holds
  obtain ⟨-, hnext, hfresh, hlogs⟩ := id h
  cases hs : a.snapshots with
  | none =>
    rw [hs] at hlogs
    obtain ⟨hstate, htrans, hcheck⟩ := hlogs
    simp only [rbtCall, memRbtreeBeginTrans_none hstate htrans, SnapshotStore.call, hs]
    exact ⟨_, rfl, hholds, hnext, hfresh, rfl, hcheck, htrans ▸ rfl, hnext ▸ hfresh⟩
  | transaction begun =>
    rw [hs] at hlogs
    simp only [rbtCall, memRbtreeBeginTrans, hlogs.1, SnapshotStore.call, hs]
    exact ⟨tree, rfl, h⟩
  | checkpoint begun ckpt =>
    rw [hs] at hlogs
    simp only [rbtCall, memRbtreeBeginTrans, hlogs.1, SnapshotStore.call, hs]
    exact ⟨tree, rfl, h⟩

theorem memRbtreeCommit_refines (M : Runtime) (h : Refines tree a) :
    ∃ tree', rbtCall M tree .commit = some tree' ∧
      Refines tree' (a.call (cursorKey tree) .commit) := by
  have hholds := h.holds
  exact ⟨_, rfl, hholds, h.nextIdx, h.fresh, rfl, rfl, rfl⟩

theorem memRbtreeRollback_refines (M : Runtime) (h : Refines tree a) :
    ∃ tree', rbtCall M tree .rollback = some tree' ∧
      Refines tree' (a.call (cursorKey tree) .rollback) := by
  have hholds := h.holds
  obtain ⟨-, hnext, hfresh, hlogs⟩ := id h
  cases hs : a.snapshots with
  | none =>
    rw [hs] at hlogs
    obtain ⟨-, htrans, hcheck⟩ := hlogs
    have hcheck : Undoes tree.pCheckRollback a.store a.store := by
      rw [hcheck]
      rfl
    have htrans : Undoes tree.pTransRollback a.store a.store := by
      rw [htrans]
      rfl
    obtain ⟨f, hrun, hf⟩ := memRbtreeRollback_spec M hholds hcheck htrans
    simp only [rbtCall, hrun, SnapshotStore.call, hs]
    exact ⟨_, rfl, hf, hnext, hfresh, hs ▸ ⟨rfl, rfl, rfl⟩⟩
  | transaction begun =>
    rw [hs] at hlogs
    obtain ⟨-, hcheck, htrans, hbegun⟩ := hlogs
    obtain ⟨f, hrun, hf⟩ := memRbtreeRollback_spec M hholds (hcheck ▸ rfl) htrans
    simp only [rbtCall, hrun, SnapshotStore.call, hs]
    exact ⟨_, rfl, hf, hnext, hnext ▸ hbegun, rfl, rfl, rfl⟩
  | checkpoint begun ckpt =>
    rw [hs] at hlogs
    obtain ⟨-, hcheck, htrans, -, hbegun⟩ := hlogs
    obtain ⟨f, hrun, hf⟩ := memRbtreeRollback_spec M hholds hcheck htrans
    simp only [rbtCall, hrun, SnapshotStore.call, hs]
    exact ⟨_, rfl, hf, hnext, hnext ▸ hbegun, rfl, rfl, rfl⟩

theorem memRbtreeBeginCkpt_refines (M : Runtime) (h : Refines tree a) :
    ∃ tree', rbtCall M tree .beginCkpt = some tree' ∧
      Refines tree' (a.call (cursorKey tree) .beginCkpt) := by
  have hholds := h.holds
  obtain ⟨-, hnext, hfresh, hlogs⟩ := id h
  cases hs : a.snapshots with
  | none =>
    rw [hs] at hlogs
    simp only [rbtCall, memRbtreeBeginCkpt, hlogs.1, SnapshotStore.call, hs]
    exact ⟨tree, rfl, h⟩
  | transaction begun =>
    rw [hs] at hlogs
    obtain ⟨hstate, hcheck, htrans, hbegun⟩ := hlogs
    simp only [rbtCall, memRbtreeBeginCkpt_inTransaction hstate hcheck, SnapshotStore.call, hs]
    exact ⟨_, rfl, hholds, hnext, hfresh, rfl, hcheck ▸ rfl, htrans, hnext ▸ hfresh, hbegun⟩
  | checkpoint begun ckpt =>
    rw [hs] at hlogs
    simp only [rbtCall, memRbtreeBeginCkpt, hlogs.1, SnapshotStore.call, hs]
    exact ⟨tree, rfl, h⟩

theorem memRbtreeCommitCkpt_refines (M : Runtime) (h : Refines tree a) :
    ∃ tree', rbtCall M tree .commitCkpt = some tree' ∧
      Refines tree' (a.call (cursorKey tree) .commitCkpt) := by
  have hholds := h.holds
  obtain ⟨-, hnext, hfresh, hlogs⟩ := id h
  cases hs : a.snapshots with
  | none =>
    rw [hs] at hlogs
    simp only [rbtCall, memRbtreeCommitCkpt, hlogs.1, SnapshotStore.call, hs]
    exact ⟨tree, rfl, h⟩
  | transaction begun =>
    rw [hs] at hlogs
    simp only [rbtCall, memRbtreeCommitCkpt, hlogs.1, SnapshotStore.call, hs]
    exact ⟨tree, rfl, h⟩
  | checkpoint begun ckpt =>
    rw [hs] at hlogs
    obtain ⟨hstate, hcheck, htrans, -, hbegun⟩ := hlogs
    simp only [rbtCall, memRbtreeCommitCkpt, hstate, SnapshotStore.call, hs]
    exact ⟨_, rfl, hholds, hnext, hfresh, rfl, rfl, hcheck.append htrans, hbegun⟩

theorem memRbtreeRollbackCkpt_refines (M : Runtime) (h : Refines tree a) :
    ∃ tree', rbtCall M tree .rollbackCkpt = some tree' ∧
      Refines tree' (a.call (cursorKey tree) .rollbackCkpt) := by
  have hholds := h.holds
  obtain ⟨-, hnext, hfresh, hlogs⟩ := id h
  cases hs : a.snapshots with
  | none =>
    rw [hs] at hlogs
    simp only [rbtCall, memRbtreeRollbackCkpt, hlogs.1, SnapshotStore.call, hs]
    exact ⟨tree, rfl, h⟩
  | transaction begun =>
    rw [hs] at hlogs
    simp only [rbtCall, memRbtreeRollbackCkpt, hlogs.1, SnapshotStore.call, hs]
    exact ⟨tree, rfl, h⟩
  | checkpoint begun ckpt =>
    rw [hs] at hlogs
    obtain ⟨hstate, hcheck, htrans, hckpt, hbegun⟩ := hlogs
    obtain ⟨f, hrun, hf⟩ := executeRollbackList_spec M
      { tree with eTransState := .rollback } hholds rfl hcheck
    simp only [rbtCall, memRbtreeRollbackCkpt, hstate, hrun, Option.bind_eq_bind, Option.bind_some,
      SnapshotStore.call, hs]
    exact ⟨_, rfl, hf, hnext, hnext ▸ hckpt, rfl, rfl, htrans, hbegun⟩

/-- A legal call returns, and does to the tables and their snapshots what it is for. -/
theorem rbtCall_refines (M : Runtime) (h : Refines tree a) (c : RbtCall)
    (hlegal : LegalCall tree c) :
    ∃ tree', rbtCall M tree c = some tree' ∧ Refines tree' (a.call (cursorKey tree) c) := by
  cases c with
  | createTable => exact memRbtreeCreateTable_refines M h hlegal
  | dropTable _ => exact memRbtreeDropTable_refines M h hlegal
  | clearTable _ => exact memRbtreeClearTable_refines M h hlegal
  | insert _ _ _ => exact memRbtreeInsert_refines M h hlegal
  | delete _ _ => exact memRbtreeDelete_refines M h hlegal
  | beginTrans => exact memRbtreeBeginTrans_refines M h
  | commit => exact memRbtreeCommit_refines M h
  | rollback => exact memRbtreeRollback_refines M h
  | beginCkpt => exact memRbtreeBeginCkpt_refines M h
  | commitCkpt => exact memRbtreeCommitCkpt_refines M h
  | rollbackCkpt => exact memRbtreeRollbackCkpt_refines M h

theorem RbtRun.refines (h : RbtRun M tree a) : Refines tree a := by
  induction h with
  | opened => exact refines_opened
  | call h c hlegal hcall ih =>
    obtain ⟨tree', hcall', h'⟩ := rbtCall_refines M ih c hlegal
    rw [hcall] at hcall'
    cases hcall'
    exact h'

/-- Every run keeps red-black trees with the records of the store, and no legal call goes wrong. -/
theorem rbtRun_spec (h : RbtRun M tree a) : HoldsStore tree.tblHash a.store ∧
    ∀ c, LegalCall tree c → ∃ tree', rbtCall M tree c = some tree' ∧
      HoldsStore tree'.tblHash (a.call (cursorKey tree) c).store := by
  refine ⟨h.refines.holds, fun c hlegal => ?_⟩
  obtain ⟨tree', hcall, h'⟩ := rbtCall_refines M h.refines c hlegal
  exact ⟨tree', hcall, h'.holds⟩

/-- A record is put into the first table. -/
theorem rbtRun_spec_insert : ∃ tree a T, RbtRun firstFree tree a ∧ a.store 2 = some T ∧
    T [1] = some [7] ∧ HoldsStore tree.tblHash a.store ∧
    ∀ c, LegalCall tree c → ∃ tree', rbtCall firstFree tree c = some tree' ∧
      HoldsStore tree'.tblHash (a.call (cursorKey tree) c).store := by
  have h₀ := RbtRun.call (M := firstFree) .opened .beginTrans trivial rfl
  have hlegal : LegalCall { sqliteRbtreeOpen with eTransState := .inTransaction }
      (.insert 2 [1] [7]) := ⟨by decide, Option.some_ne_none _⟩
  obtain ⟨tree, hcall, -⟩ := rbtCall_refines firstFree h₀.refines _ hlegal
  have h := h₀.call _ hlegal hcall
  exact ⟨tree, _, _, h, rfl, rfl, rbtRun_spec h⟩

/-- The store that a rollback goes back to. -/
def Snapshots.begun : Snapshots → Option RbtTables
  | .none => .none
  | .transaction begun => some begun
  | .checkpoint begun _ => some begun

theorem SnapshotStore.call_begun (a : SnapshotStore) (key : Nat → RbtCursor → Option Blob)
    (h : a.snapshots.begun = some st) {c : RbtCall} (hcommit : c ≠ .commit)
    (hrollback : c ≠ .rollback) :
    (a.call key c).snapshots.begun = some st := by
  cases c with
  | commit => exact absurd rfl hcommit
  | rollback => exact absurd rfl hrollback
  | delete n pCur =>
    rw [SnapshotStore.call]
    split <;> exact h
  | beginTrans =>
    cases hs : a.snapshots <;> simp_all [SnapshotStore.call, Snapshots.begun]
  | beginCkpt =>
    cases hs : a.snapshots <;> simp_all [SnapshotStore.call, Snapshots.begun]
  | commitCkpt =>
    cases hs : a.snapshots <;> simp_all [SnapshotStore.call, Snapshots.begun]
  | rollbackCkpt =>
    cases hs : a.snapshots <;> simp_all [SnapshotStore.call, Snapshots.begun]
  | createTable => exact h
  | dropTable n => exact h
  | clearTable n => exact h
  | insert n key data => exact h

theorem RbtCalls.keep_begun (h : RbtCalls M tree calls tree')
    (hinside : ∀ c ∈ calls, c ≠ .commit ∧ c ≠ .rollback)
    (hr : Refines tree a) (hst : a.snapshots.begun = some st) :
    ∃ a', Refines tree' a' ∧ a'.snapshots.begun = some st := by
  induction h generalizing a with
  | nil => exact ⟨a, hr, hst⟩
  | cons hlegal hcall h ih =>
    obtain ⟨tree₁, hcall', hr'⟩ := rbtCall_refines M hr _ hlegal
    rw [hcall] at hcall'
    cases hcall'
    obtain ⟨hc, hrest⟩ := List.forall_mem_cons.mp hinside
    exact ih hrest hr' (a.call_begun _ hst hc.1 hc.2)

/-- Whatever is called between the beginning of a transaction and its rollback, the rollback gives
back the tables as they were. -/
theorem memRbtreeRollback_restores (h : RbtRun M tree a) (hstate : tree.eTransState = .none) :
    ∃ tree₁, memRbtreeBeginTrans tree = some (tree₁, 0) ∧ ∀ calls tree',
      RbtCalls M tree₁ calls tree' → (∀ c ∈ calls, c ≠ .commit ∧ c ≠ .rollback) →
      ∃ tree'', memRbtreeRollback M tree' = some tree'' ∧ HoldsStore tree''.tblHash a.store ∧
        tree''.eTransState = .none := by
  have hr := h.refines
  have hlogs := hr.logs
  have hnone : a.snapshots = .none := by
    cases hs : a.snapshots with
    | none => rfl
    | transaction begun =>
      rw [hs] at hlogs
      exact absurd (hlogs.1.symm.trans hstate) (by decide)
    | checkpoint begun ckpt =>
      rw [hs] at hlogs
      exact absurd (hlogs.1.symm.trans hstate) (by decide)
  rw [hnone] at hlogs
  have hbegin := memRbtreeBeginTrans_none hstate hlogs.2.1
  refine ⟨_, hbegin, fun calls tree' hcalls hinside => ?_⟩
  obtain ⟨tree₁, hcall, hr₁⟩ := rbtCall_refines M hr .beginTrans trivial
  rw [rbtCall, hbegin] at hcall
  cases hcall
  have hbegun : (a.call (cursorKey tree) .beginTrans).snapshots.begun = some a.store := by
    rw [SnapshotStore.call, hnone]
    rfl
  obtain ⟨a', hr', hbegun'⟩ := hcalls.keep_begun hinside hr₁ hbegun
  obtain ⟨tree'', hback, hr''⟩ := rbtCall_refines M hr' .rollback trivial
  have hstore : (a'.call (cursorKey tree') .rollback).store = a.store ∧
      (a'.call (cursorKey tree') .rollback).snapshots = .none := by
    cases hs : a'.snapshots <;> simp_all [SnapshotStore.call, Snapshots.begun]
  refine ⟨tree'', hback, hstore.1 ▸ hr''.holds, ?_⟩
  have hlogs := hr''.logs
  rw [hstore.2] at hlogs
  exact hlogs.1

/-- An insertion and a new table are rolled back. -/
theorem memRbtreeRollback_restores_insert : ∃ tree₀ tree' tree'',
    memRbtreeBeginTrans sqliteRbtreeOpen = some (tree₀, 0) ∧
    RbtCalls firstFree tree₀ [.insert 2 [1] [7], .createTable] tree' ∧
    memRbtreeRollback firstFree tree' = some tree'' ∧
    HoldsStore tree''.tblHash SnapshotStore.opened.store ∧ tree''.eTransState = .none := by
  obtain ⟨tree₀, hbegin, hback⟩ := memRbtreeRollback_restores (M := firstFree) .opened rfl
  have h₀ := RbtRun.call (M := firstFree) .opened .beginTrans trivial
    (congrArg (Option.map Prod.fst) hbegin)
  have hlegal : LegalCall tree₀ (.insert 2 [1] [7]) := by
    cases hbegin
    exact ⟨by decide, Option.some_ne_none _⟩
  obtain ⟨tree₁, hcall₁, h₁⟩ := rbtCall_refines firstFree h₀.refines _ hlegal
  have hstate : tree₁.eTransState ≠ .none := by
    rw [h₁.logs.1]
    decide
  obtain ⟨tree₂, hcall₂, -⟩ := rbtCall_refines firstFree h₁ .createTable hstate
  have hcalls : RbtCalls firstFree tree₀ [.insert 2 [1] [7], .createTable] tree₂ :=
    .cons hlegal hcall₁ (.cons hstate hcall₂ .nil)
  obtain ⟨tree'', hback, hstore⟩ := hback _ _ hcalls (by simp)
  exact ⟨tree₀, tree₂, tree'', hbegin, hcalls, hback, hstore⟩

def EndsCkpt (c : RbtCall) : Prop :=
  c = .commit ∨ c = .rollback ∨ c = .commitCkpt ∨ c = .rollbackCkpt

theorem SnapshotStore.call_ckpt (a : SnapshotStore) (key : Nat → RbtCursor → Option Blob)
    (h : a.snapshots = .checkpoint begun ckpt) {c : RbtCall} (hc : ¬ EndsCkpt c) :
    (a.call key c).snapshots = .checkpoint begun ckpt := by
  cases c with
  | commit => exact absurd (.inl rfl) hc
  | rollback => exact absurd (.inr (.inl rfl)) hc
  | commitCkpt => exact absurd (.inr (.inr (.inl rfl))) hc
  | rollbackCkpt => exact absurd (.inr (.inr (.inr rfl))) hc
  | delete n pCur =>
    rw [SnapshotStore.call]
    split <;> exact h
  | beginTrans => simp only [SnapshotStore.call, h]
  | beginCkpt => simp only [SnapshotStore.call, h]
  | createTable => exact h
  | dropTable n => exact h
  | clearTable n => exact h
  | insert n key data => exact h

theorem RbtCalls.keep_ckpt (h : RbtCalls M tree calls tree') (hinside : ∀ c ∈ calls, ¬ EndsCkpt c)
    (hr : Refines tree a) (hs : a.snapshots = .checkpoint begun ckpt) :
    ∃ a', Refines tree' a' ∧ a'.snapshots = .checkpoint begun ckpt := by
  induction h generalizing a with
  | nil => exact ⟨a, hr, hs⟩
  | cons hlegal hcall h ih =>
    obtain ⟨tree₁, hcall', hr'⟩ := rbtCall_refines M hr _ hlegal
    rw [hcall] at hcall'
    cases hcall'
    obtain ⟨hc, hrest⟩ := List.forall_mem_cons.mp hinside
    exact ih hrest hr' (a.call_ckpt _ hs hc)

/-- A checkpoint is rolled back to the tables at its beginning, and the transaction goes on: it can
still be rolled back to those at its own. -/
theorem memRbtreeRollbackCkpt_restores (h : RbtRun M tree a)
    (hstate : tree.eTransState = .inTransaction) :
    ∃ tree₁, memRbtreeBeginCkpt tree = some (tree₁, 0) ∧ ∀ calls tree',
      RbtCalls M tree₁ calls tree' → (∀ c ∈ calls, ¬ EndsCkpt c) →
      ∃ tree'' tree₀, memRbtreeRollbackCkpt M tree' = some tree'' ∧
        HoldsStore tree''.tblHash a.store ∧ tree''.eTransState = .inTransaction ∧
        memRbtreeRollback M tree'' = some tree₀ ∧
        ∀ begun, a.snapshots = .transaction begun → HoldsStore tree₀.tblHash begun := by
  have hr := h.refines
  have hlogs := hr.logs
  have hopen : ∃ begun, a.snapshots = .transaction begun := by
    cases hs : a.snapshots with
    | none =>
      rw [hs] at hlogs
      exact absurd (hlogs.1.symm.trans hstate) (by decide)
    | transaction begun => exact ⟨begun, rfl⟩
    | checkpoint begun ckpt =>
      rw [hs] at hlogs
      exact absurd (hlogs.1.symm.trans hstate) (by decide)
  obtain ⟨begun, hopen⟩ := hopen
  rw [hopen] at hlogs
  have hbegin := memRbtreeBeginCkpt_inTransaction hstate hlogs.2.1
  refine ⟨_, hbegin, fun calls tree' hcalls hinside => ?_⟩
  obtain ⟨tree₁, hcall, hr₁⟩ := rbtCall_refines M hr .beginCkpt trivial
  rw [rbtCall, hbegin] at hcall
  cases hcall
  have hckpt : (a.call (cursorKey tree) .beginCkpt).snapshots = .checkpoint begun a.store := by
    rw [SnapshotStore.call, hopen]
  obtain ⟨a', hr', hckpt'⟩ := hcalls.keep_ckpt hinside hr₁ hckpt
  obtain ⟨tree'', hback, hr''⟩ := rbtCall_refines M hr' .rollbackCkpt trivial
  have hcall : a'.call (cursorKey tree') .rollbackCkpt =
      { a' with store := a.store, snapshots := .transaction begun } := by
    simp only [SnapshotStore.call, hckpt']
  rw [hcall] at hr''
  obtain ⟨tree₀, hundone, hr₀⟩ := rbtCall_refines M hr'' .rollback trivial
  refine ⟨tree'', tree₀, hback, hr''.holds, hr''.logs.1, hundone, fun begun' hb => ?_⟩
  rw [hopen] at hb
  cases hb
  exact hr₀.holds

/-- An insertion in a checkpoint is rolled back. -/
theorem memRbtreeRollbackCkpt_restores_insert : ∃ tree tree₀ tree' tree'' tree₁,
    memRbtreeBeginCkpt tree = some (tree₀, 0) ∧
    RbtCalls firstFree tree₀ [.insert 2 [1] [7]] tree' ∧
    memRbtreeRollbackCkpt firstFree tree' = some tree'' ∧
    HoldsStore tree''.tblHash SnapshotStore.opened.store ∧ tree''.eTransState = .inTransaction ∧
    memRbtreeRollback firstFree tree'' = some tree₁ ∧
    HoldsStore tree₁.tblHash SnapshotStore.opened.store := by
  have h := RbtRun.call (M := firstFree) .opened .beginTrans trivial rfl
  obtain ⟨tree₀, hbegin, hback⟩ := memRbtreeRollbackCkpt_restores h rfl
  have h₀ := h.call .beginCkpt trivial (congrArg (Option.map Prod.fst) hbegin)
  have hlegal : LegalCall tree₀ (.insert 2 [1] [7]) := by
    cases hbegin
    exact ⟨by decide, Option.some_ne_none _⟩
  obtain ⟨tree', hcall, -⟩ := rbtCall_refines firstFree h₀.refines _ hlegal
  have hcalls : RbtCalls firstFree tree₀ [.insert 2 [1] [7]] tree' := .cons hlegal hcall .nil
  have hinside : ∀ c ∈ [RbtCall.insert 2 [1] [7]], ¬ EndsCkpt c := by
    simp [EndsCkpt]
  obtain ⟨tree'', tree₁, hundo, hstore, hstate, hundone, hbegun⟩ := hback _ _ hcalls hinside
  exact ⟨_, tree₀, tree', tree'', tree₁, hbegin, hcalls, hundo, hstore, hstate, hundone,
    hbegun _ rfl⟩

end Runs

end Pkgtools
