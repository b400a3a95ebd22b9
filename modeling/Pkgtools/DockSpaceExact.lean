import Pkgtools.DockSpace
import Mathlib.Algebra.BigOperators.Group.List.Basic
import Mathlib.Algebra.GroupWithZero.Nat

namespace Pkgtools
open CLib
set_option autoImplicit true

section Table

theorem add_add (e : Fstable) (b n b' n' : Nat) :
    (e.add b n).add b' n' = e.add (b + b') (n + n') := by
  simp only [Fstable.add, blkcnt, Fstable.mk.injEq, true_and, and_true]
  omega

/-- The table while it is filled: the names stay, block sizes are known and the counts are of
their type. -/
structure FsTabOk (names : List Str) (tab : List Fstable) : Prop where
  names : tab.map Fstable.name = names
  bsize : ∀ e ∈ tab, e.bsize ≠ 0
  bused : ∀ e ∈ tab, e.bused < 2 ^ 32
  fused : ∀ e ∈ tab, e.fused < 2 ^ 32

variable {names : List Str} {tab : List Fstable} {env : SpaceEnv} {os : List SpaceObj}

theorem FsTabOk.add_zero (h : FsTabOk names tab) (he : e ∈ tab) : e.add 0 0 = e := by
  have h₁ := h.bused e he
  have h₂ := h.fused e he
  simp only [Fstable.add, blkcnt, Nat.add_zero, Nat.mod_eq_of_lt h₁, Nat.mod_eq_of_lt h₂]

theorem FsTabOk.ensureFsTab (t : MountTable) :
    FsTabOk (t.mnts.map Statfs.mntonname) (ensureFsTab t) := by
  have hpos : (0 : Nat) < 2 ^ 32 := by decide
  refine ⟨?_, ?_, ?_, ?_⟩
  · rw [Pkgtools.ensureFsTab, List.map_map]
    rfl
  · intro e he
    obtain ⟨m, -, rfl⟩ := List.mem_map.mp he
    intro hz
    exact m.bsize_ne (UInt32.toNat_inj.mp hz)
  · intro e he
    obtain ⟨m, -, rfl⟩ := List.mem_map.mp he
    exact Nat.mod_lt _ hpos
  · intro e he
    obtain ⟨m, -, rfl⟩ := List.mem_map.mp he
    exact Nat.mod_lt _ hpos

theorem fsysStat_ok (h : FsTabOk names tab) (hn : n < tab.length) :
    fsysStat env tab n = some tab := by
  rw [fsysStat, List.getElem?_eq_getElem hn]
  exact if_pos (h.bsize _ (List.getElem_mem hn))

theorem findFsLoop_lt (names : List Str) (i : Nat) (best : Option Nat) (len : Nat)
    (hbest : ∀ n, best = some n → n < i) (h : findFsLoop path names i best len = some n) :
    n < i + names.length := by
  induction names generalizing i best len with
  | nil =>
    have := hbest n h
    simp only [List.length_nil]
    omega
  | cons name names ih =>
    rw [findFsLoop] at h
    rw [List.length_cons, show i + (names.length + 1) = i + 1 + names.length by omega]
    split at h
    · refine ih (i + 1) (some i) name.length ?_ h
      rintro n ⟨⟩
      exact Nat.lt_succ_self i
    · exact ih (i + 1) best len (fun n hn => Nat.lt_succ_of_lt (hbest n hn)) h

theorem findFsForPath_lt (h : findFsForPath names path = some n) : n < names.length := by
  have := findFsLoop_lt names 0 none 0 (fun n hn => by cases hn) h
  omega

theorem FsTabOk.modify (h : FsTabOk names tab) (n : Nat) (f : Fstable → Fstable)
    (hf : ∀ e, (f e).name = e.name ∧ (f e).bsize = e.bsize)
    (hb : ∀ e ∈ tab, (f e).bused < 2 ^ 32 ∧ (f e).fused < 2 ^ 32) :
    FsTabOk names (tab.modify n f) := by
  have hmem {e : Fstable} (he : e ∈ tab.modify n f) : e ∈ tab ∨ ∃ d ∈ tab, e = f d := by
    obtain ⟨k, hk⟩ := List.mem_iff_getElem?.mp he
    rw [List.getElem?_modify] at hk
    obtain ⟨d, hd, rfl⟩ := Option.map_eq_some_iff.mp hk
    split
    · exact .inr ⟨d, List.mem_of_getElem? hd, rfl⟩
    · exact .inl (List.mem_of_getElem? hd)
  refine ⟨?_, ?_, ?_, ?_⟩
  · rw [← h.names]
    apply List.ext_getElem?
    intro k
    rw [List.getElem?_map, List.getElem?_map, List.getElem?_modify]
    cases tab[k]? with
    | none => rfl
    | some e =>
      simp only [Option.map_eq_map, Option.map_some, Option.some.injEq]
      split
      · exact (hf e).1
      · rfl
  · intro e he
    rcases hmem he with he | ⟨d, hd, rfl⟩
    · exact h.bsize e he
    · rw [(hf d).2]
      exact h.bsize d hd
  · intro e he
    rcases hmem he with he | ⟨d, hd, rfl⟩
    · exact h.bused e he
    · exact (hb d hd).1
  · intro e he
    rcases hmem he with he | ⟨d, hd, rfl⟩
    · exact h.fused e he
    · exact (hb d hd).2

def Adds (names : List Str) (step : List Fstable × Nat → SpaceObj → List Fstable × Nat)
    (use : Nat → Fstable → SpaceObj → Nat × Nat) (o : SpaceObj) : Prop :=
  ∀ st, FsTabOk names st.1 → FsTabOk names (step st o).1 ∧
    ∀ i, (step st o).1[i]? = st.1[i]?.map fun (e : Fstable) => e.add (use i e o).2 (use i e o).1

theorem foldl_adds {step : List Fstable × Nat → SpaceObj → List Fstable × Nat}
    {use : Nat → Fstable → SpaceObj → Nat × Nat} (hs : ∀ o ∈ os, Adds names step use o)
    (hu : ∀ i e o b n, use i (e.add b n) o = use i e o) (st : List Fstable × Nat)
    (h : FsTabOk names st.1) :
    FsTabOk names (os.foldl step st).1 ∧
      ∀ i, (os.foldl step st).1[i]? = st.1[i]?.map fun (e : Fstable) =>
        e.add (os.map fun o => (use i e o).2).sum (os.map fun o => (use i e o).1).sum := by
  induction os generalizing st with
  | nil =>
    refine ⟨h, ?_⟩
    intro i
    cases hi : st.1[i]? with
    | none => simp [hi]
    | some e =>
      simp only [List.foldl_nil, hi, Option.map_some, List.map_nil, List.sum_nil]
      rw [h.add_zero (List.mem_of_getElem? hi)]
  | cons o os ih =>
    obtain ⟨h₁, h₂⟩ := hs o (List.mem_cons_self ..) st h
    obtain ⟨h₃, h₄⟩ := ih (fun x hx => hs x (List.mem_cons_of_mem _ hx)) (step st o) h₁
    refine ⟨h₃, ?_⟩
    intro i
    rw [List.foldl_cons, h₄, h₂, Option.map_map]
    congr 1
    funext e
    simp only [Function.comp_apply, hu, add_add, List.map_cons, List.sum_cons]

theorem getElem?_modify_of (f : Fstable → Fstable) (n i : Nat) :
    (tab.modify n f)[i]? = tab[i]?.map fun e => if n = i then f e else e := List.getElem?_modify ..

theorem FsTabOk.unchanged (h : FsTabOk names tab) {i : Nat} {use : Fstable → Nat × Nat}
    (hz : ∀ e ∈ tab, tab[i]? = some e → use e = (0, 0)) :
    tab[i]? = tab[i]?.map fun (e : Fstable) => e.add (use e).2 (use e).1 := by
  cases hi : tab[i]? with
  | none => rfl
  | some e =>
    have he := List.mem_of_getElem? hi
    rw [Option.map_some, hz e he hi, h.add_zero he]

end Table

section Loops
variable {names : List Str} {env : SpaceEnv} {os : List SpaceObj}

def installUse (env : SpaceEnv) (names : List Str) (i : Nat) (e : Fstable) (o : SpaceObj) :
    Nat × Nat :=
  if o.ftype = 'i' ∧ findFsForPath names (installPath env.pkgloc o.path) = some i ∧
      e.counted = true then
    (1, contentBlocks e o.size)
  else (0, 0)

def otherUse (env : SpaceEnv) (names : List Str) (i : Nat) (e : Fstable) (o : SpaceObj) :
    Nat × Nat :=
  if ¬ (o.ftype = 'i' ∨ o.preloaded = true) ∧ findFsForPath names o.path = some i ∧
      e.counted = true then
    objectUse env e o
  else (0, 0)

theorem readInstall_adds (o : SpaceObj) :
    Adds names (readInstall env) (installUse env names) o := by
  intro st h
  by_cases hi : o.ftype = 'i'
  · cases hfind : findFsForPath names (installPath env.pkgloc o.path) with
    | none =>
      have hstep : readInstall env st o = (st.1, st.2 + 1) := by
        simp [readInstall, hi, h.names, hfind]
      rw [hstep]
      refine ⟨h, ?_⟩
      intro i
      exact h.unchanged fun e _ _ => by simp [installUse, hfind]
    | some n =>
      have hn : n < st.1.length := by
        have := findFsForPath_lt hfind
        rwa [← h.names, List.length_map] at this
      have hstep : readInstall env st o =
          (st.1.modify n fun e => if e.counted then e.add (contentBlocks e o.size) 1
            else e, st.2) := by
        simp [readInstall, hi, h.names, hfind, fsysStat_ok h hn]
      rw [hstep]
      refine ⟨h.modify n _ ?_ ?_, ?_⟩
      · intro e
        split <;> exact ⟨rfl, rfl⟩
      · intro e he
        split
        · exact ⟨Nat.mod_lt _ (by decide), Nat.mod_lt _ (by decide)⟩
        · exact ⟨h.bused e he, h.fused e he⟩
      · intro i
        rw [getElem?_modify_of]
        cases he : st.1[i]? with
        | none => rfl
        | some e =>
          have hz := h.add_zero (List.mem_of_getElem? he)
          simp only [Option.map_some, Option.some.injEq]
          by_cases hni : n = i
          · cases hc : e.counted <;> simp [installUse, hfind, hi, hni, hc, hz]
          · simp [installUse, hfind, hni, hz]
  · have hsame : readInstall env st o = st := if_pos hi
    rw [hsame]
    refine ⟨h, ?_⟩
    intro i
    exact h.unchanged fun e _ _ => by simp [installUse, hi]

theorem readObject_adds (o : SpaceObj) :
    Adds names (readObject env) (otherUse env names) o := by
  intro st h
  by_cases hi : o.ftype = 'i' ∨ o.preloaded = true
  · have hsame : readObject env st o = st := if_pos hi
    rw [hsame]
    refine ⟨h, ?_⟩
    intro i
    exact h.unchanged fun e _ _ => by
      rw [otherUse, if_neg]
      exact fun hc => hc.1 hi
  · cases hfind : findFsForPath names o.path with
    | none =>
      have hstep : readObject env st o = (st.1, st.2 + 1) := by
        rw [readObject, if_neg hi]
        simp only [h.names, hfind]
      rw [hstep]
      refine ⟨h, ?_⟩
      intro i
      exact h.unchanged fun e _ _ => by simp [otherUse, hfind]
    | some n =>
      have hn : n < st.1.length := by
        have := findFsForPath_lt hfind
        rwa [← h.names, List.length_map] at this
      have hget : st.1[n]? = some st.1[n] := List.getElem?_eq_getElem hn
      have hstep : readObject env st o = if st.1[n].counted = true then
          (st.1.modify n fun e => e.add (objectUse env e o).2 (objectUse env e o).1, st.2)
          else st := by
        rw [readObject, if_neg hi]
        simp only [h.names, hfind, fsysStat_ok h hn, hget, Option.map_some, Option.getD_some]
      rw [hstep]
      cases hc : st.1[n].counted with
      | false =>
        rw [if_neg Bool.false_ne_true]
        refine ⟨h, ?_⟩
        intro i
        refine h.unchanged fun e _ he => ?_
        rw [otherUse, if_neg]
        rintro ⟨-, hfi, hce⟩
        rw [hfind] at hfi
        cases hfi
        rw [hget] at he
        cases he
        rw [hc] at hce
        cases hce
      | true =>
        rw [if_pos rfl]
        refine ⟨h.modify n _ (fun e => ⟨rfl, rfl⟩) ?_, ?_⟩
        · intro e _
          exact ⟨Nat.mod_lt _ (by decide), Nat.mod_lt _ (by decide)⟩
        · intro i
          rw [getElem?_modify_of]
          cases he : st.1[i]? with
          | none => rfl
          | some e =>
            have hz := h.add_zero (List.mem_of_getElem? he)
            simp only [Option.map_some, Option.some.injEq]
            by_cases hni : n = i
            · subst hni
              rw [hget] at he
              cases he
              rw [if_pos rfl, otherUse, if_pos ⟨hi, hfind, hc⟩]
            · rw [if_neg hni, otherUse, if_neg, hz]
              rintro ⟨-, hfi, -⟩
              rw [hfind] at hfi
              exact hni (Option.some.inj hfi)

/-- Both loops: the entry of a filesystem with what the objects need. -/
theorem readmap_entry (t : MountTable) (os : List SpaceObj) (i : Nat) :
    (readmap env (ensureFsTab t) os).1[i]? = (ensureFsTab t)[i]?.map fun (e : Fstable) =>
      e.add ((os.map fun o => (installUse env (t.mnts.map Statfs.mntonname) i e o).2).sum +
          (os.map fun o => (otherUse env (t.mnts.map Statfs.mntonname) i e o).2).sum)
        ((os.map fun o => (installUse env (t.mnts.map Statfs.mntonname) i e o).1).sum +
          (os.map fun o => (otherUse env (t.mnts.map Statfs.mntonname) i e o).1).sum) := by
  have h₀ := FsTabOk.ensureFsTab t
  have hinst : ∀ o ∈ os, Adds (t.mnts.map Statfs.mntonname) (readInstall env)
      (installUse env _) o :=
    fun o _ => readInstall_adds o
  have hother : ∀ o ∈ os, Adds (t.mnts.map Statfs.mntonname) (readObject env) (otherUse env _) o :=
    fun o _ => readObject_adds o
  obtain ⟨h₁, h₂⟩ := foldl_adds hinst (fun _ _ _ _ _ => rfl) (ensureFsTab t, 0) h₀
  obtain ⟨-, h₃⟩ := foldl_adds hother (fun _ _ _ _ _ => rfl)
    (os.foldl (readInstall env) (ensureFsTab t, 0)) h₁
  rw [readmap, h₃, h₂, Option.map_map]
  congr 1
  funext e
  rw [Function.comp_apply, add_add]
  rfl

end Loops

section Check
variable {env : SpaceEnv} {os : List SpaceObj} {t : MountTable} {m : Statfs} {i : Nat}

def Reported (ws : List SpaceWarning) (i : Nat) : Prop := ∃ w ∈ ws, w.fs = i

def Fstable.Short (e : Fstable) : Prop :=
  ¬ (e.fused = 0 ∧ e.bused = 0) ∧
    (e.bfree < LIM_BFREE + e.bused ∨ e.ffree < LIM_FFREE + e.fused)

theorem checkFs_fs (h : w ∈ checkFs i e) : w.fs = i := by
  rw [checkFs] at h
  split at h
  · cases h
  · rcases List.mem_append.mp h with h | h
    · split at h
      · rcases List.mem_singleton.mp h with rfl
        rfl
      · cases h
    · split at h
      · cases h
      · split at h
        · rcases List.mem_singleton.mp h with rfl
          rfl
        · cases h

theorem checkFs_ne_nil (i : Nat) (e : Fstable) : checkFs i e ≠ [] ↔ e.Short := by
  have hneg : (e.ffree : Int) ≠ -1 := by omega
  rw [checkFs, Fstable.Short]
  by_cases hz : e.fused = 0 ∧ e.bused = 0
  · simp [hz]
  · rw [if_neg hz, if_neg hneg]
    by_cases h₁ : e.bfree < LIM_BFREE + e.bused
    · simp [hz, h₁]
    · by_cases h₂ : e.ffree < LIM_FFREE + e.fused
      · simp [hz, h₁, h₂]
      · simp [h₁, h₂]

theorem checkTab_reported (tab : List Fstable) (k : Nat) :
    Reported (checkTab k tab) (k + i) ↔ ∃ e, tab[i]? = some e ∧ e.Short := by
  induction tab generalizing k i with
  | nil =>
    constructor
    · rintro ⟨w, hw, -⟩
      cases hw
    · rintro ⟨e, he, -⟩
      cases he
  | cons e tab ih =>
    have hlater {w : SpaceWarning} {j : Nat} (hw : w ∈ checkTab j tab) : j ≤ w.fs := by
      clear ih
      induction tab generalizing j with
      | nil => cases hw
      | cons d tab ih' =>
        rcases List.mem_append.mp hw with hw | hw
        · exact Nat.le_of_eq (checkFs_fs hw).symm
        · exact Nat.le_of_succ_le (ih' hw)
    cases i with
    | zero =>
      have hiff : Reported (checkTab k (e :: tab)) (k + 0) ↔ checkFs k e ≠ [] := by
        constructor
        · rintro ⟨w, hw, hfs⟩
          rcases List.mem_append.mp hw with hw | hw
          · exact List.ne_nil_of_mem hw
          · have := hlater hw
            omega
        · intro hne
          obtain ⟨w, hw⟩ := List.exists_mem_of_ne_nil _ hne
          exact ⟨w, List.mem_append_left _ hw, checkFs_fs hw⟩
      rw [hiff, checkFs_ne_nil]
      simp
    | succ i =>
      rw [List.getElem?_cons_succ, ← ih (k + 1), show k + 1 + i = k + (i + 1) by omega]
      constructor
      · rintro ⟨w, hw, hfs⟩
        rcases List.mem_append.mp hw with hw | hw
        · have := checkFs_fs hw
          omega
        · exact ⟨w, hw, hfs⟩
      · rintro ⟨w, hw, hfs⟩
        exact ⟨w, List.mem_append_right _ hw, hfs⟩

def Statfs.counted (m : Statfs) : Bool := !(isRemoteType m.fstypename && m.rdonly)

/-- The test that is made: blocks of `f_bsize` bytes are free, and what is in use already counts as
needed. -/
def TableShort (m : Statfs) (blk num : Nat) : Prop :=
  ¬ (blkcnt ((m.files - m.ffree).toNat + num) = 0 ∧ blkcnt ((m.blocks - m.bfree).toNat + blk) = 0) ∧
    (blkcnt m.bavail.toNat < LIM_BFREE + blkcnt ((m.blocks - m.bfree).toNat + blk) ∨
      blkcnt m.ffree.toNat < LIM_FFREE + blkcnt ((m.files - m.ffree).toNat + num))

/-- There is not enough room: blocks of 512 bytes are needed. -/
def ReallyShort (m : Statfs) (blk num : Nat) : Prop :=
  m.bavail.toNat * m.bsize.toNat < 512 * (LIM_BFREE + blk) ∨ m.ffree.toNat < LIM_FFREE + num

theorem fsEntry_short (m : Statfs) (blk num : Nat) :
    ((fsEntry m).add blk num).Short ↔ TableShort m blk num := by
  have hmod (x y : Nat) : blkcnt (blkcnt x + y) = blkcnt (x + y) := by
    simp only [blkcnt]
    omega
  simp only [Fstable.Short, TableShort, Fstable.add, fsEntry, hmod]

/-- The blocks and the file nodes that the objects need on a filesystem. -/
def blocksOn (env : SpaceEnv) (t : MountTable) (os : List SpaceObj) (i : Nat) (m : Statfs) : Nat :=
  ((objectsOn env t os i).map (newBlocks m)).sum

theorem uses_new (env : SpaceEnv) (t : MountTable) (m : Statfs) (i : Nat) (o : SpaceObj)
    (hpre : o.preloaded = false) (hnew : env.stat o.path = none) :
    (installUse env (t.mnts.map Statfs.mntonname) i (fsEntry m) o).2 +
        (otherUse env (t.mnts.map Statfs.mntonname) i (fsEntry m) o).2 =
      (if m.counted ∧ findFsForPath (t.mnts.map Statfs.mntonname) (targetPath env o) = some i then
        newBlocks m o else 0) ∧
    (installUse env (t.mnts.map Statfs.mntonname) i (fsEntry m) o).1 +
        (otherUse env (t.mnts.map Statfs.mntonname) i (fsEntry m) o).1 =
      (if m.counted ∧ findFsForPath (t.mnts.map Statfs.mntonname) (targetPath env o) = some i then
        1 else 0) := by
  have hcount : (fsEntry m).counted = m.counted := by
    simp [Fstable.counted, Statfs.counted, fsEntry]
  have hbs : (fsEntry m).bsize = m.bsize.toNat := rfl
  have hfr : (fsEntry m).frsize = m.bsize.toNat := rfl
  by_cases hi : o.ftype = 'i'
  · by_cases hc : m.counted = true ∧
        findFsForPath (t.mnts.map Statfs.mntonname) (installPath env.pkgloc o.path) = some i
    · simp [installUse, otherUse, targetPath, hi, hcount, hc, newBlocks, contentBlocks, hbs, hfr]
    · have hc' : ¬ (findFsForPath (t.mnts.map Statfs.mntonname) (installPath env.pkgloc o.path) =
          some i ∧ m.counted = true) := fun h => hc ⟨h.2, h.1⟩
      simp [installUse, otherUse, targetPath, hi, hcount, hc, hc']
  · by_cases hc : m.counted = true ∧
        findFsForPath (t.mnts.map Statfs.mntonname) o.path = some i
    · simp [installUse, otherUse, targetPath, hi, hcount, hc, hpre, newBlocks, objectUse, hnew,
        contentBlocks, hbs, hfr]
    · have hc' : ¬ (findFsForPath (t.mnts.map Statfs.mntonname) o.path = some i ∧
          m.counted = true) := fun h => hc ⟨h.2, h.1⟩
      simp [installUse, otherUse, targetPath, hi, hcount, hc, hc', hpre]

theorem sum_filter (p : SpaceObj → Bool) (c : Bool) (f : SpaceObj → Nat) (os : List SpaceObj) :
    (os.map fun o => if c = true ∧ p o = true then f o else 0).sum =
      if c then ((os.filter p).map f).sum else 0 := by
  induction os with
  | nil => simp
  | cons o os ih =>
    rw [List.map_cons, List.sum_cons, ih]
    cases c with
    | false => simp
    | true =>
      by_cases hp : p o = true
      · simp [hp]
      · simp [hp]

theorem readmap_new (hpre : ∀ o ∈ os, o.preloaded = false) (hnew : ∀ o ∈ os, env.stat o.path = none)
    (hi : t.mnts[i]? = some m) :
    (readmap env (ensureFsTab t) os).1[i]? = some ((fsEntry m).add
      (if m.counted then blocksOn env t os i m else 0)
      (if m.counted then (objectsOn env t os i).length else 0)) := by
  have hget : (ensureFsTab t)[i]? = some (fsEntry m) := by
    rw [ensureFsTab, List.getElem?_map, hi]
    rfl
  have hplace (f : SpaceObj → Nat) :
      (os.map fun o => if m.counted ∧
          findFsForPath (t.mnts.map Statfs.mntonname) (targetPath env o) = some i then f o
        else 0).sum = if m.counted then ((objectsOn env t os i).map f).sum else 0 := by
    rw [objectsOn, ← sum_filter]
    congr 1
    apply List.map_congr_left
    intro o _
    simp
  rw [readmap_entry, hget, Option.map_some, ← List.sum_map_add, ← List.sum_map_add]
  have hblk := List.map_congr_left fun o ho =>
    (uses_new env t m i o (hpre o ho) (hnew o ho)).1
  have hnum := List.map_congr_left fun o ho =>
    (uses_new env t m i o (hpre o ho) (hnew o ho)).2
  rw [hblk, hnum, hplace, hplace]
  simp [blocksOn]

theorem dockspace_reported (hpre : ∀ o ∈ os, o.preloaded = false)
    (hnew : ∀ o ∈ os, env.stat o.path = none) (hi : t.mnts[i]? = some m) :
    Reported (dockspace env t os).2 i ↔ TableShort m
      (if m.counted then blocksOn env t os i m else 0)
      (if m.counted then (objectsOn env t os i).length else 0) := by
  have hrep := checkTab_reported (i := i) (readmap env (ensureFsTab t) os).1 0
  rw [Nat.zero_add] at hrep
  rw [← fsEntry_short]
  refine hrep.trans ?_
  rw [readmap_new hpre hnew hi]
  simp

/-- Blocks and file nodes, also fewer than none. -/
structure Room where
  blocks : Int
  nodes : Int

/-- What objects can take of a filesystem, in blocks of 512 bytes. -/
def Statfs.room (m : Statfs) : Room :=
  ⟨((m.bavail.toNat * m.bsize.toNat / 512 : Nat) : Int) - LIM_BFREE, m.ffree.toNat - LIM_FFREE⟩

/-- The blocks of `f_bsize` bytes and the file nodes in use, as the table counts them. -/
def Statfs.bused (m : Statfs) : Nat := blkcnt (m.blocks - m.bfree).toNat
def Statfs.fused (m : Statfs) : Nat := blkcnt (m.files - m.ffree).toNat

/-- What objects can take beside that by the table, in blocks of `f_bsize` bytes. The counters have
32 bits, and one that wraps makes room again. -/
def Statfs.tableRoom (m : Statfs) (blk num : Nat) : Room :=
  ⟨(blkcnt m.bavail.toNat : Int) - LIM_BFREE - m.bused + 2 ^ 32 * ((m.bused + blk) / 2 ^ 32 : Nat),
    (blkcnt m.ffree.toNat : Int) - LIM_FFREE - m.fused + 2 ^ 32 * ((m.fused + num) / 2 ^ 32 : Nat)⟩

/-- No object is counted, and the filesystem is not reported: nothing is in use, or as much is free
besides. -/
def Statfs.Quiet (m : Statfs) : Prop :=
  m.bused = 0 ∧ m.fused = 0 ∨
    LIM_BFREE + m.bused ≤ blkcnt m.bavail.toNat ∧ LIM_FFREE + m.fused ≤ blkcnt m.ffree.toNat

instance (m : Statfs) : Decidable m.Quiet := inferInstanceAs (Decidable (_ ∨ _))

/-- What is needed is not between the two: it is in both, or more than one of them has for one
reason and the other one for one. -/
def Room.SameSide (r q : Room) (blk num : Nat) : Prop :=
  blk ≤ min r.blocks q.blocks ∧ num ≤ min r.nodes q.nodes ∨ max r.blocks q.blocks < blk ∨
    max r.nodes q.nodes < num ∨ r.blocks < blk ∧ q.nodes < num ∨ q.blocks < blk ∧ r.nodes < num

/-- Both counters wrap to 0, and the filesystem is passed over. -/
def Statfs.Wraps (m : Statfs) (blk num : Nat) : Prop :=
  2 ^ 32 ∣ m.bused + blk ∧ 2 ^ 32 ∣ m.fused + num

/-- The answer for a filesystem is right for objects that need these blocks and file nodes. -/
def Statfs.ExactFor (m : Statfs) (blk num : Nat) : Prop :=
  m.counted = true ∧ ¬ m.Wraps blk num ∧ (m.tableRoom blk num).SameSide m.room blk num ∨
    (m.counted = true ∧ m.Wraps blk num ∨ m.counted = false ∧ m.Quiet) ∧
      blk ≤ m.room.blocks ∧ num ≤ m.room.nodes ∨
    m.counted = false ∧ ¬ m.Quiet ∧ (m.room.blocks < blk ∨ m.room.nodes < num)

instance (r q : Room) (blk num : Nat) : Decidable (r.SameSide q blk num) :=
  inferInstanceAs (Decidable (_ ∨ _))

instance (m : Statfs) (blk num : Nat) : Decidable (m.Wraps blk num) :=
  inferInstanceAs (Decidable (_ ∧ _))

instance (m : Statfs) (blk num : Nat) : Decidable (m.ExactFor blk num) :=
  inferInstanceAs (Decidable (_ ∨ _))

theorem Room.sameSide_iff {r q : Room} : r.SameSide q blk num ↔
    ((r.blocks < blk ∨ r.nodes < num) ↔ (q.blocks < blk ∨ q.nodes < num)) := by
  rw [Room.SameSide]
  omega

theorem reallyShort_iff (m : Statfs) (blk num : Nat) :
    ReallyShort m blk num ↔ m.room.blocks < blk ∨ m.room.nodes < num := by
  have hfit : m.bavail.toNat * m.bsize.toNat < 512 * (LIM_BFREE + blk) ↔
      m.bavail.toNat * m.bsize.toNat / 512 < LIM_BFREE + blk := by
    rw [Nat.div_lt_iff_lt_mul (by decide), Nat.mul_comm 512]
  rw [ReallyShort, hfit, Statfs.room]
  dsimp only
  omega

theorem tableShort_iff (m : Statfs) (blk num : Nat) :
    TableShort m blk num ↔ ¬ m.Wraps blk num ∧
      ((m.tableRoom blk num).blocks < blk ∨ (m.tableRoom blk num).nodes < num) := by
  have hmod (x y : Nat) : blkcnt (x + y) = (blkcnt x + y) % 2 ^ 32 := by
    simp only [blkcnt]
    omega
  rw [TableShort, hmod, hmod, ← Nat.dvd_iff_mod_eq_zero, ← Nat.dvd_iff_mod_eq_zero,
    and_comm (a := 2 ^ 32 ∣ blkcnt (m.files - m.ffree).toNat + num), Statfs.Wraps, Statfs.tableRoom,
    Statfs.bused, Statfs.fused]
  refine and_congr_right fun _ => ?_
  dsimp only
  have hb := Nat.div_add_mod (blkcnt (m.blocks - m.bfree).toNat + blk) (2 ^ 32)
  have hf := Nat.div_add_mod (blkcnt (m.files - m.ffree).toNat + num) (2 ^ 32)
  omega

theorem tableShort_zero (m : Statfs) : TableShort m 0 0 ↔ ¬ m.Quiet := by
  simp only [TableShort, Statfs.Quiet, Statfs.bused, Statfs.fused, Nat.add_zero]
  omega

/-- Exactly when the report for a filesystem is right. -/
theorem dockspace_exact_iff (env : SpaceEnv) (t : MountTable) (os : List SpaceObj)
    (hpre : ∀ o ∈ os, o.preloaded = false) (hnew : ∀ o ∈ os, env.stat o.path = none)
    (hi : t.mnts[i]? = some m) :
    (Reported (dockspace env t os).2 i ↔ objectsOn env t os i ≠ [] ∧
        ReallyShort m (blocksOn env t os i m) (objectsOn env t os i).length) ↔
      if objectsOn env t os i = [] then m.Quiet
      else m.ExactFor (blocksOn env t os i m) (objectsOn env t os i).length := by
  rw [dockspace_reported hpre hnew hi]
  by_cases hnil : objectsOn env t os i = []
  · have hblk : blocksOn env t os i m = 0 := by
      rw [blocksOn, hnil]
      rfl
    simp [hnil, hblk, tableShort_zero]
  · rw [if_neg hnil, and_iff_right hnil, reallyShort_iff, Statfs.ExactFor]
    cases m.counted with
    | false =>
      simp only [Bool.false_eq_true, if_false, tableShort_zero, true_and, false_and, false_or]
      by_cases hquiet : m.Quiet
      · simp only [hquiet, not_true_eq_false, false_iff, true_and, false_and, or_false]
        omega
      · simp only [hquiet, not_false_eq_true, true_iff, true_and, false_and, false_or]
    | true =>
      simp only [if_true, tableShort_iff, Bool.true_eq_false, true_and, false_and, or_false]
      by_cases hwrap : m.Wraps (blocksOn env t os i m) (objectsOn env t os i).length
      · simp only [hwrap, not_true_eq_false, false_and, false_iff, true_and, false_or]
        omega
      · simp only [hwrap, not_false_eq_true, true_and, false_and, or_false, Room.sameSide_iff]

end Check

section Samples

def sampleSpaceEnv : SpaceEnv := ⟨fun _ => none, fun _ => none, "/p".toList⟩

def rootFs (blocks bfree files ffree : UInt64) : Statfs :=
  ⟨"/".toList, "apfs".toList, 4096, blocks, bfree, bfree, files, ffree, false, by decide⟩

def rootMount (m : Statfs) : MountTable := ⟨[m], by simp⟩

def sampleObject : SpaceObj := ⟨'f', "/a".toList, 100, false⟩

/-- An empty filesystem that is large enough is not reported. -/
theorem dockspace_exact_empty :
    Reported (dockspace sampleSpaceEnv (rootMount (rootFs 1000 1000 1000 1000)) [sampleObject]).2
      0 ↔
      objectsOn sampleSpaceEnv (rootMount (rootFs 1000 1000 1000 1000)) [sampleObject] 0 ≠ [] ∧
        ReallyShort (rootFs 1000 1000 1000 1000) 8 1 := by
  have hiff := dockspace_exact_iff (i := 0) sampleSpaceEnv (rootMount (rootFs 1000 1000 1000 1000))
    [sampleObject] (by decide) (by decide) rfl
  refine hiff.mpr ?_
  have hnil : objectsOn sampleSpaceEnv (rootMount (rootFs 1000 1000 1000 1000)) [sampleObject] 0 ≠
      [] := by decide +kernel
  rw [if_neg hnil]
  decide +kernel

/-- Half of a filesystem of four gigabytes is free and a small file is too much for it. -/
theorem dockspace_false_alarm :
    Reported (dockspace sampleSpaceEnv (rootMount (rootFs 1000000 500000 1000000 900000))
        [sampleObject]).2 0 ∧
      objectsOn sampleSpaceEnv (rootMount (rootFs 1000000 500000 1000000 900000)) [sampleObject] 0 =
        [sampleObject] ∧
      blocksOn sampleSpaceEnv (rootMount (rootFs 1000000 500000 1000000 900000)) [sampleObject] 0
        (rootFs 1000000 500000 1000000 900000) = 8 ∧
      ¬ ReallyShort (rootFs 1000000 500000 1000000 900000) 8 1 := by
  refine ⟨?_, by decide +kernel, by decide +kernel, ?_⟩
  · have hw : (dockspace sampleSpaceEnv (rootMount (rootFs 1000000 500000 1000000 900000))
        [sampleObject]).2 = [⟨.blck, 0, 500008, 500000⟩] := by decide +kernel
    rw [hw]
    exact ⟨_, List.mem_singleton.mpr rfl, rfl⟩
  · rw [ReallyShort]
    decide +kernel

end Samples

end Pkgtools
