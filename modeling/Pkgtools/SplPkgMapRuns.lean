import Pkgtools.SplPkgMap

namespace Pkgtools
open CLib
set_option autoImplicit true

def PartData.dirs (d : PartData) : Nat := (dirCuts d.ept.path).length

/-- The objects that have been assigned to part `v`. -/
def forced (f : List PartData) (v : Int) : List PartData := f.filter fun d => d.ept.volno == v

/-- The blocks that `newvolume` counts for them: every object with all of its directories. -/
def forcedBlocks (env : SplEnv) (f : List PartData) (v : Int) : Nat :=
  ((forced f v).map fun d => d.blks + d.dirs * env.dirSize).sum

/-- The entries that `newvolume` counts for them. -/
def forcedEntries (f : List PartData) (v : Int) : Nat := ((forced f v).map fun d => d.dirs + 1).sum

/-- The objects that have been assigned to a new volume do not make `newvolume` quit: there are
none, or there is a limit for the entries and the blocks are within theirs. -/
def Opens (env : SplEnv) (f : List PartData) (v : Int) (base : Nat) : Prop :=
  forced f v = [] ∨ env.ilimit ≠ 0 ∧ base + forcedBlocks env f v ≤ env.limit

instance : Decidable (Opens env f v base) := inferInstanceAs (Decidable (_ ∨ _ ∧ _))

/-- The directories that a part needs for the objects assigned to it, each of them once. -/
def partDirs (f : List PartData) (v : Int) : List Str :=
  (forced f v).foldl (fun dirs d => allocnode dirs d.ept.path) []

/-- The blocks of a part with the objects assigned to it, its `pkginfo` file included. -/
def partBlocks (env : SplEnv) (f : List PartData) (v : Int) : Nat :=
  env.bpkginfo + 2 + ((forced f v).map PartData.blks).sum + (partDirs f v).length * env.dirSize

def partEntries (f : List PartData) (v : Int) : Nat :=
  2 + (forced f v).length + (partDirs f v).length

/-- Totals within the limits; 0 means no limit for the entries. -/
def SplEnv.Within (env : SplEnv) (blocks entries : Nat) : Prop :=
  blocks ≤ env.limit ∧ (env.ilimit = 0 ∨ entries ≤ env.ilimit)

instance (env : SplEnv) (b t : Nat) : Decidable (env.Within b t) :=
  inferInstanceAs (Decidable (_ ∧ _))

section Forced
variable {env : SplEnv} {f : List PartData} {ds : List (Nat × PartData)} {v : Int}

@[simp]
theorem nodecount_nil (path : Str) : nodecount [] path = (dirCuts path).length := by
  simp [nodecount]

theorem forcedBlocks_cons (env : SplEnv) (d : PartData) (f : List PartData) (v : Int) :
    forcedBlocks env (d :: f) v =
      (if d.ept.volno = v then d.blks + d.dirs * env.dirSize else 0) + forcedBlocks env f v := by
  by_cases h : d.ept.volno = v
  · simp [forcedBlocks, forced, h]
  · simp [forcedBlocks, forced, h]

theorem forcedEntries_cons (d : PartData) (f : List PartData) (v : Int) :
    forcedEntries (d :: f) v = (if d.ept.volno = v then d.dirs + 1 else 0) + forcedEntries f v := by
  by_cases h : d.ept.volno = v
  · simp [forcedEntries, forced, h]
  · simp [forcedEntries, forced, h]

theorem force_eq (h : Opens env (ds.map Prod.snd) v b) :
    force env v ds b t =
      .ok (b + forcedBlocks env (ds.map Prod.snd) v, t + forcedEntries (ds.map Prod.snd) v) := by
  induction ds generalizing b t with
  | nil => rfl
  | cons p ds ih =>
    obtain ⟨i, d⟩ := p
    rw [List.map_cons] at h ⊢
    rw [force, forcedBlocks_cons, forcedEntries_cons]
    by_cases hv : d.ept.volno = v
    · have hlim : env.ilimit ≠ 0 ∧
          b + (d.blks + d.dirs * env.dirSize) + forcedBlocks env (ds.map Prod.snd) v ≤
            env.limit := by
        rcases h with h | ⟨h₁, h₂⟩
        · simp [forced, hv] at h
        · rw [forcedBlocks_cons, if_pos hv, ← Nat.add_assoc] at h₂
          exact ⟨h₁, h₂⟩
      simp only [if_pos hv, nodecount_nil]
      rw [← PartData.dirs, if_neg (by omega), if_neg (fun hz => hlim.1 hz.1), ih (.inr hlim),
        Nat.add_assoc b, Nat.add_assoc t]
    · rw [if_neg hv, if_neg hv, if_neg hv, Nat.zero_add, Nat.zero_add]
      apply ih
      rcases h with h | ⟨h₁, h₂⟩
      · left
        rwa [forced, List.filter_cons_of_neg (by simpa using hv)] at h
      · rw [forcedBlocks_cons, if_neg hv, Nat.zero_add] at h₂
        exact .inr ⟨h₁, h₂⟩

theorem filterMap_range (f : List PartData) : (List.range f.length).filterMap (f[·]?) = f := by
  induction f with
  | nil => rfl
  | cons d f ih =>
    rw [List.length_cons, List.range_succ_eq_map, List.filterMap_cons, List.filterMap_map]
    simp only [List.getElem?_cons_zero]
    congr 1

theorem sorted_perm (hsf : env.sf.Perm (List.range f.length)) :
    ((env.sorted f).map Prod.snd).Perm f := by
  have hmap : (env.sorted f).map Prod.snd = env.sf.filterMap (f[·]?) := by
    rw [SplEnv.sorted, List.map_filterMap]
    congr 1
    funext i
    cases f[i]? <;> rfl
  have hperm := hsf.filterMap (f[·]?)
  rwa [filterMap_range, ← hmap] at hperm

theorem mem_sorted (hsf : env.sf.Perm (List.range f.length)) (p : Nat × PartData) :
    p ∈ env.sorted f ↔ f[p.1]? = some p.2 := by
  rw [SplEnv.sorted, List.mem_filterMap]
  constructor
  · rintro ⟨i, -, hi⟩
    obtain ⟨d, hd, rfl⟩ := Option.map_eq_some_iff.mp hi
    exact hd
  · intro h
    refine ⟨p.1, hsf.mem_iff.mpr (List.mem_range.mpr ?_), ?_⟩
    · exact (List.getElem?_eq_some_iff.mp h).1
    · rw [h]
      rfl

theorem forced_perm (h : f.Perm g) (v : Int) : (forced f v).Perm (forced g v) := h.filter _

theorem force_sorted (hsf : env.sf.Perm (List.range f.length)) (h : Opens env f v b) :
    force env v (env.sorted f) b t =
      .ok (b + forcedBlocks env f v, t + forcedEntries f v) := by
  have hperm := forced_perm (sorted_perm hsf) v
  have hblocks : forcedBlocks env ((env.sorted f).map Prod.snd) v = forcedBlocks env f v :=
    (hperm.map _).sum_nat
  have hentries : forcedEntries ((env.sorted f).map Prod.snd) v = forcedEntries f v :=
    (hperm.map _).sum_nat
  rw [← hblocks, ← hentries]
  apply force_eq
  rcases h with h | h
  · left
    rw [h] at hperm
    exact hperm.eq_nil
  · right
    rwa [hblocks]

theorem orderedInsert_foldl_perm (r : α → α → Prop) [DecidableRel r] (l l' : List α) :
    (l.foldl (fun sf d => sf.orderedInsert r d) l').Perm (l ++ l') := by
  induction l generalizing l' with
  | nil => exact .refl _
  | cons d l ih =>
    rw [List.foldl_cons]
    exact (ih _).trans ((List.Perm.append_left l (List.perm_orderedInsert r d l')).trans
      List.perm_middle)

theorem sortsize_perm (f : List PartData) : (sortsize f).Perm (List.range f.length) := by
  have hperm := (orderedInsert_foldl_perm (fun d e : PartData × Nat => e.1.blks < d.1.blks)
    f.zipIdx []).map Prod.snd
  rwa [List.append_nil, List.zipIdx_map_snd, ← List.range_eq_range'] at hperm

end Forced

/-- The object of the arguments and what has become of it: its part is kept, or it has been put on
one of the volumes so far. -/
structure Kept (v : Int) (e d : PartData) : Prop where
  same : d = e.setVol d.ept.volno
  assigned : e.ept.volno ≠ 0 → d.ept.volno = e.ept.volno
  placed : e.ept.volno = 0 → 0 ≤ d.ept.volno ∧ d.ept.volno ≤ v

def ClassOn (v : Int) (c : ClassType) : Prop :=
  c.first = 0 ∧ c.last = 0 ∨ (1 ≤ c.first ∧ c.first ≤ v) ∧ 1 ≤ c.last ∧ c.last ≤ v

/-- What holds of the state while the volumes are filled. -/
structure SplInv (a : SplArgs) (s : Packing) : Prop where
  length : s.f.length = a.data.length
  volno : 1 ≤ s.volno ∧ s.volno ≤ 127
  started : 0 < s.btotal
  blocks : s.btotal ≤ a.limit
  entries : a.pilimit = 0 ∨ s.ftotal ≤ a.pilimit
  logged : ∀ l ∈ s.log, l.2.1 ≤ a.limit ∧ (a.pilimit = 0 ∨ l.2.2 ≤ a.pilimit)
  log : ∀ p, 1 ≤ p → p < s.volno → ∃ b t, (p, b, t) ∈ s.log
  objects : ∀ (i : Nat) (d : PartData), s.f[i]? = some d →
    ∃ e, a.data[i]? = some e ∧ Kept s.volno e d
  cl : ∀ c ∈ s.cl, ClassOn s.volno c
  names : ∀ d ∈ a.data, ∃ c ∈ s.cl, c.name = d.ept.pkgClass

section Classes
variable {v : Int} {cl : List ClassType}

theorem Kept.mono (h : Kept v e d) (hv : v ≤ w) : Kept w e d :=
  ⟨h.same, h.assigned, fun h0 => ⟨(h.placed h0).1, (h.placed h0).2.trans hv⟩⟩

theorem ClassOn.mono (h : ClassOn v c) (hv : v ≤ w) : ClassOn w c := by
  rcases h with h | h
  · exact .inl h
  · exact .inr ⟨⟨h.1.1, h.1.2.trans hv⟩, h.2.1, h.2.2.trans hv⟩

theorem addclass_on (hvol : 0 ≤ vol) (hv : vol ≤ v) (h : ∀ c ∈ cl, ClassOn v c) (aclass : Str) :
    ∀ c ∈ addclass aclass vol cl, ClassOn v c := by
  induction cl with
  | nil =>
    intro c hc
    rw [addclass, List.mem_singleton] at hc
    subst hc
    rw [ClassOn]
    dsimp only
    omega
  | cons b cl ih =>
    obtain ⟨hb, hcl⟩ := List.forall_mem_cons.mp h
    rw [addclass]
    split
    · split
      · exact h
      · intro c hc
        rcases List.mem_cons.mp hc with rfl | hc
        · rw [ClassOn] at hb ⊢
          dsimp only
          split <;> split <;> omega
        · exact hcl c hc
    · exact List.forall_mem_cons.mpr ⟨hb, ih hcl⟩

theorem mem_addclass (aclass : Str) (vol : Int) (cl : List ClassType) :
    ∃ c ∈ addclass aclass vol cl, c.name = aclass := by
  induction cl with
  | nil => exact ⟨_, List.mem_singleton_self _, rfl⟩
  | cons b cl ih =>
    rw [addclass]
    split
    · rename_i hb
      split
      · exact ⟨b, List.mem_cons_self, hb⟩
      · exact ⟨_, List.mem_cons_self, hb⟩
    · obtain ⟨c, hc, hname⟩ := ih
      exact ⟨c, List.mem_cons_of_mem _ hc, hname⟩

theorem addclass_keeps (h : ∃ c ∈ cl, c.name = name) (aclass : Str) (vol : Int) :
    ∃ c ∈ addclass aclass vol cl, c.name = name := by
  induction cl with
  | nil =>
    obtain ⟨c, hc, -⟩ := h
    cases hc
  | cons b cl ih =>
    obtain ⟨c, hc, hname⟩ := h
    rw [addclass]
    rcases List.mem_cons.mp hc with rfl | hc
    · split
      · split
        · exact ⟨c, List.mem_cons_self, hname⟩
        · exact ⟨_, List.mem_cons_self, hname⟩
      · exact ⟨c, List.mem_cons_self, hname⟩
    · split
      · split
        · exact ⟨c, List.mem_cons_of_mem _ hc, hname⟩
        · exact ⟨c, List.mem_cons_of_mem _ hc, hname⟩
      · obtain ⟨c', hc', hname'⟩ := ih ⟨c, hc, hname⟩
        exact ⟨c', List.mem_cons_of_mem _ hc', hname'⟩

end Classes

section Step
variable {a : SplArgs} {s : Packing} {aclass : Option Str}

/-- The state behind `newvolume`. -/
def Packing.opened (s : Packing) (env : SplEnv) : Packing :=
  { s with
    volno := s.volno + 1
    btotal := env.bpkginfo + 2 + forcedBlocks env s.f (s.volno + 1)
    ftotal := 2 + forcedEntries s.f (s.volno + 1)
    dirlist := []
    bmax := max s.bmax s.btotal
    fmax := max s.fmax s.ftotal
    log := s.log ++ [(s.volno, s.btotal, s.ftotal)] }

theorem newvolume_opened {env : SplEnv} (hsf : env.sf.Perm (List.range s.f.length))
    (hv : 1 ≤ s.volno) (hv' : s.volno < 32767)
    (h : Opens env s.f (s.volno + 1) (env.bpkginfo + 2)) :
    newvolume env s = .ok (s.opened env) := by
  have hwrap : wrap 16 (s.volno + 1) = s.volno + 1 :=
    wrap_of_signed (by decide) (by omega) (by omega)
  rw [newvolume]
  dsimp only
  rw [if_pos (by omega), hwrap, force_sorted hsf h]
  rfl

theorem SplInv.sf_perm (h : SplInv a s) : a.env.sf.Perm (List.range s.f.length) := by
  rw [h.length]
  exact sortsize_perm a.data

theorem mem_waiting (h : SplInv a s) (p : Nat × PartData) :
    p ∈ s.waiting a.env aclass ↔ s.f[p.1]? = some p.2 ∧ waits aclass p.2 = true := by
  rw [Packing.waiting, List.mem_filter, mem_sorted h.sf_perm]

theorem waits_iff (aclass : Option Str) (d : PartData) : waits aclass d = true ↔
    (d.ept.volno = 0 ∧ isVirtual d.ept.ftype = false) ∧ aclass.all (· == d.ept.pkgClass) =
      true := by
  simp [waits]

theorem waits_none_of_waits (h : waits aclass d = true) : waits none d = true := by
  rw [waits_iff] at h ⊢
  exact ⟨h.1, rfl⟩

theorem Kept.place (h : Kept v e d) (hd : d.ept.volno = 0) (hv : 1 ≤ v) :
    Kept v e (d.setVol v) where
  same := by
    have hsame := h.same
    rw [hd] at hsame
    rw [hsame]
    rfl
  assigned he := absurd ((h.assigned he).symm.trans hd) he
  placed _ := ⟨by show 0 ≤ v; omega, le_refl v⟩

theorem fits_iff (a : SplArgs) (s : Packing) (d : PartData) : s.fits a.env d = true ↔
    (a.limit = 0 ∨ s.btotal + (d.blks + nodecount s.dirlist d.ept.path * a.dirSize) ≤ a.limit) ∧
      (a.pilimit = 0 ∨ s.ftotal + nodecount s.dirlist d.ept.path < a.pilimit) := by
  simp only [Packing.fits, Bool.and_eq_true, Bool.or_eq_true, beq_iff_eq, decide_eq_true_eq]
  rfl

theorem SplInv.place {i : Nat} (h : SplInv a s) (hlimit : 0 < a.limit) (hd : s.f[i]? = some d)
    (hw : waits aclass d = true) (hfit : s.fits a.env d = true) :
    SplInv a (s.place a.env i d) := by
  have hwrap : wrap 8 s.volno = s.volno :=
    wrap_of_signed (by decide) (by have := h.volno; omega) (by have := h.volno; omega)
  have hfit := (fits_iff a s d).mp hfit
  refine ⟨?_, h.volno, Nat.add_pos_left h.started _, ?_, ?_, h.logged, h.log, ?_, ?_, ?_⟩
  · exact List.length_set.trans h.length
  · exact hfit.1.resolve_left (by omega)
  · apply hfit.2.imp id
    intro hlt
    show s.ftotal + (nodecount s.dirlist d.ept.path + 1) ≤ a.pilimit
    omega
  · intro j d' hj
    change (s.f.set i (d.setVol (wrap 8 s.volno)))[j]? = some d' at hj
    rw [hwrap, List.getElem?_set] at hj
    split at hj
    · rename_i hij
      subst hij
      split at hj
      · cases hj
        obtain ⟨e, he, hk⟩ := h.objects i d hd
        exact ⟨e, he, hk.place ((waits_iff _ _).mp hw).1.1 h.volno.1⟩
      · cases hj
    · exact h.objects j d' hj
  · exact addclass_on (by have := h.volno; omega) (le_refl _) h.cl _
  · intro d' hd'
    exact addclass_keeps (h.names d' hd') _ _

/-- The condition for a volume that `store` opens: its number fits a `char`, the objects assigned to
it fit on it, and some object that waits fits on a volume of its own. -/
structure StoreOpens (env : SplEnv) (aclass : Option Str) (s : Packing) : Prop where
  volno : s.volno < 127
  opens : Opens env s.f (s.volno + 1) (env.bpkginfo + 2)
  entries : env.ilimit = 0 ∨ 2 + forcedEntries s.f (s.volno + 1) ≤ env.ilimit
  object : ∃ d ∈ s.f, waits aclass d = true ∧ (env.ilimit = 0 ∨ 2 + d.dirs < env.ilimit)

instance : Decidable (StoreOpens env aclass s) :=
  decidable_of_iff (s.volno < 127 ∧ Opens env s.f (s.volno + 1) (env.bpkginfo + 2) ∧
      (env.ilimit = 0 ∨ 2 + forcedEntries s.f (s.volno + 1) ≤ env.ilimit) ∧
      ∃ d ∈ s.f, waits aclass d = true ∧ (env.ilimit = 0 ∨ 2 + d.dirs < env.ilimit))
    ⟨fun h => ⟨h.1, h.2.1, h.2.2.1, h.2.2.2⟩, fun h => ⟨h.1, h.2, h.3, h.4⟩⟩

/-- The number of parts from `i` on, among the next `n`, that objects are assigned to. -/
def partsFrom (f : List PartData) (i : Int) (n : Nat) : Nat :=
  (List.range n).countP fun k : Nat => f.any fun d => d.ept.volno == i + (k : Int)

/-- The condition for the state when all is placed: the objects assigned to the volume that is
opened last fit on it, those assigned to a part behind it fit on theirs, and the part numbers fit a
`short`. -/
structure LastOpens (env : SplEnv) (nparts : Int) (s : Packing) : Prop where
  opens : Opens env s.f (s.volno + 1) (env.bpkginfo + 2)
  entries : env.ilimit = 0 ∨ 2 + forcedEntries s.f (s.volno + 1) ≤ env.ilimit
  behind : ∀ d ∈ s.f, s.volno < d.ept.volno →
    env.Within (partBlocks env s.f d.ept.volno) (partEntries s.f d.ept.volno)
  numbers : s.volno + 1 + partsFrom s.f (s.volno + 1) (nparts - s.volno).toNat ≤ 32767

instance : Decidable (LastOpens env nparts s) :=
  decidable_of_iff (Opens env s.f (s.volno + 1) (env.bpkginfo + 2) ∧
      (env.ilimit = 0 ∨ 2 + forcedEntries s.f (s.volno + 1) ≤ env.ilimit) ∧
      (∀ d ∈ s.f, s.volno < d.ept.volno →
        env.Within (partBlocks env s.f d.ept.volno) (partEntries s.f d.ept.volno)) ∧
      s.volno + 1 + partsFrom s.f (s.volno + 1) (nparts - s.volno).toNat ≤ 32767)
    ⟨fun h => ⟨h.1, h.2.1, h.2.2.1, h.2.2.2⟩, fun h => ⟨h.1, h.2, h.3, h.4⟩⟩

/-- The condition for the state before a step: a volume can be opened when nothing fits, and the
last one when all is placed. -/
def StepOk (env : SplEnv) (nparts : Int) : Packer → Prop
  | ([], s) => LastOpens env nparts s
  | (aclass :: _, s) => (∃ d ∈ s.f, waits aclass d = true) →
      (∀ d ∈ s.f, waits aclass d = true → s.fits env d = false) → StoreOpens env aclass s

instance (env : SplEnv) (nparts : Int) : (c : Packer) → Decidable (StepOk env nparts c)
  | ([], s) => inferInstanceAs (Decidable (LastOpens env nparts s))
  | (_ :: _, _) => inferInstanceAs (Decidable (_ → _ → _))

/-- Every object fits on a volume of its own, as far as the blocks go. -/
def SplArgs.Roomy (a : SplArgs) : Prop :=
  ∀ d ∈ a.data, d.blks + (d.dirs * a.dirSize + (a.bpkginfo + 2)) ≤ a.limit

theorem SplInv.exists_data (h : SplInv a s) (hd : d ∈ s.f) : ∃ e ∈ a.data, Kept s.volno e d := by
  obtain ⟨i, hi⟩ := List.mem_iff_getElem?.mp hd
  obtain ⟨e, he, hk⟩ := h.objects i d hi
  exact ⟨e, List.mem_of_getElem? he, hk⟩

theorem Kept.dirs_eq (h : Kept v e d) : d.dirs = e.dirs := by
  rw [h.same]
  rfl

theorem Kept.blks_eq (h : Kept v e d) : d.blks = e.blks := by
  rw [h.same]
  rfl

theorem SplInv.room (h : SplInv a s) (hroom : a.Roomy) (hd : d ∈ s.f) :
    d.blks + (d.dirs * a.dirSize + (a.bpkginfo + 2)) ≤ a.limit := by
  obtain ⟨e, he, hk⟩ := h.exists_data hd
  rw [hk.dirs_eq, hk.blks_eq]
  exact hroom e he

theorem SplInv.opened (h : SplInv a s) (hroom : a.Roomy) (ho : StoreOpens a.env aclass s) :
    SplInv a (s.opened a.env) := by
  have hvol : s.volno ≤ s.volno + 1 := by omega
  refine ⟨h.length, ?_, ?_, ?_, ho.entries, ?_, ?_, ?_, ?_, h.names⟩
  · show 1 ≤ s.volno + 1 ∧ s.volno + 1 ≤ 127
    have := h.volno
    have := ho.volno
    omega
  · show 0 < a.bpkginfo + 2 + forcedBlocks a.env s.f (s.volno + 1)
    omega
  · show a.bpkginfo + 2 + forcedBlocks a.env s.f (s.volno + 1) ≤ a.limit
    rcases ho.opens with hnil | ⟨-, hle⟩
    · obtain ⟨d, hd, -⟩ := ho.object
      have hone := h.room hroom hd
      rw [forcedBlocks, hnil]
      show a.bpkginfo + 2 + 0 ≤ a.limit
      omega
    · exact hle
  · intro l hl
    rcases List.mem_append.mp hl with hl | hl
    · exact h.logged l hl
    · rw [List.mem_singleton.mp hl]
      exact ⟨h.blocks, h.entries⟩
  · intro p hp hlt
    change p < s.volno + 1 at hlt
    rcases Int.lt_or_eq_of_le (Int.lt_add_one_iff.mp hlt) with hlt | rfl
    · obtain ⟨b, t, hmem⟩ := h.log p hp hlt
      exact ⟨b, t, List.mem_append_left _ hmem⟩
    · exact ⟨_, _, List.mem_append_right _ (List.mem_singleton_self _)⟩
  · intro i d hd
    obtain ⟨e, he, hk⟩ := h.objects i d hd
    exact ⟨e, he, hk.mono hvol⟩
  · intro c hc
    exact (h.cl c hc).mono hvol

theorem volno_le_nparts (h : e ∈ a.data) : e.ept.volno ≤ a.nparts := by
  have hfold : ∀ (es : List PartEnt) (n : Int),
      n ≤ es.foldl (fun n e => if n < e.volno then e.volno else n) n ∧
        ∀ e ∈ es, e.volno ≤ es.foldl (fun n e => if n < e.volno then e.volno else n) n := by
    intro es
    induction es with
    | nil => exact fun n => ⟨le_refl n, fun e he => absurd he List.not_mem_nil⟩
    | cons b es ih =>
      intro n
      obtain ⟨h₁, h₂⟩ := ih (if n < b.volno then b.volno else n)
      rw [List.foldl_cons]
      have hb : n ≤ (if n < b.volno then b.volno else n) ∧
          b.volno ≤ (if n < b.volno then b.volno else n) := by
        split <;> omega
      refine ⟨hb.1.trans h₁, List.forall_mem_cons.mpr ⟨hb.2.trans h₁, h₂⟩⟩
  obtain ⟨e', he', rfl⟩ := List.mem_map.mp h
  exact (hfold a.eptlist (-1)).2 e' he'

/-- Behind the last part that objects are assigned to, a new volume is empty. -/
theorem SplInv.forced_nil (h : SplInv a s) (hv : a.nparts ≤ s.volno) :
    forced s.f (s.volno + 1) = [] := by
  apply List.filter_eq_nil_iff.mpr
  intro d hd hvol
  obtain ⟨e, he, hk⟩ := h.exists_data hd
  have hle := volno_le_nparts he
  have hvol : d.ept.volno = s.volno + 1 := by simpa using hvol
  by_cases h0 : e.ept.volno = 0
  · have := hk.placed h0
    omega
  · have := hk.assigned h0
    omega

/-- A volume with no assigned objects has room for the one that waits. -/
theorem SplInv.fits_opened (h : SplInv a s) (hroom : a.Roomy) (hnil : forced s.f (s.volno + 1) = [])
    (hd : d ∈ s.f) (hent : a.pilimit = 0 ∨ 2 + d.dirs < a.pilimit) :
    (s.opened a.env).fits a.env d = true := by
  have hone := h.room hroom hd
  have hb : (s.opened a.env).btotal = a.bpkginfo + 2 := by
    show a.bpkginfo + 2 + forcedBlocks a.env s.f (s.volno + 1) = _
    rw [forcedBlocks, hnil]
    rfl
  have ht : (s.opened a.env).ftotal = 2 := by
    show 2 + forcedEntries s.f (s.volno + 1) = 2
    rw [forcedEntries, hnil]
    rfl
  have hn : nodecount (s.opened a.env).dirlist d.ept.path = d.dirs := nodecount_nil _
  rw [fits_iff, hb, ht, hn]
  exact ⟨.inr (by omega), hent⟩

/-- The steps that are left at most: a new volume is opened at most once in front of an object,
apart from those with assigned objects. -/
def stepsLeft (a : SplArgs) : Packer → Nat
  | ([], _) => 0
  | (aclass :: todo, s) =>
    2 * (todo.length + 1) + 2 * s.f.countP (waits none) + (a.nparts - s.volno).toNat +
      if s.choice a.env aclass = none then 1 else 0

theorem choice_none_iff (h : SplInv a s) : s.choice a.env aclass = none ↔
    ∀ d ∈ s.f, waits aclass d = true → s.fits a.env d = false := by
  rw [Packing.choice, List.find?_eq_none]
  constructor
  · intro hnone d hd hw
    obtain ⟨i, hi⟩ := List.mem_iff_getElem?.mp hd
    have := hnone (i, d) ((mem_waiting h _).mpr ⟨hi, hw⟩)
    simpa using this
  · intro hall p hp
    obtain ⟨hi, hw⟩ := (mem_waiting h p).mp hp
    rw [hall p.2 (List.mem_of_getElem? hi) hw]
    exact Bool.false_ne_true

theorem stepsLeft_todo_lt (a : SplArgs) (aclass : Option Str) (todo : List (Option Str))
    (s : Packing) : stepsLeft a (todo, s) < stepsLeft a (aclass :: todo, s) := by
  cases todo with
  | nil =>
    rw [stepsLeft, stepsLeft]
    omega
  | cons b todo =>
    rw [stepsLeft, stepsLeft, List.length_cons]
    split <;> omega

theorem countP_place_lt {i : Nat} (h : SplInv a s) (hd : s.f[i]? = some d)
    (hw : waits none d = true) :
    (s.place a.env i d).f.countP (waits none) + 1 = s.f.countP (waits none) := by
  have hwrap : wrap 8 s.volno = s.volno :=
    wrap_of_signed (by decide) (by have := h.volno; omega) (by have := h.volno; omega)
  obtain ⟨hi, hget⟩ := List.getElem?_eq_some_iff.mp hd
  have hnot : waits none (d.setVol s.volno) = false := by
    apply Bool.eq_false_iff.mpr
    intro hw'
    have hzero : s.volno = 0 := ((waits_iff _ _).mp hw').1.1
    have := h.volno
    omega
  have hpos : 0 < s.f.countP (waits none) :=
    List.countP_pos_iff.mpr ⟨d, List.mem_of_getElem? hd, hw⟩
  show (s.f.set i (d.setVol (wrap 8 s.volno))).countP (waits none) + 1 = _
  rw [hwrap, List.countP_set hi, hget, if_pos hw, hnot, if_neg Bool.false_ne_true]
  omega

theorem packStep_end {env : SplEnv} (h : packStep env c = .ok none) : c.1 = [] := by
  obtain ⟨todo, s⟩ := c
  cases todo with
  | nil => rfl
  | cons aclass todo =>
    rw [packStep] at h
    split at h
    · cases h
    · split at h
      · cases hnew : newvolume env s with
        | error q =>
          rw [hnew] at h
          cases h
        | ok s' =>
          rw [hnew] at h
          cases h
      · cases h

/-- A step keeps the invariant and leaves fewer steps. -/
theorem packStep_ok (hlimit : 0 < a.limit) (hroom : a.Roomy) (c : Packer) (hinv : SplInv a c.2)
    (hok : StepOk a.env a.nparts c) :
    packStep a.env c = .ok none ∨
      ∃ d, packStep a.env c = .ok (some d) ∧ SplInv a d.2 ∧ stepsLeft a d < stepsLeft a c := by
  obtain ⟨todo, s⟩ := c
  change SplInv a s at hinv
  cases todo with
  | nil => exact .inl rfl
  | cons aclass todo =>
    right
    rw [packStep]
    by_cases hwait : s.waiting a.env aclass = []
    · -- the class is complete
      rw [if_pos hwait]
      exact ⟨_, rfl, hinv, stepsLeft_todo_lt a aclass todo s⟩
    · rw [if_neg hwait]
      have hex : ∃ d ∈ s.f, waits aclass d = true := by
        obtain ⟨p, hp⟩ := List.exists_mem_of_ne_nil _ hwait
        obtain ⟨hi, hw⟩ := (mem_waiting hinv p).mp hp
        exact ⟨p.2, List.mem_of_getElem? hi, hw⟩
      cases hchoice : s.choice a.env aclass with
      | none =>
        have ho := hok hex ((choice_none_iff hinv).mp hchoice)
        have hopen := newvolume_opened hinv.sf_perm hinv.volno.1 (by have := ho.volno; omega)
          ho.opens
        have hinv' := hinv.opened hroom ho
        refine ⟨(aclass :: todo, s.opened a.env), ?_, hinv', ?_⟩
        · dsimp only
          rw [hopen]
          rfl
        · show 2 * (todo.length + 1) + 2 * s.f.countP (waits none) +
              (a.nparts - (s.volno + 1)).toNat + _ < _
          rw [stepsLeft, if_pos hchoice]
          by_cases hv : a.nparts ≤ s.volno
          · -- no object is assigned to the new volume, so the next step places one
            obtain ⟨d, hd, hw, hent⟩ := ho.object
            have hfit := hinv.fits_opened hroom (hinv.forced_nil hv) hd hent
            have hsome : (s.opened a.env).choice a.env aclass ≠ none := by
              intro hc
              rw [(choice_none_iff hinv').mp hc d hd hw] at hfit
              cases hfit
            rw [if_neg hsome]
            omega
          · split <;> omega
      | some p =>
        obtain ⟨i, d⟩ := p
        have hp := List.mem_of_find?_eq_some hchoice
        obtain ⟨hd, hw⟩ := (mem_waiting hinv _).mp hp
        have hfit := List.find?_some hchoice
        have hcount := countP_place_lt hinv hd (waits_none_of_waits hw)
        refine ⟨_, rfl, hinv.place hlimit hd hw hfit, ?_⟩
        have hvol : (s.place a.env i d).volno = s.volno := rfl
        rw [stepsLeft, stepsLeft, hvol, if_neg (show ¬ s.choice a.env aclass = none by
          rw [hchoice]; exact Option.some_ne_none _)]
        dsimp only at hcount hd hw ⊢
        split <;> omega

end Step

end Pkgtools
