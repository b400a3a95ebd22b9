import Pkgtools.Prototype

namespace Pkgtools
open CLib
set_option autoImplicit true

section Pop
variable {env : ProtoEnv} {c : ProtoCtx} {base us below : List ProtoCtx}

/-- The strings of a level are at or above `n`. -/
def ProtoCtx.From (n : Nat) (c : ProtoCtx) : Prop := ∀ p ∈ c.owned, n ≤ p

/-- Leaving files changes only the stack, the heap and the error count. -/
theorem popenv_frame {levels : List ProtoCtx} (h : popenv env levels st = .next st') :
    st'.dMode = st.dMode ∧ st'.dOwner = st.dOwner ∧ st'.dGroup = st.dGroup ∧
      st'.levels.length < levels.length := by
  induction levels generalizing st with
  | nil => cases h
  | cons c levels ih =>
    cases levels with
    | nil => cases h
    | cons c' below =>
      rw [popenv] at h
      split at h
      · cases h
      · split at h
        · cases h
          exact ⟨rfl, rfl, rfl, Nat.lt_succ_self _⟩
        · obtain ⟨h₁, h₂, h₃, h₄⟩ := ih h
          exact ⟨h₁, h₂, h₃, Nat.lt_succ_of_lt h₄⟩

/-- Leaving files frees only the strings of files above the base, or leaves the base too. -/
theorem popenv_above (h : popenv env (us ++ base) st = .next st') (hus : us ≠ []) (hb : base ≠ [])
    (hp : ∀ c ∈ us, c.From n) :
    st'.levels.length < base.length ∨
      ∃ us', st'.levels = us' ++ base ∧ (∀ c ∈ us', c.From n) ∧
        StrHeap.Agrees n st.heap st'.heap := by
  induction us generalizing st with
  | nil => exact absurd rfl hus
  | cons c us ih =>
    obtain ⟨c', rest, hrest⟩ : ∃ c' rest, us ++ base = c' :: rest := by
      cases us with
      | nil =>
        obtain ⟨x, xs, hx⟩ := List.exists_cons_of_ne_nil hb
        exact ⟨x, xs, hx⟩
      | cons u us => exact ⟨u, us ++ base, rfl⟩
    rw [List.cons_append, hrest, popenv] at h
    split at h
    · cases h
    · rename_i heap hfree
      have hag := StrHeap.freeAll_agrees hfree (hp c (List.mem_cons_self ..))
      have hus' : ∀ x ∈ us, x.From n := fun x hx => hp x (List.mem_cons_of_mem _ hx)
      split at h
      · cases h
        exact .inr ⟨us, hrest.symm, hus', hag⟩
      · rw [← hrest] at h
        cases us with
        | nil =>
          left
          exact (popenv_frame h).2.2.2
        | cons u us =>
          rcases ih h (List.cons_ne_nil _ _) hus' with hlt | ⟨us', h₁, h₂, h₃⟩
          · exact .inl hlt
          · exact .inr ⟨us', h₁, h₂, hag.trans h₃⟩

end Pop

section Above

/-- Files are open above the base, their strings are new, and everything else is as it was. -/
structure Above (s : PkgmkSt) (base : List ProtoCtx) (x : PkgmkSt) : Prop where
  upper : ∃ us, x.levels = us ++ base ∧ ∀ c ∈ us, c.From s.heap.length
  heap : StrHeap.Agrees s.heap.length s.heap x.heap
  dMode : x.dMode = s.dMode
  dOwner : x.dOwner = s.dOwner
  dGroup : x.dGroup = s.dGroup

variable {env : ProtoEnv} {base us : List ProtoCtx} {s x y : PkgmkSt} {c : ProtoCtx}

theorem From.of_nil (n : Nat) (fp : List ProtoCmd) (dname : Str) :
    ProtoCtx.From n ⟨fp, dname, [], [], none, none, none⟩ := by
  intro p hp
  cases hp

theorem above_popenv (hx : x.dMode = s.dMode ∧ x.dOwner = s.dOwner ∧ x.dGroup = s.dGroup)
    (hheap : StrHeap.Agrees s.heap.length s.heap x.heap) (h : popenv env (us ++ base) x = .next y)
    (hus : us ≠ []) (hb : base ≠ []) (hp : ∀ c ∈ us, c.From s.heap.length) :
    y.levels.length < base.length ∨ Above s base y := by
  obtain ⟨h₁, h₂, h₃, -⟩ := popenv_frame h
  rcases popenv_above h hus hb hp with hlt | ⟨us', hl, hp', hag⟩
  · exact .inl hlt
  · refine .inr ⟨⟨us', hl, hp'⟩, hheap.trans hag, ?_, ?_, ?_⟩
    · rw [h₁, hx.1]
    · rw [h₂, hx.2.1]
    · rw [h₃, hx.2.2]

theorem From.search {n : Nat} {ps : List Nat} (h : c.From n) (hps : ∀ p ∈ ps, n ≤ p) :
    ProtoCtx.From n { c with srchp := ps } ∧ ProtoCtx.From n { c with rootp := ps } := by
  constructor
  · intro p hp
    simp only [ProtoCtx.owned, List.mem_append] at hp
    rcases hp with ((hp | hp) | hp) | hp
    · exact hps p hp
    · exact h p (by simp [ProtoCtx.owned, hp])
    · exact h p (by simp [ProtoCtx.owned, hp])
    · exact h p (by simp [ProtoCtx.owned, hp])
  · intro p hp
    simp only [ProtoCtx.owned, List.mem_append] at hp
    rcases hp with ((hp | hp) | hp) | hp
    · exact h p (by simp [ProtoCtx.owned, hp])
    · exact hps p hp
    · exact h p (by simp [ProtoCtx.owned, hp])
    · exact h p (by simp [ProtoCtx.owned, hp])

theorem above_pushenv (hx : Above s base x) (hb : base ≠ [])
    (h : pushenv env x dname file = .next y) :
    y.levels.length < base.length ∨ Above s base y := by
  obtain ⟨us, hl, hp⟩ := hx.upper
  have hpush (cmds : List ProtoCmd) (dir : Str) :
      ∀ c ∈ (⟨cmds, dir, [], [], none, none, none⟩ : ProtoCtx) :: us, c.From s.heap.length := by
    intro c hc
    rcases List.mem_cons.mp hc with rfl | hc
    · exact From.of_nil _ _ _
    · exact hp c hc
  rw [pushenv] at h
  split at h
  · cases h
    exact .inr ⟨⟨us, hl, hp⟩, hx.heap, hx.dMode, hx.dOwner, hx.dGroup⟩
  · split at h
    · cases h
      exact .inr ⟨⟨us, hl, hp⟩, hx.heap, hx.dMode, hx.dOwner, hx.dGroup⟩
    · rename_i cmds _
      split at h
      · cases h
        refine .inr ⟨⟨_ :: us, ?_, hpush cmds dname⟩, hx.heap, hx.dMode, hx.dOwner, hx.dGroup⟩
        simp only [hl, List.cons_append]
      · rename_i dir _
        simp only at h
        split at h
        · cases h
          refine .inr ⟨⟨_ :: us, ?_, hpush cmds (env.canonize dir)⟩, hx.heap, hx.dMode, hx.dOwner,
            hx.dGroup⟩
          simp only [hl, List.cons_append]
        · rw [hl, ← List.cons_append] at h
          refine above_popenv ?_ ?_ h (List.cons_ne_nil _ _) hb (hpush cmds (env.canonize dir))
          · exact ⟨hx.dMode, hx.dOwner, hx.dGroup⟩
          · exact hx.heap

theorem above_doinclude (hx : Above s base x) (hb : base ≠ [])
    (h : doinclude env x dname file = .next y) :
    y.levels.length < base.length ∨ Above s base y := by
  rw [doinclude] at h
  split at h
  · cases h
    exact .inr hx
  · exact above_pushenv hx hb h

/-- One turn of the loop in a file above the base, other than a `!default`. -/
theorem above_step (hx : Above s base x) (hb : base ≠ []) (hlen : base.length < x.levels.length)
    (hd : x.setsDefault = false) (h : protoStep env x = .next y) :
    y.levels.length < base.length ∨ Above s base y := by
  obtain ⟨us, hl, hp⟩ := hx.upper
  cases us with
  | nil =>
    rw [hl, List.nil_append] at hlen
    exact absurd hlen (Nat.lt_irrefl _)
  | cons c us =>
    have hsame := And.intro hx.dMode (And.intro hx.dOwner hx.dGroup)
    have hc : c.From s.heap.length := hp c (List.mem_cons_self ..)
    have hus : ∀ d ∈ us, d.From s.heap.length := fun d hd => hp d (List.mem_cons_of_mem _ hd)
    have hn : s.heap.length ≤ x.heap.length := hx.heap.length_le
    rw [protoStep, hl] at h
    simp only [List.cons_append] at h
    cases hfp : c.fp with
    | nil =>
      simp only [hfp] at h
      rw [← List.cons_append] at h
      exact above_popenv hsame hx.heap h (List.cons_ne_nil _ _) hb hp
    | cons cmd rest =>
      have hcons : ∀ d ∈ { c with fp := rest } :: us, d.From s.heap.length := by
        intro d hd
        rcases List.mem_cons.mp hd with rfl | hd
        · exact hc
        · exact hus d hd
      have hnext : Above s base { x with levels := { c with fp := rest } :: (us ++ base) } :=
        ⟨⟨_ :: us, rfl, hcons⟩, hx.heap, hx.dMode, hx.dOwner, hx.dGroup⟩
      simp only [hfp] at h
      cases cmd with
      | includeFile file => exact above_doinclude hnext hb h
      | search dirs =>
        simp only [dosearch] at h
        split at h
        · cases h
        · rename_i heap hfree
          have hag := hx.heap.trans (StrHeap.freeAll_agrees hfree fun p hp =>
            hc p (by simp [ProtoCtx.owned, hp]))
          split at h
          · cases h
            exact .inr ⟨⟨_ :: us, rfl, hcons⟩, hag, hx.dMode, hx.dOwner, hx.dGroup⟩
          · split at h
            · cases h
              refine .inr ⟨⟨_ :: us, rfl, ?_⟩, hag.trans (StrHeap.dupAll_agrees _ _ hag.length_le),
                hx.dMode, hx.dOwner, hx.dGroup⟩
              intro d hd
              rcases List.mem_cons.mp hd with rfl | hd
              · exact (From.search hc fun p hp =>
                  hag.length_le.trans (StrHeap.mem_dupAll hp).1).1
              · exact hus d hd
            · cases h
      | rsearch dirs =>
        simp only [dorsearch] at h
        split at h
        · cases h
        · rename_i heap hfree
          have hag := hx.heap.trans (StrHeap.freeAll_agrees hfree fun p hp =>
            hc p (by simp [ProtoCtx.owned, hp]))
          split at h
          · cases h
            refine .inr ⟨⟨_ :: us, rfl, ?_⟩, hag.trans (StrHeap.dupAll_agrees _ _ hag.length_le),
              hx.dMode, hx.dOwner, hx.dGroup⟩
            intro d hd
            rcases List.mem_cons.mp hd with rfl | hd
            · exact (From.search hc fun p hp =>
                hag.length_le.trans (StrHeap.mem_dupAll hp).1).2
            · exact hus d hd
          · cases h
      | default mode owner group =>
        rw [PkgmkSt.setsDefault, hl, List.cons_append, List.head?_cons, Option.bind_some, hfp] at hd
        cases hd
      | garbledDefault =>
        have h' : popenv env (({ c with fp := rest } :: us) ++ base) _ = .next y := h
        refine above_popenv ?_ ?_ h' (List.cons_ne_nil _ _) hb hcons
        · exact hsame
        · exact hx.heap
      | entry ok =>
        simp only at h
        split at h
        · cases h
        · split at h
          · cases h
            exact .inr hnext
          · have h' : popenv env (({ c with fp := rest } :: us) ++ base) _ = .next y := h
            refine above_popenv ?_ ?_ h' (List.cons_ne_nil _ _) hb hcons
            · exact hsame
            · exact hx.heap
      | other =>
        cases h
        exact .inr hnext

theorem above_reads (hb : base ≠ []) (hlen : base.length = n)
    (h : ReadsAbove env n (fun a => a.setsDefault = false) x y) (hx : Above s base x) :
    y.levels.length < base.length ∨ Above s base y := by
  induction h with
  | refl => exact .inr hx
  | tail _ hstep ih =>
    obtain ⟨h₁, h₂, h₃⟩ := hstep
    rcases ih with hlt | ha
    · omega
    · exact above_step ha hb (hlen ▸ h₂) h₃ h₁

end Above

section Bounded

structure PkgmkSt.Bounded (st : PkgmkSt) : Prop where
  levels : ∀ c ∈ st.levels, ∀ p ∈ c.owned, p < st.heap.length
  dOwner : ∀ p, st.dOwner = .heap p → p < st.heap.length
  dGroup : ∀ p, st.dGroup = .heap p → p < st.heap.length

variable {env : ProtoEnv} {st st' x y : PkgmkSt} {c : ProtoCtx} {below levels : List ProtoCtx}

theorem freeAll_length {h : StrHeap} (hf : h.freeAll ps = some h') : h.length ≤ h'.length :=
  (StrHeap.freeAll_agrees (n := 0) hf fun _ _ => Nat.zero_le _).length_le

theorem PkgmkSt.Bounded.mono (hx : x.Bounded) (hl : ∀ c ∈ y.levels, ∀ p ∈ c.owned,
      p < y.heap.length) (hh : x.heap.length ≤ y.heap.length)
    (ho : y.dOwner = x.dOwner) (hg : y.dGroup = x.dGroup) : y.Bounded := by
  refine ⟨hl, ?_, ?_⟩
  · intro p hp
    rw [ho] at hp
    exact (hx.dOwner p hp).trans_le hh
  · intro p hp
    rw [hg] at hp
    exact (hx.dGroup p hp).trans_le hh

theorem popenv_bounded (h : popenv env levels x = .next y) (hx : x.Bounded)
    (hl : ∀ c ∈ levels, ∀ p ∈ c.owned, p < x.heap.length) : y.Bounded := by
  induction levels generalizing x with
  | nil => cases h
  | cons c levels ih =>
    cases levels with
    | nil => cases h
    | cons c' below =>
      rw [popenv] at h
      split at h
      · cases h
      · rename_i heap hfree
        have hlen := freeAll_length hfree
        have hl' : ∀ d ∈ c' :: below, ∀ p ∈ d.owned, p < heap.length := fun d hd p hp =>
          (hl d (List.mem_cons_of_mem _ hd) p hp).trans_le hlen
        split at h
        · cases h
          exact hx.mono hl' hlen rfl rfl
        · refine ih h ?_ hl'
          exact hx.mono (fun d hd p hp => (hx.levels d hd p hp).trans_le hlen) hlen rfl rfl

theorem pushenv_bounded (h : pushenv env x dname file = .next y) (hx : x.Bounded) : y.Bounded := by
  have hpush (cmds : List ProtoCmd) (dir : Str) : ∀ c ∈ (⟨cmds, dir, [], [], none, none, none⟩ :
      ProtoCtx) :: x.levels, ∀ p ∈ c.owned, p < x.heap.length := by
    intro c hc p hp
    rcases List.mem_cons.mp hc with rfl | hc
    · cases hp
    · exact hx.levels c hc p hp
  rw [pushenv] at h
  split at h
  · cases h
    exact ⟨hx.levels, hx.dOwner, hx.dGroup⟩
  · split at h
    · cases h
      exact ⟨hx.levels, hx.dOwner, hx.dGroup⟩
    · rename_i cmds _
      split at h
      · cases h
        exact ⟨hpush cmds dname, hx.dOwner, hx.dGroup⟩
      · rename_i dir _
        simp only at h
        split at h
        · cases h
          exact ⟨hpush cmds (env.canonize dir), hx.dOwner, hx.dGroup⟩
        · exact popenv_bounded h ⟨hx.levels, hx.dOwner, hx.dGroup⟩
            (hpush cmds (env.canonize dir))

theorem protoStep_bounded (h : protoStep env x = .next y) (hx : x.Bounded) : y.Bounded := by
  rw [protoStep] at h
  split at h
  · cases h
  · rename_i c below hl
    have hlev : ∀ d ∈ c :: below, ∀ p ∈ d.owned, p < x.heap.length := hl ▸ hx.levels
    split at h
    · exact popenv_bounded h hx hlev
    · rename_i cmd rest hfp
      have hlev' : ∀ d ∈ { c with fp := rest } :: below, ∀ p ∈ d.owned, p < x.heap.length := by
        intro d hd
        rcases List.mem_cons.mp hd with rfl | hd
        · exact hlev c (List.mem_cons_self ..)
        · exact hlev d (List.mem_cons_of_mem _ hd)
      have hnext : PkgmkSt.Bounded { x with levels := { c with fp := rest } :: below } :=
        ⟨hlev', hx.dOwner, hx.dGroup⟩
      -- a level whose search list or defaults were replaced by new strings
      have hnew {heap : StrHeap} {d : ProtoCtx} (hle : x.heap.length ≤ heap.length)
          (hd : ∀ p ∈ d.owned, p ∈ c.owned ∨ p < heap.length) :
          ∀ e ∈ d :: below, ∀ p ∈ e.owned, p < heap.length := by
        intro e he p hp
        rcases List.mem_cons.mp he with rfl | he
        · rcases hd p hp with hp | hp
          · exact (hlev c (List.mem_cons_self ..) p hp).trans_le hle
          · exact hp
        · exact (hlev e (List.mem_cons_of_mem _ he) p hp).trans_le hle
      cases cmd with
      | includeFile file =>
        simp only [doinclude] at h
        split at h
        · cases h
          exact hnext
        · exact pushenv_bounded h hnext
      | search dirs =>
        simp only [dosearch] at h
        split at h
        · cases h
        · rename_i heap hfree
          have hle := freeAll_length hfree
          split at h
          · cases h
            exact hx.mono (hnew hle fun p hp => .inl hp) hle rfl rfl
          · split at h
            · cases h
              have hdup := (StrHeap.dupAll_agrees (n := 0) heap (searchDirs env c.dname dirs)
                (Nat.zero_le _)).length_le
              refine hx.mono (hnew (hle.trans hdup) ?_) (hle.trans hdup) rfl rfl
              intro p hp
              simp only [ProtoCtx.owned, List.mem_append] at hp ⊢
              rcases hp with ((hp | hp) | hp) | hp
              · exact .inr (StrHeap.mem_dupAll hp).2
              · exact .inl (.inl (.inl (.inr hp)))
              · exact .inl (.inl (.inr hp))
              · exact .inl (.inr hp)
            · cases h
      | rsearch dirs =>
        simp only [dorsearch] at h
        split at h
        · cases h
        · rename_i heap hfree
          have hle := freeAll_length hfree
          split at h
          · cases h
            have hdup := (StrHeap.dupAll_agrees (n := 0) heap (searchDirs env c.dname dirs)
              (Nat.zero_le _)).length_le
            refine hx.mono (hnew (hle.trans hdup) ?_) (hle.trans hdup) rfl rfl
            intro p hp
            simp only [ProtoCtx.owned, List.mem_append] at hp ⊢
            rcases hp with ((hp | hp) | hp) | hp
            · exact .inl (.inl (.inl (.inl hp)))
            · exact .inr (StrHeap.mem_dupAll hp).2
            · exact .inl (.inl (.inr hp))
            · exact .inl (.inr hp)
          · cases h
      | default mode owner group =>
        simp only [doattrib] at h
        split at h
        · cases h
        · rename_i heap hfree
          cases h
          have hle := freeAll_length hfree
          have hlen : (heap.dupAll [owner, group]).2.length = heap.length + 2 := by
            simp [StrHeap.dupAll]
          have hle' : x.heap.length ≤ (heap.dupAll [owner, group]).2.length := by omega
          have h₀ : heap.length < (heap.dupAll [owner, group]).2.length := by omega
          have h₁ : heap.length + 1 < (heap.dupAll [owner, group]).2.length := by omega
          refine ⟨hnew hle' ?_, ?_, ?_⟩
          · intro p hp
            simp only [ProtoCtx.owned, List.mem_append, Option.toList_some,
              List.mem_singleton] at hp ⊢
            rcases hp with ((hp | hp) | rfl) | rfl
            · exact .inl (.inl (.inl (.inl hp)))
            · exact .inl (.inl (.inl (.inr hp)))
            · exact .inr h₀
            · exact .inr h₁
          · intro p hp
            cases hp
            exact h₀
          · intro p hp
            cases hp
            exact h₁
      | garbledDefault =>
        exact popenv_bounded h ⟨hlev', hx.dOwner, hx.dGroup⟩ hlev'
      | entry ok =>
        simp only at h
        split at h
        · cases h
        · split at h
          · cases h
            exact hnext
          · exact popenv_bounded h ⟨hlev', hx.dOwner, hx.dGroup⟩ hlev'
      | other =>
        cases h
        exact hnext

theorem ProtoReaches.bounded (h : ProtoReaches env cmds dname st) : st.Bounded := by
  induction h with
  | refl =>
    refine ⟨?_, ?_, ?_⟩
    · intro c hc p hp
      rcases List.mem_singleton.mp hc with rfl
      cases hp
    · rintro p ⟨⟩
    · rintro p ⟨⟩
  | tail _ hstep ih => exact protoStep_bounded hstep ih

end Bounded

section Scope
variable {env : ProtoEnv} {s s₁ t : PkgmkSt} {c : ProtoCtx} {below : List ProtoCtx}

theorem StrRef.get_agrees {r : StrRef} {n : Nat} {h h' : StrHeap} (hr : ∀ p, r = .heap p → p < n)
    (ha : StrHeap.Agrees n h h') : r.get h' = r.get h := by
  cases r with
  | const s => rfl
  | heap p => exact ha.get_eq p (hr p rfl)

end Scope

section Samples

def sampleProto (cmds : List ProtoCmd) : ProtoEnv where
  fopen file := if file = "/d/i".toList then some cmds else none
  chdir _ := true
  canonize s := s

end Samples

end Pkgtools
