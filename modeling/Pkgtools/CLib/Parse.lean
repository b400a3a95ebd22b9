import Mathlib.Logic.Basic

namespace CLib
set_option autoImplicit true

/-- A reader with state `σ`: it returns a value or reports an error, and leaves a state behind.
It is undefined where the input ends before what it needs. -/
def Parse (σ ε α : Type) := σ → Option (Except ε α × σ)

namespace Parse

def ret (a : α) : Parse σ ε α := fun s => some (.ok a, s)

def andThen (m : Parse σ ε α) (f : α → Parse σ ε β) : Parse σ ε β := fun s =>
  match m s with
  | none => none
  | some (.error e, s') => some (.error e, s')
  | some (.ok a, s') => f a s'

instance : Monad (Parse σ ε) where
  pure := ret
  bind := andThen

def raise (e : ε) : Parse σ ε α := fun s => some (.error e, s)

def prim (f : σ → Option (α × σ)) : Parse σ ε α := fun s => (f s).map fun (a, s') => (.ok a, s')

def onlyIf (p : Prop) [Decidable p] (m : α → Parse σ ε α) (a : α) : Parse σ ε α :=
  if p then m a else pure a

def mapError (f : ε → ε) (m : Parse σ ε α) : Parse σ ε α := fun s =>
  (m s).map fun x => (x.1.mapError f, x.2)

theorem mapError_none {f : ε → ε} {m : Parse σ ε α} (h : m s = none) : m.mapError f s = none := by
  rw [mapError, h, Option.map_none]

theorem mapError_some {f : ε → ε} {m : Parse σ ε α} (h : m s = some (r, s')) :
    m.mapError f s = some (r.mapError f, s') := by
  rw [mapError, h, Option.map_some]

theorem mapError_eq_ok {f : ε → ε} {m : Parse σ ε α} (h : m.mapError f s = some (.ok a, s')) :
    m s = some (.ok a, s') := by
  obtain ⟨⟨r, q⟩, hm, he⟩ := Option.map_eq_some_iff.mp h
  cases r with
  | error e => cases he
  | ok b =>
    cases he
    exact hm

theorem bind_none {m : Parse σ ε α} {f : α → Parse σ ε β} (h : m s = none) :
    (m >>= f) s = none := by
  simp only [bind, andThen, h]

theorem bind_error {m : Parse σ ε α} {f : α → Parse σ ε β} (h : m s = some (.error e, s')) :
    (m >>= f) s = some (.error e, s') := by
  simp only [bind, andThen, h]

theorem bind_ok {m : Parse σ ε α} {f : α → Parse σ ε β} (h : m s = some (.ok a, s')) :
    (m >>= f) s = f a s' := by
  simp only [bind, andThen, h]

theorem onlyIf_pos {p : Prop} [Decidable p] (h : p) (m : α → Parse σ ε α) (a : α) :
    onlyIf p m a = m a := if_pos h

theorem onlyIf_neg {p : Prop} [Decidable p] (h : ¬ p) (m : α → Parse σ ε α) (a : α) :
    onlyIf p m a = pure a := if_neg h

theorem prim_some {f : σ → Option (α × σ)} (h : f s = some (a, s')) :
    (prim f : Parse σ ε α) s = some (.ok a, s') := by
  simp only [prim, h, Option.map_some]

theorem prim_none {f : σ → Option (α × σ)} (h : f s = none) : (prim f : Parse σ ε α) s = none := by
  simp only [prim, h, Option.map_none]

theorem ret_eq_ok (h : (pure a : Parse σ ε α) s = some (.ok b, s')) : a = b ∧ s = s' := by
  obtain ⟨hr, hs⟩ := Prod.mk.inj (Option.some.inj h)
  exact ⟨Except.ok.inj hr, hs⟩

theorem prim_eq_ok {f : σ → Option (α × σ)} (h : (prim f : Parse σ ε α) s = some (.ok a, s')) :
    f s = some (a, s') := by
  obtain ⟨⟨b, t⟩, hf, he⟩ := Option.map_eq_some_iff.mp h
  obtain ⟨hr, rfl⟩ := Prod.mk.inj he
  rw [hf, Except.ok.inj hr]

theorem bind_eq_ok {m : Parse σ ε α} {f : α → Parse σ ε β} (h : (m >>= f) s = some (.ok b, s'')) :
    ∃ a s', m s = some (.ok a, s') ∧ f a s' = some (.ok b, s'') := by
  cases hm : m s with
  | none =>
    rw [bind_none hm] at h
    cases h
  | some x =>
    obtain ⟨r, s'⟩ := x
    cases r with
    | error e =>
      rw [bind_error hm] at h
      cases h
    | ok a =>
      rw [bind_ok hm] at h
      exact ⟨a, s', rfl, h⟩

theorem bind_congr_left {m m' : Parse σ ε α} (h : m s = m' s') (f : α → Parse σ ε β) :
    (m >>= f) s = (m' >>= f) s' := by
  simp only [bind, andThen, h]

theorem bind_unwrap {m : Parse σ ε α} {f : α → β} {g : β → Parse σ ε α} (h : ∀ a, g (f a) = pure a)
    (s : σ) : ((m >>= fun a => pure (f a)) >>= g) s = m s := by
  cases hm : m s with
  | none => rw [bind_none (bind_none hm)]
  | some x =>
    obtain ⟨r, s'⟩ := x
    cases r with
    | error e => rw [bind_error (bind_error hm)]
    | ok a =>
      have hwrap : (m >>= fun a => pure (f a)) s = some (.ok (f a), s') := bind_ok hm
      rw [bind_ok hwrap, h]
      rfl

def Keeps (inside : σ → Prop) (m : Parse σ ε α) : Prop :=
  ∀ s, inside s → ∃ r s', m s = some (r, s') ∧ inside s'

theorem Keeps.ret {inside : σ → Prop} (a : α) : Keeps inside (pure a : Parse σ ε α) :=
  fun s hs => ⟨.ok a, s, rfl, hs⟩

theorem Keeps.raise {inside : σ → Prop} (e : ε) : Keeps inside (raise e : Parse σ ε α) :=
  fun s hs => ⟨.error e, s, rfl, hs⟩

theorem Keeps.prim {inside : σ → Prop} {f : σ → Option (α × σ)}
    (h : ∀ s, inside s → ∃ a s', f s = some (a, s') ∧ inside s') :
    Keeps inside (prim f : Parse σ ε α) := by
  intro s hs
  obtain ⟨a, s', hf, hs'⟩ := h s hs
  exact ⟨.ok a, s', prim_some hf, hs'⟩

theorem Keeps.bind {inside : σ → Prop} {m : Parse σ ε α} {f : α → Parse σ ε β}
    (hm : Keeps inside m) (hf : ∀ a, Keeps inside (f a)) : Keeps inside (m >>= f) := by
  intro s hs
  obtain ⟨r, s', hr, hs'⟩ := hm s hs
  cases r with
  | error e => exact ⟨.error e, s', bind_error hr, hs'⟩
  | ok a =>
    obtain ⟨r, s'', hr', hs''⟩ := hf a s' hs'
    exact ⟨r, s'', (bind_ok hr).trans hr', hs''⟩

theorem Keeps.ite {inside : σ → Prop} {p : Prop} [Decidable p] {m m' : Parse σ ε α}
    (hm : Keeps inside m) (hm' : Keeps inside m') : Keeps inside (if p then m else m') := by
  split
  · exact hm
  · exact hm'

theorem Keeps.onlyIf {inside : σ → Prop} {p : Prop} [Decidable p] {m : α → Parse σ ε α} {a : α}
    (hm : Keeps inside (m a)) : Keeps inside (onlyIf p m a) :=
  Keeps.ite hm (Keeps.ret a)

theorem Keeps.mapError {inside : σ → Prop} {m : Parse σ ε α} (hm : Keeps inside m) (f : ε → ε) :
    Keeps inside (m.mapError f) := by
  intro s hs
  obtain ⟨r, s', hr, hs'⟩ := hm s hs
  exact ⟨_, s', mapError_some hr, hs'⟩

def Leaves (pre : σ → Prop) (m : Parse σ ε α) (post : Except ε α → σ → Prop) : Prop :=
  ∀ s, pre s → ∀ r s', m s = some (r, s') → post r s'

section Leaves
variable {pre : σ → Prop} {post : Except ε α → σ → Prop}

theorem Leaves.ret {a : α} (h : ∀ s, pre s → post (.ok a) s) :
    Leaves pre (pure a : Parse σ ε α) post := by
  intro s hs r s' hr
  obtain ⟨rfl, rfl⟩ := Prod.mk.inj (Option.some.inj hr)
  exact h s hs

theorem Leaves.raise {e : ε} (h : ∀ s, pre s → post (.error e) s) :
    Leaves pre (raise e : Parse σ ε α) post := by
  intro s hs r s' hr
  obtain ⟨rfl, rfl⟩ := Prod.mk.inj (Option.some.inj hr)
  exact h s hs

theorem Leaves.prim_bind {f : σ → Option (β × σ)} {g : β → Parse σ ε α} {Q : β → σ → Prop}
    (hf : ∀ s, pre s → ∀ b s', f s = some (b, s') → Q b s')
    (hg : ∀ b, Leaves (Q b) (g b) post) : Leaves pre (prim f >>= g) post := by
  intro s hs r s'' hr
  cases h : f s with
  | none =>
    rw [bind_none (prim_none h)] at hr
    cases hr
  | some x =>
    rw [bind_ok (prim_some h)] at hr
    exact hg x.1 x.2 (hf s hs x.1 x.2 h) r s'' hr

theorem Leaves.bind {m : Parse σ ε β} {f : β → Parse σ ε α} {Q : Except ε β → σ → Prop}
    (hm : Leaves pre m Q) (hf : ∀ b, Leaves (Q (.ok b)) (f b) post)
    (he : ∀ e s, Q (.error e) s → post (.error e) s) : Leaves pre (m >>= f) post := by
  intro s hs r s'' hr
  cases h : m s with
  | none =>
    rw [bind_none h] at hr
    cases hr
  | some x =>
    obtain ⟨r', s'⟩ := x
    have hmid := hm s hs r' s' h
    cases r' with
    | error e =>
      rw [bind_error h] at hr
      obtain ⟨rfl, rfl⟩ := Prod.mk.inj (Option.some.inj hr)
      exact he e s' hmid
    | ok b =>
      rw [bind_ok h] at hr
      exact hf b s' hmid r s'' hr

theorem Leaves.ite {p : Prop} [Decidable p] {m m' : Parse σ ε α} (hm : p → Leaves pre m post)
    (hm' : ¬ p → Leaves pre m' post) : Leaves pre (if p then m else m') post := by
  by_cases hp : p
  · rw [if_pos hp]
    exact hm hp
  · rw [if_neg hp]
    exact hm' hp

theorem Leaves.mapError {m : Parse σ ε α} (hm : Leaves pre m post) (f : ε → ε)
    (he : ∀ e s, post (.error e) s → post (.error (f e)) s) : Leaves pre (m.mapError f) post := by
  intro s hs r s' hr
  obtain ⟨⟨r', q⟩, hm', heq⟩ := Option.map_eq_some_iff.mp hr
  cases heq
  have hpost := hm s hs r' q hm'
  cases r' with
  | error e => exact he e q hpost
  | ok a => exact hpost

end Leaves

def Yields (m : Parse σ ε α) (P : α → Prop) : Prop := ∀ s a s', m s = some (.ok a, s') → P a

section Yields
variable {P : α → Prop}

theorem Yields.ret {a : α} (h : P a) : Yields (pure a : Parse σ ε α) P := by
  intro s b s' hr
  rw [← (ret_eq_ok hr).1]
  exact h

theorem Yields.raise (e : ε) : Yields (raise e : Parse σ ε α) P := by
  intro s a s' hr
  cases hr

theorem Yields.bind {m : Parse σ ε β} {f : β → Parse σ ε α} {Q : β → Prop} (hm : Yields m Q)
    (hf : ∀ b, Q b → Yields (f b) P) : Yields (m >>= f) P := by
  intro s a s'' hr
  obtain ⟨b, s', hb, ha⟩ := bind_eq_ok hr
  exact hf b (hm s b s' hb) s' a s'' ha

/-- Whatever the first reader returns, the second one returns a value with the property. -/
theorem Yields.after {f : β → Parse σ ε α} (hf : ∀ b, Yields (f b) P) (m : Parse σ ε β) :
    Yields (m >>= f) P :=
  Yields.bind (Q := fun _ => True) (fun _ _ _ _ => trivial) fun b _ => hf b

theorem Yields.ite {p : Prop} [Decidable p] {m m' : Parse σ ε α} (hm : Yields m P)
    (hm' : Yields m' P) : Yields (if p then m else m') P := by
  split
  · exact hm
  · exact hm'

theorem Yields.onlyIf {p : Prop} [Decidable p] {m : α → Parse σ ε α} {a : α} (hm : Yields (m a) P)
    (ha : P a) : Yields (onlyIf p m a) P := Yields.ite hm (Yields.ret ha)

end Yields

/-- Reader `m` at state `s` does what reader `l` does at state `t`; where `l` is undefined, `m` ends
in a state past the input of `l`. -/
def FollowsAt (rel : τ → σ → Prop) (past : σ → Prop) (m : Parse σ ε α) (l : Parse τ ε α) (t : τ)
    (s : σ) : Prop :=
  (∀ r t', l t = some (r, t') → ∃ s', m s = some (r, s') ∧ rel t' s') ∧
    (l t = none → ∃ r s', m s = some (r, s') ∧ past s')

/-- Reader `m` on states `σ` follows reader `l` on states `τ`. -/
def Follows (rel : τ → σ → Prop) (past : σ → Prop) (m : Parse σ ε α) (l : Parse τ ε α) : Prop :=
  ∀ t s, rel t s → FollowsAt rel past m l t s

section Follows
variable {rel : τ → σ → Prop} {past : σ → Prop}

theorem FollowsAt.of_eq {m : Parse σ ε α} {l : Parse τ ε α} (hm : m s = some (r, s'))
    (hl : l t = some (r, t')) (h : rel t' s') : FollowsAt rel past m l t s := by
  constructor
  · intro r' t'' hr
    obtain ⟨rfl, rfl⟩ := Prod.mk.inj (Option.some.inj (hl.symm.trans hr))
    exact ⟨s', hm, h⟩
  · intro hn
    rw [hl] at hn
    cases hn

theorem Follows.ret (a : α) :
    Follows rel past (pure a : Parse σ ε α) (pure a : Parse τ ε α) :=
  fun _ _ hts => FollowsAt.of_eq rfl rfl hts

theorem Follows.raise (e : ε) :
    Follows rel past (raise e : Parse σ ε α) (raise e : Parse τ ε α) :=
  fun _ _ hts => FollowsAt.of_eq rfl rfl hts

theorem Follows.prim {f : σ → Option (α × σ)} {g : τ → Option (α × τ)}
    (h : ∀ t s, rel t s →
      (∀ a t', g t = some (a, t') → ∃ s', f s = some (a, s') ∧ rel t' s') ∧
      (g t = none → ∃ a s', f s = some (a, s') ∧ past s')) :
    Follows rel past (prim f : Parse σ ε α) (prim g : Parse τ ε α) := by
  intro t s hts
  obtain ⟨hsome, hnone⟩ := h t s hts
  constructor
  · intro r t' hr
    obtain ⟨⟨a, t''⟩, hg, he⟩ := Option.map_eq_some_iff.mp hr
    obtain ⟨rfl, rfl⟩ := Prod.mk.inj he
    obtain ⟨s', hf, hs'⟩ := hsome a t'' hg
    exact ⟨s', prim_some hf, hs'⟩
  · intro hr
    obtain ⟨a, s', hf, hs'⟩ := hnone (Option.map_eq_none_iff.mp hr)
    exact ⟨.ok a, s', prim_some hf, hs'⟩

/-- Sequencing: what comes second is only run on the values and states the first readers leave. -/
theorem FollowsAt.bind {m : Parse σ ε α} {l : Parse τ ε α} {f : α → Parse σ ε β}
    {g : α → Parse τ ε β} (hm : FollowsAt rel past m l t s)
    (hf : ∀ a t' s', l t = some (.ok a, t') → m s = some (.ok a, s') → rel t' s' →
      FollowsAt rel past (f a) (g a) t' s')
    (hk : ∀ a s', l t = none → m s = some (.ok a, s') → past s' →
      ∃ r s'', f a s' = some (r, s'') ∧ past s'') :
    FollowsAt rel past (m >>= f) (l >>= g) t s := by
  obtain ⟨hsome, hnone⟩ := hm
  cases hl : l t with
  | none =>
    constructor
    · intro r t' h
      rw [bind_none hl] at h
      cases h
    · intro _
      obtain ⟨r, s', hr, hs'⟩ := hnone hl
      cases r with
      | error e => exact ⟨.error e, s', bind_error hr, hs'⟩
      | ok a =>
        obtain ⟨r, s'', hr', hs''⟩ := hk a s' hl hr hs'
        exact ⟨r, s'', (bind_ok hr).trans hr', hs''⟩
  | some rt =>
    obtain ⟨r, t'⟩ := rt
    obtain ⟨s', hr, hs'⟩ := hsome r t' hl
    cases r with
    | error e => exact FollowsAt.of_eq (bind_error hr) (bind_error hl) hs'
    | ok a =>
      rw [FollowsAt, bind_ok hl, bind_ok hr]
      exact hf a t' s' hl hr hs'

theorem Follows.bind {m : Parse σ ε α} {l : Parse τ ε α} {f : α → Parse σ ε β}
    {g : α → Parse τ ε β} (hm : Follows rel past m l) (hf : ∀ a, Follows rel past (f a) (g a))
    (hk : ∀ a, Keeps past (f a)) : Follows rel past (m >>= f) (l >>= g) :=
  fun t s hts => (hm t s hts).bind (fun a t' s' _ _ => hf a t' s') (fun a s' _ _ => hk a s')

theorem Follows.ite {p : Prop} [Decidable p] {m m' : Parse σ ε α} {l l' : Parse τ ε α}
    (h : p → Follows rel past m l) (h' : ¬ p → Follows rel past m' l') :
    Follows rel past (if p then m else m') (if p then l else l') := by
  by_cases hp : p
  · rw [if_pos hp, if_pos hp]
    exact h hp
  · rw [if_neg hp, if_neg hp]
    exact h' hp

theorem Follows.onlyIf {p : Prop} [Decidable p] {m : α → Parse σ ε α} {l : α → Parse τ ε α}
    {a : α} (h : Follows rel past (m a) (l a)) :
    Follows rel past (onlyIf p m a) (onlyIf p l a) :=
  Follows.ite (fun _ => h) (fun _ => Follows.ret a)

theorem Follows.mapError {m : Parse σ ε α} {l : Parse τ ε α} (h : Follows rel past m l)
    (f : ε → ε) : Follows rel past (m.mapError f) (l.mapError f) := by
  intro t s hts
  obtain ⟨hsome, hnone⟩ := h t s hts
  constructor
  · intro r t' hr
    obtain ⟨⟨r', q⟩, hl, heq⟩ := Option.map_eq_some_iff.mp hr
    cases heq
    obtain ⟨s', hm, hrel⟩ := hsome r' q hl
    exact ⟨s', mapError_some hm, hrel⟩
  · intro hr
    obtain ⟨r, s', hm, hpast⟩ := hnone (Option.map_eq_none_iff.mp hr)
    exact ⟨_, s', mapError_some hm, hpast⟩

end Follows

/-- Two readers that go the same way through the input, and return related values. -/
def Alike (R : α → β → Prop) (m : Parse σ ε α) (m' : Parse σ ε β) : Prop :=
  ∀ s, m s = none ∧ m' s = none ∨
    (∃ e e' s', m s = some (.error e, s') ∧ m' s = some (.error e', s')) ∨
    ∃ a b s', m s = some (.ok a, s') ∧ m' s = some (.ok b, s') ∧ R a b

section Alike
variable {R : α → β → Prop} {S : γ → δ → Prop}

theorem Alike.ret (h : R a b) : Alike R (pure a : Parse σ ε α) (pure b) :=
  fun s => .inr (.inr ⟨a, b, s, rfl, rfl, h⟩)

theorem Alike.raise (R : α → β → Prop) (e e' : ε) :
    Alike R (raise e : Parse σ ε α) (raise e' : Parse σ ε β) :=
  fun s => .inr (.inl ⟨e, e', s, rfl, rfl⟩)

theorem Alike.refl {R : α → α → Prop} (h : ∀ a, R a a) (m : Parse σ ε α) : Alike R m m := by
  intro s
  rcases hm : m s with _ | ⟨_ | a, s'⟩
  · exact .inl ⟨rfl, rfl⟩
  · exact .inr (.inl ⟨_, _, s', rfl, rfl⟩)
  · exact .inr (.inr ⟨a, a, s', rfl, rfl, h a⟩)

theorem Alike.bind {m : Parse σ ε α} {m' : Parse σ ε β} {f : α → Parse σ ε γ}
    {g : β → Parse σ ε δ} (hm : Alike R m m') (hf : ∀ a b, R a b → Alike S (f a) (g b)) :
    Alike S (m >>= f) (m' >>= g) := by
  intro s
  rcases hm s with ⟨h, h'⟩ | ⟨e, e', s', h, h'⟩ | ⟨a, b, s', h, h', hR⟩
  · exact .inl ⟨bind_none h, bind_none h'⟩
  · exact .inr (.inl ⟨e, e', s', bind_error h, bind_error h'⟩)
  · rw [bind_ok h, bind_ok h']
    exact hf a b hR s'

theorem Alike.mapError {m : Parse σ ε α} {m' : Parse σ ε β} (hm : Alike R m m') (f g : ε → ε) :
    Alike R (m.mapError f) (m'.mapError g) := by
  intro s
  rcases hm s with ⟨h, h'⟩ | ⟨e, e', s', h, h'⟩ | ⟨a, b, s', h, h', hR⟩
  · exact .inl ⟨mapError_none h, mapError_none h'⟩
  · exact .inr (.inl ⟨_, _, s', mapError_some h, mapError_some h'⟩)
  · exact .inr (.inr ⟨a, b, s', mapError_some h, mapError_some h', hR⟩)

theorem Alike.prim_bind {p : σ → Option (α × σ)} {f : α → Parse σ ε γ} {g : α → Parse σ ε δ}
    (hf : ∀ a, Alike S (f a) (g a)) : Alike S (prim p >>= f) (prim p >>= g) :=
  Alike.bind (Alike.refl (R := Eq) (fun _ => rfl) (prim p)) fun a _ h => h ▸ hf a

theorem Alike.ite {p q : Prop} [Decidable p] [Decidable q] {m n : Parse σ ε α} {m' n' : Parse σ ε β}
    (hpq : p ↔ q) (hm : p → Alike R m m') (hn : ¬ p → Alike R n n') :
    Alike R (if p then m else n) (if q then m' else n') := by
  by_cases hp : p
  · rw [if_pos hp, if_pos (hpq.mp hp)]
    exact hm hp
  · rw [if_neg hp, if_neg fun hq => hp (hpq.mpr hq)]
    exact hn hp

end Alike

end Parse
end CLib
