import Pkgtools.CLib.Parse
import Mathlib.Data.List.Basic

namespace CLib
set_option autoImplicit true

namespace Parse

/-- A reader on a state, beside the log of another one. -/
def beside (f : σ → Option (α × σ)) (s : σ × List τ) : Option (α × (σ × List τ)) :=
  (f s.1).map fun (a, s') => (a, (s', s.2))

/-- The reader `m` checks what it uses, the reader `l` only writes it down: `m` is defined just if
all that `l` logs is good, and then it does the same. All entries of the log have the property. -/
def Logged (good entry : τ → Prop) [DecidablePred good] (m : Parse σ ε α)
    (l : Parse (σ × List τ) ε α) : Prop :=
  ∀ s log, (l (s, log) = none → m s = none) ∧ ∀ r s' log', l (s, log) = some (r, (s', log')) →
    ∃ new, log' = log ++ new ∧ (∀ t ∈ new, entry t) ∧
      m s = if ∀ t ∈ new, good t then some (r, s') else none

namespace Logged
variable {good entry : τ → Prop} [DecidablePred good] {s s' : σ} {log : List τ}

theorem of_run {m : Parse σ ε α} {l : Parse (σ × List τ) ε α} {x : Except ε α} (new : List τ)
    (hl : l (s, log) = some (x, (s', log ++ new))) (hnew : ∀ t ∈ new, entry t)
    (hm : m s = if ∀ t ∈ new, good t then some (x, s') else none) :
    (l (s, log) = none → m s = none) ∧ ∀ r s' log', l (s, log) = some (r, (s', log')) →
      ∃ new, log' = log ++ new ∧ (∀ t ∈ new, entry t) ∧
        m s = if ∀ t ∈ new, good t then some (r, s') else none := by
  rw [hl]
  refine ⟨(fun h => by cases h), fun r s' log' h => ⟨new, ?_⟩⟩
  cases h
  exact ⟨rfl, hnew, hm⟩

theorem ret (a : α) : Logged good entry (pure a : Parse σ ε α) (pure a) := by
  intro s log
  have hl : (pure a : Parse (σ × List τ) ε α) (s, log) = some (.ok a, (s, log ++ [])) := by
    rw [List.append_nil]
    rfl
  exact of_run [] hl (by simp) (by simp; rfl)

theorem raise (e : ε) : Logged good entry (Parse.raise e : Parse σ ε α) (Parse.raise e) := by
  intro s log
  have hl : (Parse.raise e : Parse (σ × List τ) ε α) (s, log) =
      some (.error e, (s, log ++ [])) := by
    rw [List.append_nil]
    rfl
  exact of_run [] hl (by simp) (by simp; rfl)

theorem mapError {m : Parse σ ε α} {l : Parse (σ × List τ) ε α} (h : Logged good entry m l)
    (f : ε → ε) : Logged good entry (m.mapError f) (l.mapError f) := by
  intro s log
  obtain ⟨hnone, hsome⟩ := h s log
  refine ⟨fun hl => mapError_none (hnone (Option.map_eq_none_iff.mp hl)), fun r s' log' hl => ?_⟩
  obtain ⟨⟨r', q⟩, hl', heq⟩ := Option.map_eq_some_iff.mp hl
  cases heq
  obtain ⟨new, hlog, hnew, hm⟩ := hsome _ _ _ hl'
  refine ⟨new, hlog, hnew, ?_⟩
  rw [Parse.mapError, hm]
  split <;> rfl

theorem undefined : Logged good entry (fun _ => none : Parse σ ε α) fun _ => none :=
  fun _ _ => ⟨fun _ => rfl, fun _ _ _ h => by cases h⟩

theorem beside (f : σ → Option (α × σ)) :
    Logged good entry (prim f : Parse σ ε α) (prim (Parse.beside f)) := by
  intro s log
  cases hf : f s with
  | none =>
    have hrec : Parse.beside f (s, log) = none := by rw [Parse.beside, hf]; rfl
    refine ⟨fun _ => prim_none hf, fun r s' log' h => ?_⟩
    rw [prim_none hrec] at h
    cases h
  | some x =>
    obtain ⟨a, s₁⟩ := x
    have hrec : Parse.beside f (s, log) = some (a, (s₁, log ++ [])) := by
      rw [Parse.beside, hf, List.append_nil]
      rfl
    refine of_run [] (prim_some hrec) (by simp) ?_
    rw [prim_some hf]
    simp

theorem prim {f : σ → Option (α × σ)} {g : σ × List τ → Option (α × (σ × List τ))}
    (h : ∀ s log, ∃ a s' new, g (s, log) = some (a, (s', log ++ new)) ∧ (∀ t ∈ new, entry t) ∧
      f s = if ∀ t ∈ new, good t then some (a, s') else none) :
    Logged good entry (Parse.prim f : Parse σ ε α) (Parse.prim g) := by
  intro s log
  obtain ⟨a, s₁, new, hg, hnew, hf⟩ := h s log
  refine of_run new (prim_some hg) hnew ?_
  by_cases hgood : ∀ t ∈ new, good t
  · rw [if_pos hgood] at hf ⊢
    exact prim_some hf
  · rw [if_neg hgood] at hf ⊢
    exact prim_none hf

theorem bind {m : Parse σ ε α} {l : Parse (σ × List τ) ε α} {f : α → Parse σ ε β}
    {g : α → Parse (σ × List τ) ε β} (hm : Logged good entry m l)
    (hf : ∀ a, Logged good entry (f a) (g a)) : Logged good entry (m >>= f) (l >>= g) := by
  intro s log
  obtain ⟨hnone, hsome⟩ := hm s log
  match hl : l (s, log) with
  | none =>
    refine ⟨fun _ => bind_none (hnone hl), fun r s' log' h => ?_⟩
    rw [bind_none hl] at h
    cases h
  | some (.error e, (s₁, log₁)) =>
    obtain ⟨new, rfl, hnew, hrun⟩ := hsome _ _ _ hl
    refine of_run new (bind_error hl) hnew ?_
    by_cases hgood : ∀ t ∈ new, good t
    · rw [if_pos hgood] at hrun ⊢
      exact bind_error hrun
    · rw [if_neg hgood] at hrun ⊢
      exact bind_none hrun
  | some (.ok a, (s₁, log₁)) =>
    obtain ⟨new, rfl, hnew, hrun⟩ := hsome _ _ _ hl
    obtain ⟨hnone', hsome'⟩ := hf a s₁ (log ++ new)
    rw [bind_ok hl]
    constructor
    · intro h
      by_cases hgood : ∀ t ∈ new, good t
      · rw [if_pos hgood] at hrun
        exact (bind_ok hrun).trans (hnone' h)
      · rw [if_neg hgood] at hrun
        exact bind_none hrun
    · intro r s' log' h
      obtain ⟨new', rfl, hnew', hrun'⟩ := hsome' r s' log' h
      refine ⟨new ++ new', List.append_assoc _ _ _, List.forall_mem_append.mpr ⟨hnew, hnew'⟩, ?_⟩
      by_cases hgood : ∀ t ∈ new, good t
      · rw [if_pos hgood] at hrun
        rw [bind_ok hrun, hrun']
        simp only [List.forall_mem_append, eq_true hgood, true_and]
      · rw [if_neg hgood] at hrun
        rw [bind_none hrun, if_neg fun h => hgood (List.forall_mem_append.mp h).1]

theorem ite {p : Prop} [Decidable p] {m m' : Parse σ ε α} {l l' : Parse (σ × List τ) ε α}
    (hm : Logged good entry m l) (hm' : Logged good entry m' l') :
    Logged good entry (if p then m else m') (if p then l else l') := by
  split
  · exact hm
  · exact hm'

theorem onlyIf {p : Prop} [Decidable p] {m : α → Parse σ ε α} {l : α → Parse (σ × List τ) ε α}
    {a : α} (hm : Logged good entry (m a) (l a)) :
    Logged good entry (Parse.onlyIf p m a) (Parse.onlyIf p l a) :=
  ite hm (ret a)

end Logged

end Parse

end CLib
