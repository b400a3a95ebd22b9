import Mathlib.Logic.Basic

namespace CLib
set_option autoImplicit true

section StepRun
variable (step : C → Except E (Option C))

/-- The states that a run passes from `c` on. -/
inductive Passes (c : C) : C → Prop where
  | start : Passes c c
  | next : Passes c d → step d = .ok (some e) → Passes c e

/-- A run of at most so many steps, to a state with no further step. -/
def runSteps (running : E) : Nat → C → Except E C
  | 0, _ => .error running
  | n + 1, c =>
    match step c with
    | .error e => .error e
    | .ok none => .ok c
    | .ok (some d) => runSteps running n d

variable {step}

theorem runSteps_end (h : step c = .ok none) (running : E) (n : Nat) :
    runSteps step running (n + 1) c = .ok c := by
  rw [runSteps, h]

theorem runSteps_next (h : step c = .ok (some d)) (running : E) (n : Nat) :
    runSteps step running (n + 1) c = runSteps step running n d := by
  rw [runSteps, h]

/-- A run ends if every step that it takes keeps the invariant and makes the measure smaller. -/
theorem exists_runSteps (running : E) (Inv : C → Prop) (measure : C → Nat)
    (hstep : ∀ d, Passes step c d → Inv d →
      step d = .ok none ∨ ∃ e, step d = .ok (some e) ∧ Inv e ∧ measure e < measure d)
    (hc : Inv c) :
    ∃ n d, runSteps step running n c = .ok d ∧ Inv d ∧ Passes step c d ∧ step d = .ok none := by
  have hrun : ∀ m d, measure d < m → Passes step c d → Inv d →
      ∃ n e, runSteps step running n d = .ok e ∧ Inv e ∧ Passes step c e ∧ step e = .ok none := by
    intro m
    induction m with
    | zero =>
      intro d hm
      exact absurd hm (Nat.not_lt_zero _)
    | succ m ih =>
      intro d hm hp hd
      rcases hstep d hp hd with hend | ⟨e, hnext, he, hlt⟩
      · exact ⟨1, d, runSteps_end hend running 0, hd, hp, hend⟩
      · obtain ⟨n, e', hn, hrest⟩ := ih e (Nat.lt_of_lt_of_le hlt (Nat.le_of_lt_succ hm))
          (.next hp hnext) he
        exact ⟨n + 1, e', (runSteps_next hnext running n).trans hn, hrest⟩
  exact hrun (measure c + 1) c (Nat.lt_succ_self _) .start hc

def everyState (step : C → Except E (Option C)) (p : C → Bool) : Nat → C → Bool
  | 0, _ => false
  | n + 1, c =>
    p c &&
      match step c with
      | .ok (some d) => everyState step p n d
      | _ => true

theorem Passes.eq_or_next (h : Passes step c e) :
    e = c ∨ ∃ d, step c = .ok (some d) ∧ Passes step d e := by
  induction h with
  | start => exact .inl rfl
  | next _ hstep ih =>
    rcases ih with rfl | ⟨d, hd, hp⟩
    · exact .inr ⟨_, hstep, .start⟩
    · exact .inr ⟨d, hd, .next hp hstep⟩

theorem everyState_passes (h : everyState step p n c = true) (hp : Passes step c e) :
    p e = true := by
  induction n generalizing c with
  | zero => cases h
  | succ n ih =>
    rw [everyState, Bool.and_eq_true] at h
    rcases hp.eq_or_next with rfl | ⟨d, hd, hp⟩
    · exact h.1
    · have hrest := h.2
      rw [hd] at hrest
      exact ih hrest hp

end StepRun

end CLib
