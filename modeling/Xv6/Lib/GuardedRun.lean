import Mathlib

/-!
# Guarded runs of a step function

A system is a partial step function on states and actions. A run is a sequence of
enabled actions from an initial state; a guard restricts which of them a run may take,
looking at the trace so far, the state before the step and the action. The same
definition then serves for all runs (the guard that is always true) and for the runs
whose steps all meet a condition.
-/

namespace GuardedRun

variable {σ α : Type*}

/-- A run of `step` from `init` whose steps all meet `guard`. The trace lists the
actions taken, the latest first. -/
inductive Run (step : σ → α → Option σ) (guard : List α → σ → α → Prop) (init : σ) :
    List α → σ → Prop
  | start : Run step guard init [] init
  | step {trace : List α} {s s' : σ} {a : α} : Run step guard init trace s →
      guard trace s a → step s a = some s' → Run step guard init (a :: trace) s'

/-- The guard that admits every step. -/
def free : List α → σ → α → Prop := fun _ _ _ => True

variable {step : σ → α → Option σ} {guard : List α → σ → α → Prop} {init : σ}

/-- What holds initially and is preserved by every guarded step holds in every state
a guarded run reaches. -/
theorem Run.invariant {I : List α → σ → Prop} (hinit : I [] init)
    (hstep : ∀ trace s a s', I trace s → guard trace s a → step s a = some s' → I (a :: trace) s')
    {trace : List α} {s : σ} (hrun : Run step guard init trace s) : I trace s := by
  induction hrun with
  | start => exact hinit
  | step _ hguard hs ih => exact hstep _ _ _ _ ih hguard hs

/-- Execute a list of actions, the first one first, as long as each is enabled and meets
the guard. -/
def exec (step : σ → α → Option σ) (guard : List α → σ → α → Prop)
    [∀ trace s a, Decidable (guard trace s a)] (trace : List α) (s : σ) : List α → Option σ
  | [] => some s
  | a :: actions =>
      if guard trace s a then
        (step s a).bind fun s' => exec step guard (a :: trace) s' actions
      else none

instance (trace : List α) (s : σ) (a : α) : Decidable (free trace s a) := isTrue trivial

variable [∀ trace s a, Decidable (guard trace s a)]

/-- An execution that succeeds extends a run by its actions. -/
theorem Run.exec {trace : List α} {s s' : σ} (hrun : Run step guard init trace s)
    {actions : List α} (hexec : exec step guard trace s actions = some s') :
    Run step guard init (actions.reverse ++ trace) s' := by
  induction actions generalizing trace s with
  | nil =>
    have hs : s = s' := by simpa [GuardedRun.exec] using hexec
    simpa [← hs] using hrun
  | cons a actions ih =>
    rw [GuardedRun.exec] at hexec
    split at hexec
    · rename_i hguard
      obtain ⟨t, ht, hrest⟩ := Option.bind_eq_some_iff.mp hexec
      simpa using ih (.step hrun hguard ht) hrest
    · cases hexec

/-- A list of actions that executes from the initial state is a run. -/
theorem run_of_exec {actions : List α} {s : σ} (hexec : exec step guard [] init actions = some s) :
    Run step guard init actions.reverse s := by
  simpa using Run.exec .start hexec

end GuardedRun
