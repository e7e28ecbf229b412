/-
# Refinement

Two levels of one system: a `Refinement` maps the states of the lower level to states of
the upper one, and an action to one action of the upper level or to none, if it is a step
that only the lower level has.  Actions that are enabled below are enabled above.

So what the actions above keep is kept below (`Refinement.keeps`), and an execution below is
one above (`Refinement.execution`), with the states it passes through mapped
(`Refinement.state_execution`).  Where a refinement needs an invariant of the lower level, it is one
of the execution that assumes it (`Execution.assuming`).  Fairness does not carry over by itself:
that an agent which stays able to act above stays able to act below is what the lower level has to
show.
-/

import AarchGate.Trace.Fair

namespace AarchGate
namespace Trace

variable {σ α τ β : Type*}

namespace Execution

variable {step : σ → α → σ} {Enabled : σ → α → Prop} {s : σ} (X : Execution step Enabled s)

/-- An invariant may be assumed of the states in which the actions are taken. -/
def assuming {I : σ → Prop} (hstep : ∀ s a, I s → Enabled s a → I (step s a)) (h0 : I s) :
    Execution step (fun s a => I s ∧ Enabled s a) s where
  act := X.act
  legal n a ha := ⟨X.invariant hstep h0 n, X.legal n a ha⟩

end Execution

/-- The system `step` refines the system `step'`. -/
structure Refinement (step : σ → α → σ) (Enabled : σ → α → Prop) (step' : τ → β → τ)
    (Enabled' : τ → β → Prop) where
  state : σ → τ
  act : σ → α → Option β
  enabled : ∀ {s a b}, Enabled s a → act s a = some b → Enabled' (state s) b
  step_some : ∀ {s a b}, Enabled s a → act s a = some b → state (step s a) = step' (state s) b
  step_none : ∀ {s a}, Enabled s a → act s a = none → state (step s a) = state s

namespace Refinement

variable {step : σ → α → σ} {Enabled : σ → α → Prop} {step' : τ → β → τ}
  {Enabled' : τ → β → Prop} (R : Refinement step Enabled step' Enabled')

/-- **What the actions above keep is kept below.** -/
theorem keeps {J : τ → Prop} (hJ : ∀ t b, J t → Enabled' t b → J (step' t b)) {s : σ} {a : α}
    (hs : J (R.state s)) (ha : Enabled s a) : J (R.state (step s a)) := by
  cases hact : R.act s a with
  | none => rwa [R.step_none ha hact]
  | some b =>
    rw [R.step_some ha hact]
    exact hJ _ b hs (R.enabled ha hact)

variable {s : σ} (X : Execution step Enabled s)

/-- The actions above at each moment. -/
def actions (n : ℕ) : Option β := (X.act n).bind (R.act (X.state n))

/-- The states of the refined run are those of the run. -/
theorem stateAt_actions (n : ℕ) : stateAt step' (R.state s) (R.actions X) n = R.state (X.state n) := by
  induction n with
  | zero => rfl
  | succ n ih =>
    rw [stateAt, ih, actions]
    cases hX : X.act n with
    | none => rw [Execution.state_succ_none hX]; rfl
    | some a =>
      rw [Execution.state_succ_some hX, Option.bind_some]
      cases hact : R.act (X.state n) a with
      | none => exact (R.step_none (Execution.enabled hX) hact).symm
      | some b => exact (R.step_some (Execution.enabled hX) hact).symm

/-- **An execution below is one above.** -/
def execution : Execution step' Enabled' (R.state s) where
  act := R.actions X
  legal n b hb := by
    obtain ⟨a, hX, hact⟩ := Option.bind_eq_some_iff.1 hb
    rw [stateAt_actions]
    exact R.enabled (Execution.enabled hX) hact

/-- And those of the refined execution. -/
@[simp] theorem state_execution (n : ℕ) : (R.execution X).state n = R.state (X.state n) :=
  R.stateAt_actions X n

/-- What it does there. -/
theorem act_execution {n : ℕ} {a : α} (hX : X.act n = some a) :
    (R.execution X).act n = R.act (X.state n) a := by
  rw [show (R.execution X).act n = (X.act n).bind (R.act (X.state n)) from rfl, hX, Option.bind_some]

end Refinement

end Trace
end AarchGate
