/-
# Fair executions

An execution of a system of several agents is an infinite sequence of moments, at each of
which an action that is enabled is taken or nothing happens.  It is fair to an agent if
the agent does not stay able to act forever without acting.

An invariant of the actions holds at every moment (`Execution.invariant`).  The rule for
liveness is `Execution.FairTo.acts`: an agent that stays able to act until it does so acts.
A run that ends is an execution (`Execution.ofRun`).
-/

import AarchGate.Trace.Along
import Mathlib.Data.Nat.Find
import Mathlib.Tactic.Push

namespace AarchGate
namespace Trace

variable {σ α : Type*}

/-- The state at each moment. -/
def stateAt (step : σ → α → σ) (s : σ) (act : ℕ → Option α) : ℕ → σ
  | 0 => s
  | n + 1 =>
    match act n with
    | some a => step (stateAt step s act n) a
    | none => stateAt step s act n

/-- An execution from `s`. -/
structure Execution (step : σ → α → σ) (Enabled : σ → α → Prop) (s : σ) where
  act : ℕ → Option α
  legal : ∀ n a, act n = some a → Enabled (stateAt step s act n) a

namespace Execution

variable {step : σ → α → σ} {Enabled : σ → α → Prop} {s : σ} (X : Execution step Enabled s)

/-- The state at a moment of the execution. -/
def state (n : ℕ) : σ := stateAt step s X.act n

variable {X}

/-- The state after an action. -/
theorem state_succ_some {n : ℕ} {a : α} (h : X.act n = some a) :
    X.state (n + 1) = step (X.state n) a := by
  rw [state, stateAt, h]
  rfl

/-- And after none. -/
theorem state_succ_none {n : ℕ} (h : X.act n = none) : X.state (n + 1) = X.state n := by
  rw [state, stateAt, h]
  rfl

/-- Actions are taken when they can be. -/
theorem enabled {n : ℕ} {a : α} (h : X.act n = some a) : Enabled (X.state n) a := X.legal n a h

/-- What the action of this moment keeps holds at the next. -/
theorem next {I : σ → Prop} {n : ℕ} (hI : I (X.state n))
    (hstep : ∀ a, X.act n = some a → Enabled (X.state n) a → I (step (X.state n) a)) :
    I (X.state (n + 1)) := by
  cases ha : X.act n with
  | none => rwa [state_succ_none ha]
  | some a =>
    rw [state_succ_some ha]
    exact hstep a ha (enabled ha)

/-- **What the actions keep holds from any moment on.** -/
theorem stable {I : σ → Prop} (hstep : ∀ s a, I s → Enabled s a → I (step s a)) {n m : ℕ}
    (hnm : n ≤ m) (hI : I (X.state n)) : I (X.state m) := by
  induction m, hnm using Nat.le_induction with
  | base => exact hI
  | succ m _ ih => exact next ih fun a _ ha => hstep _ a ih ha

/-- **An invariant** holds all along an execution. -/
theorem invariant {I : σ → Prop} (hstep : ∀ s a, I s → Enabled s a → I (step s a)) (h0 : I s)
    (n : ℕ) : I (X.state n) :=
  stable hstep (Nat.zero_le n) h0

/-- The execution is fair to the agent that takes the actions in `own`. -/
def FairTo (X : Execution step Enabled s) (own : α → Prop) : Prop :=
  ∀ n, (∀ m ≥ n, ∃ a, own a ∧ Enabled (X.state m) a) → ∃ m ≥ n, ∃ a, X.act m = some a ∧ own a

/-- What stays until an action is taken stays forever, or still holds when it is taken. -/
theorem stays_or_acts {own : α → Prop} {P : ℕ → Prop} {n : ℕ} (h0 : P n)
    (hstay : ∀ m ≥ n, P m → (∀ a, X.act m = some a → ¬own a) → P (m + 1)) :
    (∀ m ≥ n, P m) ∨ ∃ m ≥ n, P m ∧ ∃ a, X.act m = some a ∧ own a := by
  by_contra hno
  push Not at hno
  obtain ⟨⟨m, hm, hnot⟩, hno⟩ := hno
  refine hnot ?_
  induction m, hm using Nat.le_induction with
  | base => exact h0
  | succ m hm ih =>
    by_cases hPm : P m
    · exact hstay m hm hPm fun a ha => hno m hm hPm a ha
    · exact absurd (ih hPm) hPm

/-- **An agent that stays able to act until it does so acts.** -/
theorem FairTo.acts {own : α → Prop} (hfair : X.FairTo own) {P : ℕ → Prop} {n : ℕ} (h0 : P n)
    (hstay : ∀ m ≥ n, P m → (∀ a, X.act m = some a → ¬own a) → P (m + 1))
    (hable : ∀ m ≥ n, P m → ∃ a, own a ∧ Enabled (X.state m) a) :
    ∃ m ≥ n, P m ∧ ∃ a, X.act m = some a ∧ own a := by
  rcases stays_or_acts h0 hstay with hP | hact
  · obtain ⟨m, hm, a, ha⟩ := hfair n fun m hm => hable m hm (hP m hm)
    exact ⟨m, hm, hP m hm, a, ha⟩
  · exact hact

/-- An execution that has ended where the agent cannot act was fair to it. -/
theorem fairTo_of_ended {own : α → Prop} {n : ℕ} (hend : ∀ m ≥ n, X.act m = none)
    (hunable : ∀ a, own a → ¬Enabled (X.state n) a) : X.FairTo own := by
  have hstate : ∀ m ≥ n, X.state m = X.state n := by
    intro m hm
    induction m, hm using Nat.le_induction with
    | base => rfl
    | succ m hm ih => rw [state_succ_none (hend m hm), ih]
  intro k hable
  obtain ⟨a, hown, ha⟩ := hable (max k n) (le_max_left ..)
  rw [hstate _ (le_max_right ..)] at ha
  exact absurd ha (hunable a hown)

/-- The actions of a run, one at each moment. -/
theorem stateAt_getElem? (step : σ → α → σ) (s : σ) (as : List α) (n : ℕ) :
    stateAt step s (fun n => as[n]?) n = run step s (as.take n) := by
  induction n with
  | zero => rfl
  | succ n ih =>
    rw [stateAt, ih, run, run, List.take_add_one, List.foldl_append]
    cases as[n]? <;> rfl

/-- A run, after which nothing happens. -/
def ofRun {as : List α} (h : Along step Enabled s as) : Execution step Enabled s where
  act n := as[n]?
  legal n a ha := by
    rw [stateAt_getElem?]
    exact h.at ha

/-- Its states are those of the run. -/
theorem state_ofRun {as : List α} (h : Along step Enabled s as) (n : ℕ) :
    (ofRun h).state n = run step s (as.take n) :=
  stateAt_getElem? ..

/-- A run that ends where the agent cannot act is fair to it. -/
theorem fairTo_ofRun {as : List α} (h : Along step Enabled s as) {own : α → Prop}
    (hunable : ∀ a, own a → ¬Enabled (run step s as) a) : (ofRun h).FairTo own := by
  refine fairTo_of_ended (n := as.length) (fun m hm => List.getElem?_eq_none hm) ?_
  rw [state_ofRun, List.take_length]
  exact hunable

end Execution

end Trace
end AarchGate
