/-
# Conditions along a run

A deterministic system takes a list of actions.  `Along C s as` says that every
action of the run from `s` is taken in a state that meets `C` together with the
action.  "Once so, then always" is an invariant that the steps under `C` keep
(`Along.invariant`), and what the invariant makes equal is equal all along
(`Along.congr`).  A property that a step keeps exactly under `C` holds at every point of the
run exactly if `C` holds along it (`Along.always_iff`).  `Reaches` is for the states that some
run under `C` leads to.
-/

import Mathlib.Data.List.Basic

namespace AarchGate
namespace Trace

variable {σ α : Type*} (step : σ → α → σ)

/-- The state after the actions. -/
def run (s : σ) (as : List α) : σ := as.foldl step s

/-- Every action of the run meets `C` in the state it is taken in. -/
def Along (C : σ → α → Prop) : σ → List α → Prop
  | _, [] => True
  | s, a :: as => C s a ∧ Along C (step s a) as

variable {step} {C D : σ → α → Prop} {I : σ → Prop}

/-- **An invariant of the steps under `C`** holds after a run under `C`. -/
theorem Along.invariant (hstep : ∀ s a, I s → C s a → I (step s a)) {as : List α} :
    ∀ {s : σ}, I s → Along step C s as → I (run step s as) := by
  induction as with
  | nil => exact fun hI _ => hI
  | cons a as ih => exact fun hI hs => ih (hstep _ a hI hs.1) hs.2

variable (step) in
/-- The state after a run that goes on. -/
theorem run_append (s : σ) (as bs : List α) :
    run step s (as ++ bs) = run step (run step s as) bs := List.foldl_append

/-- A run that goes on. -/
theorem Along.append {as bs : List α} : ∀ {s : σ}, Along step C s as →
    Along step C (run step s as) bs → Along step C s (as ++ bs) := by
  induction as with
  | nil => exact fun _ hbs => hbs
  | cons a as ih => exact fun has hbs => ⟨has.1, ih has.2 hbs⟩

/-- The state each action is taken in. -/
theorem Along.at {as : List α} {n : ℕ} {a : α} : ∀ {s : σ}, Along step C s as → as[n]? = some a →
    C (run step s (as.take n)) a := by
  induction as generalizing n with
  | nil => exact fun _ ha => by cases ha
  | cons b as ih =>
    intro s h ha
    cases n with
    | zero =>
      obtain rfl := Option.some.inj ha
      exact h.1
    | succ n => exact ih h.2 ha

/-- What is known of all actions is known along the run. -/
theorem Along.and_mem {N : α → Prop} {as : List α} :
    ∀ {s : σ}, Along step C s as → (∀ a ∈ as, N a) → Along step (fun s a => C s a ∧ N a) s as := by
  induction as with
  | nil => exact fun _ _ => trivial
  | cons a as ih =>
    intro s hs hN
    obtain ⟨ha, has⟩ := List.forall_mem_cons.1 hN
    exact ⟨⟨hs.1, ha⟩, ih hs.2 has⟩

/-- Under an invariant that the steps under `C` keep, two conditions that agree on the
invariant agree along the run.  `N` is what is known of the actions. -/
theorem Along.congr {N : α → Prop} (hstep : ∀ s a, I s → C s a → I (step s a))
    (hCD : ∀ s a, N a → I s → (D s a ↔ C s a)) {as : List α} :
    ∀ {s : σ}, I s → (∀ a ∈ as, N a) → (Along step D s as ↔ Along step C s as) := by
  induction as with
  | nil => exact fun _ _ => Iff.rfl
  | cons a as ih =>
    intro s hI hN
    obtain ⟨ha, has⟩ := List.forall_mem_cons.1 hN
    rw [Along, Along, hCD s a ha hI]
    exact and_congr_right fun hC => ih (hstep s a hI hC) has

/-- **What is so at every point**: a property that a step keeps exactly under `C`. -/
theorem Along.always_iff {N : α → Prop} (hstep : ∀ s a, N a → I s → (I (step s a) ↔ C s a))
    {as : List α} : ∀ {s : σ}, I s → (∀ a ∈ as, N a) →
      ((∀ n, I (run step s (as.take n))) ↔ Along step C s as) := by
  induction as with
  | nil =>
    intro s hI _
    exact ⟨fun _ => trivial, fun _ n => by rw [List.take_nil]; exact hI⟩
  | cons a as ih =>
    intro s hI hN
    obtain ⟨ha, has⟩ := List.forall_mem_cons.1 hN
    constructor
    · intro h
      have hfirst : I (step s a) := h 1
      exact ⟨(hstep s a ha hI).1 hfirst, (ih hfirst has).1 fun n => h (n + 1)⟩
    · rintro ⟨hC, hrest⟩ n
      cases n with
      | zero => exact hI
      | succ n => exact (ih ((hstep s a ha hI).2 hC) has).2 hrest n

variable (step C) in
/-- A run under `C` leads from the one state to the other. -/
def Reaches (s s' : σ) : Prop := ∃ as, Along step C s as ∧ run step s as = s'

/-- No action leads to where one is. -/
theorem Reaches.refl (s : σ) : Reaches step C s s := ⟨[], trivial, rfl⟩

/-- An action first. -/
theorem Reaches.head {s s' : σ} {a : α} (ha : C s a) (h : Reaches step C (step s a) s') :
    Reaches step C s s' := by
  obtain ⟨as, hC, hrun⟩ := h
  exact ⟨a :: as, ⟨ha, hC⟩, hrun⟩

/-- One run after the other. -/
theorem Reaches.trans {s s' s'' : σ} (h : Reaches step C s s') (h' : Reaches step C s' s'') :
    Reaches step C s s'' := by
  obtain ⟨as, hC, hrun⟩ := h
  induction as generalizing s with
  | nil =>
    obtain rfl : s = s' := hrun
    exact h'
  | cons a as ih => exact .head hC.1 (ih hC.2 hrun)

/-- An invariant holds of what is reached. -/
theorem Reaches.keeps (hstep : ∀ s a, I s → C s a → I (step s a)) {s s' : σ}
    (h : Reaches step C s s') (hI : I s) : I s' := by
  obtain ⟨as, hC, rfl⟩ := h
  exact hC.invariant hstep hI

end Trace
end AarchGate
