/-
# The thread pool

`ThreadPool` in `src/compute/parallel_runner.cpp`, and the calls of `ParallelRunner::run`
that share it.  Every section under the mutex is one action, and so is the work of a
task between two such sections: `worker_thread` writes nothing but the result slot of
its task.

A call enqueues its tasks one after the other and then waits until the queue is empty and
no worker is active, which also means waiting for the tasks of all other calls.  A
condition variable is waited for with a predicate, so an action that waits is one that
is not enabled before the predicate holds.

A task is in the queue, with one worker, or executed, and never two of these
(`Accounted`); the counter of active workers counts the workers that hold a task.  So
what a call finds when it returns from `wait_all` is complete (`Accounted.complete`).  In
an execution that is fair to the workers every task that is enqueued is executed
(`eventually_executed`).

`stop_` is not set: the pool is a static object of the process.
-/

import AarchGate.Trace.Fair
import Mathlib.Algebra.BigOperators.Group.Finset.Basic
import Mathlib.Algebra.Order.BigOperators.Group.Finset
import Mathlib.Data.Fintype.BigOperators

namespace AarchGate
namespace Compute
namespace ThreadPool

open Trace (Execution)

/-- Where a worker is in `worker_loop`: waiting for a task, with a task, or after its work. -/
inductive Worker (τ : Type) where
  | idle
  | running (x : τ)
  | done (x : τ)
  deriving DecidableEq

/-- The pool, and the calls that use it; task `(c, t)` is the one that call `c` enqueues as its
`t`-th. -/
structure Pool (W K ρ : Type) where
  -- `tasks_`, `active_workers_` and the workers
  tasks : List (K × ℕ)
  activeWorkers : ℕ
  worker : W → Worker (K × ℕ)
  -- the result slots of the calls, and how many tasks they have enqueued
  results : K × ℕ → ρ
  enqueued : K → ℕ
  returned : K → Bool
  -- the tasks whose work has been done, in this order
  executed : List (K × ℕ)

/-- The sections. -/
inductive Action (W K : Type) where
  | enqueue (c : K)
  | dequeue (w : W)
  | execute (w : W)
  | finish (w : W)
  | waitAll (c : K)

/-- Some worker takes a task. -/
def Action.Takes {W K : Type} : Action W K → Prop
  | .dequeue _ => True
  | _ => False

/-- The worker goes on with its task. -/
def Action.Works {W K : Type} (w : W) : Action W K → Prop
  | .execute w' => w' = w
  | .finish w' => w' = w
  | _ => False

variable {W K ρ : Type} [DecidableEq W] [DecidableEq K]

section Model

variable (count : K → ℕ) (result : K × ℕ → ρ)

/-- The pool before the first call; the slots hold `init`. -/
def start (init : ρ) : Pool W K ρ where
  tasks := []
  activeWorkers := 0
  worker _ := .idle
  results _ := init
  enqueued _ := 0
  returned _ := false
  executed := []

/-- When a thread gets through a section. -/
def Enabled (s : Pool W K ρ) : Action W K → Prop
  | .enqueue c => s.enqueued c < count c
  | .dequeue w => s.worker w = .idle ∧ s.tasks ≠ []
  | .execute w => ∃ x, s.worker w = .running x
  | .finish w => ∃ x, s.worker w = .done x
  | .waitAll c => 0 < count c ∧ s.enqueued c = count c ∧ s.returned c = false ∧ s.tasks = [] ∧
      s.activeWorkers = 0

/-- What a section does. -/
def step (s : Pool W K ρ) : Action W K → Pool W K ρ
  | .enqueue c =>
    { s with
      tasks := s.tasks ++ [(c, s.enqueued c)]
      enqueued := Function.update s.enqueued c (s.enqueued c + 1) }
  | .dequeue w =>
    match s.tasks with
    | [] => s
    | x :: rest =>
      { s with
        tasks := rest
        activeWorkers := s.activeWorkers + 1
        worker := Function.update s.worker w (.running x) }
  | .execute w =>
    match s.worker w with
    | .running x =>
      { s with
        worker := Function.update s.worker w (.done x)
        results := Function.update s.results x (result x)
        executed := s.executed ++ [x] }
    | _ => s
  | .finish w =>
    { s with
      activeWorkers := s.activeWorkers - 1
      worker := Function.update s.worker w .idle }
  | .waitAll c => { s with returned := Function.update s.returned c true }

end Model

/-! ### Every task is accounted for -/

/-- The task has been enqueued. -/
def Pool.Enqueued (s : Pool W K ρ) (x : K × ℕ) : Prop := x.2 < s.enqueued x.1

/-- The number of workers in states of a kind. -/
def Pool.workers [Fintype W] (s : Pool W K ρ) (p : Worker (K × ℕ) → Bool) : ℕ :=
  ∑ w, (p (s.worker w)).toNat

/-- How often a task is there: in the queue, with a worker that has not done its work, and
among those executed. -/
def Pool.copies [Fintype W] (s : Pool W K ρ) (x : K × ℕ) : ℕ :=
  s.tasks.count x + s.workers (· = .running x) + s.executed.count x

/-- **Where the tasks are.**  Every task that was enqueued is there once and no other task is;
the slots of those executed are filled, and the counter counts the workers with a task. -/
structure Accounted [Fintype W] (result : K × ℕ → ρ) (s : Pool W K ρ) : Prop where
  once : ∀ x, s.Enqueued x → s.copies x = 1
  none : ∀ x, ¬s.Enqueued x → s.copies x = 0
  results : ∀ x ∈ s.executed, s.results x = result x
  active : s.activeWorkers = s.workers (· ≠ .idle)

section Accounted

variable [Fintype W] {count : K → ℕ} {result : K × ℕ → ρ} {s : Pool W K ρ}

omit [DecidableEq K] in
/-- One worker changes its state. -/
theorem workers_update {w : W} {v : Worker (K × ℕ)} {t : Pool W K ρ}
    (ht : t.worker = Function.update s.worker w v) (p : Worker (K × ℕ) → Bool) :
    t.workers p + (p (s.worker w)).toNat = s.workers p + (p v).toNat := by
  have hrest : ∑ w' ∈ Finset.univ.erase w, (p (t.worker w')).toNat =
      ∑ w' ∈ Finset.univ.erase w, (p (s.worker w')).toNat := by
    refine Finset.sum_congr rfl fun w' hw' => ?_
    rw [ht, Function.update_of_ne (Finset.ne_of_mem_erase hw')]
  have hself : t.worker w = v := by rw [ht, Function.update_self]
  rw [Pool.workers, Pool.workers, ← Finset.add_sum_erase _ _ (Finset.mem_univ w),
    ← Finset.add_sum_erase _ (fun w' => (p (s.worker w')).toNat) (Finset.mem_univ w), hrest, hself]
  omega

omit [Fintype W] in
/-- The task that was queued. -/
theorem enqueued_enqueue {c : K} {x : K × ℕ} : (step result s (.enqueue c)).Enqueued x ↔
    s.Enqueued x ∨ x = (c, s.enqueued c) := by
  obtain ⟨c', t⟩ := x
  by_cases hc : c' = c
  · subst hc
    simp only [step, Pool.Enqueued, Function.update_self, Prod.mk.injEq, true_and]
    omega
  · simp [step, Pool.Enqueued, hc]

/-- There is one copy of it. -/
theorem copies_enqueue (c : K) (x : K × ℕ) : (step result s (.enqueue c)).copies x =
    s.copies x + if (c, s.enqueued c) = x then 1 else 0 := by
  have hworkers : (step result s (.enqueue c)).workers (· = .running x) =
      s.workers (· = .running x) := rfl
  rw [Pool.copies, Pool.copies, hworkers]
  simp only [step, List.count_append, List.count_singleton, beq_iff_eq]
  omega

/-- A task goes from the queue to a worker … -/
theorem copies_dequeue {w : W} (hidle : s.worker w = .idle) {y : K × ℕ} {rest : List (K × ℕ)}
    (hy : s.tasks = y :: rest) (x : K × ℕ) :
    (step result s (.dequeue w)).copies x = s.copies x := by
  have hupd := workers_update (s := s) (t := step result s (.dequeue w)) (w := w)
    (v := .running y) (by simp only [step, hy]) (· = .running x)
  have hcount : s.tasks.count x = rest.count x + if y = x then 1 else 0 := by
    rw [hy, List.count_cons]
    simp only [beq_iff_eq]
  rw [Pool.copies, Pool.copies, hcount]
  simp only [step, hy, hidle, reduceCtorEq, decide_false, Bool.toNat_false, Nat.add_zero,
    Worker.running.injEq] at hupd ⊢
  rw [hupd]
  by_cases hxy : y = x
  · simp only [hxy, decide_true, Bool.toNat_true, if_true]
    omega
  · simp only [hxy, decide_false, Bool.toNat_false, if_false]
    omega

/-- … and from a worker to those executed. -/
theorem copies_execute {w : W} {y : K × ℕ} (hy : s.worker w = .running y) (x : K × ℕ) :
    (step result s (.execute w)).copies x = s.copies x := by
  have hupd := workers_update (s := s) (t := step result s (.execute w)) (w := w)
    (v := .done y) (by simp only [step, hy]) (· = .running x)
  rw [Pool.copies, Pool.copies]
  simp only [step, hy, reduceCtorEq, decide_false, Bool.toNat_false, Nat.add_zero,
    Worker.running.injEq, List.count_append, List.count_singleton, beq_iff_eq] at hupd ⊢
  rw [← hupd]
  by_cases hxy : y = x
  · simp only [hxy, decide_true, Bool.toNat_true, if_true]
    omega
  · simp only [hxy, decide_false, Bool.toNat_false, if_false]
    omega

/-- Counting keeps the copies. -/
theorem copies_finish {w : W} {y : K × ℕ} (hy : s.worker w = .done y) (x : K × ℕ) :
    (step result s (.finish w)).copies x = s.copies x := by
  have hupd := workers_update (s := s) (t := step result s (.finish w)) (v := .idle) rfl
    (· = .running x)
  rw [Pool.copies, Pool.copies]
  simp only [step, hy, reduceCtorEq, decide_false, Bool.toNat_false, Nat.add_zero] at hupd ⊢
  rw [hupd]

omit [DecidableEq W] in
/-- Before any call. -/
theorem accounted_start (init : ρ) : Accounted result (start init : Pool W K ρ) where
  once x h := absurd h (Nat.not_lt_zero _)
  none x _ := by simp [start, Pool.copies, Pool.workers]
  results x h := by cases h
  active := by simp [start, Pool.workers]

omit [DecidableEq W] in
/-- A worker goes on: no task appears or is lost. -/
theorem Accounted.moved (h : Accounted result s) {t : Pool W K ρ}
    (henqueued : t.enqueued = s.enqueued) (hcopies : ∀ x, t.copies x = s.copies x)
    (hresults : ∀ x ∈ t.executed, t.results x = result x)
    (hactive : t.activeWorkers = t.workers (· ≠ .idle)) : Accounted result t where
  once x hx := by
    rw [Pool.Enqueued, henqueued] at hx
    rw [hcopies, h.once x hx]
  none x hx := by
    rw [Pool.Enqueued, henqueued] at hx
    rw [hcopies, h.none x hx]
  results := hresults
  active := hactive

/-- A task is queued. -/
theorem Accounted.enqueue (h : Accounted result s) (c : K) :
    Accounted result (step result s (.enqueue c)) where
  once x hx := by
    rw [copies_enqueue]
    rcases enqueued_enqueue.1 hx with hx | rfl
    · rw [h.once x hx, if_neg]
      rintro rfl
      exact absurd hx (Nat.lt_irrefl _)
    · rw [h.none _ (Nat.lt_irrefl _), if_pos rfl]
  none x hx := by
    rw [enqueued_enqueue, not_or] at hx
    rw [copies_enqueue, h.none x hx.1, if_neg (Ne.symm hx.2)]
  results := h.results
  active := h.active

/-- And taken. -/
theorem Accounted.dequeue (h : Accounted result s) {w : W} (hidle : s.worker w = .idle)
    {y : K × ℕ} {rest : List (K × ℕ)} (hy : s.tasks = y :: rest) :
    Accounted result (step result s (.dequeue w)) := by
  have hupd := workers_update (s := s) (t := step result s (.dequeue w)) (w := w)
    (v := .running y) (by simp only [step, hy]) (· ≠ .idle)
  refine h.moved ?_ (copies_dequeue hidle hy) ?_ ?_
  · simp only [step, hy]
  · simpa only [step, hy] using h.results
  · have hactive := h.active
    simp [step, hy, hidle] at hupd hactive ⊢
    omega

/-- And run. -/
theorem Accounted.execute (h : Accounted result s) {w : W} {y : K × ℕ}
    (hy : s.worker w = .running y) : Accounted result (step result s (.execute w)) := by
  have hupd := workers_update (s := s) (t := step result s (.execute w)) (w := w)
    (v := .done y) (by simp only [step, hy]) (· ≠ .idle)
  refine h.moved ?_ (copies_execute hy) ?_ ?_
  · simp only [step, hy]
  · simp only [step, hy, List.mem_append, List.mem_singleton]
    intro x hx
    by_cases hxy : x = y
    · rw [hxy, Function.update_self]
    · rw [Function.update_of_ne hxy]
      exact h.results x (hx.resolve_right hxy)
  · have hactive := h.active
    simp [step, hy] at hupd hactive ⊢
    omega

/-- And counted. -/
theorem Accounted.finish (h : Accounted result s) {w : W} {y : K × ℕ}
    (hy : s.worker w = .done y) : Accounted result (step result s (.finish w)) := by
  have hupd := workers_update (s := s) (t := step result s (.finish w)) (v := .idle) rfl
    (· ≠ .idle)
  refine h.moved rfl (copies_finish hy) h.results ?_
  have hactive := h.active
  simp [step, hy] at hupd hactive ⊢
  omega

/-- **One section** keeps the account. -/
theorem Accounted.step (h : Accounted result s) {a : Action W K} (ha : Enabled count s a) :
    Accounted result (step result s a) := by
  cases a with
  | enqueue c => exact h.enqueue c
  | dequeue w =>
    obtain ⟨y, rest, hy⟩ := List.exists_cons_of_ne_nil ha.2
    exact h.dequeue ha.1 hy
  | execute w =>
    obtain ⟨y, hy⟩ := ha
    exact h.execute hy
  | finish w =>
    obtain ⟨y, hy⟩ := ha
    exact h.finish hy
  | waitAll c => exact ⟨h.once, h.none, h.results, h.active⟩

omit [DecidableEq W] in
/-- No task runs twice. -/
theorem Accounted.nodup (h : Accounted result s) : s.executed.Nodup := by
  rw [List.nodup_iff_count_le_one]
  intro x
  by_cases hx : s.Enqueued x
  · have := h.once x hx
    rw [Pool.copies] at this
    omega
  · have := h.none x hx
    rw [Pool.copies] at this
    omega

omit [DecidableEq W] in
/-- A task that was enqueued is in the queue, with a worker, or executed. -/
theorem Accounted.cases (h : Accounted result s) {x : K × ℕ} (hx : s.Enqueued x) :
    x ∈ s.tasks ∨ (∃ w, s.worker w = .running x) ∨ x ∈ s.executed := by
  by_contra hno
  push Not at hno
  obtain ⟨htasks, hworker, hexecuted⟩ := hno
  have hzero : s.workers (· = .running x) = 0 :=
    Finset.sum_eq_zero fun w _ => by simp [hworker w]
  have := h.once x hx
  rw [Pool.copies, List.count_eq_zero.2 htasks, hzero, List.count_eq_zero.2 hexecuted] at this
  exact absurd this (by decide)

omit [DecidableEq W] in
/-- **What `wait_all` waits for**: with an empty queue and no active worker every task that
was enqueued has been executed. -/
theorem Accounted.complete (h : Accounted result s) (htasks : s.tasks = [])
    (hactive : s.activeWorkers = 0) {x : K × ℕ} (hx : s.Enqueued x) :
    x ∈ s.executed ∧ s.results x = result x := by
  have hidle : ∀ w, s.worker w = .idle := by
    intro w
    by_contra hw
    rw [h.active, Pool.workers, Finset.sum_eq_zero_iff] at hactive
    have := hactive w (Finset.mem_univ w)
    rw [decide_eq_true hw] at this
    exact absurd this (by decide)
  have hmem : x ∈ s.executed := by
    rcases h.cases hx with hq | ⟨w, hw⟩ | hdone
    · rw [htasks] at hq
      exact absurd hq List.not_mem_nil
    · rw [hidle w] at hw
      cases hw
    · exact hdone
  exact ⟨hmem, h.results x hmem⟩

end Accounted

/-! ### Every task is executed -/

section Step

variable {count : K → ℕ} {result : K × ℕ → ρ} {s : Pool W K ρ} {a : Action W K}

/-- A worker with a task is moved by its own actions only. -/
theorem worker_step {w : W} (ha : Enabled count s a) (hw : s.worker w ≠ .idle)
    (hnot : ¬a.Works w) : (step result s a).worker w = s.worker w := by
  cases a with
  | enqueue c => rfl
  | dequeue w' =>
    obtain ⟨y, rest, hy⟩ := List.exists_cons_of_ne_nil ha.2
    have hne : w ≠ w' := by
      rintro rfl
      exact hw ha.1
    simp only [step, hy, Function.update_of_ne hne]
  | execute w' =>
    obtain ⟨y, hy⟩ := ha
    simp only [step, hy, Function.update_of_ne (Ne.symm hnot)]
  | finish w' => simp only [step, Function.update_of_ne (Ne.symm hnot)]
  | waitAll c => rfl

/-- A worker without a task waits until tasks are taken. -/
theorem idle_step {w : W} (ha : Enabled count s a) (hw : s.worker w = .idle) (hnot : ¬a.Takes) :
    (step result s a).worker w = .idle := by
  cases a with
  | enqueue c => exact hw
  | dequeue w' => exact absurd trivial hnot
  | execute w' =>
    obtain ⟨y, hy⟩ := ha
    have hne : w ≠ w' := by
      rintro rfl
      rw [hw] at hy
      cases hy
    simp only [step, hy, Function.update_of_ne hne, hw]
  | finish w' =>
    by_cases hww : w = w'
    · simp only [step, hww, Function.update_self]
    · simp only [step, Function.update_of_ne hww, hw]
  | waitAll c => exact hw

/-- Only a worker that takes a task moves the queue. -/
theorem tasks_step (hnot : ¬a.Takes) : s.tasks <+: (step result s a).tasks := by
  cases a with
  | enqueue c => exact List.prefix_append ..
  | dequeue w => exact absurd trivial hnot
  | execute w =>
    simp only [step]
    split <;> exact List.prefix_rfl
  | finish w => exact List.prefix_rfl
  | waitAll c => exact List.prefix_rfl

/-- What ran has run. -/
theorem executed_step (result : K × ℕ → ρ) (s : Pool W K ρ) (a : Action W K) :
    s.executed <+: (step result s a).executed := by
  cases a with
  | enqueue c => exact List.prefix_rfl
  | dequeue w =>
    simp only [step]
    split <;> exact List.prefix_rfl
  | execute w =>
    simp only [step]
    split
    · exact List.prefix_append ..
    · exact List.prefix_rfl
  | finish w => exact List.prefix_rfl
  | waitAll c => exact List.prefix_rfl

end Step

section Fair

variable {count : K → ℕ} {result : K × ℕ → ρ} {s : Pool W K ρ}
  {X : Execution (step result) (Enabled count) s}

/-- What holds of a worker with a task holds until it goes on. -/
theorem worker_stays {n : ℕ} {w : W} {v : Worker (K × ℕ)} (hv : v ≠ .idle)
    (hw : (X.state n).worker w = v) (hnot : ∀ a, X.act n = some a → ¬a.Works w) :
    (X.state (n + 1)).worker w = v := by
  refine Execution.next (I := fun s : Pool W K ρ => s.worker w = v) hw fun a ha hen => ?_
  rw [worker_step hen (by rwa [hw]) (hnot a ha), hw]

/-- A worker with a task does its work. -/
theorem executes {w : W} (hworks : X.FairTo (Action.Works w)) {n : ℕ} {x : K × ℕ}
    (hw : (X.state n).worker w = .running x) :
    ∃ m ≥ n, x ∈ (X.state m).executed ∧ (X.state m).worker w = .done x := by
  obtain ⟨m, hm, hrun, a, ha, hown⟩ := hworks.acts (P := fun m => (X.state m).worker w = .running x)
    hw (fun m _ => worker_stays (by simp)) fun m _ hrun => ⟨.execute w, rfl, x, hrun⟩
  refine ⟨m + 1, by omega, ?_⟩
  rw [Execution.state_succ_some ha]
  have hen := Execution.enabled ha
  cases a with
  | execute w' =>
    cases hown
    simp [step, hrun]
  | finish w' =>
    cases hown
    obtain ⟨y, hy⟩ := hen
    rw [hrun] at hy
    cases hy
  | _ => cases hown

/-- A worker that has done its work returns to the queue. -/
theorem finishes {w : W} (hworks : X.FairTo (Action.Works w)) {n : ℕ} {x : K × ℕ}
    (hw : (X.state n).worker w = .done x) : ∃ m ≥ n, (X.state m).worker w = .idle := by
  obtain ⟨m, hm, hdone, a, ha, hown⟩ := hworks.acts (P := fun m => (X.state m).worker w = .done x)
    hw (fun m _ => worker_stays (by simp)) fun m _ hdone => ⟨.finish w, rfl, x, hdone⟩
  refine ⟨m + 1, by omega, ?_⟩
  rw [Execution.state_succ_some ha]
  have hen := Execution.enabled ha
  cases a with
  | execute w' =>
    cases hown
    obtain ⟨y, hy⟩ := hen
    rw [hdone] at hy
    cases hy
  | finish w' =>
    cases hown
    simp [step]
  | _ => cases hown

/-- A worker gets idle. -/
theorem exists_idle {w : W} (hworks : X.FairTo (Action.Works w)) (n : ℕ) :
    ∃ m ≥ n, (X.state m).worker w = .idle := by
  cases hw : (X.state n).worker w with
  | idle => exact ⟨n, le_rfl, hw⟩
  | running x =>
    obtain ⟨m, hm, -, hdone⟩ := executes hworks hw
    obtain ⟨k, hk, hidle⟩ := finishes hworks hdone
    exact ⟨k, by omega, hidle⟩
  | done x => exact finishes hworks hw

/-- A prefix of the queue stays until a worker takes a task. -/
theorem prefix_stays {n : ℕ} {q : List (K × ℕ)} (hq : q <+: (X.state n).tasks)
    (hnot : ∀ a, X.act n = some a → ¬a.Takes) : q <+: (X.state (n + 1)).tasks :=
  Execution.next (I := fun s : Pool W K ρ => q <+: s.tasks) hq fun a ha _ => hq.trans (tasks_step (hnot a ha))

/-- Until it takes a task. -/
theorem idle_stays {n : ℕ} {w : W} (hw : (X.state n).worker w = .idle)
    (hnot : ∀ a, X.act n = some a → ¬a.Takes) : (X.state (n + 1)).worker w = .idle :=
  Execution.next (I := fun s : Pool W K ρ => s.worker w = .idle) hw fun a ha hen => idle_step hen hw (hnot a ha)

variable (htakes : X.FairTo Action.Takes) (hworks : ∀ w, X.FairTo (Action.Works w))
include htakes hworks

/-- **The head of the queue is taken**, with the queue still as it was. -/
theorem takes [Nonempty W] {n : ℕ} {y : K × ℕ} {q : List (K × ℕ)}
    (hq : y :: q <+: (X.state n).tasks) :
    ∃ m ≥ n, ∃ w, X.act m = some (.dequeue w) ∧ y :: q <+: (X.state m).tasks := by
  obtain ⟨w⟩ := ‹Nonempty W›
  obtain ⟨k, hk, hidle⟩ := exists_idle (hworks w) n
  have hact : ∃ m ≥ n, (y :: q <+: (X.state m).tasks) ∧ ∃ a, X.act m = some a ∧ a.Takes := by
    rcases Execution.stays_or_acts (P := fun m => y :: q <+: (X.state m).tasks) hq
      fun m _ => prefix_stays with hstays | hact
    · -- some worker becomes idle, and stays so unless a task is taken
      obtain ⟨m, hm, -, hact⟩ := htakes.acts (P := fun m => (X.state m).worker w = .idle) hidle
        (fun m _ => idle_stays) fun m hm hw =>
          ⟨.dequeue w, trivial, hw, (hstays m (by omega)).ne_nil (List.cons_ne_nil _ _)⟩
      exact ⟨m, by omega, hstays m (by omega), hact⟩
    · exact hact
  obtain ⟨m, hm, hqm, a, ha, htake⟩ := hact
  cases a with
  | dequeue w' => exact ⟨m, hm, w', ha, hqm⟩
  | _ => cases htake

/-- A task in the queue is executed, by induction on the tasks before it. -/
theorem queued_executed [Nonempty W] {x : K × ℕ} (before : List (K × ℕ)) :
    ∀ n, before ++ [x] <+: (X.state n).tasks → ∃ m ≥ n, x ∈ (X.state m).executed := by
  induction before with
  | nil =>
    intro n hq
    obtain ⟨m, hm, w, ha, rest, hrest⟩ := takes htakes hworks hq
    have hw : (X.state (m + 1)).worker w = .running x := by
      rw [Execution.state_succ_some ha]
      simp [step, ← hrest]
    obtain ⟨k, hk, hmem, -⟩ := executes (hworks w) hw
    exact ⟨k, by omega, hmem⟩
  | cons y before ih =>
    intro n hq
    obtain ⟨m, hm, w, ha, rest, hrest⟩ := takes htakes hworks hq
    have htasks : before ++ [x] <+: (X.state (m + 1)).tasks := by
      rw [Execution.state_succ_some ha]
      refine ⟨rest, ?_⟩
      simp [step, ← hrest]
    obtain ⟨k, hk, hmem⟩ := ih (m + 1) htasks
    exact ⟨k, by omega, hmem⟩

/-- **Every task that is enqueued is executed.** -/
theorem eventually_executed [Fintype W] [Nonempty W] {n : ℕ}
    (hacc : Accounted result (X.state n)) {x : K × ℕ} (hx : (X.state n).Enqueued x) :
    ∃ m ≥ n, x ∈ (X.state m).executed := by
  rcases hacc.cases hx with hqueued | ⟨w, hw⟩ | hdone
  · obtain ⟨before, after, hsplit⟩ := List.append_of_mem hqueued
    refine queued_executed htakes hworks before n ⟨after, ?_⟩
    rw [hsplit, List.append_assoc]
    rfl
  · obtain ⟨m, hm, hmem, -⟩ := executes (hworks w) hw
    exact ⟨m, hm, hmem⟩
  · exact ⟨n, le_rfl, hdone⟩

end Fair

end ThreadPool
end Compute
end AarchGate
