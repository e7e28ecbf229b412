/-
# The condition variables of the thread pool

`Compute.ThreadPool` lets a thread through a section when the predicate it waits for holds.
The code (`src/compute/parallel_runner.cpp`) waits on two condition variables instead: a
worker that finds the queue empty goes to sleep in the wait set of `cv_`, a caller that finds
work in progress in that of `wait_cv_`, and both stay there until they are notified or wake up
by themselves.  `enqueue` notifies one worker after it has released the mutex, the worker that
finishes the last task notifies all callers under it, and the destructor sets `stop_`, notifies
all workers and joins them.

`Waiting` is the pool with its sleepers.  It refines the pool (`refinement`), so what holds of
the pool in every interleaving holds here.  No wakeup is lost (`Sound`): as long as there is a
task, a worker is awake or a notification is under way, and a caller sleeps only while there is
work.  So an execution that is fair to every thread is fair to the pool: every task is
executed, every call returns, and so does the destructor, with the queue drained.

The pool is not used any more once its destructor runs; a task may still be in the queue then.
-/

import AarchGate.Compute.ThreadPool
import AarchGate.Trace.Refine
import Mathlib.Order.Filter.AtTopBot.Basic
import Mathlib.Order.Filter.Finite
import Mathlib.Order.Lattice.Nat

namespace AarchGate
namespace Compute
namespace ThreadPool

open Trace (Execution Refinement)
open Filter (atTop)

/-- Where the destructor is: `stop_` is set, the workers are notified, and it has joined
them. -/
inductive Destructor where
  | notCalled
  | stopped
  | joining
  | returned
  deriving DecidableEq

/-- The pool with the threads that sleep. -/
structure Waiting (W K ρ : Type) where
  pool : Pool W K ρ
  -- `stop_`
  stop : Bool
  -- the wait set of `cv_`, and the workers that have left `worker_loop`
  asleep : W → Bool
  exited : W → Bool
  -- the calls of `enqueue` before their `cv_.notify_one()`, and the wait set of `wait_cv_`
  notifying : K → Bool
  blocked : K → Bool
  destructor : Destructor

namespace Waiting

/-- The sections, the notifications outside of them and the wakeups without one. -/
inductive Action (W K : Type) where
  | enqueue (c : K)
  | notifyOne (c : K) (w : Option W)
  | lock (w : W)
  | wake (w : W)
  | execute (w : W)
  | finish (w : W)
  | waitAll (c : K)
  | wakeCall (c : K)
  | setStop
  | notifyAll
  | join

/-- The actions of a worker that is awake. -/
def Action.Of {W K : Type} (w : W) : Action W K → Prop
  | .lock w' => w' = w
  | .execute w' => w' = w
  | .finish w' => w' = w
  | _ => False

/-- The notification after an `enqueue` of a call. -/
def Action.Notifies {W K : Type} (c : K) : Action W K → Prop
  | .notifyOne c' _ => c' = c
  | _ => False

/-- A call looks at the predicate of `wait_all`. -/
def Action.Waits {W K : Type} (c : K) : Action W K → Prop
  | .waitAll c' => c' = c
  | _ => False

/-- The destructor goes on. -/
def Action.Destroys {W K : Type} : Action W K → Prop
  | .notifyAll => True
  | .join => True
  | _ => False

variable {W K ρ : Type} [DecidableEq W] [DecidableEq K]

section Model

variable (count : K → ℕ) (result : K × ℕ → ρ)

/-- The pool when its workers have been started; they look at the queue first. -/
def start (init : ρ) : Waiting W K ρ where
  pool := ThreadPool.start init
  stop := false
  asleep _ := false
  exited _ := false
  notifying _ := false
  blocked _ := false
  destructor := .notCalled

/-- When a thread can act.  A notification wakes a worker if one is asleep. -/
def Enabled (s : Waiting W K ρ) : Action W K → Prop
  | .enqueue c => s.stop = false ∧ s.notifying c = false ∧ s.pool.enqueued c < count c
  | .notifyOne c none => s.notifying c = true ∧ ∀ w, s.asleep w = false
  | .notifyOne c (some w) => s.notifying c = true ∧ s.asleep w = true
  | .lock w => s.pool.worker w = .idle ∧ s.asleep w = false ∧ s.exited w = false
  | .wake w => s.asleep w = true
  | .execute w => ∃ x, s.pool.worker w = .running x
  | .finish w => ∃ x, s.pool.worker w = .done x
  | .waitAll c => 0 < count c ∧ s.pool.enqueued c = count c ∧ s.notifying c = false ∧
      s.pool.returned c = false ∧ s.blocked c = false
  | .wakeCall c => s.blocked c = true
  | .setStop => s.destructor = .notCalled
  | .notifyAll => s.destructor = .stopped
  | .join => s.destructor = .joining ∧ ∀ w, s.exited w = true

/-- What `wait_all` waits for. -/
def Quiet (s : Pool W K ρ) : Prop := s.tasks = [] ∧ s.activeWorkers = 0

instance (s : Pool W K ρ) : Decidable (Quiet s) := inferInstanceAs (Decidable (_ ∧ _))

/-- What a thread does. -/
def step (s : Waiting W K ρ) : Action W K → Waiting W K ρ
  | .enqueue c =>
    { s with
      pool := ThreadPool.step result s.pool (.enqueue c)
      notifying := Function.update s.notifying c true }
  | .notifyOne c none => { s with notifying := Function.update s.notifying c false }
  | .notifyOne c (some w) =>
    { s with
      notifying := Function.update s.notifying c false
      asleep := Function.update s.asleep w false }
  | .lock w =>
    -- the predicate of `cv_.wait` is evaluated with the mutex held
    if s.pool.tasks ≠ [] then { s with pool := ThreadPool.step result s.pool (.dequeue w) }
    else if s.stop then { s with exited := Function.update s.exited w true }
    else { s with asleep := Function.update s.asleep w true }
  | .wake w => { s with asleep := Function.update s.asleep w false }
  | .execute w => { s with pool := ThreadPool.step result s.pool (.execute w) }
  | .finish w =>
    let pool := ThreadPool.step result s.pool (.finish w)
    { s with pool := pool, blocked := if Quiet pool then fun _ => false else s.blocked }
  | .waitAll c =>
    if Quiet s.pool then { s with pool := ThreadPool.step result s.pool (.waitAll c) }
    else { s with blocked := Function.update s.blocked c true }
  | .wakeCall c => { s with blocked := Function.update s.blocked c false }
  | .setStop => { s with stop := true, destructor := .stopped }
  | .notifyAll => { s with asleep := fun _ => false, destructor := .joining }
  | .join => { s with destructor := .returned }

/-- The section of the pool that an action is. -/
def sectionOf (s : Waiting W K ρ) : Action W K → Option (ThreadPool.Action W K)
  | .enqueue c => some (.enqueue c)
  | .lock w => if s.pool.tasks ≠ [] then some (.dequeue w) else none
  | .execute w => some (.execute w)
  | .finish w => some (.finish w)
  | .waitAll c => if Quiet s.pool then some (.waitAll c) else none
  | _ => none

end Model

/-! ### The pool above -/

section Refinement

variable (count : K → ℕ) (result : K × ℕ → ρ)

/-- What the pool sees of a step. -/
theorem pool_step (s : Waiting W K ρ) (a : Action W K) : (step result s a).pool =
    match sectionOf s a with
    | some b => ThreadPool.step result s.pool b
    | none => s.pool := by
  cases a with
  | notifyOne c w => cases w <;> rfl
  | lock w =>
    simp only [step, sectionOf]
    split_ifs <;> rfl
  | waitAll c =>
    simp only [step, sectionOf]
    split_ifs <;> rfl
  | _ => rfl

omit [DecidableEq W] [DecidableEq K] in
/-- It may take its section. -/
theorem sectionOf_enabled {s : Waiting W K ρ} {a : Action W K} (ha : Enabled count s a)
    {b : ThreadPool.Action W K} (hb : sectionOf s a = some b) :
    ThreadPool.Enabled count s.pool b := by
  cases a with
  | enqueue c =>
    cases hb
    exact ha.2.2
  | lock w =>
    rw [sectionOf] at hb
    split_ifs at hb with htasks
    cases hb
    exact ⟨ha.1, htasks⟩
  | execute w =>
    cases hb
    exact ha
  | finish w =>
    cases hb
    exact ha
  | waitAll c =>
    rw [sectionOf] at hb
    split_ifs at hb with hquiet
    cases hb
    exact ⟨ha.1, ha.2.1, ha.2.2.2.1, hquiet.1, hquiet.2⟩
  | _ => cases hb

/-- **The pool with its sleepers refines the pool.** -/
def refinement : Refinement (step (W := W) result) (Enabled count) (ThreadPool.step (W := W) result)
    (ThreadPool.Enabled count) where
  state := Waiting.pool
  act := sectionOf
  enabled ha hb := sectionOf_enabled count ha hb
  step_some {s a} _ _ hb := by rw [pool_step result s a, hb]
  step_none {s a} _ hb := by rw [pool_step result s a, hb]

end Refinement

/-! ### No wakeup is lost -/

/-- **Who sleeps.**  A worker sleeps between two tasks; while there is a task, one is awake or
a notification is under way.  A worker leaves only when the queue is empty for good.  A call
sleeps only while there is work. -/
structure Sound (s : Waiting W K ρ) : Prop where
  asleep : ∀ w, s.asleep w = true → s.pool.worker w = .idle ∧ s.exited w = false
  exited : ∀ w, s.exited w = true → s.pool.worker w = .idle ∧ s.stop = true ∧ s.pool.tasks = []
  signal : s.pool.tasks ≠ [] → (∃ w, s.asleep w = false) ∨ ∃ c, s.notifying c = true
  blocked : ∀ c, s.blocked c = true → ¬Quiet s.pool
  stop_iff : s.stop = true ↔ s.destructor ≠ .notCalled
  joining : s.destructor = .joining ∨ s.destructor = .returned → ∀ w, s.asleep w = false
  returned : s.destructor = .returned → ∀ w, s.exited w = true

omit [DecidableEq W] [DecidableEq K] in
/-- Before any call. -/
theorem sound_start (init : ρ) : Sound (start init : Waiting W K ρ) := by
  constructor <;> simp [start, ThreadPool.start]

section Sound

variable {count : K → ℕ} {result : K × ℕ → ρ} {s : Waiting W K ρ}

/-- A task is queued. -/
theorem Sound.enqueue (h : Sound s) {c : K} (ha : Enabled count s (.enqueue c)) :
    Sound (step result s (.enqueue c)) where
  asleep := h.asleep
  exited w hw := by
    have := (h.exited w hw).2.1
    rw [ha.1] at this
    cases this
  signal _ := Or.inr ⟨c, Function.update_self ..⟩
  blocked _ _ hquiet := by simp [step, ThreadPool.step, Quiet] at hquiet
  stop_iff := h.stop_iff
  joining := h.joining
  returned := h.returned

omit [DecidableEq W] [DecidableEq K] in
/-- Workers are woken up. -/
theorem Sound.woken (h : Sound s) {t : Waiting W K ρ} (hpool : t.pool = s.pool)
    (hstop : t.stop = s.stop) (hexited : t.exited = s.exited) (hblocked : t.blocked = s.blocked)
    (hdestructor : t.destructor = s.destructor)
    (hasleep : ∀ w, t.asleep w = true → s.asleep w = true)
    (hsignal : (∃ w, t.asleep w = false) ∨ ∃ c, t.notifying c = true) : Sound t where
  asleep w hw := by
    rw [hpool, hexited]
    exact h.asleep w (hasleep w hw)
  exited := by
    rw [hpool, hexited, hstop]
    exact h.exited
  signal _ := hsignal
  blocked := by
    rw [hpool, hblocked]
    exact h.blocked
  stop_iff := by
    rw [hstop, hdestructor]
    exact h.stop_iff
  joining hd w := by
    rw [hdestructor] at hd
    have := h.joining hd w
    rw [Bool.eq_false_iff] at this ⊢
    exact fun hw => this (hasleep w hw)
  returned := by
    rw [hdestructor, hexited]
    exact h.returned

omit [DecidableEq K] in
/-- One worker woke up. -/
theorem asleep_of_update {w w' : W} (h : Function.update s.asleep w false w' = true) :
    s.asleep w' = true := by
  by_cases hww : w' = w
  · rw [hww, Function.update_self] at h
    cases h
  · rwa [Function.update_of_ne hww] at h

/-- A worker is notified. -/
theorem Sound.notifyOne [Nonempty W] (h : Sound s) {c : K} {w : Option W}
    (ha : Enabled count s (.notifyOne c w)) : Sound (step result s (.notifyOne c w)) := by
  cases w with
  | none =>
    obtain ⟨w⟩ := ‹Nonempty W›
    exact h.woken rfl rfl rfl rfl rfl (fun _ => id) (Or.inl ⟨w, ha.2 w⟩)
  | some w =>
    exact h.woken rfl rfl rfl rfl rfl (fun _ => asleep_of_update)
      (Or.inl ⟨w, Function.update_self ..⟩)

/-- A worker looks at the queue. -/
theorem Sound.lock (h : Sound s) {w : W} (ha : Enabled count s (.lock w)) :
    Sound (step result s (.lock w)) := by
  obtain ⟨hidle, hawake, hin⟩ := ha
  rw [step]
  split_ifs with htasks hstop
  · -- it takes a task: no one has left yet, and it is awake itself
    obtain ⟨y, rest, hy⟩ := List.exists_cons_of_ne_nil htasks
    have hexited : ∀ w', s.exited w' ≠ true := fun w' hw' => htasks (h.exited w' hw').2.2
    have hworker : ∀ w', s.asleep w' = true → w' ≠ w := by
      rintro w' hw' rfl
      rw [hawake] at hw'
      cases hw'
    exact
      { asleep := fun w' hw' => by
          simpa [ThreadPool.step, hy, hworker w' hw'] using h.asleep w' hw'
        exited := fun w' hw' => absurd hw' (hexited w')
        signal := fun _ => Or.inl ⟨w, hawake⟩
        blocked := fun c _ hquiet => by simp [ThreadPool.step, hy, Quiet] at hquiet
        stop_iff := h.stop_iff
        joining := h.joining
        returned := h.returned }
  · -- it leaves
    have hother : ∀ w', Function.update s.exited w true w' = true → w' = w ∨ s.exited w' = true := by
      intro w' hw'
      by_cases hww : w' = w
      · exact Or.inl hww
      · exact Or.inr (by rwa [Function.update_of_ne hww] at hw')
    refine { h with asleep := ?_, exited := ?_, returned := ?_ }
    · intro w' hw'
      have hne : w' ≠ w := by
        rintro rfl
        rw [hawake] at hw'
        cases hw'
      simpa [hne] using h.asleep w' hw'
    · intro w' hw'
      rcases hother w' hw' with rfl | hw'
      · exact ⟨hidle, hstop, not_not.1 htasks⟩
      · exact h.exited w' hw'
    · intro hd w'
      by_cases hww : w' = w
      · rw [hww]
        exact Function.update_self ..
      · exact (Function.update_of_ne hww ..).trans (h.returned hd w')
  · -- it goes to sleep: there is nothing to do, and the destructor has not been called
    have hcalled : s.destructor = .notCalled := by
      by_contra hd
      exact hstop (h.stop_iff.2 hd)
    refine { h with asleep := ?_, signal := fun hne => absurd hne htasks, joining := ?_ }
    · intro w' hw'
      by_cases hww : w' = w
      · rw [hww]
        exact ⟨hidle, hin⟩
      · exact h.asleep w' ((Function.update_of_ne hww ..).symm.trans hw')
    · intro hd
      simp [hcalled] at hd

/-- A task runs. -/
theorem Sound.execute (h : Sound s) {w : W} (ha : Enabled count s (.execute w)) :
    Sound (step result s (.execute w)) := by
  obtain ⟨x, hx⟩ := ha
  have hne : ∀ w', s.pool.worker w' = .idle → w' ≠ w := by
    rintro w' hw' rfl
    rw [hw'] at hx
    cases hx
  have hidle : ∀ w', s.pool.worker w' = .idle →
      (step result s (.execute w)).pool.worker w' = .idle := fun w' hw' => by
    simp [step, ThreadPool.step, hx, hne w' hw', hw']
  have htasks : (step result s (.execute w)).pool.tasks = s.pool.tasks := by
    simp [step, ThreadPool.step, hx]
  have hactive : (step result s (.execute w)).pool.activeWorkers = s.pool.activeWorkers := by
    simp [step, ThreadPool.step, hx]
  refine { h with asleep := ?_, exited := ?_, signal := ?_, blocked := ?_ }
  · exact fun w' hw' => ⟨hidle w' (h.asleep w' hw').1, (h.asleep w' hw').2⟩
  · rw [htasks]
    exact fun w' hw' => ⟨hidle w' (h.exited w' hw').1, (h.exited w' hw').2⟩
  · rw [htasks]
    exact h.signal
  · rw [Quiet, htasks, hactive]
    exact h.blocked

/-- And is counted. -/
theorem Sound.finish (h : Sound s) (w : W) : Sound (step result s (.finish w)) := by
  have hidle : ∀ w', s.pool.worker w' = .idle →
      (step result s (.finish w)).pool.worker w' = .idle := by
    intro w' hw'
    by_cases hww : w' = w
    · simp [step, ThreadPool.step, hww]
    · simp [step, ThreadPool.step, hww, hw']
  refine { h with asleep := ?_, exited := ?_, blocked := ?_ }
  · exact fun w' hw' => ⟨hidle w' (h.asleep w' hw').1, (h.asleep w' hw').2⟩
  · exact fun w' hw' => ⟨hidle w' (h.exited w' hw').1, (h.exited w' hw').2⟩
  · -- the calls are notified when there is no work left
    intro c hc hquiet
    simp only [step] at hc hquiet
    rw [if_pos hquiet] at hc
    cases hc

/-- A caller waits. -/
theorem Sound.waitAll (h : Sound s) (c : K) : Sound (step result s (.waitAll c)) := by
  rw [step]
  split_ifs with hquiet
  · exact
      { asleep := h.asleep, exited := h.exited, signal := h.signal, blocked := h.blocked
        stop_iff := h.stop_iff, joining := h.joining, returned := h.returned }
  · exact { h with blocked := fun _ _ => hquiet }

omit [DecidableEq W] in
/-- One caller woke up. -/
theorem blocked_of_update {c c' : K} (h : Function.update s.blocked c false c' = true) :
    s.blocked c' = true := by
  by_cases hcc : c' = c
  · rw [hcc, Function.update_self] at h
    cases h
  · rwa [Function.update_of_ne hcc] at h

/-- **One action** loses no wakeup. -/
theorem Sound.step [Nonempty W] (h : Sound s) {a : Action W K} (ha : Enabled count s a) :
    Sound (step result s a) := by
  cases a with
  | enqueue c => exact h.enqueue ha
  | notifyOne c w => exact h.notifyOne ha
  | lock w => exact h.lock ha
  | wake w =>
    exact h.woken rfl rfl rfl rfl rfl (fun _ => asleep_of_update)
      (Or.inl ⟨w, Function.update_self ..⟩)
  | execute w => exact h.execute ha
  | finish w => exact h.finish w
  | waitAll c => exact h.waitAll c
  | wakeCall c => exact { h with blocked := fun c' hc' => h.blocked c' (blocked_of_update hc') }
  | setStop =>
    rw [Enabled] at ha
    refine { h with exited := ?_, stop_iff := ?_, joining := ?_, returned := ?_ }
    · exact fun w hw => ⟨(h.exited w hw).1, rfl, (h.exited w hw).2.2⟩
    all_goals simp [Waiting.step]
  | notifyAll =>
    have hstop : s.stop = true := h.stop_iff.2 (by rw [show s.destructor = .stopped from ha]; simp)
    obtain ⟨w⟩ := ‹Nonempty W›
    refine { h with asleep := ?_, signal := ?_, stop_iff := ?_, joining := ?_, returned := ?_ }
    · exact fun w hw => by cases hw
    · exact fun _ => Or.inl ⟨w, rfl⟩
    · simp [Waiting.step, hstop]
    · exact fun _ _ => rfl
    · simp [Waiting.step]
  | join =>
    have hstop : s.stop = true := h.stop_iff.2 (by rw [ha.1]; simp)
    refine { h with stop_iff := ?_, joining := ?_, returned := ?_ }
    · simp [Waiting.step, hstop]
    · exact fun _ => h.joining (Or.inl ha.1)
    · exact fun _ => ha.2

end Sound

/-! ### Fair executions of the pool come to rest -/

section Pool

variable {count : K → ℕ} {result : K × ℕ → ρ} {s : Pool W K ρ}
  {X : Execution (ThreadPool.step result) (ThreadPool.Enabled count) s}

variable (result) in
/-- Tasks stay queued, up to the count. -/
theorem enqueued_le_step {a : ThreadPool.Action W K} {c : K} (hle : s.enqueued c ≤ count c)
    (ha : ThreadPool.Enabled count s a) :
    s.enqueued c ≤ (ThreadPool.step result s a).enqueued c ∧
      (ThreadPool.step result s a).enqueued c ≤ count c := by
  cases a with
  | enqueue c' =>
    by_cases hcc : c = c'
    · subst hcc
      rw [ThreadPool.Enabled] at ha
      simp only [ThreadPool.step, Function.update_self]
      omega
    · simp [ThreadPool.step, hcc, hle]
  | dequeue w =>
    obtain ⟨y, rest, hy⟩ := List.exists_cons_of_ne_nil ha.2
    simp [ThreadPool.step, hy, hle]
  | execute w =>
    obtain ⟨y, hy⟩ := ha
    simp [ThreadPool.step, hy, hle]
  | finish w => exact ⟨le_rfl, hle⟩
  | waitAll c' => exact ⟨le_rfl, hle⟩

/-- The tasks of a call that has returned have been executed. -/
theorem returned_step [Fintype W] {a : ThreadPool.Action W K} (hacc : Accounted result s)
    (h : ∀ c, s.returned c = true → ∀ t < count c, (c, t) ∈ s.executed)
    (ha : ThreadPool.Enabled count s a) (c : K)
    (hc : (ThreadPool.step result s a).returned c = true) (t : ℕ) (ht : t < count c) :
    (c, t) ∈ (ThreadPool.step result s a).executed := by
  cases a with
  | waitAll c' =>
    obtain ⟨-, henqueued, -, htasks, hactive⟩ := ha
    by_cases hcc : c = c'
    · subst hcc
      exact (hacc.complete htasks hactive (x := (c, t))
        (show t < s.enqueued c by rwa [henqueued])).1
    · exact h c ((Function.update_of_ne hcc ..).symm.trans hc) t ht
  | enqueue c' => exact h c hc t ht
  | finish w => exact h c hc t ht
  | dequeue w =>
    obtain ⟨y, rest, hy⟩ := List.exists_cons_of_ne_nil ha.2
    simp only [ThreadPool.step, hy] at hc ⊢
    exact h c hc t ht
  | execute w =>
    obtain ⟨y, hy⟩ := ha
    simp only [ThreadPool.step, hy] at hc ⊢
    exact List.mem_append_left _ (h c hc t ht)

/-- The tasks of a call are enqueued at some time. -/
theorem eventually_enqueued {c : K} (hle : s.enqueued c ≤ count c) :
    ∃ n, ∀ m ≥ n, (X.state m).enqueued c = (X.state n).enqueued c := by
  have hbound : ∀ n, (X.state n).enqueued c ≤ count c :=
    Execution.invariant (I := fun s : Pool W K ρ => s.enqueued c ≤ count c)
      (fun _ _ h ha => (enqueued_le_step result h ha).2) hle
  have hmono : Monotone fun n => (X.state n).enqueued c := by
    refine monotone_nat_of_le_succ fun n => ?_
    exact Execution.next (I := fun s => (X.state n).enqueued c ≤ s.enqueued c) le_rfl
      fun a _ ha => (enqueued_le_step result (hbound n) ha).1
  have hbdd : BddAbove (Set.range fun n => (X.state n).enqueued c) :=
    ⟨count c, by rintro _ ⟨n, rfl⟩; exact hbound n⟩
  obtain ⟨n, hn⟩ := Nat.sSup_mem (Set.range_nonempty _) hbdd
  refine ⟨n, fun m hm => le_antisymm ?_ (hmono hm)⟩
  exact (le_csSup hbdd ⟨m, rfl⟩).trans hn.ge

variable [Fintype W] (hacc : Accounted result s) (hle : ∀ c, s.enqueued c ≤ count c)
  (htakes : X.FairTo ThreadPool.Action.Takes) (hworks : ∀ w, X.FairTo (ThreadPool.Action.Works w))
include hacc hle htakes hworks

/-- With finitely many calls all tasks have been executed at some time. -/
theorem eventually_all_executed [Nonempty W] [Finite K] :
    ∀ᶠ n in atTop, ∀ x, (X.state n).Enqueued x → x ∈ (X.state n).executed := by
  have hcall : ∀ c, ∀ᶠ n in atTop, ∀ t, (X.state n).Enqueued (c, t) → (c, t) ∈ (X.state n).executed := by
    intro c
    obtain ⟨n, hn⟩ := eventually_enqueued (X := X) (hle c)
    have htask : ∀ t : Fin ((X.state n).enqueued c), ∀ᶠ m in atTop,
        (c, t.1) ∈ (X.state m).executed := by
      intro t
      obtain ⟨m, -, hm⟩ := eventually_executed htakes hworks
        (Execution.invariant (fun _ _ h ha => h.step ha) hacc n)
        (show (X.state n).Enqueued (c, t.1) from t.2)
      exact Filter.eventually_atTop.2 ⟨m, fun k hk =>
        Execution.stable (fun s a h _ => (executed_step _ s a).subset h) hk hm⟩
    filter_upwards [Filter.eventually_all.2 htask, Filter.eventually_ge_atTop n] with m hm hge t ht
    rw [Pool.Enqueued, hn m hge] at ht
    exact hm ⟨t, ht⟩
  filter_upwards [Filter.eventually_all.2 hcall] with n hn x hx
  exact hn x.1 x.2 hx

omit htakes hworks hle in
/-- When all tasks have been executed the queue is empty. -/
theorem tasks_eq_nil {n : ℕ} (hall : ∀ x, (X.state n).Enqueued x → x ∈ (X.state n).executed) :
    (X.state n).tasks = [] := by
  have hn := Execution.invariant (X := X) (fun _ _ h ha => h.step ha) hacc n
  rw [List.eq_nil_iff_forall_not_mem]
  intro x hx
  have hqueued := List.count_pos_iff.2 hx
  by_cases henq : (X.state n).Enqueued x
  · have honce := hn.once x henq
    have hexecuted := List.count_pos_iff.2 (hall x henq)
    rw [Pool.copies] at honce
    omega
  · have hnone := hn.none x henq
    rw [Pool.copies] at hnone
    omega

/-- **The pool comes to rest.** -/
theorem eventually_quiet [Nonempty W] [Finite K] : ∀ᶠ n in atTop, Quiet (X.state n) := by
  obtain ⟨n, hn⟩ := Filter.eventually_atTop.1 (eventually_all_executed hacc hle htakes hworks)
  have htasks : ∀ m ≥ n, (X.state m).tasks = [] := fun m hm => tasks_eq_nil hacc (hn m hm)
  have hidle : ∀ w, ∀ᶠ m in atTop, (X.state m).worker w = .idle := by
    intro w
    obtain ⟨k, hk, hw⟩ := exists_idle (hworks w) n
    refine Filter.eventually_atTop.2 ⟨k, fun m hm => ?_⟩
    induction m, hm using Nat.le_induction with
    | base => exact hw
    | succ m hm ih =>
      refine idle_stays ih fun a ha htake => ?_
      cases a with
      | dequeue w' => exact (Execution.enabled ha).2 (htasks m (by omega))
      | _ => cases htake
  filter_upwards [Filter.eventually_all.2 hidle, Filter.eventually_ge_atTop n] with m hm hge
  refine ⟨htasks m hge, ?_⟩
  rw [(Execution.invariant (X := X) (fun _ _ h ha => h.step ha) hacc m).active, Pool.workers]
  exact Finset.sum_eq_zero fun w _ => by simp [hm w]

end Pool

/-! ### Fair executions with sleepers are fair to the pool -/

section Fair

variable {count : K → ℕ} {result : K × ℕ → ρ} {init : ρ}
  {X : Execution (step result) (Enabled count) (start init : Waiting W K ρ)}

/-- It holds at all times. -/
theorem sound_state [Nonempty W] (n : ℕ) : Sound (X.state n) :=
  Execution.invariant (fun _ _ h ha => h.step ha) (sound_start init) n

/-- A worker with a task goes on with it. -/
theorem fairTo_works {w : W} (hfair : X.FairTo (Action.Of w)) :
    ((refinement count result).execution X).FairTo (ThreadPool.Action.Works w) := by
  intro n hable
  simp only [Trace.Refinement.state_execution] at hable
  have hbusy : ∀ m ≥ n, (X.state m).pool.worker w ≠ .idle := by
    intro m hm hidle
    obtain ⟨b, hown, hb⟩ := hable m hm
    cases b with
    | execute w' =>
      cases hown
      obtain ⟨x, hx⟩ := hb
      cases hidle.symm.trans hx
    | finish w' =>
      cases hown
      obtain ⟨x, hx⟩ := hb
      cases hidle.symm.trans hx
    | _ => cases hown
  have hworks : ∀ m ≥ n, ∃ a, Action.Of w a ∧ Enabled count (X.state m) a := by
    intro m hm
    obtain ⟨b, hown, hb⟩ := hable m hm
    cases b with
    | execute w' => exact ⟨.execute w', hown, hb⟩
    | finish w' => exact ⟨.finish w', hown, hb⟩
    | _ => cases hown
  obtain ⟨m, hm, a, ha, hown⟩ := hfair n hworks
  refine ⟨m, hm, ?_⟩
  rw [Trace.Refinement.act_execution _ _ ha]
  cases a with
  | lock w' =>
    cases hown
    exact absurd (Execution.enabled ha).1 (hbusy m hm)
  | execute w' => exact ⟨.execute w', rfl, hown⟩
  | finish w' => exact ⟨.finish w', rfl, hown⟩
  | _ => cases hown

variable (result) in
/-- Only its own actions make a worker sleep, leave or take a task. -/
theorem loop_step {s : Waiting W K ρ} {a : Action W K} {w : W} (ha : Enabled count s a)
    (hnot : a ≠ .lock w) :
    (s.asleep w = false → (step result s a).asleep w = false) ∧
    (s.exited w = false → (step result s a).exited w = false) ∧
    (s.pool.worker w = .idle → (step result s a).pool.worker w = .idle) := by
  cases a with
  | notifyOne c w' =>
    cases w' with
    | none => exact ⟨id, id, id⟩
    | some w' => exact ⟨fun h => by simp [step, Function.update_apply, h], id, id⟩
  | lock w' =>
    have hne : w ≠ w' := fun hww => hnot (hww ▸ rfl)
    rw [step]
    split_ifs with htasks
    · obtain ⟨y, rest, hy⟩ := List.exists_cons_of_ne_nil htasks
      exact ⟨id, id, fun h => by simp [ThreadPool.step, hy, hne, h]⟩
    · exact ⟨id, fun h => by simp [hne, h], id⟩
    · exact ⟨fun h => by simp [hne, h], id, id⟩
  | wake w' => exact ⟨fun h => by simp [step, Function.update_apply, h], id, id⟩
  | execute w' =>
    obtain ⟨y, hy⟩ := ha
    refine ⟨id, id, fun h => ?_⟩
    have hne : w ≠ w' := by
      rintro rfl
      cases h.symm.trans hy
    simp [step, ThreadPool.step, hy, hne, h]
  | finish w' => exact ⟨id, id, fun h => by simp [step, ThreadPool.step, Function.update_apply, h]⟩
  | waitAll c =>
    rw [step]
    split_ifs <;> exact ⟨id, id, id⟩
  | notifyAll => exact ⟨fun _ => rfl, id, id⟩
  | _ => exact ⟨id, id, id⟩

/-- A worker that is awake looks at the queue again. -/
theorem locks {w : W} (hfair : X.FairTo (Action.Of w)) {n : ℕ}
    (hawake : (X.state n).asleep w = false) (hin : (X.state n).exited w = false) :
    ∃ m ≥ n, X.act m = some (.lock w) := by
  by_contra hno
  push Not at hno
  have hnext : ∀ {m a}, m ≥ n → X.act m = some a → a ≠ .lock w := by
    rintro m a hm ha rfl
    exact hno m hm ha
  have hstays : ∀ m ≥ n, (X.state m).asleep w = false ∧ (X.state m).exited w = false := by
    intro m hm
    induction m, hm using Nat.le_induction with
    | base => exact ⟨hawake, hin⟩
    | succ m hm ih =>
      refine Execution.next (I := fun s : Waiting W K ρ => s.asleep w = false ∧ s.exited w = false)
        ih fun a ha hen => ?_
      obtain ⟨hasleep, hexited, -⟩ := loop_step result hen (hnext hm ha)
      exact ⟨hasleep ih.1, hexited ih.2⟩
  -- it comes to the queue and stays there
  obtain ⟨k, hk, hidle⟩ := exists_idle (fairTo_works hfair) n
  have hidles : ∀ m ≥ k, (X.state m).pool.worker w = .idle := by
    intro m hm
    induction m, hm using Nat.le_induction with
    | base => rwa [Trace.Refinement.state_execution] at hidle
    | succ m hm ih =>
      exact Execution.next (I := fun s : Waiting W K ρ => s.pool.worker w = .idle) ih
        fun a ha hen => (loop_step result hen (hnext (by omega) ha)).2.2 ih
  obtain ⟨m, hm, a, ha, hown⟩ := hfair k fun m hm =>
    ⟨.lock w, rfl, hidles m hm, hstays m (by omega)⟩
  have hen := Execution.enabled ha
  cases a with
  | lock w' =>
    cases hown
    exact hno m (by omega) ha
  | execute w' =>
    cases hown
    obtain ⟨x, hx⟩ := hen
    cases (hidles m hm).symm.trans hx
  | finish w' =>
    cases hown
    obtain ⟨x, hx⟩ := hen
    cases (hidles m hm).symm.trans hx
  | _ => cases hown

/-- A notification stays under way until it arrives … -/
theorem notifying_step {s : Waiting W K ρ} {a : Action W K} {c : K} (h : s.notifying c = true)
    (hnot : ¬a.Notifies c) : (step result s a).notifying c = true := by
  cases a with
  | enqueue c' => simp [step, Function.update_apply, h]
  | notifyOne c' w =>
    have hne : c ≠ c' := Ne.symm hnot
    cases w <;> simp [step, hne, h]
  | lock w =>
    rw [step]
    split_ifs <;> exact h
  | waitAll c' =>
    rw [step]
    split_ifs <;> exact h
  | _ => exact h

/-- … and a call that has enqueued all its tasks does not notify again. -/
theorem notified_step {s : Waiting W K ρ} {a : Action W K} {c : K} (ha : Enabled count s a)
    (hall : s.pool.enqueued c = count c) (h : s.notifying c = false) :
    (step result s a).notifying c = false := by
  cases a with
  | enqueue c' =>
    have hne : c ≠ c' := by
      rintro rfl
      have := ha.2.2
      omega
    simp [step, hne, h]
  | notifyOne c' w => cases w <;> simp [step, Function.update_apply, h]
  | lock w =>
    rw [step]
    split_ifs <;> exact h
  | waitAll c' =>
    rw [step]
    split_ifs <;> exact h
  | _ => exact h

omit [DecidableEq W] [DecidableEq K] in
/-- Who must notify can. -/
theorem exists_notify (s : Waiting W K ρ) {c : K} (h : s.notifying c = true) :
    ∃ a, Action.Notifies c a ∧ Enabled count s a := by
  by_cases hasleep : ∃ w, s.asleep w = true
  · obtain ⟨w, hw⟩ := hasleep
    exact ⟨.notifyOne c (some w), rfl, h, hw⟩
  · push Not at hasleep
    exact ⟨.notifyOne c none, rfl, h, fun w => by simpa using hasleep w⟩

/-- And does. -/
theorem notifies {c : K} (hfair : X.FairTo (Action.Notifies c)) {n : ℕ}
    (hc : (X.state n).notifying c = true) :
    ∃ m ≥ n, (X.state m).notifying c = true ∧ ∃ a, X.act m = some a ∧ a.Notifies c :=
  hfair.acts (P := fun m => (X.state m).notifying c = true) hc
    (fun _ _ hP hnot => Execution.next (I := fun s : Waiting W K ρ => s.notifying c = true) hP
      fun a ha _ => notifying_step hP (hnot a ha))
    fun m _ hP => exists_notify (X.state m) hP

/-- **While there is a task some worker becomes awake.** -/
theorem exists_awake [Nonempty W] (hnotifies : ∀ c, X.FairTo (Action.Notifies c)) {n : ℕ}
    (htasks : (X.state n).pool.tasks ≠ []) : ∃ m ≥ n, ∃ w, (X.state m).asleep w = false := by
  rcases (sound_state n).signal htasks with ⟨w, hw⟩ | ⟨c, hc⟩
  · exact ⟨n, le_rfl, w, hw⟩
  · obtain ⟨m, hm, -, a, ha, hown⟩ := notifies (hnotifies c) hc
    cases a with
    | notifyOne c' w =>
      have hen := Execution.enabled ha
      cases w with
      | none =>
        obtain ⟨w⟩ := ‹Nonempty W›
        exact ⟨m, hm, w, hen.2 w⟩
      | some w =>
        refine ⟨m + 1, by omega, w, ?_⟩
        rw [Execution.state_succ_some ha]
        exact Function.update_self ..
    | _ => cases hown

/-- **So the pool is fair**: a task that stays in the queue is taken. -/
theorem fairTo_takes [Nonempty W] (hworkers : ∀ w, X.FairTo (Action.Of w))
    (hnotifies : ∀ c, X.FairTo (Action.Notifies c)) :
    ((refinement count result).execution X).FairTo ThreadPool.Action.Takes := by
  intro n hable
  have htasks : ∀ m ≥ n, (X.state m).pool.tasks ≠ [] := by
    intro m hm
    obtain ⟨b, htake, hb⟩ := hable m hm
    rw [Trace.Refinement.state_execution] at hb
    cases b with
    | dequeue w => exact hb.2
    | _ => cases htake
  obtain ⟨m, hm, w, hawake⟩ := exists_awake hnotifies (htasks n le_rfl)
  have hin : (X.state m).exited w = false := by
    rw [Bool.eq_false_iff]
    exact fun hw => htasks m hm ((sound_state m).exited w hw).2.2
  obtain ⟨k, hk, hact⟩ := locks (hworkers w) hawake hin
  refine ⟨k, by omega, .dequeue w, ?_, trivial⟩
  rw [Trace.Refinement.act_execution _ _ hact]
  exact if_pos (htasks k (by omega))

/-- All tasks stay queued. -/
theorem enqueued_stays {n m : ℕ} (hnm : n ≤ m) {c : K}
    (hall : (X.state n).pool.enqueued c = count c) : (X.state m).pool.enqueued c = count c := by
  refine Execution.stable (I := fun s : Waiting W K ρ => s.pool.enqueued c = count c) ?_ hnm hall
  intro s a h ha
  exact (refinement count result).keeps (J := fun p : Pool W K ρ => p.enqueued c = count c)
    (fun p b h hb => le_antisymm (enqueued_le_step result h.le hb).2
      (h.ge.trans (enqueued_le_step result h.le hb).1)) h ha

/-- After its last task a call comes to `wait_all`. -/
theorem eventually_notified {c : K} (hfair : X.FairTo (Action.Notifies c)) {n : ℕ}
    (hall : (X.state n).pool.enqueued c = count c) :
    ∃ m ≥ n, ∀ k ≥ m, (X.state k).notifying c = false := by
  have hstays : ∀ {m}, m ≥ n → (X.state m).notifying c = false →
      ∀ k ≥ m, (X.state k).notifying c = false := by
    intro m hm h k hk
    induction k, hk using Nat.le_induction with
    | base => exact h
    | succ k hk ih =>
      exact Execution.next (I := fun s : Waiting W K ρ => s.notifying c = false) ih
        fun a _ ha => notified_step ha (enqueued_stays (by omega) hall) ih
  cases hc : (X.state n).notifying c with
  | false => exact ⟨n, le_rfl, hstays le_rfl hc⟩
  | true =>
    obtain ⟨m, hm, -, a, ha, hown⟩ := notifies hfair hc
    refine ⟨m + 1, by omega, hstays (by omega) ?_⟩
    rw [Execution.state_succ_some ha]
    cases a with
    | notifyOne c' w =>
      cases hown
      cases w <;> simp [step]
    | _ => cases hown

/-- The destructor only goes on, and a worker that has left does not come back. -/
theorem destructor_step {s : Waiting W K ρ} {a : Action W K} (ha : Enabled count s a) :
    (s.stop = true → (step result s a).stop = true) ∧
    (s.destructor = .joining ∨ s.destructor = .returned →
      (step result s a).destructor = .joining ∨ (step result s a).destructor = .returned) ∧
    ∀ w, s.exited w = true → (step result s a).exited w = true := by
  cases a with
  | notifyOne c w => cases w <;> exact ⟨id, id, fun _ => id⟩
  | lock w =>
    rw [step]
    split_ifs
    · exact ⟨id, id, fun _ => id⟩
    · exact ⟨id, id, fun w' h => by simp [Function.update_apply, h]⟩
    · exact ⟨id, id, fun _ => id⟩
  | waitAll c =>
    rw [step]
    split_ifs <;> exact ⟨id, id, fun _ => id⟩
  | setStop =>
    refine ⟨fun _ => rfl, fun h => ?_, fun _ => id⟩
    rw [show s.destructor = .notCalled from ha] at h
    simp at h
  | notifyAll => exact ⟨id, fun _ => Or.inl rfl, fun _ => id⟩
  | join => exact ⟨id, fun _ => Or.inr rfl, fun _ => id⟩
  | _ => exact ⟨id, id, fun _ => id⟩

/-- The stop stays set. -/
theorem stop_stays {n m : ℕ} (hnm : n ≤ m) (h : (X.state n).stop = true) :
    (X.state m).stop = true :=
  Execution.stable (I := fun s : Waiting W K ρ => s.stop = true)
    (fun _ _ h ha => (destructor_step ha).1 h) hnm h

/-- A worker stays out. -/
theorem exited_stays {n m : ℕ} (hnm : n ≤ m) {w : W} (h : (X.state n).exited w = true) :
    (X.state m).exited w = true :=
  Execution.stable (I := fun s : Waiting W K ρ => s.exited w = true)
    (fun _ _ h ha => (destructor_step ha).2.2 w h) hnm h

/-- **The destructor notifies**, and no worker sleeps from then on. -/
theorem eventually_joining [Nonempty W] (hdestroys : X.FairTo Action.Destroys) {n : ℕ}
    (hn : (X.state n).stop = true) :
    ∃ m ≥ n, ∀ k ≥ m, (X.state k).destructor = .joining ∨ (X.state k).destructor = .returned := by
  suffices h : ∃ m ≥ n, (X.state m).destructor = .joining ∨ (X.state m).destructor = .returned by
    obtain ⟨m, hm, h⟩ := h
    exact ⟨m, hm, fun k hk => Execution.stable
      (I := fun s : Waiting W K ρ => s.destructor = .joining ∨ s.destructor = .returned)
      (fun _ _ h ha => (destructor_step ha).2.1 h) hk h⟩
  by_contra hno
  push Not at hno
  have hstopped : ∀ m ≥ n, (X.state m).destructor = .stopped := by
    intro m hm
    have hcalled := (sound_state m).stop_iff.1 (stop_stays hm hn)
    have hnot := hno m hm
    cases hd : (X.state m).destructor <;> simp_all
  obtain ⟨m, hm, a, ha, hown⟩ := hdestroys n fun m hm => ⟨.notifyAll, trivial, hstopped m hm⟩
  cases a with
  | notifyAll =>
    refine (hno (m + 1) (by omega)).1 ?_
    rw [Execution.state_succ_some ha]
    rfl
  | join => cases (hstopped m hm).symm.trans (Execution.enabled ha).1
  | _ => cases hown

variable [Fintype W]

variable (X) in
/-- The accounting holds at all times. -/
theorem accounted_state (n : ℕ) : Accounted result (X.state n).pool := by
  have := Execution.invariant (X := (refinement count result).execution X)
    (fun _ _ h ha => h.step ha) (accounted_start init) n
  rwa [Trace.Refinement.state_execution] at this

variable (X) in
/-- Who returned saw all its tasks run. -/
theorem returned_state (n : ℕ) {c : K} (hc : (X.state n).pool.returned c = true) {t : ℕ}
    (ht : t < count c) : (c, t) ∈ (X.state n).pool.executed := by
  have := Execution.invariant (X := (refinement count result).execution X)
    (I := fun p => Accounted result p ∧ ∀ c, p.returned c = true → ∀ t < count c, (c, t) ∈ p.executed)
    (fun _ _ h ha => ⟨h.1.step ha, returned_step h.1 h.2 ha⟩)
    ⟨accounted_start init, fun _ h => by cases h⟩ n
  rw [Trace.Refinement.state_execution] at this
  exact this.2 c hc t ht

/-- **When the destructor has returned** every task that was enqueued has been executed. -/
theorem destructed_complete [Nonempty W] {n : ℕ} (hn : (X.state n).destructor = .returned)
    {x : K × ℕ} (hx : (X.state n).pool.Enqueued x) :
    x ∈ (X.state n).pool.executed ∧ (X.state n).pool.results x = result x := by
  have hexited : ∀ w, _ := fun w => (sound_state n).exited w ((sound_state n).returned hn w)
  obtain ⟨w⟩ := ‹Nonempty W›
  refine (accounted_state X n).complete (hexited w).2.2 ?_ hx
  rw [(accounted_state X n).active, Pool.workers]
  exact Finset.sum_eq_zero fun w _ => by simp [(hexited w).1]

section Live

variable [Nonempty W] [Finite K] (hworkers : ∀ w, X.FairTo (Action.Of w))
  (hnotifies : ∀ c, X.FairTo (Action.Notifies c))
include hworkers hnotifies

/-- In the end all is done. -/
theorem eventually_quiet_state : ∀ᶠ n in atTop, Quiet (X.state n).pool := by
  filter_upwards [eventually_quiet (X := (refinement count result).execution X)
    (accounted_start init) (fun c => Nat.zero_le _) (fairTo_takes hworkers hnotifies)
    fun w => fairTo_works (hworkers w)] with n hn
  rwa [Trace.Refinement.state_execution] at hn

/-- Each call returns. -/
theorem call_returns {c : K} (hwaits : X.FairTo (Action.Waits c)) (hcount : 0 < count c) {n : ℕ}
    (hall : (X.state n).pool.enqueued c = count c) :
    ∃ m ≥ n, (X.state m).pool.returned c = true := by
  obtain ⟨q, hq⟩ := Filter.eventually_atTop.1 (eventually_quiet_state hworkers hnotifies)
  obtain ⟨k, hk, hnotified⟩ := eventually_notified (hnotifies c) hall
  by_contra hno
  push Not at hno
  -- otherwise it stays before `wait_all`, awake and with nothing to wait for
  obtain ⟨m, hm, a, ha, hown⟩ := hwaits (max q k) fun m hm => by
    refine ⟨.waitAll c, rfl, hcount, enqueued_stays (by omega) hall, hnotified m (by omega), ?_, ?_⟩
    · simpa using hno m (by omega)
    · rw [Bool.eq_false_iff]
      exact fun hb => (sound_state m).blocked c hb (hq m (by omega))
  cases a with
  | waitAll c' =>
    cases hown
    refine hno (m + 1) (by omega) ?_
    rw [Execution.state_succ_some ha, step, if_pos (hq m (by omega))]
    exact Function.update_self ..
  | _ => cases hown

/-- After that a worker leaves when it looks at the queue. -/
theorem eventually_exited (hdestroys : X.FairTo Action.Destroys) {n : ℕ}
    (hn : (X.state n).stop = true) (w : W) : ∀ᶠ m in atTop, (X.state m).exited w = true := by
  obtain ⟨q, hq⟩ := Filter.eventually_atTop.1 (eventually_quiet_state hworkers hnotifies)
  obtain ⟨k, hk, hjoining⟩ := eventually_joining hdestroys hn
  suffices h : ∃ m, (X.state m).exited w = true by
    obtain ⟨m, h⟩ := h
    exact Filter.eventually_atTop.2 ⟨m, fun _ hm => exited_stays hm h⟩
  by_contra hno
  push Not at hno
  obtain ⟨m, hm, ha⟩ := locks (n := max q k) (hworkers w)
    ((sound_state _).joining (hjoining _ (le_max_right ..)) w) (by simpa using hno (max q k))
  refine hno (m + 1) ?_
  rw [Execution.state_succ_some ha, step, if_neg (not_not.2 (hq m (by omega)).1),
    if_pos (stop_stays (by omega) hn)]
  exact Function.update_self ..

/-- And so does the destructor. -/
theorem destructor_joins (hdestroys : X.FairTo Action.Destroys) {n : ℕ}
    (hn : (X.state n).stop = true) : ∃ m ≥ n, (X.state m).destructor = .returned := by
  obtain ⟨k, hk, hjoining⟩ := eventually_joining hdestroys hn
  obtain ⟨l, hl⟩ := Filter.eventually_atTop.1 (Filter.eventually_all.2
    (eventually_exited hworkers hnotifies hdestroys hn))
  by_contra hno
  push Not at hno
  have hjoin : ∀ m ≥ max k l, (X.state m).destructor = .joining := fun m hm =>
    (hjoining m (by omega)).resolve_right (hno m (by omega))
  obtain ⟨m, hm, a, ha, hown⟩ := hdestroys (max k l) fun m hm =>
    ⟨.join, trivial, hjoin m hm, hl m (by omega)⟩
  cases a with
  | join =>
    refine hno (m + 1) (by omega) ?_
    rw [Execution.state_succ_some ha]
    rfl
  | notifyAll => cases (hjoin m hm).symm.trans (Execution.enabled ha)
  | _ => cases hown

end Live

end Fair

end Waiting

end ThreadPool
end Compute
end AarchGate
