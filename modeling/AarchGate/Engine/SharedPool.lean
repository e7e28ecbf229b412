/-
# Calls of the parallel runner share one pool

`get_global_pool` in `src/compute/parallel_runner.cpp` hands out one pool for the process,
so calls of `ParallelRunner::run` from several threads put their tasks into one queue
and `wait_all` waits for all of them.

The tasks of a call are its ranges of rows, the result slots its `PaddedResult`s, which
are zero before.  Every call gets what `run` returns, and every task is executed
once (`pool_complete`).

The second half adds the condition variables: workers that sleep are woken, every call
returns (`every_call_returns`), and so does the destructor of the pool when the process
ends (`destructor_returns`).
-/

import AarchGate.Compute.Wakeups
import AarchGate.Engine.ParallelCorrect

namespace AarchGate
namespace Engine
namespace ParallelRunner

open A64 Compute Compute.ThreadPool
open ApexEngine
open Trace (Execution stateAt)

/-- A call of `run`, with what stands in the columns of its tasks. -/
structure Call where
  PF : Platform
  config : TaskConfig
  data : ℕ → BitVec 8
  totalRows : ℕ
  numThreads : ℤ
  bufs : ℕ → ℕ → ColumnBuffer

namespace Call

/-- The ranges that the call enqueues, `active_tasks` of them. -/
def ranges (c : Call) : List (ℕ × ℕ) := rowRanges c.totalRows c.numThreads

/-- What `worker_thread` writes to the slot of task `t`. -/
def result (c : Call) (t : ℕ) : Option Word :=
  match c.ranges[t]? with
  | some x => workerThread c.PF c.config c.data x.1 x.2 (c.bufs t)
  | none => some 0

/-- The loop that adds up the slots. -/
def aggregate (c : Call) (results : ℕ → Option Word) : Option Word := do
  let counts ← (List.range c.ranges.length).mapM results
  some counts.sum

/-- **The slots add up to the result of `run`** when each holds what its task writes. -/
theorem aggregate_eq_run {c : Call} {results : ℕ → Option Word}
    (h : ∀ t < c.ranges.length, results t = c.result t) :
    c.aggregate results = run c.PF c.config c.data c.totalRows c.numThreads c.bufs := by
  have hmap : (List.range c.ranges.length).mapM results = c.ranges.zipIdx.mapM fun x =>
      workerThread c.PF c.config c.data x.1.1 x.1.2 (c.bufs x.2) := by
    rw [List.range_eq_range', ← List.zipIdx_map_snd, List.mapM_map]
    refine mapM_congr fun x hx => ?_
    have hget := List.mem_zipIdx_iff_getElem?.1 hx
    rw [Function.comp_apply, h _ (List.getElem?_eq_some_iff.1 hget).1, result, hget]
  rw [aggregate, hmap]
  rfl

end Call

/-- **The pool is complete**, for any number of workers and of calls that share it, and for
every interleaving.  A task that was enqueued is in the queue, with a worker, or
executed, exactly one of these and once; if the workers are not held up forever it is
executed.  When a call returns from `wait_all`, its tasks have been executed and their
slots hold their results, so that it returns what `run` returns. -/
theorem pool_complete {W K : Type} [DecidableEq W] [Fintype W] [DecidableEq K] (calls : K → Call)
    (X : Execution (step fun x => (calls x.1).result x.2)
      (Enabled fun c => (calls c).ranges.length) (start (some 0) : Pool W K (Option Word))) :
    (∀ n x, ((X.state n).Enqueued x → (X.state n).copies x = 1) ∧
      (x ∈ (X.state n).executed → (X.state n).Enqueued x)) ∧
    (Nonempty W → X.FairTo Action.Takes → (∀ w, X.FairTo (Action.Works w)) →
      ∀ n x, (X.state n).Enqueued x → ∃ m, ∀ k ≥ m, (X.state k).executed.count x = 1) ∧
    ∀ n c, X.act n = some (.waitAll c) →
      (∀ t < (calls c).ranges.length, (X.state n).executed.count (c, t) = 1 ∧
        (X.state n).results (c, t) = (calls c).result t) ∧
      (calls c).aggregate (fun t => (X.state n).results (c, t)) =
        run (calls c).PF (calls c).config (calls c).data (calls c).totalRows (calls c).numThreads
          (calls c).bufs := by
  have hacc : ∀ n, Accounted _ (X.state n) :=
    Execution.invariant (fun _ _ h ha => h.step ha) (accounted_start _)
  have honce : ∀ n x, x ∈ (X.state n).executed → (X.state n).executed.count x = 1 :=
    fun n x hx => List.count_eq_one_of_mem (hacc n).nodup hx
  refine ⟨fun n x => ⟨(hacc n).once x, fun hx => ?_⟩, fun _ htakes hworks n x hx => ?_,
    fun n c hact => ?_⟩
  · by_contra hnot
    have hzero := (hacc n).none x hnot
    have hpos := List.count_pos_iff.2 hx
    rw [Pool.copies] at hzero
    omega
  · obtain ⟨m, -, hm⟩ := eventually_executed htakes hworks (hacc n) hx
    exact ⟨m, fun k hk => honce k x (Execution.stable
      (fun s a h _ => (executed_step _ s a).subset h) hk hm)⟩
  · obtain ⟨-, henqueued, -, htasks, hactive⟩ := Execution.enabled hact
    have hdone : ∀ t < (calls c).ranges.length, (c, t) ∈ (X.state n).executed ∧
        (X.state n).results (c, t) = (calls c).result t := fun t ht =>
      (hacc n).complete htasks hactive (show t < (X.state n).enqueued c by rwa [henqueued])
    exact ⟨fun t ht => ⟨honce n _ (hdone t ht).1, (hdone t ht).2⟩,
      Call.aggregate_eq_run fun t ht => (hdone t ht).2⟩

/-- A call on 130 rows with `a = 10`, in two tasks. -/
def twoTasks (L : ExprCompiledLogic) : Call where
  PF := .standard
  config := ⟨L, 8⟩
  data := tens
  totalRows := 130
  numThreads := 2
  bufs _ _ _ := 0

/-- Its tasks end at a multiple of 64 rows. -/
theorem twoTasks_ranges (L : ExprCompiledLogic) : (twoTasks L).ranges = [(0, 64), (64, 130)] :=
  show rowRanges 130 2 = _ by decide

/-- With the kernel of `a > 5` the call returns 130. -/
theorem twoTasks_run : ∃ a E L, setExpression .standard oneFieldEngine ['t'] Jit.gtPool.storage
      Jit.gtPool.annot (some 2) .BIT_SLICED = .ok (a, E) ∧ E.exprLogic = [(['t'], L)] ∧
    run .standard (twoTasks L).config tens 130 2 (fun _ _ _ => 0) = some 130 := by
  obtain ⟨a, E, hset, hacc⟩ := gtPool_accepted .BIT_SLICED
  have hvalue := RootValue.typed Jit.gtPool_represents rfl
  obtain ⟨L, names, hI, hmode, hbits, hrefs, hw⟩ := setExpression_laneTotals Jit.gtPool_built
    (by decide) hvalue Jit.gtPool_fresh
      (show ApexEngine.init.registry.schemas ['t'] = none from rfl) rfl (fun n hn hk =>
      ⟨_, List.mem_singleton_self _, (List.mem_singleton.1
        ((gtPool_references.mem _).2 ⟨n, hn, hk, rfl⟩)).symm⟩) hset hacc
  have hlen : names.length = 1 := hrefs.length_eq gtPool_references
  obtain ⟨hL, hmd⟩ := hI.logic_eq (setExpression_keys rfl hset hacc)
  refine ⟨a, E, L, hset, hL, ?_⟩
  have htotal := hI.executeParallel_lanes hmode hbits hw (hvalue.dependsOn Jit.gtPool_built hrefs)
    (List.ne_nil_of_length_pos (by omega)) (by omega) tens 130 2 fun _ _ _ => 0
  rw [executeParallel_single hL hmd] at htotal
  refine htotal.trans (congrArg some ?_)
  decide +kernel

/-- Two workers take the tasks, and the second is done first. -/
def twoWorkers (L : ExprCompiledLogic) : Execution (step fun x => (twoTasks L).result x.2)
    (Enabled fun _ => (twoTasks L).ranges.length) (start (some 0) : Pool Bool Unit (Option Word)) where
  act n := [.enqueue (), .dequeue false, .enqueue (), .dequeue true, .execute true, .finish true,
    .execute false, .finish false, .waitAll ()][n]?
  legal n a ha := by
    have hn := (List.getElem?_eq_some_iff.1 ha).1
    simp only [List.length_cons, List.length_nil] at hn
    rw [twoTasks_ranges]
    interval_cases n <;> cases ha <;> simp [stateAt, step, Enabled, start]

/-- The execution is fair, and the call returns 130 at its ninth moment. -/
theorem pool_complete_two : ∃ a E L, setExpression .standard oneFieldEngine ['t'] Jit.gtPool.storage
      Jit.gtPool.annot (some 2) .BIT_SLICED = .ok (a, E) ∧ E.exprLogic = [(['t'], L)] ∧
    (twoWorkers L).FairTo Action.Takes ∧ (∀ w, (twoWorkers L).FairTo (Action.Works w)) ∧
    (twoWorkers L).act 8 = some (.waitAll ()) ∧ ((twoWorkers L).state 3).copies ((), 1) = 1 ∧
    (∃ m, ∀ k ≥ m, ((twoWorkers L).state k).executed.count ((), 1) = 1) ∧
    (twoTasks L).aggregate (fun t => ((twoWorkers L).state 8).results ((), t)) = some 130 := by
  obtain ⟨a, E, L, hset, hL, hrun⟩ := twoTasks_run
  have hend : ∀ m ≥ 9, (twoWorkers L).act m = none := fun m hm => List.getElem?_eq_none hm
  have htakes : (twoWorkers L).FairTo Action.Takes := by
    refine Execution.fairTo_of_ended hend fun a ha => ?_
    cases a with
    | dequeue w => simp [Execution.state, twoWorkers, stateAt, step, Enabled, start]
    | _ => cases ha
  have hworks : ∀ w, (twoWorkers L).FairTo (Action.Works w) := by
    refine fun w => Execution.fairTo_of_ended hend fun a ha => ?_
    cases a with
    | execute w => cases w <;> simp [Execution.state, twoWorkers, stateAt, step, Enabled, start]
    | finish w => cases w <;> simp [Execution.state, twoWorkers, stateAt, step, Enabled, start]
    | _ => cases ha
  have henqueued : ((twoWorkers L).state 3).Enqueued ((), 1) := by
    simp [Execution.state, twoWorkers, stateAt, step, start, Pool.Enqueued]
  obtain ⟨honce, hexecuted, hreturn⟩ := pool_complete (fun _ => twoTasks L) (twoWorkers L)
  exact ⟨a, E, L, hset, hL, htakes, hworks, rfl, (honce 3 _).1 henqueued,
    hexecuted ⟨true⟩ htakes hworks 3 _ henqueued, (hreturn 8 () rfl).2.trans hrun⟩

/-! ### With the threads that sleep -/

section Waiting

variable {W K : Type} [DecidableEq W] [Fintype W] [Nonempty W] [DecidableEq K] [Finite K]
  (calls : K → Call)
  (X : Execution (Waiting.step fun x => (calls x.1).result x.2)
    (Waiting.Enabled fun c => (calls c).ranges.length)
    (Waiting.start (some 0) : Waiting W K (Option Word)))

/-- **Every call returns, and what it returns is right**, with the condition variables as the
code uses them: whoever sleeps, is notified or wakes up by itself, a call that has returned
finds its slots filled; and no wakeup is lost, so that a call which has enqueued its tasks
returns if no thread is held up forever.  The calls are finitely many: a call that looks at
the pool again each time after another one has enqueued its tasks could wait forever. -/
theorem every_call_returns :
    (∀ n c, (X.state n).pool.returned c = true →
      (calls c).aggregate (fun t => (X.state n).pool.results (c, t)) =
        run (calls c).PF (calls c).config (calls c).data (calls c).totalRows (calls c).numThreads
          (calls c).bufs) ∧
    ((∀ w, X.FairTo (Waiting.Action.Of w)) → (∀ c, X.FairTo (Waiting.Action.Notifies c)) →
      ∀ c, X.FairTo (Waiting.Action.Waits c) → 0 < (calls c).ranges.length →
      ∀ n, (X.state n).pool.enqueued c = (calls c).ranges.length →
        ∃ m ≥ n, (X.state m).pool.returned c = true) := by
  refine ⟨fun n c hc => Call.aggregate_eq_run fun t ht => ?_, ?_⟩
  · exact (Waiting.accounted_state X n).results _ (Waiting.returned_state X n hc ht)
  · exact fun hworkers hnotifies c hwaits hcount n hall =>
      Waiting.call_returns hworkers hnotifies hwaits hcount hall

/-- **The destructor returns, with the queue drained**: a task that is still in the queue when
`stop_` is set is executed before the workers leave.  Here too the calls of the execution are
finitely many. -/
theorem destructor_returns :
    (∀ n, (X.state n).destructor = .returned → ∀ x, (X.state n).pool.Enqueued x →
      (X.state n).pool.executed.count x = 1 ∧
        (X.state n).pool.results x = (calls x.1).result x.2) ∧
    ((∀ w, X.FairTo (Waiting.Action.Of w)) → (∀ c, X.FairTo (Waiting.Action.Notifies c)) →
      X.FairTo Waiting.Action.Destroys →
      ∀ n, (X.state n).stop = true → ∃ m ≥ n, (X.state m).destructor = .returned) := by
  refine ⟨fun n hn x hx => ?_, ?_⟩
  · obtain ⟨hmem, hresult⟩ := Waiting.destructed_complete hn hx
    exact ⟨List.count_eq_one_of_mem (Waiting.accounted_state X n).nodup hmem, hresult⟩
  · exact fun hworkers hnotifies hdestroys n hn =>
      Waiting.destructor_joins hworkers hnotifies hdestroys hn

end Waiting

/-- One worker: it sleeps until the first task is there, the call sleeps until the second is
done, and then the pool is destroyed. -/
def oneSleeper (L : ExprCompiledLogic) : Execution (Waiting.step fun x => (twoTasks L).result x.2)
    (Waiting.Enabled fun _ => (twoTasks L).ranges.length)
    (Waiting.start (some 0) : Waiting Unit Unit (Option Word)) where
  act n := [.lock (), .enqueue (), .notifyOne () (some ()), .lock (), .enqueue (),
    .notifyOne () none, .waitAll (), .execute (), .finish (), .lock (), .execute (), .finish (),
    .waitAll (), .lock (), .setStop, .notifyAll, .lock (), .join][n]?
  legal n a ha := by
    have hn := (List.getElem?_eq_some_iff.1 ha).1
    simp only [List.length_cons, List.length_nil] at hn
    rw [twoTasks_ranges]
    interval_cases n <;> cases ha <;>
      simp [stateAt, Waiting.step, Waiting.Enabled, Waiting.start, Waiting.Quiet, step, start]

section Sleeper

variable {L : ExprCompiledLogic}

/-- After eighteen steps nothing happens. -/
theorem oneSleeper_ended {m : ℕ} (hm : m ≥ 18) : (oneSleeper L).act m = none :=
  List.getElem?_eq_none hm

/-- Then every thread is where it ends. -/
theorem oneSleeper_end : ((oneSleeper L).state 18).pool.worker () = .idle ∧
    ((oneSleeper L).state 18).exited () = true ∧ ((oneSleeper L).state 18).notifying () = false ∧
    ((oneSleeper L).state 18).pool.returned () = true ∧
    ((oneSleeper L).state 18).destructor = .returned := by
  simp [Execution.state, oneSleeper, stateAt, Waiting.step, Waiting.start, Waiting.Quiet, step,
    start]

/-- The worker has all its turns. -/
theorem oneSleeper_workers (w : Unit) : (oneSleeper L).FairTo (Waiting.Action.Of w) := by
  obtain ⟨hidle, hexited, -⟩ := oneSleeper_end (L := L)
  refine Execution.fairTo_of_ended (fun _ => oneSleeper_ended) fun a ha => ?_
  cases a with
  | lock w => simp [Waiting.Enabled, hexited]
  | execute w => simp [Waiting.Enabled, hidle]
  | finish w => simp [Waiting.Enabled, hidle]
  | _ => cases ha

/-- The call makes its notifications. -/
theorem oneSleeper_notifies (c : Unit) : (oneSleeper L).FairTo (Waiting.Action.Notifies c) := by
  refine Execution.fairTo_of_ended (fun _ => oneSleeper_ended) fun a ha => ?_
  cases a with
  | notifyOne c w => cases w <;> simp [Waiting.Enabled, oneSleeper_end.2.2.1]
  | _ => cases ha

end Sleeper

/-- The call that sleeps at the seventh moment returns, with 130. -/
theorem every_call_returns_sleeper : ∃ a E L, setExpression .standard oneFieldEngine ['t']
      Jit.gtPool.storage Jit.gtPool.annot (some 2) .BIT_SLICED = .ok (a, E) ∧
    E.exprLogic = [(['t'], L)] ∧ (∀ w, (oneSleeper L).FairTo (Waiting.Action.Of w)) ∧
    (oneSleeper L).FairTo (Waiting.Action.Waits ()) ∧
    (((oneSleeper L).state 7).blocked () = true ∧ ((oneSleeper L).state 7).pool.enqueued () = 2) ∧
    (∃ m ≥ 7, ((oneSleeper L).state m).pool.returned () = true) ∧
    (twoTasks L).aggregate (fun t => ((oneSleeper L).state 18).pool.results ((), t)) =
      some 130 := by
  obtain ⟨a, E, L, hset, hL, hrun⟩ := twoTasks_run
  obtain ⟨hright, hreturns⟩ := every_call_returns (fun _ => twoTasks L) (oneSleeper L)
  have hwaits : (oneSleeper L).FairTo (Waiting.Action.Waits ()) := by
    refine Execution.fairTo_of_ended (fun _ => oneSleeper_ended) fun a ha => ?_
    cases a with
    | waitAll c => simp [Waiting.Enabled, oneSleeper_end.2.2.2.1]
    | _ => cases ha
  have hseven : ((oneSleeper L).state 7).blocked () = true ∧
      ((oneSleeper L).state 7).pool.enqueued () = 2 := by
    simp [Execution.state, oneSleeper, stateAt, Waiting.step, Waiting.start, Waiting.Quiet, step,
      start]
  exact ⟨a, E, L, hset, hL, oneSleeper_workers, hwaits, hseven,
    hreturns oneSleeper_workers oneSleeper_notifies () hwaits (by rw [twoTasks_ranges]; decide) 7
      (hseven.2.trans (by rw [twoTasks_ranges]; rfl)),
    (hright 18 () oneSleeper_end.2.2.2.1).trans hrun⟩

/-- The destructor that has set `stop_` returns, and the slots hold the counts of the tasks. -/
theorem destructor_returns_sleeper : ∃ a E L, setExpression .standard oneFieldEngine ['t']
      Jit.gtPool.storage Jit.gtPool.annot (some 2) .BIT_SLICED = .ok (a, E) ∧
    E.exprLogic = [(['t'], L)] ∧ (oneSleeper L).FairTo Waiting.Action.Destroys ∧
    ((oneSleeper L).state 15).stop = true ∧
    (∃ m ≥ 15, ((oneSleeper L).state m).destructor = .returned) ∧
    ((oneSleeper L).state 18).pool.executed.count ((), 1) = 1 ∧
    (twoTasks L).aggregate (fun t => ((oneSleeper L).state 18).pool.results ((), t)) =
      some 130 := by
  obtain ⟨a, E, L, hset, hL, hrun⟩ := twoTasks_run
  obtain ⟨hdrained, hreturns⟩ := destructor_returns (fun _ => twoTasks L) (oneSleeper L)
  have hdestroys : (oneSleeper L).FairTo Waiting.Action.Destroys := by
    refine Execution.fairTo_of_ended (fun _ => oneSleeper_ended) fun a ha => ?_
    cases a with
    | notifyAll => simp [Waiting.Enabled, oneSleeper_end.2.2.2.2]
    | join => simp [Waiting.Enabled, oneSleeper_end.2.2.2.2]
    | _ => cases ha
  have hstop : ((oneSleeper L).state 15).stop = true := by
    simp [Execution.state, oneSleeper, stateAt, Waiting.step, Waiting.start, Waiting.Quiet, step,
      start]
  have henqueued : ∀ t < 2, ((oneSleeper L).state 18).pool.Enqueued ((), t) := fun t ht => by
    simpa [Execution.state, oneSleeper, stateAt, Waiting.step, Waiting.start, Waiting.Quiet, step,
      start, Pool.Enqueued] using ht
  have hdone := fun t ht => hdrained 18 oneSleeper_end.2.2.2.2 _ (henqueued t ht)
  refine ⟨a, E, L, hset, hL, hdestroys, hstop,
    hreturns oneSleeper_workers oneSleeper_notifies hdestroys 15 hstop,
    (hdone 1 (by decide)).1, (Call.aggregate_eq_run fun t ht => (hdone t ?_).2).trans hrun⟩
  rwa [twoTasks_ranges] at ht

end ParallelRunner
end Engine
end AarchGate
