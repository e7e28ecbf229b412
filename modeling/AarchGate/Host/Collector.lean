/-
# The batch collector

`SyscallBatchCollector` of `src/host/main.cpp`.  `add_event` classifies an event, stops the
machine on a violation, and otherwise pushes the record; any number of threads may be in
it.  The worker (`process_queue`) takes 64 records at a time into a buffer it reuses,
and evaluates the batch with the lock released.

Each section under a mutex is one action, and so are the evaluation of a batch and the
calls of the policy engine from elsewhere.  Whether the machine is running when
`add_event` asks is part of the action.  The messages for the monitor are in
`Host.Monitor`, and `stop_` is not set.

* No record is lost, doubled or moved: the batches and what is pending are the records of
  the calls that have pushed, in this order (`Delivered`).
* When the machine is running at every event, what is pushed is not a violation, so every
  batch evaluates to zero (`Clean`).
-/

import AarchGate.Host.PolicyJit

namespace AarchGate
namespace Host

open A64 (Word)
open Compute (ColumnBuffer)
open Engine (Platform ApexEngine)
open Ir (Built NodePool)
open Trace (Along run run_append)

/-- Where a call of `add_event` is. -/
inductive AddEvent where
  | notCalled
  | classified (record : SyscallTraceRecord)
  -- it has returned: the kill path has fired, or the record was pushed
  | killed (record : SyscallTraceRecord)
  | pushed (record : SyscallTraceRecord)

/-- Where the worker is in `process_queue`. -/
inductive ProcessQueue where
  | waiting
  | evaluating
  | stopped
  deriving DecidableEq

/-- `SyscallBatchCollector` with the policy engine it uses; the calls of `add_event` are the
elements of `K`. -/
structure SyscallBatchCollector (K : Type) where
  tree : ProcessTree
  engine : ApexEngine
  pendingRecords : List SyscallTraceRecord
  evalBatch : List SyscallTraceRecord
  worker : ProcessQueue
  addEvent : K → AddEvent
  -- the calls that have pushed, with their records, and the batches that were evaluated, with
  -- what `evaluate_batch` returned
  pushed : List (K × SyscallTraceRecord)
  evaluated : List (List SyscallTraceRecord × Option Word)

namespace SyscallBatchCollector

/-- The sections. -/
inductive Action (K : Type) where
  | policy (c : Call)
  | classify (c : K) (running : Bool)
  | push (c : K)
  | extract
  | evaluate (data : ℕ → BitVec 8)

variable {K : Type} [DecidableEq K]

section Model

variable (PF : Platform) (event : K → SyscallEvent)

/-- The collector when its worker starts. -/
def start (tree : ProcessTree) (engine : ApexEngine) : SyscallBatchCollector K where
  tree := tree
  engine := engine
  pendingRecords := []
  evalBatch := List.replicate 64 ⟨0, 0, 0, 0, 0, 0⟩
  worker := .waiting
  addEvent _ := .notCalled
  pushed := []
  evaluated := []

/-- When a thread gets through a section; the memory of a batch holds its records. -/
def Enabled (s : SyscallBatchCollector K) : Action K → Prop
  | .policy _ => True
  | .classify c _ => s.addEvent c = .notCalled
  | .push c => ∃ record, s.addEvent c = .classified record
  | .extract => s.worker = .waiting ∧ 64 ≤ s.pendingRecords.length
  | .evaluate data => s.worker = .evaluating ∧ InMemory data s.evalBatch

/-- What a section does. -/
def step (s : SyscallBatchCollector K) : Action K → SyscallBatchCollector K
  | .policy c => { s with tree := Host.step s.tree c }
  | .classify c running =>
    let (record, tree) := processEvent s.tree (event c)
    { s with
      tree := tree
      addEvent := Function.update s.addEvent c
        (if isViolation record && running then .killed record else .classified record) }
  | .push c =>
    match s.addEvent c with
    | .classified record =>
      { s with
        pendingRecords := s.pendingRecords ++ [record]
        addEvent := Function.update s.addEvent c (.pushed record)
        pushed := s.pushed ++ [(c, record)] }
    | _ => s
  | .extract =>
    -- the copy overwrites the first 64 places of the buffer
    { s with
      evalBatch := s.pendingRecords.take 64 ++ s.evalBatch.drop 64
      pendingRecords := s.pendingRecords.drop 64
      worker := .evaluating }
  | .evaluate data =>
    match evaluateBatch PF s.engine data 64 with
    | some (violations, engine) =>
      { s with
        engine := engine
        worker := if violations > 0 then .stopped else .waiting
        evaluated := s.evaluated ++ [(s.evalBatch, some violations)] }
    | none => { s with worker := .stopped, evaluated := s.evaluated ++ [(s.evalBatch, none)] }

end Model

/-- The batches that were passed to `evaluate_batch`, with the one under way. -/
def batches (s : SyscallBatchCollector K) : List (List SyscallTraceRecord) :=
  s.evaluated.map Prod.fst ++ if s.worker = .evaluating then [s.evalBatch] else []

/-! ### No record is lost -/

/-- **What the collector has delivered**: the batches and what is pending are the records that
were pushed, in this order, each of another call. -/
structure Delivered (s : SyscallBatchCollector K) : Prop where
  flow : s.batches.flatten ++ s.pendingRecords = s.pushed.map Prod.snd
  nodup : (s.pushed.map Prod.fst).Nodup
  mem : ∀ c record, (c, record) ∈ s.pushed ↔ s.addEvent c = .pushed record
  buffer : s.evalBatch.length = 64
  sizes : ∀ batch ∈ s.batches, batch.length = 64

omit [DecidableEq K] in
/-- Before any call. -/
theorem delivered_start (tree : ProcessTree) (engine : ApexEngine) :
    Delivered (start tree engine : SyscallBatchCollector K) := by
  constructor <;> simp [start, batches]

section Step

variable {PF : Platform} {event : K → SyscallEvent} {s : SyscallBatchCollector K}

/-- `addEvent` classifies. -/
theorem Delivered.classify (h : Delivered s) {c : K} (hc : s.addEvent c = .notCalled)
    (running : Bool) : Delivered (step PF event s (.classify c running)) where
  flow := h.flow
  nodup := h.nodup
  mem c' record := by
    rw [show (step PF event s (.classify c running)).pushed = s.pushed from rfl, h.mem]
    by_cases hcc : c' = c
    · subst hcc
      simp only [step, Function.update_self, hc]
      split_ifs <;> simp
    · simp only [step, Function.update_of_ne hcc]
  buffer := h.buffer
  sizes := h.sizes

/-- And pushes. -/
theorem Delivered.push (h : Delivered s) {c : K} {record : SyscallTraceRecord}
    (hc : s.addEvent c = .classified record) : Delivered (step PF event s (.push c)) := by
  have hnew : ∀ r, (c, r) ∉ s.pushed := fun r hr => by
    rw [h.mem, hc] at hr
    cases hr
  have hbatches : (step PF event s (.push c)).batches = s.batches := by
    simp only [batches, step, hc]
  constructor
  · rw [hbatches]
    simp only [step, hc, List.map_append, List.map_singleton, ← h.flow, List.append_assoc]
  · simp only [step, hc, List.map_append, List.map_singleton]
    refine h.nodup.append (List.nodup_singleton c) (List.disjoint_singleton.2 fun hmem => ?_)
    obtain ⟨⟨c', r⟩, hr, rfl⟩ := List.mem_map.1 hmem
    exact hnew r hr
  · intro c' r
    simp only [step, hc, List.mem_append, List.mem_singleton, Prod.mk.injEq, h.mem]
    by_cases hcc : c' = c
    · subst hcc
      simp [hc, eq_comm]
    · simp [hcc]
  · simpa only [step, hc] using h.buffer
  · rw [hbatches]
    exact h.sizes

/-- The worker takes a batch. -/
theorem Delivered.extract (h : Delivered s) (hw : s.worker = .waiting)
    (h64 : 64 ≤ s.pendingRecords.length) : Delivered (step PF event s .extract) := by
  have hbatch : (step PF event s .extract).evalBatch = s.pendingRecords.take 64 := by
    rw [step, List.drop_eq_nil_of_le h.buffer.le, List.append_nil]
  have hbatches : (step PF event s .extract).batches = s.batches ++ [s.pendingRecords.take 64] := by
    rw [batches, hbatch, batches, hw]
    simp [step]
  have hlength : (s.pendingRecords.take 64).length = 64 := List.length_take_of_le h64
  constructor
  · rw [hbatches, List.flatten_append, List.append_assoc]
    simp [step, ← h.flow]
  · exact h.nodup
  · exact h.mem
  · rw [hbatch, hlength]
  · rw [hbatches]
    intro batch hmem
    rcases List.mem_append.1 hmem with hmem | hmem
    · exact h.sizes batch hmem
    · rw [List.mem_singleton.1 hmem, hlength]

/-- The evaluation of a batch adds it to those evaluated. -/
theorem step_evaluate (PF : Platform) (event : K → SyscallEvent) (s : SyscallBatchCollector K)
    (data : ℕ → BitVec 8) : ∃ engine worker v, worker ≠ .evaluating ∧
      step PF event s (.evaluate data) = { s with
        engine := engine, worker := worker, evaluated := s.evaluated ++ [(s.evalBatch, v)] } := by
  simp only [step]
  split
  · refine ⟨_, _, _, ?_, rfl⟩
    split_ifs <;> decide
  · exact ⟨_, _, _, by decide, rfl⟩

/-- And evaluates it. -/
theorem Delivered.evaluate (h : Delivered s) (hw : s.worker = .evaluating)
    (data : ℕ → BitVec 8) : Delivered (step PF event s (.evaluate data)) := by
  obtain ⟨engine, worker, v, hworker, hstep⟩ := step_evaluate PF event s data
  have hbatches : (step PF event s (.evaluate data)).batches = s.batches := by
    rw [hstep, batches, batches, if_neg hworker, if_pos hw, List.append_nil, List.map_append]
    rfl
  constructor
  · rw [hbatches, hstep]
    exact h.flow
  · rw [hstep]
    exact h.nodup
  · rw [hstep]
    exact h.mem
  · rw [hstep]
    exact h.buffer
  · rw [hbatches]
    exact h.sizes

/-- **One section** delivers what was pushed. -/
theorem Delivered.step (h : Delivered s) {a : Action K} (ha : Enabled s a) :
    Delivered (step PF event s a) := by
  cases a with
  | policy c => exact ⟨h.flow, h.nodup, h.mem, h.buffer, h.sizes⟩
  | classify c running => exact h.classify ha running
  | push c =>
    obtain ⟨record, hc⟩ := ha
    exact h.push hc
  | extract => exact h.extract ha.1 ha.2
  | evaluate data => exact h.evaluate ha.1 data

end Step

/-! ### Every batch is clean -/

/-- The machine is running when `add_event` asks. -/
def Action.Running : Action K → Prop
  | .classify _ running => running = true
  | _ => True

/-- **No violation is pushed**, and the engine is the one that was built but for its buffers. -/
structure Clean (engine : ApexEngine) (s : SyscallBatchCollector K) : Prop where
  classified : ∀ c record, s.addEvent c = .classified record → isViolation record = false
  pushed : ∀ x ∈ s.pushed, isViolation x.2 = false
  engine : ∃ bufs, s.engine = { engine with fieldBuffers := bufs }
  evaluated : ∀ x ∈ s.evaluated, x.2 = some 0
  worker : s.worker ≠ .stopped

omit [DecidableEq K] in
/-- Before any call. -/
theorem clean_start (tree : ProcessTree) (engine : ApexEngine) :
    Clean engine (start tree engine : SyscallBatchCollector K) := by
  constructor <;> simp [start]
  exact ⟨engine.fieldBuffers, rfl⟩

section Clean

variable {PF : Platform} {event : K → SyscallEvent} {s : SyscallBatchCollector K} {E : ApexEngine}

/-- `addEvent` classifies. -/
theorem Clean.classify (h : Clean E s) (c : K) :
    Clean E (step PF event s (.classify c true)) where
  classified c' record hrec := by
    by_cases hcc : c' = c
    · subst hcc
      simp only [step, Function.update_self, Bool.and_true] at hrec
      split_ifs at hrec with hviolation
      cases hrec
      exact Bool.eq_false_of_not_eq_true hviolation
    · simp only [step, Function.update_of_ne hcc] at hrec
      exact h.classified c' record hrec
  pushed := h.pushed
  engine := h.engine
  evaluated := h.evaluated
  worker := h.worker

/-- And pushes. -/
theorem Clean.push (h : Clean E s) {c : K} {record : SyscallTraceRecord}
    (hc : s.addEvent c = .classified record) : Clean E (step PF event s (.push c)) := by
  constructor <;> simp only [step, hc]
  · intro c' r hr
    by_cases hcc : c' = c
    · subst hcc
      rw [Function.update_self] at hr
      cases hr
    · rw [Function.update_of_ne hcc] at hr
      exact h.classified c' r hr
  · intro x hx
    rcases List.mem_append.1 hx with hx | hx
    · exact h.pushed x hx
    · rw [List.mem_singleton.1 hx]
      exact h.classified c record hc
  · exact h.engine
  · exact h.evaluated
  · exact h.worker

omit [DecidableEq K] in
/-- The batch under way holds records that were pushed. -/
theorem Delivered.batch_clean (hd : Delivered s) (h : Clean E s) (hw : s.worker = .evaluating) :
    ∀ record ∈ s.evalBatch, isViolation record = false := by
  intro record hrecord
  have hmem : record ∈ s.pushed.map Prod.snd := by
    rw [← hd.flow, batches, if_pos hw]
    simp [hrecord]
  obtain ⟨x, hx, rfl⟩ := List.mem_map.1 hmem
  exact h.pushed x hx

/-- A clean batch has no hit. -/
theorem Clean.evaluate {P : NodePool} (hP : Built P) (hinit : initJitSchema PF P = .ok E)
    (h : Clean E s) (hd : Delivered s) (hw : s.worker = .evaluating) {data : ℕ → BitVec 8}
    (hmem : InMemory data s.evalBatch) : Clean E (step PF event s (.evaluate data)) := by
  obtain ⟨bufs, hbufs⟩ := h.engine
  obtain ⟨E', hE'⟩ := evaluateBatch_clean hP hinit bufs hmem (hd.batch_clean h hw)
  rw [hd.buffer, ← hbufs] at hE'
  obtain ⟨bufs', hbufs'⟩ := evaluateBatch_engine hE'
  have hstep : step PF event s (.evaluate data) = { s with
      engine := E', worker := .waiting, evaluated := s.evaluated ++ [(s.evalBatch, some 0)] } := by
    simp only [step, hE']
    rfl
  rw [hstep]
  refine ⟨h.classified, h.pushed, ⟨bufs', by rw [hbufs', hbufs]⟩, ?_, by simp⟩
  intro x hx
  rcases List.mem_append.1 hx with hx | hx
  · exact h.evaluated x hx
  · rw [List.mem_singleton.1 hx]

/-- **One section**, with the machine running, pushes no violation and evaluates to zero. -/
theorem Clean.step {P : NodePool} (hP : Built P) (hinit : initJitSchema PF P = .ok E)
    (h : Clean E s) (hd : Delivered s) {a : Action K} (ha : Enabled s a) (hrun : a.Running) :
    Clean E (step PF event s a) := by
  cases a with
  | policy c => exact ⟨h.classified, h.pushed, h.engine, h.evaluated, h.worker⟩
  | classify c running =>
    cases hrun
    exact h.classify c
  | push c =>
    obtain ⟨record, hc⟩ := ha
    exact h.push hc
  | extract => exact ⟨h.classified, h.pushed, h.engine, h.evaluated, by simp [SyscallBatchCollector.step]⟩
  | evaluate data => exact h.evaluate hP hinit hd ha.1 ha.2

end Clean

/-- A process lists files. -/
def listing : SyscallEvent := bareEvent 7 1 eventOpen "ls".toList

/-- Its record. -/
def listingRecord : SyscallTraceRecord := (processEvent scriptTree listing).1

/-- A process lists files 64 times, and then the script opens a file with secrets. -/
def sampleEvent (c : ℕ) : SyscallEvent :=
  if c < 64 then listing else ⟨100, 50, eventOpen, "node".toList, ".env".toList⟩

/-- The first calls, one after the other. -/
def calls (n : ℕ) : List (Action ℕ) := (List.range n).flatMap fun c => [.classify c true, .push c]

/-- The collector after the first calls. -/
def filled (E : ApexEngine) (n : ℕ) : SyscallBatchCollector ℕ :=
  { (start scriptTree E : SyscallBatchCollector ℕ) with
    pendingRecords := List.replicate n listingRecord
    addEvent := fun c => if c < n then .pushed listingRecord else .notCalled
    pushed := (List.range n).map fun c => (c, listingRecord) }

section Filled

variable (E : ApexEngine) {n : ℕ}

/-- One more call. -/
theorem step_filled (hn : n < 64) : step .standard sampleEvent (step .standard sampleEvent
    (filled E n) (.classify n true)) (.push n) = filled E (n + 1) := by
  have hclassify : step .standard sampleEvent (filled E n) (.classify n true) =
      { filled E n with addEvent :=
          Function.update (filled E n).addEvent n (.classified listingRecord) } := by
    simp only [step, sampleEvent, if_pos hn]
    rfl
  have hpushed : Function.update (Function.update (filled E n).addEvent n
      (.classified listingRecord)) n (.pushed listingRecord) = (filled E (n + 1)).addEvent := by
    funext c
    rcases Nat.lt_trichotomy c n with h | h | h
    · rw [Function.update_of_ne h.ne, Function.update_of_ne h.ne]
      exact (if_pos h).trans (if_pos (Nat.lt_succ_of_lt h)).symm
    · rw [h, Function.update_self]
      exact (if_pos (Nat.lt_succ_self n)).symm
    · rw [Function.update_of_ne h.ne', Function.update_of_ne h.ne']
      exact (if_neg (by omega)).trans (if_neg (by omega)).symm
  rw [hclassify]
  simp only [step, Function.update_self, hpushed]
  simp [filled, List.range_succ, List.replicate_succ']

/-- **The first calls** fill the collector. -/
theorem calls_legal (hn : n ≤ 64) :
    Along (step .standard sampleEvent) Enabled (start scriptTree E) (calls n) ∧
      run (step .standard sampleEvent) (start scriptTree E) (calls n) = filled E n := by
  induction n with
  | zero => exact ⟨trivial, rfl⟩
  | succ n ih =>
    obtain ⟨hlegal, hrun⟩ := ih (by omega)
    have hcalls : calls (n + 1) = calls n ++ [.classify n true, .push n] := by
      simp [calls, List.range_succ]
    refine hcalls ▸ ⟨hlegal.append ?_, ?_⟩
    · rw [hrun]
      refine ⟨if_neg (Nat.lt_irrefl n), ⟨listingRecord, ?_⟩, trivial⟩
      simp only [step, sampleEvent, if_pos (show n < 64 from hn), Function.update_self]
      rfl
    · rw [run_append, hrun]
      exact step_filled E hn

end Filled

/-- A batch is filled, the kill path fires on the next call, and the worker takes the batch. -/
def batchActions : List (Action ℕ) :=
  calls 64 ++ [.classify 64 true, .extract, .evaluate (storeRecords (List.replicate 64 listingRecord))]

end SyscallBatchCollector

end Host
end AarchGate
