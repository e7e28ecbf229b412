/-
# The condition variable of the batch collector

`Host.Collector` lets the worker through when a batch is there.  In `src/host/main.cpp` the
worker waits for it on `cv_`: it evaluates the predicate with the mutex held, and if it is
false goes to sleep until it is notified or wakes up by itself.  `add_event` notifies under
the mutex when 64 records are pending.  The destructor sets `stop_` and notifies without the
mutex, and then joins the worker.

Between the predicate and the sleep the worker still holds the mutex (`committed`), so no
record is pushed then; but the destructor may set `stop_` and notify, and the worker sleeps
after that all the same.

* The worker does not sleep on a full batch (`Sound`), so all full batches are evaluated, if
  the worker is not held up forever (`batches_evaluated`).
* The destructor returns unless its notification falls between the predicate and the sleep of
  the worker; if it does, and nobody pushes a record or wakes the worker, the destructor waits
  forever (`destructor_returns_iff`).
-/

import AarchGate.Host.Collector
import AarchGate.Trace.Refine

namespace AarchGate
namespace Host

open A64 (Word)
open Engine (Platform ApexEngine)
open Trace (Along Execution Refinement run run_append)

namespace SyscallBatchCollector

/-- Where the worker is at `cv_.wait`: before the predicate, after it with the mutex held, in
the wait set, or out of its loop because of `stop_`. -/
inductive QueueWait where
  | looking
  | committed
  | asleep
  | exited
  deriving DecidableEq

/-- Where the destructor is. -/
inductive Destructor where
  | notCalled
  | stopSet
  | notified
  | joined
  deriving DecidableEq

/-- The collector with its condition variable. -/
structure Waiting (K : Type) where
  collector : SyscallBatchCollector K
  stop : Bool
  queue : QueueWait
  destructor : Destructor

namespace Waiting

/-- The sections, the sleep of the worker and its wakeups, and the destructor. -/
inductive Action (K : Type) where
  | policy (c : Call)
  | classify (c : K) (running : Bool)
  | push (c : K)
  | look
  | sleep
  | wake
  | evaluate (data : ℕ → BitVec 8)
  | setStop
  | notifyAll
  | join

/-- The actions of the worker. -/
def Action.OfWorker {K : Type} : Action K → Prop
  | .look => True
  | .sleep => True
  | .evaluate _ => True
  | _ => False

/-- The destructor joins the worker. -/
def Action.Joins {K : Type} : Action K → Prop
  | .join => True
  | _ => False

variable {K : Type} [DecidableEq K]

section Model

variable (PF : Platform) (event : K → SyscallEvent)

def start (tree : ProcessTree) (engine : ApexEngine) : Waiting K where
  collector := SyscallBatchCollector.start tree engine
  stop := false
  queue := .looking
  destructor := .notCalled

/-- When a thread can act.  A worker that has seen the predicate false holds the mutex. -/
def Enabled (s : Waiting K) : Action K → Prop
  | .policy c => s.collector.Enabled (.policy c)
  | .classify c running => s.collector.Enabled (.classify c running)
  | .push c => s.collector.Enabled (.push c) ∧ s.queue ≠ .committed
  | .look => s.collector.worker = .waiting ∧ s.queue = .looking
  | .sleep => s.queue = .committed
  | .wake => s.queue = .asleep
  | .evaluate data => s.collector.Enabled (.evaluate data)
  | .setStop => s.destructor = .notCalled
  | .notifyAll => s.destructor = .stopSet
  | .join => s.destructor = .notified ∧ (s.queue = .exited ∨ s.collector.worker = .stopped)

/-- A notification: the worker looks again if it sleeps. -/
def QueueWait.notified : QueueWait → QueueWait
  | .asleep => .looking
  | q => q

/-- What a thread does. -/
def step (s : Waiting K) : Action K → Waiting K
  | .policy c => { s with collector := s.collector.step PF event (.policy c) }
  | .classify c running => { s with collector := s.collector.step PF event (.classify c running) }
  | .push c =>
    let collector := s.collector.step PF event (.push c)
    { s with
      collector := collector
      queue := if 64 ≤ collector.pendingRecords.length then QueueWait.notified s.queue else s.queue }
  | .look =>
    -- `stop_` is read after the number of records, and once more after the wait
    if s.stop then { s with queue := .exited }
    else if 64 ≤ s.collector.pendingRecords.length then
      { s with collector := s.collector.step PF event .extract }
    else { s with queue := .committed }
  | .sleep => { s with queue := .asleep }
  | .wake => { s with queue := .looking }
  | .evaluate data => { s with collector := s.collector.step PF event (.evaluate data) }
  | .setStop => { s with stop := true, destructor := .stopSet }
  | .notifyAll => { s with queue := QueueWait.notified s.queue, destructor := .notified }
  | .join => { s with destructor := .joined }

/-- The section of the collector that an action is. -/
def sectionOf (s : Waiting K) : Action K → Option (SyscallBatchCollector.Action K)
  | .policy c => some (.policy c)
  | .classify c running => some (.classify c running)
  | .push c => some (.push c)
  | .look =>
    if s.stop = false ∧ 64 ≤ s.collector.pendingRecords.length then some .extract else none
  | .evaluate data => some (.evaluate data)
  | _ => none

end Model

section Refinement

variable (PF : Platform) (event : K → SyscallEvent)

/-- What the collector sees of a step. -/
theorem collector_step (s : Waiting K) (a : Action K) : (step PF event s a).collector =
    match sectionOf s a with
    | some b => s.collector.step PF event b
    | none => s.collector := by
  cases a with
  | look =>
    cases hstop : s.stop
    · by_cases h64 : 64 ≤ s.collector.pendingRecords.length <;>
        simp [step, sectionOf, hstop, h64]
    · simp [step, sectionOf, hstop]
  | _ => rfl

omit [DecidableEq K] in
/-- It may take its section. -/
theorem sectionOf_enabled {s : Waiting K} {a : Action K} (ha : Enabled s a)
    {b : SyscallBatchCollector.Action K} (hb : sectionOf s a = some b) : s.collector.Enabled b := by
  cases a with
  | policy c => cases hb; exact ha
  | classify c running => cases hb; exact ha
  | push c => cases hb; exact ha.1
  | look =>
    rw [sectionOf] at hb
    split_ifs at hb with h
    cases hb
    exact ⟨ha.1, h.2⟩
  | evaluate data => cases hb; exact ha
  | _ => cases hb

/-- **The collector with its condition variable refines the collector.** -/
def refinement : Refinement (step (K := K) PF event) Enabled
    (SyscallBatchCollector.step (K := K) PF event) SyscallBatchCollector.Enabled where
  state := Waiting.collector
  act := sectionOf
  enabled ha hb := sectionOf_enabled ha hb
  step_some {s a} _ _ hb := by rw [collector_step PF event s a, hb]
  step_none {s a} _ hb := by rw [collector_step PF event s a, hb]

end Refinement

/-! ### The worker does not sleep on a full batch -/

/-- **Where the worker is.**  It sleeps, or is about to, only between two batches and with less
than 64 records pending, and has left only if `stop_` is set. -/
structure Sound (s : Waiting K) : Prop where
  waiting : s.queue ≠ .looking → s.collector.worker = .waiting
  short : s.queue = .committed ∨ s.queue = .asleep → s.collector.pendingRecords.length < 64
  exited : s.queue = .exited → s.stop = true
  stop_iff : s.stop = true ↔ s.destructor ≠ .notCalled

omit [DecidableEq K] in
/-- Before anything is called. -/
theorem sound_start (tree : ProcessTree) (engine : ApexEngine) :
    Sound (start tree engine : Waiting K) := by
  constructor <;> simp [start, SyscallBatchCollector.start]

/-- What a notification does. -/
theorem notified_eq_iff {q : QueueWait} :
    (QueueWait.notified q = .looking ↔ q = .looking ∨ q = .asleep) ∧
    (QueueWait.notified q = .committed ↔ q = .committed) ∧
    (QueueWait.notified q = .exited ↔ q = .exited) ∧ QueueWait.notified q ≠ .asleep := by
  cases q <;> simp [QueueWait.notified]

section Sound

variable {PF : Platform} {event : K → SyscallEvent} {s : Waiting K}

variable (PF event) in
/-- A push adds a record. -/
theorem push_collector {c : K} (ha : s.collector.Enabled (.push c)) :
    (s.collector.step PF event (.push c)).worker = s.collector.worker ∧
    (s.collector.step PF event (.push c)).pendingRecords.length =
      s.collector.pendingRecords.length + 1 := by
  obtain ⟨record, hrecord⟩ := ha
  simp [SyscallBatchCollector.step, hrecord]

/-- A push keeps it. -/
theorem Sound.push (h : Sound s) {c : K} (ha : Enabled s (.push c)) :
    Sound (step PF event s (.push c)) := by
  obtain ⟨hworker, hlength⟩ := push_collector PF event ha.1
  have hcommitted := ha.2
  have hwaiting := h.waiting
  have hexited := h.exited
  constructor
  · simp only [step, hworker]
    split_ifs
    · intro hq
      exact hwaiting fun hq' => hq (notified_eq_iff.1.2 (Or.inl hq'))
    · exact hwaiting
  · simp only [step]
    split_ifs with h64
    · rintro (hq | hq)
      · exact absurd (notified_eq_iff.2.1.1 hq) hcommitted
      · exact absurd hq notified_eq_iff.2.2.2
    · exact fun _ => by omega
  · simp only [step]
    split_ifs
    · exact fun hq => hexited (notified_eq_iff.2.2.1.1 hq)
    · exact hexited
  · exact h.stop_iff

/-- So does a look at the queue. -/
theorem Sound.look (h : Sound s) (ha : Enabled s .look) : Sound (step PF event s .look) := by
  rw [step]
  split_ifs with hstop h64
  · exact { waiting := fun _ => ha.1, short := by simp, exited := fun _ => hstop
            stop_iff := h.stop_iff }
  · refine { waiting := fun hq => absurd ha.2 hq, short := ?_, exited := ?_
             stop_iff := h.stop_iff }
    · simp [ha.2]
    · simp [ha.2]
  · exact { waiting := fun _ => ha.1, short := fun _ => Nat.lt_of_not_le h64, exited := by simp
            stop_iff := h.stop_iff }

/-- **One action.** -/
theorem Sound.step (h : Sound s) {a : Action K} (ha : Enabled s a) : Sound (step PF event s a) := by
  cases a with
  | policy c => exact ⟨h.waiting, h.short, h.exited, h.stop_iff⟩
  | classify c running => exact ⟨h.waiting, h.short, h.exited, h.stop_iff⟩
  | push c => exact h.push ha
  | look => exact h.look ha
  | sleep =>
    rw [Enabled] at ha
    exact { waiting := fun _ => h.waiting (by simp [ha]), short := fun _ => h.short (Or.inl ha)
            exited := by simp [Waiting.step], stop_iff := h.stop_iff }
  | wake =>
    exact { waiting := by simp [Waiting.step], short := by simp [Waiting.step]
            exited := by simp [Waiting.step], stop_iff := h.stop_iff }
  | evaluate data =>
    have hlooking : s.queue = .looking := by
      by_contra hq
      have := h.waiting hq
      rw [ha.1] at this
      cases this
    refine { waiting := fun hq => absurd hlooking hq, short := ?_, exited := ?_
             stop_iff := h.stop_iff }
    · simp [Waiting.step, hlooking]
    · simp [Waiting.step, hlooking]
  | setStop =>
    exact { waiting := h.waiting, short := h.short, exited := fun _ => rfl
            stop_iff := by simp [Waiting.step] }
  | notifyAll =>
    rw [Enabled] at ha
    have hstop : s.stop = true := h.stop_iff.2 (by simp [ha])
    refine { waiting := ?_, short := ?_, exited := fun _ => hstop, stop_iff := ?_ }
    · exact fun hq => h.waiting fun hq' => hq (notified_eq_iff.1.2 (Or.inl hq'))
    · rintro (hq | hq)
      · exact h.short (Or.inl (notified_eq_iff.2.1.1 hq))
      · exact absurd hq notified_eq_iff.2.2.2
    · simp [Waiting.step, hstop]
  | join =>
    have hstop : s.stop = true := h.stop_iff.2 (by simp [ha.1])
    exact { waiting := h.waiting, short := h.short, exited := h.exited
            stop_iff := by simp [Waiting.step, hstop] }

end Sound

/-! ### Full batches are evaluated -/

section Step

variable {PF : Platform} {event : K → SyscallEvent} {s : Waiting K} {a : Action K}

variable (PF event) in
/-- What the other threads leave alone. -/
theorem other_step (ha : Enabled s a) (hnot : ¬a.OfWorker) :
    (step PF event s a).collector.worker = s.collector.worker ∧
    (step PF event s a).collector.evaluated = s.collector.evaluated ∧
    s.collector.pendingRecords.length ≤ (step PF event s a).collector.pendingRecords.length ∧
    (s.queue = .looking → (step PF event s a).queue = .looking) := by
  cases a with
  | push c =>
    obtain ⟨⟨record, hrecord⟩, -⟩ := ha
    simp only [step, SyscallBatchCollector.step, hrecord]
    refine ⟨trivial, trivial, by simp, fun hq => ?_⟩
    split_ifs
    · exact notified_eq_iff.1.2 (Or.inl hq)
    · exact hq
  | look => exact absurd trivial hnot
  | sleep => exact absurd trivial hnot
  | evaluate data => exact absurd trivial hnot
  | wake => exact ⟨rfl, rfl, le_rfl, fun _ => rfl⟩
  | notifyAll => exact ⟨rfl, rfl, le_rfl, fun hq => notified_eq_iff.1.2 (Or.inl hq)⟩
  | _ => exact ⟨rfl, rfl, le_rfl, id⟩

/-- Records stay pushed. -/
theorem pushed_step (s : Waiting K) (a : Action K) :
    s.collector.pushed <+: (step PF event s a).collector.pushed := by
  cases a with
  | push c =>
    simp only [step, SyscallBatchCollector.step]
    split
    · exact List.prefix_append ..
    · exact List.prefix_rfl
  | look =>
    rw [step]
    split_ifs <;> exact List.prefix_rfl
  | evaluate data =>
    obtain ⟨_, _, _, -, hstep⟩ := step_evaluate PF event s.collector data
    simp only [step, hstep]
    exact List.prefix_rfl
  | _ => exact List.prefix_rfl

end Step

section Fair

variable {PF : Platform} {event : K → SyscallEvent} {tree : ProcessTree} {engine : ApexEngine}
  {X : Execution (step PF event) Enabled (start tree engine)}

variable (X) in
/-- It holds at all times. -/
theorem sound_state (n : ℕ) : Sound (X.state n) :=
  Execution.invariant (fun _ _ h ha => h.step ha) (sound_start tree engine) n

variable (X) in
/-- So does the accounting. -/
theorem delivered_state (n : ℕ) : Delivered (X.state n).collector := by
  have := Execution.invariant (X := (refinement PF event).execution X)
    (fun _ _ h ha => h.step ha) (delivered_start tree engine) n
  rwa [Trace.Refinement.state_execution] at this

/-- The worker evaluates the batch it has taken. -/
theorem evaluates (hfair : X.FairTo Action.OfWorker) {n : ℕ}
    (hn : (X.state n).collector.worker = .evaluating) :
    ∃ m ≥ n, (X.state m).collector.worker ≠ .evaluating ∧
      (X.state m).collector.evaluated.length = (X.state n).collector.evaluated.length + 1 := by
  obtain ⟨m, hm, ⟨hworker, hlength⟩, a, ha, hown⟩ := hfair.acts
    (P := fun m => (X.state m).collector.worker = .evaluating ∧
      (X.state m).collector.evaluated.length = (X.state n).collector.evaluated.length)
    ⟨hn, rfl⟩
    (fun m _ hP hnot => Execution.next (I := fun s : Waiting K =>
        s.collector.worker = .evaluating ∧
          s.collector.evaluated.length = (X.state n).collector.evaluated.length) hP
      fun a ha hen => by
        obtain ⟨hworker, hevaluated, -⟩ := other_step PF event hen (hnot a ha)
        rwa [hworker, hevaluated])
    fun m _ hP => ⟨.evaluate _, trivial, hP.1, inMemory_storeRecords _⟩
  have hen := Execution.enabled ha
  cases a with
  | evaluate data =>
    obtain ⟨_, worker, _, hne, hstep⟩ := step_evaluate PF event (X.state m).collector data
    refine ⟨m + 1, by omega, ?_⟩
    rw [Execution.state_succ_some ha]
    simp only [step, hstep]
    exact ⟨hne, by simp [hlength]⟩
  | look => cases hworker.symm.trans hen.1
  | sleep =>
    have := (sound_state X m).waiting (by rw [show (X.state m).queue = .committed from hen]; simp)
    cases hworker.symm.trans this
  | _ => cases hown

/-- A worker between two batches that does not sleep looks at what is pending. -/
theorem looks (hfair : X.FairTo Action.OfWorker) {n : ℕ}
    (hn : (X.state n).collector.worker = .waiting) (hq : (X.state n).queue = .looking) :
    ∃ m ≥ n, X.act m = some .look ∧
      (X.state n).collector.pendingRecords.length ≤ (X.state m).collector.pendingRecords.length ∧
      (X.state m).collector.evaluated = (X.state n).collector.evaluated := by
  obtain ⟨m, hm, ⟨hworker, hqueue, hpending, hevaluated⟩, a, ha, hown⟩ := hfair.acts
    (P := fun m => (X.state m).collector.worker = .waiting ∧ (X.state m).queue = .looking ∧
      (X.state n).collector.pendingRecords.length ≤ (X.state m).collector.pendingRecords.length ∧
      (X.state m).collector.evaluated = (X.state n).collector.evaluated)
    ⟨hn, hq, le_rfl, rfl⟩
    (fun m _ hP hnot => Execution.next (I := fun s : Waiting K =>
        s.collector.worker = .waiting ∧ s.queue = .looking ∧
          (X.state n).collector.pendingRecords.length ≤ s.collector.pendingRecords.length ∧
          s.collector.evaluated = (X.state n).collector.evaluated) hP
      fun a ha hen => by
        obtain ⟨hworker, hevaluated, hpending, hqueue⟩ :=
          other_step PF event hen (hnot a ha)
        exact ⟨hworker.trans hP.1, hqueue hP.2.1, hP.2.2.1.trans hpending,
          hevaluated.trans hP.2.2.2⟩)
    fun m _ hP => ⟨.look, trivial, hP.1, hP.2.1⟩
  have hen := Execution.enabled ha
  cases a with
  | look => exact ⟨m, hm, ha, hpending, hevaluated⟩
  | evaluate data => cases hworker.symm.trans hen.1
  | sleep => cases hqueue.symm.trans hen
  | _ => cases hown

/-- Batches have 64 records. -/
theorem length_batches {α : Type} {L : List (List α)} (h : ∀ l ∈ L, l.length = 64) :
    L.flatten.length = 64 * L.length := by
  induction L with
  | nil => rfl
  | cons l L ih =>
    rw [List.flatten_cons, List.length_append, List.length_cons, h l List.mem_cons_self,
      ih fun l hl => h l (List.mem_cons_of_mem _ hl)]
    omega

variable (X) in
/-- A record is in a batch or pending. -/
theorem pending_length (n : ℕ) : 64 * (X.state n).collector.batches.length +
    (X.state n).collector.pendingRecords.length = (X.state n).collector.pushed.length := by
  have hd := delivered_state X n
  have := congrArg List.length hd.flow
  rwa [List.length_append, List.length_map, length_batches hd.sizes] at this

variable (X) in
/-- The batches that were evaluated are the first records that were pushed. -/
theorem evaluated_take {n j : ℕ} (hj : j ≤ (X.state n).collector.evaluated.length) :
    (((X.state n).collector.evaluated.map Prod.fst).take j).flatten =
      ((X.state n).collector.pushed.map Prod.snd).take (64 * j) := by
  have hd := delivered_state X n
  set s := (X.state n).collector
  have hpre : (s.evaluated.map Prod.fst).take j <+: s.batches :=
    (List.take_prefix ..).trans (List.prefix_append ..)
  have hlength : ((s.evaluated.map Prod.fst).take j).flatten.length = 64 * j := by
    rw [length_batches fun l hl => hd.sizes l (hpre.subset hl), List.length_take_of_le (by simpa)]
  obtain ⟨rest, hrest⟩ := hpre
  rw [← hd.flow, ← hrest, List.flatten_append, List.append_assoc, ← hlength, List.take_left]

/-- The worker goes on while a full batch is there. -/
theorem advances (hfair : X.FairTo Action.OfWorker) {n : ℕ}
    (hn : 64 * ((X.state n).collector.evaluated.length + 1) ≤ (X.state n).collector.pushed.length) :
    ∃ m ≥ n, (X.state n).collector.evaluated.length + 1 ≤ (X.state m).collector.evaluated.length ∨
      (X.state m).stop = true ∨ (X.state m).collector.worker = .stopped := by
  have hevaluate : ∀ k ≥ n, (X.state k).collector.worker = .evaluating →
      (X.state k).collector.evaluated = (X.state n).collector.evaluated → ∃ m ≥ n,
      (X.state n).collector.evaluated.length + 1 ≤ (X.state m).collector.evaluated.length ∨
      (X.state m).stop = true ∨ (X.state m).collector.worker = .stopped := by
    intro k hk hworker hevaluated
    obtain ⟨m, hm, -, hlength⟩ := evaluates hfair hworker
    exact ⟨m, by omega, Or.inl (by rw [hlength, hevaluated])⟩
  cases hw : (X.state n).collector.worker with
  | stopped => exact ⟨n, le_rfl, Or.inr (Or.inr hw)⟩
  | evaluating => exact hevaluate n le_rfl hw rfl
  | waiting =>
    have hpending := pending_length X n
    rw [batches, hw, if_neg (by decide), List.append_nil, List.length_map] at hpending
    have h64 : 64 ≤ (X.state n).collector.pendingRecords.length := by omega
    cases hq : (X.state n).queue with
    | looking =>
      obtain ⟨m, hm, ha, hmore, hevaluated⟩ := looks hfair hw hq
      by_cases hstop : (X.state m).stop = true
      · exact ⟨m, hm, Or.inr (Or.inl hstop)⟩
      · have hnext := Execution.state_succ_some ha
        rw [step, if_neg hstop, if_pos (h64.trans hmore)] at hnext
        exact hevaluate (m + 1) (by omega) (by rw [hnext]; rfl) (by rw [hnext]; exact hevaluated)
    | committed => exact absurd ((sound_state X n).short (Or.inl hq)) (by omega)
    | asleep => exact absurd ((sound_state X n).short (Or.inr hq)) (by omega)
    | exited => exact ⟨n, le_rfl, Or.inr (Or.inl ((sound_state X n).exited hq))⟩

variable (X) in
/-- Records stay pushed. -/
theorem pushed_mono {n m : ℕ} (hnm : n ≤ m) :
    (X.state n).collector.pushed <+: (X.state m).collector.pushed :=
  Execution.stable (I := fun s : Waiting K => (X.state n).collector.pushed <+: s.collector.pushed)
    (fun s a h _ => h.trans (pushed_step s a)) hnm List.prefix_rfl

/-- Full batches are evaluated, if nothing stops. -/
theorem exists_evaluated (hfair : X.FairTo Action.OfWorker) {n : ℕ} (j : ℕ)
    (hj : 64 * j ≤ (X.state n).collector.pushed.length) :
    ∃ m ≥ n, j ≤ (X.state m).collector.evaluated.length ∨
      (X.state m).stop = true ∨ (X.state m).collector.worker = .stopped := by
  induction j with
  | zero => exact ⟨n, le_rfl, Or.inl (Nat.zero_le _)⟩
  | succ j ih =>
    obtain ⟨m, hm, hle | hend⟩ := ih (by omega)
    · have hmono := pushed_mono X hm
      by_cases hdone : j + 1 ≤ (X.state m).collector.evaluated.length
      · exact ⟨m, hm, Or.inl hdone⟩
      · have heq : (X.state m).collector.evaluated.length = j := by omega
        obtain ⟨k, hk, h⟩ := advances hfair (n := m) (by rw [heq]; exact hj.trans hmono.length_le)
        rw [heq] at h
        exact ⟨k, by omega, h⟩
    · exact ⟨m, hm, Or.inr hend⟩

/-! ### The destructor -/

/-- The worker has left its loop. -/
def Finished (s : Waiting K) : Prop := s.queue = .exited ∨ s.collector.worker = .stopped

/-- A finished worker stays so. -/
theorem finished_step {s : Waiting K} {a : Action K} (h : Finished s) (ha : Enabled s a) :
    Finished (step PF event s a) := by
  rcases h with hq | hw
  · left
    cases a with
    | push c =>
      simp only [step, hq]
      split_ifs <;> rfl
    | look => cases hq.symm.trans ha.2
    | sleep => cases hq.symm.trans ha
    | wake => cases hq.symm.trans ha
    | notifyAll => exact notified_eq_iff.2.2.1.2 hq
    | _ => exact hq
  · right
    by_cases hown : a.OfWorker
    · cases a with
      | look => cases hw.symm.trans ha.1
      | sleep => exact hw
      | evaluate data => cases hw.symm.trans ha.1
      | _ => cases hown
    · exact (other_step PF event ha hown).1.trans hw

/-- `stop_` is set and the worker cannot sleep any more. -/
def Woken (s : Waiting K) : Prop :=
  s.stop = true ∧ (s.queue = .looking ∨ s.queue = .exited) ∧
    (s.destructor = .notified ∨ s.destructor = .joined)

/-- It stays so until it is joined. -/
theorem woken_step {s : Waiting K} {a : Action K} (h : Woken s) (ha : Enabled s a) :
    Woken (step PF event s a) := by
  obtain ⟨hstop, hqueue, hd⟩ := h
  cases a with
  | push c =>
    refine ⟨hstop, ?_, hd⟩
    simp only [step]
    rcases hqueue with hq | hq <;> rw [hq] <;> split_ifs <;> simp [QueueWait.notified]
  | look =>
    rw [step, if_pos hstop]
    exact ⟨hstop, Or.inr rfl, hd⟩
  | sleep =>
    rw [Enabled] at ha
    simp [ha] at hqueue
  | wake => exact ⟨hstop, Or.inl rfl, hd⟩
  | setStop =>
    rw [Enabled] at ha
    simp [ha] at hd
  | notifyAll =>
    rw [Enabled] at ha
    simp [ha] at hd
  | join => exact ⟨hstop, hqueue, Or.inr rfl⟩
  | _ => exact ⟨hstop, hqueue, hd⟩

/-- The worker leaves. -/
theorem leaves (hfair : X.FairTo Action.OfWorker) {n : ℕ} (hn : ∀ m ≥ n, Woken (X.state m)) :
    ∃ m ≥ n, Finished (X.state m) := by
  have hwaiting : ∀ k ≥ n, (X.state k).collector.worker = .waiting → ∃ m ≥ n, Finished (X.state m) := by
    intro k hk hw
    rcases (hn k hk).2.1 with hq | hq
    · obtain ⟨m, hm, ha, -⟩ := looks hfair hw hq
      refine ⟨m + 1, by omega, Or.inl ?_⟩
      rw [Execution.state_succ_some ha, step, if_pos (hn m (by omega)).1]
    · exact ⟨k, hk, Or.inl hq⟩
  cases hw : (X.state n).collector.worker with
  | waiting => exact hwaiting n le_rfl hw
  | stopped => exact ⟨n, le_rfl, Or.inr hw⟩
  | evaluating =>
    obtain ⟨k, hk, hne, -⟩ := evaluates hfair hw
    cases hwk : (X.state k).collector.worker with
    | waiting => exact hwaiting k hk hwk
    | stopped => exact ⟨k, hk, Or.inr hwk⟩
    | evaluating => exact absurd hwk hne

/-- And is joined. -/
theorem joins (hfair : X.FairTo Action.OfWorker) (hjoins : X.FairTo Action.Joins) {n : ℕ}
    (hn : ∀ m ≥ n, Woken (X.state m)) : ∃ m ≥ n, (X.state m).destructor = .joined := by
  obtain ⟨k, hk, hfinished⟩ := leaves hfair hn
  by_contra hno
  push Not at hno
  obtain ⟨m, hm, a, ha, hown⟩ := hjoins k fun m hm =>
    ⟨.join, trivial, (hn m (by omega)).2.2.resolve_right (hno m (by omega)),
      Execution.stable (fun _ _ h ha => finished_step h ha) hm hfinished⟩
  cases a with
  | join =>
    refine hno (m + 1) (by omega) ?_
    rw [Execution.state_succ_some ha]
    rfl
  | _ => cases hown

/-- The worker has missed the notification. -/
def Missed (s : Waiting K) : Prop :=
  s.collector.worker = .waiting ∧ (s.queue = .committed ∨ s.queue = .asleep) ∧
    s.destructor = .notified

/-- A missed notification stays missed. -/
theorem missed_step {s : Waiting K} {a : Action K} (h : Missed s) (ha : Enabled s a)
    (hwake : a ≠ .wake) (hpush : ∀ c, a ≠ .push c) : Missed (step PF event s a) := by
  obtain ⟨hworker, hqueue, hd⟩ := h
  cases a with
  | push c => exact absurd rfl (hpush c)
  | wake => exact absurd rfl hwake
  | look =>
    obtain ⟨-, hq⟩ := ha
    simp [hq] at hqueue
  | sleep => exact ⟨hworker, Or.inr rfl, hd⟩
  | evaluate data => cases hworker.symm.trans ha.1
  | setStop => cases hd.symm.trans ha
  | notifyAll => cases hd.symm.trans ha
  | join =>
    rcases ha.2 with hq | hw
    · simp [hq] at hqueue
    · cases hworker.symm.trans hw
  | _ => exact ⟨hworker, hqueue, hd⟩

/-- A joined worker stays joined. -/
theorem joined_stays {n m : ℕ} (hnm : n ≤ m) (h : (X.state n).destructor = .joined) :
    (X.state m).destructor = .joined := by
  refine Execution.stable (I := fun s : Waiting K => s.destructor = .joined) ?_ hnm h
  intro s a h ha
  cases a with
  | look =>
    rw [step]
    split_ifs <;> exact h
  | setStop => cases h.symm.trans ha
  | notifyAll => cases h.symm.trans ha
  | join => cases h.symm.trans ha.1
  | _ => exact h

end Fair

section Results

variable {PF : Platform} {event : K → SyscallEvent} {tree : ProcessTree} {engine : ApexEngine}
  (X : Execution (step PF event) Enabled (start tree engine))

/-- **Every full batch is evaluated.**  However the calls of `add_event` interleave with the
worker, and whenever it sleeps: once `64 * j` records have been pushed the first `j` batches
that are evaluated are these records, in this order, unless `stop_` is set before or the worker
has found a violation, and if the worker is not held up forever. -/
theorem batches_evaluated (hfair : X.FairTo Action.OfWorker) {n j : ℕ}
    (hj : 64 * j ≤ (X.state n).collector.pushed.length) :
    ∃ m ≥ n, (j ≤ (X.state m).collector.evaluated.length ∧
        (((X.state m).collector.evaluated.map Prod.fst).take j).flatten =
          ((X.state n).collector.pushed.map Prod.snd).take (64 * j)) ∨
      (X.state m).stop = true ∨ (X.state m).collector.worker = .stopped := by
  obtain ⟨m, hm, hle | hend⟩ := exists_evaluated hfair j hj
  · obtain ⟨later, hlater⟩ := pushed_mono X hm
    refine ⟨m, hm, Or.inl ⟨hle, ?_⟩⟩
    rw [evaluated_take X hle, ← hlater, List.map_append,
      List.take_append_of_le_length (by simpa using hj)]
  · exact ⟨m, hm, Or.inr hend⟩

end Results

/-! ### A run of the worker -/

/-- The action that is a section of the collector; the worker that looks takes a full batch. -/
def Action.ofSection {K : Type} : SyscallBatchCollector.Action K → Action K
  | .policy c => .policy c
  | .classify c running => .classify c running
  | .push c => .push c
  | .extract => .look
  | .evaluate data => .evaluate data

section OfSection

variable (PF : Platform) (event : K → SyscallEvent)

/-- A section while the worker does not sleep. -/
theorem step_ofSection {s : Waiting K} (hstop : s.stop = false) (hq : s.queue = .looking)
    {a : SyscallBatchCollector.Action K} (ha : s.collector.Enabled a) :
    Enabled s (.ofSection a) ∧ step PF event s (.ofSection a) =
      { s with collector := s.collector.step PF event a } := by
  cases a with
  | push c =>
    refine ⟨⟨ha, by simp [hq]⟩, ?_⟩
    simp only [Action.ofSection, step, hq, QueueWait.notified, ite_self]
  | extract => exact ⟨⟨ha.1, hq⟩, by simp [Action.ofSection, step, hstop, ha.2]⟩
  | policy _ | classify _ _ | evaluate _ => exact ⟨ha, rfl⟩

/-- **While the worker does not sleep**, the collector runs as without its condition variable. -/
theorem along_ofSection {as : List (SyscallBatchCollector.Action K)} : ∀ {s : Waiting K},
    s.stop = false → s.queue = .looking →
    Along (SyscallBatchCollector.step PF event) SyscallBatchCollector.Enabled s.collector as →
    Along (step PF event) Enabled s (as.map .ofSection) ∧
      run (step PF event) s (as.map .ofSection) =
        { s with collector := run (SyscallBatchCollector.step PF event) s.collector as } := by
  induction as with
  | nil => exact fun _ _ _ => ⟨trivial, rfl⟩
  | cons a as ih =>
    intro s hstop hq h
    obtain ⟨ha, hstep⟩ := step_ofSection PF event hstop hq h.1
    obtain ⟨has, hrun⟩ := ih (s := { s with collector := s.collector.step PF event a }) hstop hq h.2
    refine ⟨⟨ha, ?_⟩, ?_⟩
    · rw [hstep]
      exact has
    · show run (step PF event) (step PF event s (.ofSection a)) _ = _
      rw [hstep]
      exact hrun

end OfSection

/-- 64 calls, one after the other, and then the worker takes them, evaluates them and sleeps. -/
def filling : List (Action ℕ) := (calls 64).map .ofSection ++
  [.look, .evaluate (storeRecords (List.replicate 64 listingRecord)), .look, .sleep]

/-- The collector when the batch has been evaluated. -/
def emptied : SyscallBatchCollector ℕ :=
  { filled ApexEngine.init 64 with
    pendingRecords := []
    evalBatch := List.replicate 64 listingRecord
    evaluated := [(List.replicate 64 listingRecord, some 0)] }

/-- The worker takes the batch and evaluates it. -/
theorem evaluate_filled (data : ℕ → BitVec 8) :
    ((filled ApexEngine.init 64).step .standard sampleEvent .extract).step .standard sampleEvent
      (.evaluate data) = emptied := by
  simp only [SyscallBatchCollector.step,
    evaluateBatch_empty (E := (filled ApexEngine.init 64).engine) rfl]
  rfl

/-- The calls. -/
theorem calls_filled : Along (step .standard sampleEvent) Enabled (start scriptTree ApexEngine.init)
      ((calls 64).map .ofSection) ∧
    run (step .standard sampleEvent) (start scriptTree ApexEngine.init) ((calls 64).map .ofSection) =
      ⟨filled ApexEngine.init 64, false, .looking, .notCalled⟩ := by
  obtain ⟨hcalls, hfilled⟩ := calls_legal ApexEngine.init (n := 64) le_rfl
  obtain ⟨hlegal, hrun⟩ := along_ofSection .standard sampleEvent
    (s := start scriptTree ApexEngine.init) rfl rfl hcalls
  refine ⟨hlegal, hrun.trans ?_⟩
  rw [start, hfilled]

/-- The calls, and what is left when the worker sleeps. -/
theorem filling_legal : Along (step .standard sampleEvent) Enabled
      (start scriptTree ApexEngine.init) filling ∧
    run (step .standard sampleEvent) (start scriptTree ApexEngine.init) filling =
      ⟨emptied, false, .asleep, .notCalled⟩ := by
  obtain ⟨hlegal, hrun⟩ := calls_filled
  -- the worker finds nothing more to do
  have hlook : ∀ data, step .standard sampleEvent (step .standard sampleEvent
      ⟨filled ApexEngine.init 64, false, .looking, .notCalled⟩ .look) (.evaluate data) =
        ⟨emptied, false, .looking, .notCalled⟩ := fun data =>
    congrArg (fun c => (⟨c, false, .looking, .notCalled⟩ : Waiting ℕ)) (evaluate_filled data)
  refine ⟨hlegal.append ?_, ?_⟩
  · rw [hrun]
    refine ⟨⟨rfl, rfl⟩, ⟨rfl, inMemory_storeRecords _⟩, ?_⟩
    rw [show step .standard sampleEvent _ (.evaluate _) = _ from hlook _]
    exact ⟨⟨rfl, rfl⟩, rfl, trivial⟩
  · rw [filling, run_append, hrun]
    exact congrArg (fun s => step .standard sampleEvent (step .standard sampleEvent s .look) .sleep)
      (hlook _)

/-- The run of `filling`. -/
def fillingRun : Execution (step .standard sampleEvent) Enabled
    (start scriptTree ApexEngine.init : Waiting ℕ) := .ofRun filling_legal.1

theorem batches_evaluated_listing : fillingRun.FairTo Action.OfWorker ∧
    (fillingRun.state 128).collector.pushed.length = 64 ∧
    ∃ m ≥ 128, (1 ≤ (fillingRun.state m).collector.evaluated.length ∧
        (((fillingRun.state m).collector.evaluated.map Prod.fst).take 1).flatten =
          ((fillingRun.state 128).collector.pushed.map Prod.snd).take 64) ∨
      (fillingRun.state m).stop = true ∨ (fillingRun.state m).collector.worker = .stopped := by
  have hfair : fillingRun.FairTo Action.OfWorker := by
    refine Execution.fairTo_ofRun _ fun a ha => ?_
    rw [filling_legal.2]
    cases a with
    | look | sleep => simp [Enabled]
    | evaluate data => exact fun hen => by cases hen.1
    | _ => cases ha
  have hlength : (fillingRun.state 128).collector.pushed.length = 64 := by
    have htake : filling.take 128 = (calls 64).map .ofSection := List.take_left' rfl
    rw [fillingRun, Execution.state_ofRun, htake, calls_filled.2]
    rfl
  exact ⟨hfair, hlength, batches_evaluated fillingRun hfair (n := 128) (j := 1) hlength.ge⟩

section Results

variable {PF : Platform} {event : K → SyscallEvent} {tree : ProcessTree} {engine : ApexEngine}
  (X : Execution (step PF event) Enabled (start tree engine))

/-- **When the destructor returns.**  After its `notify_all`, with nobody pushing a record or
waking the worker up any more, it returns if and only if the worker was not between its
predicate and its sleep at that moment. -/
theorem destructor_returns_iff (hfair : X.FairTo Action.OfWorker) (hjoins : X.FairTo Action.Joins)
    {n : ℕ} (hn : X.act n = some .notifyAll)
    (hlast : ∀ m > n, X.act m ≠ some .wake ∧ ∀ c, X.act m ≠ some (.push c)) :
    (∃ m, (X.state m).destructor = .joined) ↔ (X.state n).queue ≠ .committed := by
  have hen : (X.state n).destructor = .stopSet := Execution.enabled hn
  have hstop : (X.state n).stop = true := (sound_state X n).stop_iff.2 (by simp [hen])
  have hnext := Execution.state_succ_some hn
  constructor
  · rintro ⟨m, hm⟩ hcommitted
    have hmissed : ∀ k ≥ n + 1, Missed (X.state k) := by
      intro k hk
      induction k, hk using Nat.le_induction with
      | base =>
        rw [hnext]
        exact ⟨(sound_state X n).waiting (by simp [hcommitted]),
          Or.inl (notified_eq_iff.2.1.2 hcommitted), rfl⟩
      | succ k hk ih =>
        refine Execution.next ih fun a ha hen => missed_step ih hen ?_ ?_
        · rintro rfl
          exact (hlast k (by omega)).1 ha
        · rintro c rfl
          exact (hlast k (by omega)).2 c ha
    have hlater := joined_stays (le_max_left m (n + 1)) hm
    cases hlater.symm.trans (hmissed _ (le_max_right m (n + 1))).2.2
  · intro hqueue
    have hwoken : Woken (X.state (n + 1)) := by
      rw [hnext]
      refine ⟨hstop, ?_, Or.inl rfl⟩
      cases hq : (X.state n).queue <;> simp_all [step, QueueWait.notified]
    obtain ⟨m, -, hm⟩ := joins hfair hjoins fun m hm =>
      Execution.stable (fun _ _ h ha => woken_step h ha) hm hwoken
    exact ⟨m, hm⟩

end Results

/-- The worker sleeps when it is notified, or is about to. -/
def shuttingDown (inTime : Bool) : List (Action ℕ) :=
  if inTime then [.look, .sleep, .setStop, .notifyAll, .look, .join]
  else [.look, .setStop, .notifyAll, .sleep]

/-- The run of `shuttingDown`. -/
def shutdownRun (inTime : Bool) : Execution (step .standard sampleEvent) Enabled
    (start scriptTree ApexEngine.init : Waiting ℕ) where
  act n := (shuttingDown inTime)[n]?
  legal n a ha := by
    have hn := (List.getElem?_eq_some_iff.1 ha).1
    cases inTime <;> simp only [shuttingDown] at hn <;> simp at hn <;>
      interval_cases n <;> cases ha <;>
      simp [Trace.stateAt, shuttingDown, step, Enabled, start, SyscallBatchCollector.start,
        QueueWait.notified]

/-- The run ends there. -/
theorem shutdownRun_end (inTime : Bool) : (shutdownRun inTime).state 6 =
    { (start scriptTree ApexEngine.init : Waiting ℕ) with
      stop := true
      queue := if inTime then .exited else .asleep
      destructor := if inTime then .joined else .notified } := by
  cases inTime <;> rfl

/-- The run is fair. -/
theorem shutdownRun_fair (inTime : Bool) : (shutdownRun inTime).FairTo Action.OfWorker ∧
    (shutdownRun inTime).FairTo Action.Joins := by
  have hend : ∀ m ≥ 6, (shutdownRun inTime).act m = none := fun m hm =>
    List.getElem?_eq_none (by cases inTime <;> simp [shuttingDown] <;> omega)
  refine ⟨Execution.fairTo_of_ended hend fun a ha => ?_,
    Execution.fairTo_of_ended hend fun a ha => ?_⟩
  all_goals rw [shutdownRun_end]
  · cases a with
    | look => cases inTime <;> simp [Enabled]
    | sleep => cases inTime <;> simp [Enabled]
    | evaluate data =>
      simp [Enabled, SyscallBatchCollector.Enabled, start, SyscallBatchCollector.start]
    | _ => cases ha
  · cases a with
    | join => cases inTime <;> simp [Enabled, start, SyscallBatchCollector.start]
    | _ => cases ha

theorem destructor_returns_iff_both : (∃ m, ((shutdownRun true).state m).destructor = .joined) ∧
    ¬∃ m, ((shutdownRun false).state m).destructor = .joined := by
  have hlast : ∀ b m, (shutdownRun b).act m ≠ some .wake ∧
      ∀ c, (shutdownRun b).act m ≠ some (.push c) := by
    intro b m
    have hmem : ∀ a, (shutdownRun b).act m = some a → a ∈ shuttingDown b := fun a ha =>
      List.mem_of_getElem? ha
    constructor
    · intro h
      have := hmem _ h
      cases b <;> simp [shuttingDown] at this
    · intro c h
      have := hmem _ h
      cases b <;> simp [shuttingDown] at this
  refine ⟨(destructor_returns_iff (shutdownRun true) (shutdownRun_fair true).1
    (shutdownRun_fair true).2 (n := 3) rfl fun m _ => hlast true m).2 (by decide), ?_⟩
  rw [destructor_returns_iff (shutdownRun false) (shutdownRun_fair false).1
    (shutdownRun_fair false).2 (n := 2) rfl fun m _ => hlast false m]
  exact not_not.2 rfl

end Waiting
end SyscallBatchCollector

end Host
end AarchGate
