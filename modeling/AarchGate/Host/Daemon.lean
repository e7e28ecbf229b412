/-
# The daemon

The threads of `src/host/main.cpp` together: the reader thread, which is in `add_event` for each
event (`Host/KillSwitch`), the detached threads that stop the machine, the worker that evaluates
the batches (`Host/Collector`), and `main`, which waits in `CFRunLoopRun`.

Two things stop the machine when there is a violation: `add_event` does it at once, and
`process_queue` after the evaluation of the batch.  The second never finds anything to do.  As long
as the machine runs, a violation does not get into a batch; and once it has stopped, the reader has
ended, unless it was started after a signal (`batches_find_nothing`).

It is the second, however, that calls `CFRunLoopStop`.  The threads of the first set `g_shutdown`
and notify `g_shutdown_cv`, for which `main` does not wait here: the daemon is built for macOS only.
So the kill switch stops the machine and leaves `main` in its loop until there is a signal
(`kill_switch_leaves_main`).

A section under a mutex is one action.  The machine has started and `main` is in its loop; what
`main` does after its call of `stop` is left out (`Host/CollectorWait` is about the destructor of
the collector), and so are the messages for the monitor.
-/

import AarchGate.Host.Collector
import AarchGate.Host.KillSwitch
import AarchGate.Trace.Refine

namespace AarchGate
namespace Host

open A64 (Word)
open Engine (Platform ApexEngine)
open Ir (Built NodePool)
open Trace (Along Execution Refinement run)

deriving instance DecidableEq for SyscallEvent

/-- A call of `add_event`: the number of the event, and the event. -/
abbrev EventCall : Type := ℕ × SyscallEvent

/-- The daemon.  `adding` is the call of `add_event` that has classified its event and not pushed
the record yet, `shutdown` is `g_shutdown`, `inLoop` says that `main` is in `CFRunLoopRun`, and
`ended` whether a thread has ended after its call of `stop`. -/
structure Daemon where
  vm : VMController
  collector : SyscallBatchCollector EventCall
  adding : Option EventCall
  shutdown : Bool
  inLoop : Bool
  ended : Caller → Bool

namespace Daemon

/-- What the threads do. -/
inductive Action where
  | controller (a : VMController.Action)
  | push
  | extract
  | evaluate (data : ℕ → BitVec 8)
  | signal
  | finish (c : Caller)

/-- The machine runs, and `main` is in its loop. -/
def start (tree : ProcessTree) (engine : ApexEngine) (events : List SyscallEvent) : Daemon where
  vm := VMController.start tree events
  collector := SyscallBatchCollector.start tree engine
  adding := none
  shutdown := false
  inLoop := true
  ended _ := false

/-- `add_event` up to the mutex: it has returned if the kill switch has fired. -/
def addEvent (PF : Platform) (s : Daemon) (e : SyscallEvent) (rest : List SyscallEvent) : Daemon :=
  let call : EventCall := (s.vm.records.length, e)
  { s with
    vm := s.vm.handleEvent e rest
    collector := s.collector.step PF Prod.snd (.classify call s.vm.running)
    adding := if isViolation (processEvent s.vm.tree e).1 && s.vm.running then none else some call }

/-- One step of one of the threads. -/
def step (PF : Platform) (s : Daemon) : Action → Daemon
  | .controller .handle =>
    match s.vm.reader with
    | .handling (e :: rest) => s.addEvent PF e rest
    | _ => s
  | .controller a => { s with vm := s.vm.step a }
  | .push =>
    match s.adding with
    | some call => { s with collector := s.collector.step PF Prod.snd (.push call), adding := none }
    | none => s
  | .extract => { s with collector := s.collector.step PF Prod.snd .extract }
  | .evaluate data => { s with collector := s.collector.step PF Prod.snd (.evaluate data) }
  -- `signal_handler`
  | .signal => { s with shutdown := true, inLoop := false }
  -- only the worker calls `CFRunLoopStop`
  | .finish c =>
    { s with
      shutdown := true
      inLoop := s.inLoop && c != .worker
      ended := Function.update s.ended c true }

/-- A batch with a violation has been evaluated. -/
def Found (s : Daemon) : Prop := ∃ x ∈ s.collector.evaluated, ∃ v, x.2 = some v ∧ 0 < v

/-- When an action can be taken.  The reader goes on when `add_event` has returned, the worker calls
`stop` after a batch with a violation, and `main` when it has left its loop. -/
def Enabled (s : Daemon) (a : Action) : Prop :=
  s.vm.failed = false ∧
    match a with
    | .controller .fire => s.Found ∧ s.vm.stop .worker = .notCalled
    | .controller a => VMController.Enabled (!s.inLoop) s.vm a ∧ (a.OfReader → s.adding = none)
    | .push => s.adding ≠ none
    | .extract => s.collector.Enabled .extract
    | .evaluate data => s.collector.Enabled (.evaluate data)
    | .signal => True
    | .finish c => c ≠ .main ∧ s.vm.stop c = .returned ∧ s.ended c = false

end Daemon

namespace VMController

variable {T : ProcessTree} {events : List SyscallEvent} {interrupted : Bool} {s : VMController}
  {a : Action}

/-- A signal may come at any time. -/
theorem Sound.interrupt (h : Sound T events interrupted s) : Sound T events true s :=
  ⟨h.stream, h.kills, fun _ => rfl, h.joiner, h.joining, h.ended, h.unconnected⟩

/-- A signal only allows more. -/
theorem Enabled.interrupt (ha : Enabled interrupted s a) : Enabled true s a := by
  cases a with
  | signal => exact ⟨ha.1, rfl, ha.2.2⟩
  | _ => exact ha

/-- Only `add_event` uses the policy engine. -/
theorem policy_step (hne : a ≠ .handle) :
    (s.step a).tree = s.tree ∧ (s.step a).records = s.records := by
  cases a with
  | handle => exact absurd rfl hne
  | stop c => exact (stopStep_frame s c).2
  | _ => exact ⟨rfl, rfl⟩

/-- The worker calls `stop` in one way. -/
theorem worker_step (ha : Enabled interrupted s a) (hw : (s.step a).stop .worker ≠ .notCalled) :
    s.stop .worker ≠ .notCalled ∨ a = .fire := by
  cases a with
  | fire => exact .inr rfl
  | signal =>
    refine .inl fun hno => hw ?_
    rw [step, goto_stop_ne _ (by simp), hno]
  | stop c =>
    refine .inl fun hno => ?_
    by_cases hc : c = .worker
    · exact ha.2.1 (hc ▸ hno)
    · exact hw ((stopStep_ne s (Ne.symm hc)).trans hno)
  | handle =>
    obtain ⟨e, rest, hr⟩ := ha.2
    refine .inl fun hno => hw ?_
    rw [step, hr]
    exact (handleEvent_stop_ne _ _ _ (by simp)).trans hno
  | _ => exact .inl hw

/-- A call of `stop` that has begun stays so. -/
theorem called_step (h : Sound T events interrupted s) (ha : Enabled interrupted s a) {c : Caller}
    (hc : s.stop c ≠ .notCalled) : (s.step a).stop c ≠ .notCalled := by
  rcases h.stop_step ha c with hsame | ⟨hno, -⟩ | rfl
  · exact hsame ▸ hc
  · exact absurd hno hc
  · rw [step, stopStep_self]
    exact next_ne_notCalled hc

/-- `stop` stays returned. -/
theorem returned_step (h : Sound T events interrupted s) (ha : Enabled interrupted s a) {c : Caller}
    (hc : s.stop c = .returned) : (s.step a).stop c = .returned := by
  rcases h.stop_step ha c with hsame | ⟨hno, -⟩ | rfl
  · exact hsame.trans hc
  · cases hc.symm.trans hno
  · exact absurd hc ha.2.2.1

end VMController

namespace Daemon

open SyscallBatchCollector (Clean Delivered)

/-! ### What holds at every point -/

/-- What the threads keep.  While the machine runs or `main` is in its loop, every violation has its
thread that stops the machine, and none has been pushed. -/
structure Sound (T : ProcessTree) (E : ApexEngine) (events : List SyscallEvent) (s : Daemon) :
    Prop where
  vm : VMController.Sound T events (!s.inLoop) s.vm
  tree : s.collector.tree = s.vm.tree
  delivered : Delivered s.collector
  called : ∀ call, s.collector.addEvent call ≠ .notCalled → call.1 < s.vm.records.length
  adding : ∀ call, s.adding = some call ↔ ∃ record, s.collector.addEvent call = .classified record
  worker : s.vm.stop .worker ≠ .notCalled → s.Found
  ended : ∀ c, s.ended c = true → s.shutdown = true
  quiet : s.inLoop = true → VMController.Quiet T events s.vm
  killed : s.vm.running = true ∨ s.inLoop = true → ∀ (n : ℕ) (record : SyscallTraceRecord),
    s.vm.records[n]? = some record → isViolation record = true → s.vm.stop (.kill n) ≠ .notCalled
  clean : s.vm.running = true ∨ s.inLoop = true → Clean E s.collector

section Sound

variable {PF : Platform} {T : ProcessTree} {E : ApexEngine} {events : List SyscallEvent} {s : Daemon}

/-- Before the run. -/
theorem sound_start (T : ProcessTree) (E : ApexEngine) (events : List SyscallEvent) :
    Sound T E events (start T E events) where
  vm := VMController.sound_start ..
  tree := rfl
  delivered := SyscallBatchCollector.delivered_start ..
  called _ h := absurd rfl h
  adding _ := by simp [start, SyscallBatchCollector.start]
  worker h := absurd rfl h
  ended _ h := by cases h
  quiet _ := VMController.quiet_start ..
  killed _ _ _ h := by cases h
  clean _ := SyscallBatchCollector.clean_start ..

/-- **Where the worker finds a violation**, the machine has stopped and `main` has left its
loop. -/
theorem Sound.found (h : Sound T E events s) (hfound : s.Found) :
    s.vm.running = false ∧ s.inLoop = false := by
  obtain ⟨x, hx, v, hv, hpos⟩ := hfound
  have hnot : ¬(s.vm.running = true ∨ s.inLoop = true) := fun hor => by
    rw [(h.clean hor).evaluated x hx] at hv
    obtain rfl := Option.some.inj hv
    exact absurd hpos (by decide)
  simpa only [not_or, Bool.not_eq_true] using hnot

/-- What the daemon does to its controller, the controller can do. -/
theorem Sound.enabled (h : Sound T E events s) {a : VMController.Action}
    (ha : Enabled s (.controller a)) : VMController.Enabled (!s.inLoop) s.vm a := by
  cases a with
  | fire => exact ⟨ha.1, (h.found ha.2.1).1, ha.2.2⟩
  | _ => exact ha.2.1

/-- An event is handled while the machine runs, or after a signal. -/
theorem Sound.running (h : Sound T E events s) {e : SyscallEvent} {rest : List SyscallEvent}
    (hr : s.vm.reader = .handling (e :: rest)) (hor : s.vm.running = true ∨ s.inLoop = true) :
    s.vm.running = true := by
  rcases hor with hrunning | hloop
  · exact hrunning
  · by_contra hstopped
    have hfinished := (h.quiet hloop).stopped (Bool.eq_false_iff.2 hstopped)
    rw [hr] at hfinished
    cases hfinished

/-- What was found stays found. -/
theorem found_mono {s s' : Daemon} (hevaluated : s.collector.evaluated ⊆ s'.collector.evaluated)
    (h : s.Found) : s'.Found := by
  obtain ⟨x, hx, hv⟩ := h
  exact ⟨x, hevaluated hx, hv⟩

/-- A step of the controller that handles no event. -/
theorem Sound.controller (h : Sound T E events s) {a : VMController.Action} (hne : a ≠ .handle)
    (ha : Enabled s (.controller a)) : Sound T E events { s with vm := s.vm.step a } := by
  have hvm := h.enabled ha
  obtain ⟨htree, hrecords⟩ := VMController.policy_step (s := s.vm) hne
  have hrunning : (s.vm.step a).running = true → s.vm.running = true := fun hr => by
    by_contra hstopped
    rw [VMController.running_step (Bool.eq_false_iff.2 hstopped)] at hr
    cases hr
  refine ⟨h.vm.step hvm, h.tree.trans htree.symm, h.delivered, ?_, h.adding, fun hw => ?_, h.ended,
    fun hloop => ?_, fun hor n record hn hv => ?_, fun hor => h.clean (hor.imp_left hrunning)⟩
  · intro call hcall
    rw [hrecords]
    exact h.called call hcall
  · show s.Found
    rcases VMController.worker_step hvm hw with hcalled | rfl
    · exact h.worker hcalled
    · exact ha.2.1
  · have hloop' : s.inLoop = true := hloop
    refine (h.quiet hloop').step ?_
    rwa [hloop'] at hvm
  · rw [hrecords] at hn
    exact VMController.called_step h.vm hvm (h.killed (hor.imp_left hrunning) n record hn hv)

/-- The collector goes on where no call of `add_event` is concerned. -/
theorem Sound.evaluating {P : NodePool} (hP : Built P) (hinit : initJitSchema PF P = .ok E)
    (h : Sound T E events s) {a : SyscallBatchCollector.Action EventCall}
    (ha : s.collector.Enabled a) (hrun : a.Running)
    (htree : (s.collector.step PF Prod.snd a).tree = s.collector.tree)
    (hadd : (s.collector.step PF Prod.snd a).addEvent = s.collector.addEvent)
    (hevaluated : s.collector.evaluated ⊆ (s.collector.step PF Prod.snd a).evaluated) :
    Sound T E events { s with collector := s.collector.step PF Prod.snd a } where
  vm := h.vm
  tree := htree.trans h.tree
  delivered := h.delivered.step ha
  called := by
    rw [hadd]
    exact h.called
  adding := by
    rw [hadd]
    exact h.adding
  worker hw := found_mono hevaluated (h.worker hw)
  ended := h.ended
  quiet := h.quiet
  killed := h.killed
  clean hor := (h.clean hor).step hP hinit h.delivered ha hrun

/-- A call of `addEvent`. -/
theorem Sound.addEvent (h : Sound T E events s) {e : SyscallEvent} {rest : List SyscallEvent}
    (hr : s.vm.reader = .handling (e :: rest)) (ha : Enabled s (.controller .handle)) :
    Sound T E events (s.addEvent PF e rest) := by
  have hvm := h.enabled ha
  have hnone : s.adding = none := ha.2.2 trivial
  have hstep : s.vm.step .handle = (s.addEvent PF e rest).vm := by
    rw [VMController.step, hr]
    rfl
  have hnew : s.collector.Enabled (.classify (s.vm.records.length, e) s.vm.running) := by
    by_contra hcalled
    exact absurd (h.called _ hcalled) (Nat.lt_irrefl _)
  have hdelivered : Delivered (s.collector.step PF Prod.snd
      (.classify (s.vm.records.length, e) s.vm.running)) := h.delivered.step hnew
  have hlength : (s.vm.handleEvent e rest).records.length = s.vm.records.length + 1 :=
    List.length_append
  -- the record of the collector is that of the controller
  have hrecord : processEvent s.collector.tree e = processEvent s.vm.tree e := by rw [h.tree]
  refine ⟨hstep ▸ h.vm.step hvm, ?_, hdelivered, fun call hcall => ?_, fun call => ?_, fun hw => ?_,
    h.ended, fun hloop => ?_, fun hor n record hn hv => ?_, fun hor => ?_⟩
  · exact congrArg Prod.snd hrecord
  · show call.1 < (s.vm.handleEvent e rest).records.length
    rw [hlength]
    by_cases hc : call = (s.vm.records.length, e)
    · rw [hc]
      exact Nat.lt_succ_self _
    · have hold : s.collector.addEvent call ≠ .notCalled := by
        intro hno
        exact hcall ((Function.update_of_ne hc ..).trans hno)
      exact Nat.lt_succ_of_lt (h.called call hold)
  · show (if isViolation (processEvent s.vm.tree e).1 && s.vm.running then none
      else some (s.vm.records.length, e)) = some call ↔ ∃ record, Function.update s.collector.addEvent
        (s.vm.records.length, e) (if isViolation (processEvent s.collector.tree e).1 && s.vm.running
          then .killed (processEvent s.collector.tree e).1
          else .classified (processEvent s.collector.tree e).1) call = .classified record
    rw [hrecord]
    by_cases hc : call = (s.vm.records.length, e)
    · subst hc
      rw [Function.update_self]
      split_ifs <;> simp
    · rw [Function.update_of_ne hc, ← h.adding, hnone]
      split_ifs <;> simp [Ne.symm hc]
  · rw [show (s.addEvent PF e rest).vm = s.vm.handleEvent e rest from rfl,
      VMController.handleEvent_stop_ne _ _ _ (by simp)] at hw
    exact h.worker hw
  · have hloop' : s.inLoop = true := hloop
    rw [hloop'] at hvm
    exact hstep ▸ (h.quiet hloop').step hvm
  · have hor' : s.vm.running = true ∨ s.inLoop = true := hor
    rcases Nat.lt_or_ge n s.vm.records.length with hlt | hge
    · have hn' : s.vm.records[n]? = some record := (List.getElem?_append_left hlt).symm.trans hn
      have hold := VMController.called_step h.vm hvm (h.killed hor' n record hn' hv)
      rwa [hstep] at hold
    · -- the event itself, for which the machine runs
      have hn' : (s.vm.records ++ [(processEvent s.vm.tree e).1])[n]? = some record := hn
      rw [List.getElem?_append_right hge, List.getElem?_singleton] at hn'
      split_ifs at hn' with hzero
      obtain rfl : n = s.vm.records.length := by omega
      obtain rfl := Option.some.inj hn'
      simp [Daemon.addEvent, VMController.handleEvent, hv, h.running hr hor']
  · have hor' : s.vm.running = true ∨ s.inLoop = true := hor
    have hclean : Clean E (s.collector.step PF Prod.snd (.classify (s.vm.records.length, e) true)) :=
      (h.clean hor').classify _
    rwa [← h.running hr hor'] at hclean

/-- Its record is pushed. -/
theorem Sound.push (h : Sound T E events s) {call : EventCall} (hadding : s.adding = some call) :
    Sound T E events
      { s with collector := s.collector.step PF Prod.snd (.push call), adding := none } := by
  obtain ⟨record, hrecord⟩ := (h.adding call).1 hadding
  have hpushed : s.collector.step PF Prod.snd (.push call) = { s.collector with
      pendingRecords := s.collector.pendingRecords ++ [record]
      addEvent := Function.update s.collector.addEvent call (.pushed record)
      pushed := s.collector.pushed ++ [(call, record)] } := by
    rw [SyscallBatchCollector.step, hrecord]
  have hdelivered : Delivered (s.collector.step PF Prod.snd (.push call)) := h.delivered.push hrecord
  refine ⟨h.vm, ?_, hdelivered, fun c hc => ?_, fun c => ?_, fun hw => ?_,
    h.ended, h.quiet, h.killed, fun hor => ?_⟩
  · rw [hpushed]
    exact h.tree
  · refine h.called c fun hno => ?_
    rw [hpushed] at hc
    by_cases he : c = call
    · rw [he, hrecord] at hno
      cases hno
    · exact hc ((Function.update_of_ne he ..).trans hno)
  · rw [hpushed]
    show none = some c ↔ ∃ r, Function.update s.collector.addEvent call (.pushed record) c = .classified r
    by_cases he : c = call
    · rw [he, Function.update_self]
      simp
    · rw [Function.update_of_ne he, ← h.adding, hadding]
      simp [Ne.symm he]
  · refine found_mono (s := s) ?_ (h.worker hw)
    rw [hpushed]
    exact List.Subset.refl _
  · have hclean : Clean E (s.collector.step PF Prod.snd (.push call)) := (h.clean hor).push hrecord
    exact hclean

/-- `main` leaves its loop, or somebody sets `g_shutdown`. -/
theorem Sound.shutdown (h : Sound T E events s) {inLoop : Bool} (hloop : inLoop = true → s.inLoop = true)
    (ended : Caller → Bool) :
    Sound T E events { s with shutdown := true, inLoop := inLoop, ended := ended } where
  vm := by
    cases inLoop with
    | true =>
      have hvm := h.vm
      rwa [hloop rfl] at hvm
    | false => exact h.vm.interrupt
  tree := h.tree
  delivered := h.delivered
  called := h.called
  adding := h.adding
  worker := h.worker
  ended _ _ := rfl
  quiet hl := h.quiet (hloop hl)
  killed hor := h.killed (hor.imp_right hloop)
  clean hor := h.clean (hor.imp_right hloop)

/-- **Every step keeps it.** -/
theorem Sound.step {P : NodePool} (hP : Built P) (hinit : initJitSchema PF P = .ok E)
    (h : Sound T E events s) {a : Action} (ha : Enabled s a) : Sound T E events (s.step PF a) := by
  cases a with
  | controller a =>
    by_cases hne : a = .handle
    · subst hne
      obtain ⟨e, rest, hr⟩ := ha.2.1.2
      rw [Daemon.step, hr]
      exact h.addEvent hr ha
    · have hstep : s.step PF (.controller a) = { s with vm := s.vm.step a } := by
        cases a with
        | handle => exact absurd rfl hne
        | _ => rfl
      rw [hstep]
      exact h.controller hne ha
  | push =>
    obtain ⟨call, hadding⟩ := Option.ne_none_iff_exists'.1 ha.2
    rw [Daemon.step, hadding]
    exact h.push hadding
  | extract => exact h.evaluating hP hinit ha.2 trivial rfl rfl (List.Subset.refl _)
  | evaluate data =>
    obtain ⟨engine, worker, v, -, hstep⟩ :=
      SyscallBatchCollector.step_evaluate PF Prod.snd s.collector data
    refine h.evaluating hP hinit ha.2 trivial ?_ ?_ ?_ <;> rw [hstep]
    exact List.subset_append_left ..
  | signal => exact h.shutdown (fun hl => by cases hl) _
  | finish c => exact h.shutdown (fun hl => (Bool.and_eq_true_iff.1 hl).1) _

end Sound

/-- **The evaluation of the batches finds nothing.**  While the machine runs or `main` is in its
loop, every violation that was handled has its thread that stops the machine; no violation is among
the records that were pushed, every batch evaluates to zero, and the worker has not called `stop`. -/
theorem batches_find_nothing {PF : Platform} {P : NodePool} (hP : Built P) {E : ApexEngine}
    (hinit : initJitSchema PF P = .ok E) (T : ProcessTree) (events : List SyscallEvent)
    (actions : List Action) (hlegal : Along (step PF) Enabled (start T E events) actions) :
    let s := run (step PF) (start T E events) actions
    s.vm.running = true ∨ s.inLoop = true →
      (∀ (n : ℕ) (record : SyscallTraceRecord), s.vm.records[n]? = some record →
        isViolation record = true → s.vm.stop (.kill n) ≠ .notCalled) ∧
      (∀ x ∈ s.collector.pushed, isViolation x.2 = false) ∧
      (∀ x ∈ s.collector.evaluated, x.2 = some 0) ∧ s.vm.stop .worker = .notCalled := by
  intro s hor
  have h : Sound T E events s := hlegal.invariant (fun _ _ h ha => h.step hP hinit ha) (sound_start ..)
  refine ⟨h.killed hor, (h.clean hor).pushed, (h.clean hor).evaluated, ?_⟩
  by_contra hcalled
  obtain ⟨hstopped, hleft⟩ := h.found (h.worker hcalled)
  rcases hor with hrunning | hloop
  · cases hstopped.symm.trans hrunning
  · cases hleft.symm.trans hloop

/-- The kill switch fires on the one event, and its thread ends. -/
def killing : List Action := VMController.firing.map .controller ++ [.finish (.kill 0)]

/-- The run is legal. -/
theorem killing_legal (E : ApexEngine) : Along (step .standard) Enabled
    (start scriptTree E [VMController.secretEvent]) killing := by
  have hstop : ∀ {s : Daemon} {c : Caller}, s.vm.failed = false → s.vm.stop c ≠ .notCalled →
      s.vm.stop c ≠ .returned → (s.vm.stop c = .joining → s.vm.reader = .finished) →
      Enabled s (.controller (.stop c)) :=
    fun hok hcalled hreturned hjoin =>
      ⟨hok, ⟨hok, hcalled, hreturned, hjoin⟩, fun how => how.elim⟩
  have hread : 0 < eventSize ∧ 0 < eventSize * 1 + 0 ∧ eventSize * 1 + 0 ≤ 0 + 4096 ∧
      eventSize * 1 + 0 ≤ eventSize * 1 := by decide
  refine ⟨⟨rfl, ⟨rfl, rfl⟩, fun _ => rfl⟩, ⟨rfl, ⟨rfl, rfl⟩, fun _ => rfl⟩,
    ⟨rfl, ⟨rfl, rfl, hread⟩, fun _ => rfl⟩, ⟨rfl, ⟨rfl, _, _, rfl⟩, fun _ => rfl⟩,
    hstop rfl ?_ ?_ ?_, hstop rfl ?_ ?_ ?_, hstop rfl ?_ ?_ ?_, hstop rfl ?_ ?_ ?_,
    hstop rfl ?_ ?_ ?_, ⟨rfl, ⟨rfl, rfl⟩, fun _ => rfl⟩, ⟨rfl, ⟨rfl, rfl⟩, fun _ => rfl⟩,
    hstop rfl ?_ ?_ ?_, hstop rfl ?_ ?_ ?_, ⟨rfl, by simp, rfl, rfl⟩, trivial⟩
  all_goals first | exact fun _ => rfl | exact fun hp => Stop.noConfusion hp

theorem secretEvent_violates :
    isViolation (processEvent scriptTree VMController.secretEvent).1 = true := by decide

theorem batches_find_nothing_killing : ∃ E, initJitSchema .standard NodePool.empty = .ok E ∧
    let s := run (step .standard) (start scriptTree E [VMController.secretEvent]) killing
    s.vm.running = false ∧ s.inLoop = true ∧ s.vm.stop (.kill 0) ≠ .notCalled ∧
      s.vm.stop .worker = .notCalled := by
  obtain ⟨-, -, -, E, -, -, -, -, hinit⟩ := initJitSchema_ok .standard (fun _ => rfl)
    (P := NodePool.empty) ⟨.empty, by decide⟩
  obtain ⟨hkilled, -, -, hworker⟩ := batches_find_nothing .empty hinit scriptTree
    [VMController.secretEvent] killing (killing_legal E) (.inr rfl)
  exact ⟨E, hinit, rfl, rfl, hkilled 0 _ rfl secretEvent_violates, hworker⟩

/-! ### `main` -/

/-- The actions of the reader thread. -/
def Action.OfReader : Action → Prop
  | .controller a => a.OfReader
  | .push => True
  | _ => False

section Refinement

variable {PF : Platform} {T : ProcessTree} {E : ApexEngine} {events : List SyscallEvent}

/-- What the controller does. -/
theorem vm_step (s : Daemon) (a : VMController.Action) :
    (s.step PF (.controller a)).vm = s.vm.step a := by
  cases a with
  | handle =>
    cases hr : s.vm.reader with
    | handling buffer =>
      cases buffer with
      | nil => simp only [step, VMController.step, hr]
      | cons e rest =>
        simp only [step, VMController.step, hr]
        rfl
    | _ => simp only [step, VMController.step, hr]
  | _ => rfl

/-- **The daemon refines its controller.** -/
def refinement (PF : Platform) (T : ProcessTree) (E : ApexEngine) (events : List SyscallEvent) :
    Refinement (step PF) (fun s a => Sound T E events s ∧ Enabled s a) VMController.step
      (VMController.Enabled true) where
  state := Daemon.vm
  act _ a :=
    match a with
    | .controller a => some a
    | _ => none
  enabled {s a b} ha hb := by
    cases a with
    | controller a =>
      cases hb
      exact (ha.1.enabled ha.2).interrupt
    | _ => cases hb
  step_some {s a b} _ hb := by
    cases a with
    | controller a =>
      cases hb
      exact vm_step s _
    | _ => cases hb
  step_none {s a} _ hb := by
    cases a with
    | controller a => cases hb
    | push =>
      rw [step]
      split <;> rfl
    | _ => rfl

/-- A call of `stop` that has returned. -/
theorem Sound.returned_step {s : Daemon} (h : Sound T E events s) {a : Action} (ha : Enabled s a)
    {c : Caller} (hc : s.vm.stop c = .returned) : (s.step PF a).vm.stop c = .returned :=
  ((refinement PF T E events).keeps (J := fun vm => VMController.Sound T events true vm ∧
      vm.stop c = .returned) (fun _ _ h ha => ⟨h.1.step ha, VMController.returned_step h.1 ha h.2⟩)
    ⟨h.vm.interrupt, hc⟩ ⟨h, ha⟩).2

/-- Only a signal and a thread that has stopped the machine are of interest to `main`. -/
theorem main_step (s : Daemon) {a : Action} (hsignal : a ≠ .signal) (hfinish : ∀ c, a ≠ .finish c) :
    (s.step PF a).shutdown = s.shutdown ∧ (s.step PF a).inLoop = s.inLoop ∧
      (s.step PF a).ended = s.ended := by
  cases a with
  | controller a =>
    cases a with
    | handle =>
      rw [step]
      split <;> exact ⟨rfl, rfl, rfl⟩
    | _ => exact ⟨rfl, rfl, rfl⟩
  | push =>
    rw [step]
    split <;> exact ⟨rfl, rfl, rfl⟩
  | extract | evaluate _ => exact ⟨rfl, rfl, rfl⟩
  | signal => exact absurd rfl hsignal
  | finish c => exact absurd rfl (hfinish c)

/-- Only `finish` ends a caller. -/
theorem ended_step {s : Daemon} {a : Action} {c : Caller} (hne : a ≠ .finish c)
    (hc : s.ended c = false) : (s.step PF a).ended c = false := by
  cases a with
  | signal => exact hc
  | finish c' =>
    have hcc : c ≠ c' := fun he => hne (by rw [he])
    exact (Function.update_of_ne hcc ..).trans hc
  | _ => rwa [(s.main_step (by simp) (by simp)).2.2]

/-- `g_shutdown` is not cleared. -/
theorem shutdown_step {s : Daemon} {a : Action} (h : s.shutdown = true) :
    (s.step PF a).shutdown = true := by
  cases a with
  | signal | finish _ => rfl
  | _ => rwa [(s.main_step (by simp) (by simp)).1]

/-- **A step leaves `main` in its loop**, unless it is a signal: the worker has nothing to do
there. -/
theorem Sound.inLoop_step {s : Daemon} (h : Sound T E events s) {a : Action} (ha : Enabled s a) :
    (s.step PF a).inLoop = true ↔ s.inLoop = true ∧ a ≠ .signal := by
  cases a with
  | signal => simp [Daemon.step]
  | finish c =>
    by_cases hc : c = .worker
    · have hfound : s.Found := h.worker (by rw [← hc, ha.2.2.1]; simp)
      simp [Daemon.step, (h.found hfound).2]
    · simp [Daemon.step, hc]
  | _ => rw [(s.main_step (by simp) (by simp)).2.1]; simp

end Refinement

section Live

variable {PF : Platform} {P : NodePool} {T : ProcessTree} {E : ApexEngine}
  {events : List SyscallEvent} (hP : Built P) (hinit : initJitSchema PF P = .ok E)
  (X : Execution (step PF) Enabled (start T E events))

include hP hinit in
/-- It holds at all times. -/
theorem sound_state (n : ℕ) : Sound T E events (X.state n) :=
  X.invariant (fun _ _ h ha => h.step hP hinit ha) (sound_start ..) n

/-- What the controller does. -/
def controllerOf : Execution VMController.step (VMController.Enabled true)
    (VMController.start T events) :=
  (refinement PF T E events).execution
    (X.assuming (fun _ _ h ha => h.step hP hinit ha) (sound_start ..))

/-- The states of the controller's run. -/
theorem state_controllerOf (n : ℕ) : (controllerOf hP hinit X).state n = (X.state n).vm :=
  (refinement PF T E events).state_execution _ n

/-- And its actions. -/
theorem act_controllerOf {n : ℕ} {a : VMController.Action} (hact : X.act n = some (.controller a)) :
    (controllerOf hP hinit X).act n = some a := by
  rw [controllerOf, (refinement PF T E events).act_execution _ (a := .controller a) hact]
  rfl

variable {X}

/-- `add_event` returns before the reader goes on. -/
theorem adding_stays {n : ℕ} (hnone : (X.state n).adding = none)
    (hnot : ∀ a, X.act n = some a → ¬a.OfReader) : (X.state (n + 1)).adding = none := by
  refine Execution.next (I := fun s : Daemon => s.adding = none) hnone fun a hact _ => ?_
  cases a with
  | controller a =>
    cases a with
    | handle => exact absurd trivial (hnot _ hact)
    | _ => exact hnone
  | push => exact absurd trivial (hnot _ hact)
  | _ => exact hnone

/-- It is fair to the reader. -/
theorem controller_reader_fair (hfair : X.FairTo Action.OfReader) :
    (controllerOf hP hinit X).FairTo VMController.Action.OfReader := by
  intro n hable
  simp only [state_controllerOf] at hable
  have hable' : ∀ m ≥ n, ∃ a : Action, a.OfReader ∧ Enabled (X.state m) a := by
    intro m hm
    obtain ⟨a, how, ha⟩ := hable m hm
    cases hadding : (X.state m).adding with
    | some call => exact ⟨.push, trivial, ha.1, by simp [hadding]⟩
    | none =>
      refine ⟨.controller a, how, ha.1, ?_⟩
      cases a with
      | connect | signal | fire | stop _ => cases how
      | _ => exact ⟨ha, fun _ => hadding⟩
  obtain ⟨m, hm, a, hact, how⟩ := hfair n hable'
  cases a with
  | controller a => exact ⟨m, hm, a, act_controllerOf hP hinit X hact, how⟩
  | push =>
    -- the reader has returned from `add_event`, and its next action is one of the controller
    have hnone : (X.state (m + 1)).adding = none := by
      obtain ⟨call, hadding⟩ := Option.ne_none_iff_exists'.1 (Execution.enabled hact).2
      rw [Execution.state_succ_some hact, step, hadding]
    obtain ⟨k, hk, hnone', a, hact', how'⟩ := hfair.acts (P := fun k => (X.state k).adding = none) hnone
      (fun _ _ => adding_stays) fun k hk _ => hable' k (by omega)
    cases a with
    | controller a => exact ⟨k, by omega, a, act_controllerOf hP hinit X hact', how'⟩
    | push => exact absurd hnone' (Execution.enabled hact').2
    | _ => cases how'
  | _ => cases how

/-- And to `stop`. -/
theorem controller_stop_fair {c : Caller} (hfair : X.FairTo (· = .controller (.stop c))) :
    (controllerOf hP hinit X).FairTo (· = .stop c) := by
  intro n hable
  obtain ⟨m, hm, a, hact, rfl⟩ := hfair n fun m hm => by
    obtain ⟨a, rfl, ha⟩ := hable m hm
    rw [state_controllerOf] at ha
    exact ⟨_, rfl, ha.1, ha, fun how => by cases how⟩
  exact ⟨m, hm, _, act_controllerOf hP hinit X hact, rfl⟩

include hP hinit in
/-- **Only a signal wakes `main`.** -/
theorem inLoop_iff (n : ℕ) : (X.state n).inLoop = true ↔ ∀ m < n, X.act m ≠ some .signal := by
  induction n with
  | zero => exact ⟨fun _ m hm => absurd hm (Nat.not_lt_zero m), fun _ => rfl⟩
  | succ n ih =>
    have hnext : (X.state (n + 1)).inLoop = true ↔
        (X.state n).inLoop = true ∧ X.act n ≠ some .signal := by
      cases hact : X.act n with
      | none => simp [Execution.state_succ_none hact]
      | some a =>
        rw [Execution.state_succ_some hact,
          (sound_state hP hinit X n).inLoop_step (Execution.enabled hact), Ne, Ne, Option.some_inj]
    rw [hnext, ih, Nat.forall_lt_succ_right]

include hP hinit in
/-- A thread whose call of `stop` has returned sets `g_shutdown`. -/
theorem returned_leads {c : Caller} (hc : c ≠ .main) (hfair : X.FairTo (· = .finish c))
    (hok : ∀ m, (X.state m).vm.failed = false) {n : ℕ}
    (hreturned : (X.state n).vm.stop c = .returned) : ∃ k ≥ n, (X.state k).shutdown = true := by
  cases hended : (X.state n).ended c with
  | true => exact ⟨n, le_rfl, (sound_state hP hinit X n).ended c hended⟩
  | false =>
    have hstays : ∀ k ≥ n, ((X.state k).vm.stop c = .returned ∧ (X.state k).ended c = false) →
        (∀ a, X.act k = some a → ¬a = .finish c) →
        (X.state (k + 1)).vm.stop c = .returned ∧ (X.state (k + 1)).ended c = false := by
      intro k _ hk hnot
      exact Execution.next (I := fun s : Daemon => s.vm.stop c = .returned ∧ s.ended c = false) hk
        fun a hact ha => ⟨(sound_state hP hinit X k).returned_step ha hk.1,
          ended_step (hnot a hact) hk.2⟩
    obtain ⟨k, hk, -, a, hact, rfl⟩ := hfair.acts
      (P := fun k => (X.state k).vm.stop c = .returned ∧ (X.state k).ended c = false)
      ⟨hreturned, hended⟩ hstays fun k _ hk => ⟨_, rfl, hok k, hc, hk.1, hk.2⟩
    refine ⟨k + 1, by omega, ?_⟩
    rw [Execution.state_succ_some hact]
    rfl

end Live

/-- **The kill switch stops the machine and leaves `main` where it is.**  In an execution that is
fair to the threads and in which no `join` fails, once a violation has been handled while the machine
runs, the machine is stopped and `g_shutdown` set from some moment on; but at every moment `main` is
in its loop, unless there has been a signal. -/
theorem kill_switch_leaves_main {PF : Platform} {P : NodePool} (hP : Built P) {E : ApexEngine}
    (hinit : initJitSchema PF P = .ok E) {T : ProcessTree} {events : List SyscallEvent}
    {X : Execution (step PF) Enabled (start T E events)} (hreader : X.FairTo Action.OfReader)
    (hcallers : ∀ c, X.FairTo (· = .controller (.stop c))) (hfinish : ∀ c, X.FairTo (· = .finish c))
    (hok : ∀ m, (X.state m).vm.failed = false) {m : ℕ} {e : SyscallEvent} {rest : List SyscallEvent}
    (hact : X.act m = some (.controller .handle)) (hr : (X.state m).vm.reader = .handling (e :: rest))
    (hv : isViolation (processEvent (X.state m).vm.tree e).1 = true)
    (hrunning : (X.state m).vm.running = true) :
    (∃ k, ∀ l ≥ k, (X.state l).vm.running = false ∧ (X.state l).shutdown = true) ∧
      ∀ l, (X.state l).inLoop = true ↔ ∀ j < l, X.act j ≠ some .signal := by
  refine ⟨?_, inLoop_iff hP hinit⟩
  have hnext : (X.state (m + 1)).vm = (X.state m).vm.handleEvent e rest := by
    rw [Execution.state_succ_some hact, vm_step, VMController.step, hr]
  have hp : (X.state (m + 1)).vm.stop (.kill (X.state m).vm.records.length) = .called := by
    rw [hnext]
    simp only [VMController.handleEvent, hv, hrunning]
    exact Function.update_self ..
  have hok' : ∀ m, ((controllerOf hP hinit X).state m).failed = false := fun m => by
    rw [state_controllerOf]
    exact hok m
  obtain ⟨k, -, hreturned⟩ := VMController.called_leads (controller_stop_fair hP hinit (hcallers _))
    hok' (controller_reader_fair hP hinit hreader) (m := m + 1)
    (by rw [state_controllerOf, hnext]; simp [VMController.handleEvent])
    (by rw [state_controllerOf]; exact hp)
  have hstopped := VMController.stopped_state k _ hreturned
  rw [state_controllerOf] at hreturned hstopped
  obtain ⟨k', hk', hshutdown⟩ := returned_leads hP hinit (by simp) (hfinish _) hok hreturned
  refine ⟨k', fun l hl => ⟨?_, ?_⟩⟩
  · have hl' : ((controllerOf hP hinit X).state l).running = false :=
      Execution.stable (I := fun s : VMController => s.running = false)
        (fun _ _ h _ => VMController.running_step h) (show k ≤ l by omega)
        (by rw [state_controllerOf]; exact hstopped)
    rwa [state_controllerOf] at hl'
  · exact Execution.stable (I := fun s : Daemon => s.shutdown = true)
      (fun _ _ h _ => shutdown_step h) hl hshutdown

/-- Nothing is left to do but for `main`. -/
theorem killing_done (E : ApexEngine) {a : Action}
    (how : a.OfReader ∨ (∃ c, a = .controller (.stop c)) ∨ ∃ c, a = .finish c) :
    ¬Enabled (run (step .standard) (start scriptTree E [VMController.secretEvent]) killing) a := by
  rintro ⟨-, ha⟩
  rcases how with how | ⟨c, rfl⟩ | ⟨c, rfl⟩
  · cases a with
    | controller a =>
      refine VMController.firing_done a (.inl how) ?_
      cases a with
      | connect | signal | fire | stop _ => cases how
      | _ => exact ha.1
    | push => exact ha rfl
    | _ => cases how
  · exact VMController.firing_done _ (.inr ⟨c, rfl⟩) ha.1
  · -- the thread of the event is the only one, and it has ended
    obtain ⟨-, hreturned, hended⟩ := ha
    have h : VMController.Sound scriptTree [VMController.secretEvent] false _ :=
      VMController.firing_legal.invariant (fun _ _ h ha => h.step ha) (VMController.sound_start ..)
    by_cases hc : c = .worker
    · subst hc
      exact Stop.noConfusion hreturned
    · have hcalled : (run VMController.step (VMController.start scriptTree [VMController.secretEvent])
          VMController.firing).stop c ≠ .notCalled := fun hno => by cases hno.symm.trans hreturned
      obtain rfl := h.lone (by decide) hc (d := .kill 0) (by simp) hcalled (by decide)
      exact Bool.noConfusion hended

theorem kill_switch_leaves_main_secret : ∃ E, initJitSchema .standard NodePool.empty = .ok E ∧
    let X := Execution.ofRun (killing_legal E)
    (∃ k, ∀ l ≥ k, (X.state l).vm.running = false ∧ (X.state l).shutdown = true) ∧
      ∀ l, (X.state l).inLoop = true := by
  obtain ⟨-, -, -, E, -, -, -, -, hinit⟩ := initJitSchema_ok .standard (fun _ => rfl)
    (P := NodePool.empty) ⟨.empty, by decide⟩
  have hok : ∀ m, ((Execution.ofRun (killing_legal E)).state m).vm.failed = false := by
    intro m
    rw [Execution.state_ofRun]
    cases ha : killing[m]? with
    | some a => exact ((killing_legal E).at ha).1
    | none =>
      rw [List.take_of_length_le (List.getElem?_eq_none_iff.1 ha)]
      rfl
  obtain ⟨hstops, hloop⟩ := kill_switch_leaves_main .empty hinit
    (Execution.fairTo_ofRun _ fun a ha => killing_done E (.inl ha))
    (fun c => Execution.fairTo_ofRun _ fun a ha => killing_done E (.inr (.inl ⟨c, ha⟩)))
    (fun c => Execution.fairTo_ofRun _ fun a ha => killing_done E (.inr (.inr ⟨c, ha⟩)))
    hok (m := 3) (e := VMController.secretEvent) rfl rfl secretEvent_violates rfl
  refine ⟨E, hinit, hstops, fun l => (hloop l).2 fun j _ hj => ?_⟩
  have hmem : Action.signal ∈ killing := List.mem_of_getElem? hj
  simp [killing, VMController.firing] at hmem

end Daemon

end Host
end AarchGate
