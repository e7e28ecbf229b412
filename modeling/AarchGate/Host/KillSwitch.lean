/-
# The kill switch and the threads that stop the machine

`VMControllerImpl::stop` and `start_reader` of `src/host/vm_controller.mm`, with the callers of
`stop` in `src/host/main.cpp`: `add_event` runs on the reader thread and starts a detached
thread for each violation it sees while the machine runs, and `main` calls `stop` after a
signal.

`stop` is not guarded against a second call: the flag `running` is cleared at its end only.  So
two violations in one stream, or one and a signal, can have two threads in
`reader_thread.join()`, or call it after the other has returned from it; with at most one of
them no order of steps leads there (`stop_fails_iff`).  Apart from this the switch works: in
every fair execution in which it has fired and no `join` fails, the machine is stopped from some
moment on, and if no signal came, the reader has ended and no event is handled any more
(`kill_switch_stops`).

Every test and every assignment of `stop` is a step of its own, as is the body of the reader's
loops.  A read takes at most 4096 bytes of the stream, which is cut anywhere, and completes at most
13 events (`Host/Telemetry` is about the bytes themselves).  The machine has started, the guest connects once, and the mock guest is left out; stopping the
virtual machine and clearing `running` are one step.  The worker that evaluates the batches calls
`stop` as well, but never while the machine runs, which `Host/Daemon` shows; so its call returns at
the test of `running`.
-/

import AarchGate.Host.Wire
import AarchGate.Trace.Along
import AarchGate.Trace.Count
import AarchGate.Trace.Fair
import Mathlib.Logic.Function.Basic

namespace AarchGate
namespace Host

open A64 (Word)
open AarchGate.Core (Map)
open Trace (Along Execution Reaches run two_le_countP_iff)

/-- The threads that call `stop`: the detached thread of an event, by the number of the event,
`main`, and the worker of the batch collector. -/
inductive Caller where
  | kill (n : ℕ)
  | main
  | worker
  deriving DecidableEq, Repr

/-- Where a call of `stop` is: before the test of `running`, before `stop_reader = true`, before
`close`, before `joinable()`, before and in `join()`, and before the virtual machine is
stopped. -/
inductive Stop where
  | notCalled
  | called
  | passed
  | flagged
  | closed
  | willJoin
  | joining
  | joined
  | returned
  deriving DecidableEq, Repr

/-- The thread of `start_reader`: before the test of `stop_reader`, in `read` with a valid
descriptor or with -1, and in the inner loop with the events of the buffer. -/
inductive ReaderThread where
  | absent
  | looping
  | reading (valid : Bool)
  | handling (buffer : List SyscallEvent)
  | finished

/-- The events that have been read and not handled. -/
def ReaderThread.buffer : ReaderThread → List SyscallEvent
  | .handling buffer => buffer
  | _ => []

/-- `VMControllerImpl`, with the state of its threads.  `joinable` is that of `reader_thread`,
`joiner` the thread that waits in its `join`; `incoming` are the events that have not been read to
their end, `pending` is how many bytes of the first of them are in the buffer, and `records` are
those of the events handled so far.  `failed` says that `join` was called
while another thread was in it, which is a data race, or on a thread that was not joinable, which
raises an exception that nobody catches. -/
structure VMController where
  running : Bool
  stopReader : Bool
  vsockOpen : Bool
  joinable : Bool
  reader : ReaderThread
  joiner : Option Caller
  stop : Caller → Stop
  incoming : List SyscallEvent
  pending : ℕ
  tree : ProcessTree
  records : List SyscallTraceRecord
  failed : Bool

namespace VMController

/-- What the threads do.  After a `read` the buffer has `count` whole events and `left` bytes of
another. -/
inductive Action where
  | connect
  | check
  | read (count left : ℕ)
  | hangUp
  | handle
  | endBatch
  | signal
  | fire
  | stop (c : Caller)

/-- The machine runs, and nobody is connected. -/
def start (tree : ProcessTree) (events : List SyscallEvent) : VMController where
  running := true
  stopReader := false
  vsockOpen := false
  joinable := false
  reader := .absent
  joiner := none
  stop _ := .notCalled
  incoming := events
  pending := 0
  tree := tree
  records := []
  failed := false

/-- A call of `stop` goes on to `p`. -/
def goto (s : VMController) (c : Caller) (p : Stop) : VMController :=
  { s with stop := Function.update s.stop c p }

/-- The next step of a call of `stop`. -/
def stopStep (s : VMController) (c : Caller) : VMController :=
  match s.stop c with
  | .called => s.goto c (if s.running then .passed else .returned)
  | .passed => { s.goto c .flagged with stopReader := true }
  | .flagged => { s.goto c .closed with vsockOpen := false }
  | .closed => s.goto c (if s.joinable then .willJoin else .joined)
  | .willJoin =>
    -- the thread has been joined in the meantime, or another thread is about to
    if s.joinable && s.joiner.isNone then { s.goto c .joining with joiner := some c }
    else { s with failed := true }
  | .joining => { s.goto c .joined with joinable := false, joiner := none }
  | .joined => { s.goto c .returned with running := false }
  | .notCalled | .returned => s

/-- `event_cb` on the first event of the buffer, and the detached thread of the fast path. -/
def handleEvent (s : VMController) (e : SyscallEvent) (rest : List SyscallEvent) : VMController :=
  let record := (processEvent s.tree e).1
  { s with
    reader := .handling rest
    tree := (processEvent s.tree e).2
    records := s.records ++ [record]
    stop := if isViolation record && s.running then
        Function.update s.stop (.kill s.records.length) .called
      else s.stop }

/-- One step of one of the threads. -/
def step (s : VMController) : Action → VMController
  | .connect =>
    { s with stopReader := false, vsockOpen := true, reader := .looping, joinable := true }
  | .check => { s with reader := if s.stopReader then .finished else .reading s.vsockOpen }
  | .read count left =>
    { s with
      reader := .handling (s.incoming.take count)
      incoming := s.incoming.drop count
      pending := left }
  | .hangUp => { s with reader := .finished }
  | .handle =>
    match s.reader with
    | .handling (e :: rest) => s.handleEvent e rest
    | _ => s
  | .endBatch => { s with reader := .looping }
  | .signal => s.goto .main .called
  | .fire => s.goto .worker .called
  | .stop c => s.stopStep c

/-- When an action can be taken; `interrupted` says whether there is a signal.  A `read` returns
at least one of the bytes to come, and 4096 at most.  The worker calls `stop` of a machine
that has been stopped, and `join` returns when the reader has ended. -/
def Enabled (interrupted : Bool) (s : VMController) (a : Action) : Prop :=
  s.failed = false ∧
    match a with
    | .connect => s.reader = .absent
    | .check => s.reader = .looping
    | .read count left => s.reader = .reading true ∧ left < eventSize ∧
        s.pending < eventSize * count + left ∧ eventSize * count + left ≤ s.pending + 4096 ∧
        eventSize * count + left ≤ eventSize * s.incoming.length
    | .hangUp => ∃ valid, s.reader = .reading valid
    | .handle => ∃ e rest, s.reader = .handling (e :: rest)
    | .endBatch => s.reader = .handling []
    | .signal => interrupted = true ∧ s.stop .main = .notCalled
    | .fire => s.running = false ∧ s.stop .worker = .notCalled
    | .stop c => s.stop c ≠ .notCalled ∧ s.stop c ≠ .returned ∧
        (s.stop c = .joining → s.reader = .finished)

/-- The records of a stream of events. -/
def recordsOf (T : ProcessTree) : List SyscallEvent → List SyscallTraceRecord
  | [] => []
  | e :: es => (processEvent T e).1 :: recordsOf (processEvent T e).2 es

/-- The violations in a stream of events. -/
def violations (T : ProcessTree) (events : List SyscallEvent) : ℕ :=
  (recordsOf T events).countP isViolation

/-! ### What holds at every point -/

section Sound

variable {T : ProcessTree} {events : List SyscallEvent} {interrupted : Bool} {s : VMController}

@[simp] theorem goto_stop_self (s : VMController) (c : Caller) (p : Stop) :
    (s.goto c p).stop c = p := Function.update_self ..

theorem goto_stop_ne (s : VMController) {c c' : Caller} (h : c' ≠ c) (p : Stop) :
    (s.goto c p).stop c' = s.stop c' := Function.update_of_ne h ..

/-- `event_cb` starts no other thread than that of its event. -/
theorem handleEvent_stop_ne (s : VMController) (e : SyscallEvent) (rest : List SyscallEvent)
    {c : Caller} (hc : ∀ n, c ≠ .kill n) : (s.handleEvent e rest).stop c = s.stop c := by
  dsimp only [handleEvent]
  split_ifs
  · exact Function.update_of_ne (hc _) ..
  · rfl

/-- A call that goes to where it is stays there. -/
theorem goto_self (s : VMController) (c : Caller) : s.goto c (s.stop c) = s := by
  rw [goto, Function.update_eq_self]

/-- Where the next step of a call of `stop` leads. -/
def next (s : VMController) : Stop → Stop
  | .notCalled => .notCalled
  | .called => if s.running then .passed else .returned
  | .passed => .flagged
  | .flagged => .closed
  | .closed => if s.joinable then .willJoin else .joined
  | .willJoin => if s.joinable && s.joiner.isNone then .joining else .willJoin
  | .joining => .joined
  | .joined | .returned => .returned

/-- **What a step of a call of `stop` does**, field by field. -/
theorem stopStep_eq (s : VMController) (c : Caller) : s.stopStep c =
    { s.goto c (s.next (s.stop c)) with
      running := s.running && s.stop c ≠ .joined
      stopReader := s.stopReader || s.stop c = .passed
      vsockOpen := s.vsockOpen && s.stop c ≠ .flagged
      joinable := s.joinable && s.stop c ≠ .joining
      joiner := if s.stop c = .joining then none
        else if s.next (s.stop c) = .joining then some c else s.joiner
      failed := s.failed || (s.stop c = .willJoin && !(s.joinable && s.joiner.isNone)) } := by
  have hself := s.goto_self c
  cases hp : s.stop c with
  | notCalled | returned =>
    rw [hp] at hself
    simp [stopStep, next, hp, hself]
  | called | closed =>
    simp only [stopStep, next, hp]
    split_ifs <;> simp_all [goto]
  | willJoin =>
    rw [hp] at hself
    cases hj : s.joinable && s.joiner.isNone with
    | true => simp only [stopStep, next, hp, hj]; simp [goto]
    | false => simp only [stopStep, next, hp, hj]; simp [hself]
  | passed | flagged | joining | joined => simp [stopStep, next, hp, goto]

/-- A call goes where `next` says. -/
@[simp] theorem stopStep_self (s : VMController) (c : Caller) :
    (s.stopStep c).stop c = s.next (s.stop c) := by
  rw [stopStep_eq]
  exact goto_stop_self ..

/-- The other calls stay where they are. -/
theorem stopStep_ne (s : VMController) {c c' : Caller} (h : c' ≠ c) :
    (s.stopStep c).stop c' = s.stop c' := by
  rw [stopStep_eq]
  exact goto_stop_ne _ h _

/-- A step of `stop` concerns neither the reader nor the policy engine. -/
theorem stopStep_frame (s : VMController) (c : Caller) :
    (s.stopStep c).reader = s.reader ∧ (s.stopStep c).tree = s.tree ∧
      (s.stopStep c).records = s.records := by
  rw [stopStep_eq]
  exact ⟨rfl, rfl, rfl⟩

section Next

variable {s : VMController} {p : Stop}

/-- No step leads back before the call. -/
theorem next_ne_notCalled (h : p ≠ .notCalled) : s.next p ≠ .notCalled := by
  cases p <;> grind [next]

/-- Only `joinable()` leads to the call of `join`, which may fail. -/
theorem next_eq_willJoin (h : s.next p = .willJoin) :
    p = .closed ∧ s.joinable = true ∨ p = .willJoin := by
  cases p <;> grind [next]

/-- Only a `join` that does not fail leads into it. -/
theorem next_eq_joining (h : s.next p = .joining) :
    p = .willJoin ∧ s.joinable = true ∧ s.joiner = none := by
  cases p <;> grind [next, Option.isNone_iff_eq_none]

/-- A call gets past `join` by it or around it. -/
theorem next_eq_joined (h : s.next p = .joined) :
    p = .closed ∧ s.joinable = false ∨ p = .joining := by
  cases p <;> grind [next]

/-- A call returns at the test of `running` or at its end. -/
theorem next_eq_returned (h : s.next p = .returned) :
    p = .called ∧ s.running = false ∨ p = .joined ∨ p = .returned := by
  cases p <;> grind [next]

end Next

/-- What the threads keep: the events are handled in the order of the stream, a detached thread
belongs to a violation, `main` has had a signal, and `reader_thread` is not joinable only before
the connection and after the reader has ended. -/
structure Sound (T : ProcessTree) (events : List SyscallEvent) (interrupted : Bool)
    (s : VMController) : Prop where
  stream : s.records ++ recordsOf s.tree (s.reader.buffer ++ s.incoming) = recordsOf T events
  kills : ∀ n, s.stop (.kill n) ≠ .notCalled →
    ∃ record, s.records[n]? = some record ∧ isViolation record = true
  main : s.stop .main ≠ .notCalled → interrupted = true
  joiner : ∀ c, s.joiner = some c ↔ s.stop c = .joining
  joining : s.joiner ≠ none → s.joinable = true
  ended : s.joinable = false → s.reader = .absent ∨ s.reader = .finished
  unconnected : s.reader = .absent → s.records = []

/-- Before the run. -/
theorem sound_start (T : ProcessTree) (events : List SyscallEvent) (interrupted : Bool) :
    Sound T events interrupted (start T events) where
  stream := rfl
  kills _ h := absurd rfl h
  main h := absurd rfl h
  joiner _ := by simp [start]
  joining h := absurd rfl h
  ended _ := .inl rfl
  unconnected _ := rfl

/-- The reader goes on without handling an event. -/
theorem Sound.reader (h : Sound T events interrupted s) {s' : VMController}
    (hrecords : s'.records = s.records) (htree : s'.tree = s.tree) (hstop : s'.stop = s.stop)
    (hjoiner : s'.joiner = s.joiner)
    (hevents : s'.reader.buffer ++ s'.incoming = s.reader.buffer ++ s.incoming)
    (hjoinable : s.joinable = true → s'.joinable = true)
    (hended : s'.joinable = false → s'.reader = .absent ∨ s'.reader = .finished)
    (habsent : s'.reader ≠ .absent) : Sound T events interrupted s' where
  stream := by rw [hrecords, htree, hevents, h.stream]
  kills n hn := by rw [hrecords]; rw [hstop] at hn; exact h.kills n hn
  main hm := by rw [hstop] at hm; exact h.main hm
  joiner c := by rw [hjoiner, hstop]; exact h.joiner c
  joining hj := hjoinable (h.joining (hjoiner ▸ hj))
  ended := hended
  unconnected hr := absurd hr habsent

/-- An event is handled. -/
theorem Sound.handleEvent (h : Sound T events interrupted s) {e : SyscallEvent}
    {rest : List SyscallEvent} (hr : s.reader = .handling (e :: rest)) :
    Sound T events interrupted (s.handleEvent e rest) := by
  have hstop : ∀ c, (s.handleEvent e rest).stop c = s.stop c ∨
      (c = .kill s.records.length ∧ (s.handleEvent e rest).stop c = .called ∧
        isViolation (processEvent s.tree e).1 = true) := by
    intro c
    simp only [VMController.handleEvent]
    split_ifs with hv
    · by_cases hc : c = .kill s.records.length
      · subst hc
        exact .inr ⟨rfl, Function.update_self .., (Bool.and_eq_true_iff.1 hv).1⟩
      · exact .inl (Function.update_of_ne hc ..)
    · exact .inl rfl
  have hnew : s.stop (.kill s.records.length) = .notCalled := by
    by_contra hn
    obtain ⟨record, hrecord, -⟩ := h.kills _ hn
    rw [List.getElem?_eq_none (Nat.le_refl _)] at hrecord
    cases hrecord
  refine ⟨?_, fun n hn => ?_, fun hm => ?_, fun c => ?_, h.joining, fun hj => ?_,
    fun hr' => by cases hr'⟩
  · have hstream := h.stream
    rw [hr] at hstream
    simp only [VMController.handleEvent, ReaderThread.buffer, List.cons_append, recordsOf] at hstream ⊢
    rw [List.append_assoc]
    exact hstream
  · rcases hstop (.kill n) with hs | ⟨hn', -, hv⟩
    · rw [hs] at hn
      obtain ⟨record, hrecord, hv⟩ := h.kills n hn
      refine ⟨record, ?_, hv⟩
      exact (List.getElem?_append_left (List.getElem?_eq_some_iff.1 hrecord).1).trans hrecord
    · obtain rfl := Caller.kill.inj hn'
      exact ⟨_, List.getElem?_concat_length, hv⟩
  · rcases hstop .main with hs | ⟨hm', -⟩
    · exact h.main (hs ▸ hm)
    · cases hm'
  · rcases hstop c with hs | ⟨rfl, hs, -⟩
    · rw [hs]
      exact h.joiner c
    · rw [hs]
      refine ⟨fun hj => ?_, fun hj => by cases hj⟩
      rw [(h.joiner _).1 hj] at hnew
      cases hnew
  · rcases h.ended hj with hr' | hr' <;> rw [hr] at hr' <;> cases hr'

/-- A call that goes on was called before. -/
theorem called_of_goto {c c' : Caller} (hc : s.stop c ≠ .notCalled) {p : Stop}
    (h : (s.goto c p).stop c' ≠ .notCalled) : s.stop c' ≠ .notCalled := by
  by_cases he : c' = c
  · rw [he]
    exact hc
  · rwa [goto_stop_ne _ he] at h

/-- A call of `stop` goes on. -/
theorem Sound.stopStep (h : Sound T events interrupted s) {c : Caller}
    (ha : Enabled interrupted s (.stop c)) : Sound T events interrupted (s.stopStep c) := by
  obtain ⟨-, hc, -, hfinished⟩ := ha
  rw [stopStep_eq]
  refine ⟨h.stream, fun n hn => h.kills n (called_of_goto hc hn),
    fun hm => h.main (called_of_goto hc hm), fun c' => ?_, fun hj => ?_, fun hj => ?_,
    h.unconnected⟩
  · have hself : ∀ {p}, (s.goto c p).stop c = p := goto_stop_self ..
    have hother : c' ≠ c → ∀ {p}, (s.goto c p).stop c' = s.stop c' := fun he => goto_stop_ne _ he _
    dsimp only
    split_ifs with hjoining hnext
    · -- the call leaves `join`, where no other is
      refine ⟨fun hj => absurd hj (by simp), fun hj => ?_⟩
      by_cases he : c' = c
      · rw [he, hself, hjoining] at hj
        cases hj
      · rw [hother he, ← h.joiner, (h.joiner c).2 hjoining] at hj
        exact absurd (Option.some.inj hj).symm he
    · -- the call is in `join`, where no other has been
      by_cases he : c' = c
      · simp [he, hnext]
      · rw [hother he, ← h.joiner, (next_eq_joining hnext).2.2]
        exact ⟨fun hj => absurd (Option.some.inj hj).symm he, fun hj => by cases hj⟩
    · rw [h.joiner]
      by_cases he : c' = c
      · rw [he, hself]
        exact ⟨fun hj => absurd hj hjoining, fun hj => absurd hj hnext⟩
      · rw [hother he]
  · dsimp only at hj ⊢
    split_ifs at hj with hjoining hnext
    · exact absurd rfl hj
    · simp [(next_eq_joining hnext).2.1, hjoining]
    · simp [h.joining hj, hjoining]
  · rcases Bool.and_eq_false_iff.1 hj with hj | hj
    · exact h.ended hj
    · exact .inr (hfinished (by simpa using hj))

/-- `main` or the worker calls `stop`. -/
theorem Sound.call (h : Sound T events interrupted s) {c : Caller} (hc : s.stop c = .notCalled)
    (hkill : ∀ n, c ≠ .kill n) (hmain : c = .main → interrupted = true) :
    Sound T events interrupted (s.goto c .called) := by
  refine ⟨h.stream, fun n hn => ?_, fun hm => ?_, fun c' => ?_, h.joining, h.ended, h.unconnected⟩
  · rw [goto_stop_ne _ (hkill n).symm] at hn
    exact h.kills n hn
  · by_cases he : c = .main
    · exact hmain he
    · rw [goto_stop_ne _ (Ne.symm he)] at hm
      exact h.main hm
  · show s.joiner = some c' ↔ (s.goto c .called).stop c' = .joining
    by_cases he : c' = c
    · rw [he, goto_stop_self, h.joiner, hc]
      simp
    · rw [goto_stop_ne _ he]
      exact h.joiner c'

/-- **Every step keeps it.** -/
theorem Sound.step (h : Sound T events interrupted s) {a : Action} (ha : Enabled interrupted s a) :
    Sound T events interrupted (s.step a) := by
  cases a with
  | connect =>
    have hr : s.reader = .absent := ha.2
    exact h.reader rfl rfl rfl rfl (by rw [hr]; rfl) (fun _ => rfl) (fun hj => by cases hj) (by
      intro he; cases he)
  | check =>
    have hr : s.reader = .looping := ha.2
    refine h.reader rfl rfl rfl rfl ?_ id (fun hj => ?_) ?_
    · simp only [VMController.step, hr]
      split_ifs <;> rfl
    · rcases h.ended hj with hr' | hr' <;> rw [hr] at hr' <;> cases hr'
    · simp only [VMController.step]
      split_ifs <;> exact fun he => by cases he
  | read count left =>
    have hr : s.reader = .reading true := ha.2.1
    refine h.reader rfl rfl rfl rfl ?_ id (fun hj => ?_) (fun he => by cases he)
    · rw [hr]
      exact List.take_append_drop ..
    · rcases h.ended hj with hr' | hr' <;> rw [hr] at hr' <;> cases hr'
  | hangUp =>
    obtain ⟨valid, hr⟩ := ha.2
    exact h.reader rfl rfl rfl rfl (by rw [hr]; rfl) id (fun _ => .inr rfl) (fun he => by cases he)
  | handle =>
    obtain ⟨e, rest, hr⟩ := ha.2
    rw [VMController.step, hr]
    exact h.handleEvent hr
  | endBatch =>
    have hr : s.reader = .handling [] := ha.2
    refine h.reader rfl rfl rfl rfl (by rw [hr]; rfl) id (fun hj => ?_) (fun he => by cases he)
    rcases h.ended hj with hr' | hr' <;> rw [hr] at hr' <;> cases hr'
  | signal => exact h.call ha.2.2 (by simp) fun _ => ha.2.1
  | fire => exact h.call ha.2.2 (by simp) fun he => by cases he
  | stop c => exact h.stopStep ha

/-- The machine stays stopped. -/
theorem running_step {a : Action} (hr : s.running = false) : (s.step a).running = false := by
  cases a with
  | handle =>
    rw [VMController.step]
    split <;> exact hr
  | stop c => simp [VMController.step, stopStep_eq, hr]
  | _ => exact hr

/-- The worker's call returns at the test of `running`. -/
def WorkerReturns (s : VMController) : Prop :=
  s.stop .worker = .notCalled ∨
    s.running = false ∧ (s.stop .worker = .called ∨ s.stop .worker = .returned)

/-- A step of `stop` keeps it. -/
theorem WorkerReturns.stopStep (h : WorkerReturns s) {c : Caller} (hc : s.stop c ≠ .notCalled) :
    WorkerReturns (s.stopStep c) := by
  have hrunning : s.running = false → (s.stopStep c).running = false := running_step (a := .stop c)
  by_cases he : c = .worker
  · subst he
    obtain ⟨hr, hp⟩ := h.resolve_left hc
    refine .inr ⟨hrunning hr, .inr ?_⟩
    rcases hp with hp | hp <;> simp [hp, VMController.next, hr]
  · rw [WorkerReturns, stopStep_ne s (Ne.symm he)]
    exact h.imp_right fun ⟨hr, hp⟩ => ⟨hrunning hr, hp⟩

/-- So does any step. -/
theorem WorkerReturns.step (h : WorkerReturns s) {a : Action} (ha : Enabled interrupted s a) :
    WorkerReturns (s.step a) := by
  cases a with
  | connect | check | read _ _ | hangUp | endBatch => exact h
  | handle =>
    obtain ⟨e, rest, hr⟩ := ha.2
    rw [VMController.step, hr, WorkerReturns, handleEvent_stop_ne _ _ _ (by simp)]
    exact h
  | signal =>
    rw [VMController.step, WorkerReturns, goto_stop_ne _ (by simp)]
    exact h
  | fire => exact .inr ⟨ha.2.1, .inl (goto_stop_self ..)⟩
  | stop c => exact h.stopStep ha.2.1

/-- So it is never on its way to `join`. -/
theorem WorkerReturns.ne_worker (h : WorkerReturns s) {c : Caller} (hcalled : s.stop c ≠ .called)
    (hreturned : s.stop c ≠ .returned) (hc : s.stop c ≠ .notCalled) : c ≠ .worker := by
  rintro rfl
  rcases h with hp | ⟨-, hp | hp⟩
  · exact hc hp
  · exact hcalled hp
  · exact hreturned hp

end Sound

/-! ### Two calls of `stop` -/

section Calls

variable {T : ProcessTree} {events : List SyscallEvent} {interrupted : Bool} {s : VMController}
  {a : Action}

/-- A detached thread belongs to a violation of the stream. -/
theorem Sound.violating (h : Sound T events interrupted s) {n : ℕ}
    (hn : s.stop (.kill n) ≠ .notCalled) :
    ∃ record, (recordsOf T events)[n]? = some record ∧ isViolation record = true := by
  obtain ⟨record, hrecord, hv⟩ := h.kills n hn
  refine ⟨record, ?_, hv⟩
  rw [← h.stream]
  exact (List.getElem?_append_left (List.getElem?_eq_some_iff.1 hrecord).1).trans hrecord

/-- With one violation or one signal, there is one call besides that of the worker. -/
theorem Sound.lone (h : Sound T events interrupted s)
    (hone : violations T events + interrupted.toNat ≤ 1) {c d : Caller} (hcw : c ≠ .worker)
    (hdw : d ≠ .worker) (hc : s.stop c ≠ .notCalled) (hd : s.stop d ≠ .notCalled) : c = d := by
  have hmixed : ∀ n, s.stop (.kill n) ≠ .notCalled → s.stop .main ≠ .notCalled → False := by
    intro n hn hm
    obtain ⟨record, hrecord, hv⟩ := h.violating hn
    have hpos : 0 < violations T events :=
      List.countP_pos_iff.2 ⟨record, List.mem_of_getElem? hrecord, hv⟩
    rw [h.main hm, Bool.toNat_true] at hone
    omega
  cases c with
  | kill n =>
    cases d with
    | kill m =>
      obtain ⟨x, hx, hxv⟩ := h.violating hc
      obtain ⟨y, hy, hyv⟩ := h.violating hd
      by_contra hne
      have htwo : 2 ≤ violations T events := two_le_countP_iff.2
        ⟨n, m, x, y, fun he => hne (he ▸ rfl), hx, hxv, hy, hyv⟩
      omega
    | main => exact (hmixed n hc hd).elim
    | worker => exact absurd rfl hdw
  | main =>
    cases d with
    | kill m => exact (hmixed m hd hc).elim
    | main => rfl
    | worker => exact absurd rfl hdw
  | worker => exact absurd rfl hcw

/-- **What a step does to a call of `stop`**: nothing, unless it is one of its own or its
beginning. -/
theorem Sound.stop_step (h : Sound T events interrupted s) (ha : Enabled interrupted s a)
    (c : Caller) : (s.step a).stop c = s.stop c ∨
      (s.stop c = .notCalled ∧ (s.step a).stop c = .called) ∨ a = .stop c := by
  cases a with
  | connect | check | read _ _ | hangUp | endBatch => exact .inl rfl
  | handle =>
    obtain ⟨e, rest, hr⟩ := ha.2
    rw [VMController.step, hr]
    dsimp only [VMController.handleEvent]
    split_ifs
    · by_cases hc : c = .kill s.records.length
      · refine .inr (.inl ⟨?_, by rw [hc, Function.update_self]⟩)
        by_contra hn
        obtain ⟨record, hrecord, -⟩ := h.kills _ (hc ▸ hn)
        rw [List.getElem?_eq_none (Nat.le_refl _)] at hrecord
        cases hrecord
      · exact .inl (Function.update_of_ne hc ..)
    · exact .inl rfl
  | signal =>
    by_cases hc : c = .main
    · exact .inr (.inl ⟨hc ▸ ha.2.2, hc ▸ goto_stop_self ..⟩)
    · exact .inl (goto_stop_ne _ hc _)
  | fire =>
    by_cases hc : c = .worker
    · exact .inr (.inl ⟨hc ▸ ha.2.2, hc ▸ goto_stop_self ..⟩)
    · exact .inl (goto_stop_ne _ hc _)
  | stop c' =>
    by_cases hc : c = c'
    · exact .inr (.inr (by rw [hc]))
    · exact .inl (stopStep_ne s hc)

/-- `reader_thread` stays joinable until it is joined. -/
theorem step_joinable (hj : s.joinable = true) :
    (s.step a).joinable = true ∨ ∃ c, a = .stop c ∧ s.stop c = .joining := by
  cases a with
  | connect => exact .inl rfl
  | check | read _ _ | hangUp | endBatch | signal | fire => exact .inl hj
  | handle =>
    rw [VMController.step]
    split <;> exact .inl hj
  | stop c =>
    by_cases hp : s.stop c = .joining
    · exact .inr ⟨c, rfl, hp⟩
    · left
      simp [VMController.step, stopStep_eq, hj, hp]

/-- Only `join` fails. -/
theorem step_failed (hf : s.failed = false) : (s.step a).failed = false ∨
    ∃ c, s.stop c = .willJoin ∧ (s.joinable && s.joiner.isNone) = false := by
  cases a with
  | connect | check | read _ _ | hangUp | endBatch | signal | fire => exact .inl hf
  | handle =>
    rw [VMController.step]
    split <;> exact .inl hf
  | stop c =>
    by_cases hjoin : s.stop c = .willJoin ∧ (s.joinable && s.joiner.isNone) = false
    · exact .inr ⟨c, hjoin⟩
    · left
      have hjoin' : s.stop c = .willJoin → (s.joinable && s.joiner.isNone) = true := fun hp => by
        simpa [hp] using hjoin
      by_cases hp : s.stop c = .willJoin <;>
        simp_all [VMController.step, stopStep_eq]

/-- With one call of `stop`, `join` finds `reader_thread` as `joinable` has found it. -/
structure Safe (T : ProcessTree) (events : List SyscallEvent) (interrupted : Bool)
    (s : VMController) : Prop where
  sound : Sound T events interrupted s
  worker : WorkerReturns s
  willJoin : ∀ c, s.stop c = .willJoin → s.joinable = true
  failed : s.failed = false

/-- Before the run. -/
theorem safe_start (T : ProcessTree) (events : List SyscallEvent) (interrupted : Bool) :
    Safe T events interrupted (start T events) :=
  ⟨sound_start .., .inl rfl, fun _ hc => (by cases hc), rfl⟩

/-- Two calls at `join` are one. -/
theorem Safe.lone (h : Safe T events interrupted s)
    (hone : violations T events + interrupted.toNat ≤ 1) {c d : Caller}
    (hc : s.stop c = .willJoin) (hd : s.stop d = .joining) : c = d :=
  h.sound.lone hone (h.worker.ne_worker (by simp [hc]) (by simp [hc]) (by simp [hc]))
    (h.worker.ne_worker (by simp [hd]) (by simp [hd]) (by simp [hd])) (by simp [hc]) (by simp [hd])

/-- With one caller a step keeps it. -/
theorem Safe.step (h : Safe T events interrupted s)
    (hone : violations T events + interrupted.toNat ≤ 1) (ha : Enabled interrupted s a) :
    Safe T events interrupted (s.step a) := by
  refine ⟨h.sound.step ha, h.worker.step ha, fun c hc => ?_, ?_⟩
  · rcases h.sound.stop_step ha c with hsame | ⟨-, hcalled⟩ | rfl
    · rw [hsame] at hc
      refine (step_joinable (h.willJoin c hc)).resolve_right ?_
      rintro ⟨c', -, hc'⟩
      rw [h.lone hone hc hc', hc'] at hc
      cases hc
    · rw [hcalled] at hc
      cases hc
    · -- only the test of `joinable` leads there
      have hjoinable : s.joinable = true ∧ s.stop c ≠ .joining := by
        rcases next_eq_willJoin ((stopStep_self s c).symm.trans hc) with ⟨hp, hj⟩ | hp
        · exact ⟨hj, by simp [hp]⟩
        · exact ⟨h.willJoin c hp, by simp [hp]⟩
      refine (step_joinable hjoinable.1).resolve_right ?_
      rintro ⟨c', hcc, hc'⟩
      exact hjoinable.2 (Action.stop.inj hcc ▸ hc')
  · refine (step_failed h.failed).resolve_right ?_
    rintro ⟨c, hc, hj⟩
    rw [h.willJoin c hc, Bool.true_and, Option.isNone_eq_false_iff, Option.isSome_iff_exists] at hj
    obtain ⟨c', hj⟩ := hj
    have hc' := (h.sound.joiner c').1 hj
    rw [h.lone hone hc hc', hc'] at hc
    cases hc

/-- What two calls need to meet in `join`. -/
structure Joinable (s : VMController) : Prop where
  running : s.running = true
  joinable : s.joinable = true
  joiner : s.joiner = none
  failed : s.failed = false

/-- The steps of a call before `join`. -/
theorem Joinable.next (h : Joinable s) (interrupted : Bool) {c : Caller} {p q : Stop}
    (hp : s.stop c = p)
    (hpq : (p, q) ∈ [(Stop.called, Stop.passed), (.passed, .flagged), (.flagged, .closed),
      (.closed, .willJoin)]) :
    Enabled interrupted s (.stop c) ∧ Joinable (s.step (.stop c)) ∧
      (s.step (.stop c)).stop c = q := by
  simp only [List.mem_cons, List.not_mem_nil, or_false, Prod.mk.injEq] at hpq
  rw [VMController.step, stopStep_self, stopStep_eq, hp]
  rcases hpq with ⟨rfl, rfl⟩ | ⟨rfl, rfl⟩ | ⟨rfl, rfl⟩ | ⟨rfl, rfl⟩ <;>
    exact ⟨⟨h.failed, by simp [hp]⟩, ⟨by simp [h.running], by simp [h.joinable],
      by simp [VMController.next, h.running, h.joinable, h.joiner], by simp [h.failed]⟩,
      by simp [VMController.next, h.running, h.joinable]⟩

/-- A call goes on up to `join`. -/
theorem Joinable.reaches_willJoin (h : Joinable s) (interrupted : Bool) {c : Caller} (hc : s.stop c = .called) :
    ∃ s', Reaches step (Enabled interrupted) s s' ∧ Joinable s' ∧ s'.stop c = .willJoin ∧
      ∀ c', c' ≠ c → s'.stop c' = s.stop c' := by
  obtain ⟨ha₁, h₁, hp₁⟩ := h.next interrupted hc (q := .passed) (by simp)
  obtain ⟨ha₂, h₂, hp₂⟩ := h₁.next interrupted hp₁ (q := .flagged) (by simp)
  obtain ⟨ha₃, h₃, hp₃⟩ := h₂.next interrupted hp₂ (q := .closed) (by simp)
  obtain ⟨ha₄, h₄, hp₄⟩ := h₃.next interrupted hp₃ (q := .willJoin) (by simp)
  refine ⟨_, .head ha₁ (.head ha₂ (.head ha₃ (.head ha₄ (.refl _)))), h₄, hp₄, fun c' hc' => ?_⟩
  have hother : ∀ s : VMController, (s.step (.stop c)).stop c' = s.stop c' := fun s =>
    stopStep_ne s hc'
  rw [hother, hother, hother, hother]

/-- **Two calls in `join`.** -/
theorem Joinable.reaches_failed (h : Joinable s) (interrupted : Bool) {c d : Caller}
    (hne : c ≠ d) (hc : s.stop c = .called) (hd : s.stop d = .called) :
    ∃ s', Reaches step (Enabled interrupted) s s' ∧ s'.failed = true := by
  obtain ⟨s₁, hs₁, h₁, hp₁, hother₁⟩ := h.reaches_willJoin interrupted hc
  obtain ⟨s₂, hs₂, h₂, hp₂, hother₂⟩ := h₁.reaches_willJoin interrupted (c := d)
    ((hother₁ d hne.symm).trans hd)
  have hp : s₂.stop c = .willJoin := (hother₂ c hne).trans hp₁
  -- the first is in `join` when the second calls it
  have hjoining : s₂.step (.stop c) = { s₂.goto c .joining with joiner := some c } := by
    rw [VMController.step, stopStep, hp, h₂.joinable, h₂.joiner]
    rfl
  have hp' : (s₂.step (.stop c)).stop d = .willJoin :=
    (stopStep_ne s₂ hne.symm).trans hp₂
  have hfailed : ((s₂.step (.stop c)).step (.stop d)).failed = true := by
    rw [VMController.step, stopStep, hp', hjoining]
    simp
  refine ⟨_, hs₁.trans (hs₂.trans (.head ⟨h₂.failed, by simp [hp]⟩ (.head ⟨?_, by simp [hp']⟩
    (.refl _)))), hfailed⟩
  rw [hjoining]
  exact h₂.failed

/-- An event handled while the machine runs. -/
theorem Joinable.handle (h : Joinable s) (interrupted : Bool) {e : SyscallEvent}
    {rest : List SyscallEvent} (hr : s.reader = .handling (e :: rest)) :
    Enabled interrupted s .handle ∧ Joinable (s.step .handle) ∧
      (s.step .handle).reader = .handling rest ∧
      (s.step .handle).tree = (processEvent s.tree e).2 ∧
      (s.step .handle).records.length = s.records.length + 1 ∧
      (s.step .handle).stop .main = s.stop .main ∧
      (∀ c, s.stop c = .called → (s.step .handle).stop c = .called) ∧
      (isViolation (processEvent s.tree e).1 = true →
        (s.step .handle).stop (.kill s.records.length) = .called) := by
  rw [VMController.step, hr]
  refine ⟨⟨h.failed, e, rest, hr⟩, ⟨h.running, h.joinable, h.joiner, h.failed⟩, rfl, rfl,
    List.length_append, handleEvent_stop_ne _ _ _ (by simp), fun c hc => ?_, fun hv => ?_⟩
  · dsimp only [handleEvent]
    split_ifs
    · by_cases hn : c = .kill s.records.length
      · rw [hn, Function.update_self]
      · rw [Function.update_of_ne hn, hc]
    · exact hc
  · dsimp only [handleEvent]
    rw [hv, h.running]
    exact Function.update_self ..

/-- The reader is between two events of the stream, and nobody has told it to stop. -/
structure Ready (s : VMController) : Prop extends Joinable s where
  reader : s.reader = .looping
  stopReader : s.stopReader = false
  vsockOpen : s.vsockOpen = true
  pending : s.pending = 0

/-- The guest has connected. -/
theorem ready_connect (T : ProcessTree) (events : List SyscallEvent) :
    Ready ((start T events).step .connect) :=
  ⟨⟨rfl, rfl, rfl, rfl⟩, rfl, rfl, rfl, rfl⟩

/-- **A turn of the reader's loop** in which `read` returns one event. -/
theorem Ready.reaches_next (h : Ready s) (interrupted : Bool) {e : SyscallEvent}
    {rest : List SyscallEvent} (he : s.incoming = e :: rest) :
    ∃ s', Reaches step (Enabled interrupted) s s' ∧ Ready s' ∧ s'.incoming = rest ∧
      s'.tree = (processEvent s.tree e).2 ∧ s'.records.length = s.records.length + 1 ∧
      s'.stop .main = s.stop .main ∧ (∀ c, s.stop c = .called → s'.stop c = .called) ∧
      (isViolation (processEvent s.tree e).1 = true →
        s'.stop (.kill s.records.length) = .called) := by
  have hcheck : s.step .check = { s with reader := .reading true } := by
    rw [VMController.step, h.stopReader, h.vsockOpen]
    rfl
  let s₂ : VMController := { s with reader := .handling [e], incoming := rest, pending := 0 }
  have hread : (s.step .check).step (.read 1 0) = s₂ := by
    rw [hcheck]
    simp [VMController.step, he, s₂]
  have hable : Enabled interrupted (s.step .check) (.read 1 0) := by
    rw [hcheck]
    refine ⟨h.failed, rfl, ?_⟩
    simp only [eventSize, h.pending, he, List.length_cons]
    omega
  obtain ⟨ha, h₃, hr, htree, hlength, hmain, hcalled, hv⟩ := Joinable.handle (s := s₂)
    ⟨h.running, h.joinable, h.joiner, h.failed⟩ interrupted rfl
  have hreach : Reaches step (Enabled interrupted) ((s.step .check).step (.read 1 0))
      ((s₂.step .handle).step .endBatch) := by
    rw [hread]
    exact .head ha (.head ⟨h₃.failed, hr⟩ (.refl _))
  exact ⟨_, .head ⟨h.failed, h.reader⟩ (.head hable hreach),
    ⟨⟨h₃.running, h₃.joinable, h₃.joiner, h₃.failed⟩, rfl, h.stopReader, h.vsockOpen, rfl⟩, rfl,
    htree, hlength, hmain, hcalled, hv⟩

/-- The reader gets to the end of the stream, and each violation has its thread. -/
theorem Ready.reaches_handled (interrupted : Bool) {events : List SyscallEvent} :
    ∀ {s : VMController}, Ready s → s.incoming = events →
      ∃ s', Reaches step (Enabled interrupted) s s' ∧ Joinable s' ∧
        s'.stop .main = s.stop .main ∧ (∀ c, s.stop c = .called → s'.stop c = .called) ∧
        ∀ (n : ℕ) (record : SyscallTraceRecord), (recordsOf s.tree events)[n]? = some record →
          isViolation record = true → s'.stop (.kill (s.records.length + n)) = .called := by
  induction events with
  | nil =>
    exact fun h _ => ⟨_, .refl _, h.toJoinable, rfl, fun _ hc => hc, fun n record hn => by
      simp [recordsOf] at hn⟩
  | cons e rest ih =>
    intro s h he
    obtain ⟨s₁, hs₁, h₁, he₁, htree, hlength, hmain, hcalled, hv⟩ := h.reaches_next interrupted he
    obtain ⟨s', hs', hj, hmain', hcalled', hrest⟩ := ih h₁ he₁
    refine ⟨s', hs₁.trans hs', hj, hmain'.trans hmain, fun c hc => hcalled' c (hcalled c hc),
      fun n record hn hrecord => ?_⟩
    cases n with
    | zero =>
      obtain rfl := Option.some.inj hn
      exact hcalled' _ (hv hrecord)
    | succ n =>
      have := hrest n record (by rw [htree]; exact hn) hrecord
      rwa [hlength, Nat.add_right_comm] at this

end Calls

/-- **`stop` can fail exactly if two threads may call it**: if the stream has two violations, or
one and there is a signal. -/
theorem stop_fails_iff (T : ProcessTree) (events : List SyscallEvent) (interrupted : Bool) :
    (∃ s, Reaches step (Enabled interrupted) (start T events) s ∧ s.failed = true) ↔
      2 ≤ violations T events + interrupted.toNat := by
  constructor
  · rintro ⟨s, hs, hfailed⟩
    by_contra hone
    have hsafe : Safe T events interrupted s :=
      hs.keeps (fun _ _ h ha => h.step (by omega) ha) (safe_start ..)
    rw [hsafe.failed] at hfailed
    cases hfailed
  · intro htwo
    obtain ⟨s, hs, h, hmain, -, hkill⟩ := (ready_connect T events).reaches_handled interrupted rfl
    have hrecords : ((start T events).step .connect).records.length = 0 := rfl
    simp only [hrecords, Nat.zero_add] at hkill
    have hreached := Reaches.head (C := Enabled interrupted) (a := .connect) ⟨rfl, rfl⟩ hs
    cases interrupted with
    | false =>
      obtain ⟨i, j, x, y, hij, hi, hx, hj, hy⟩ := two_le_countP_iff.1 htwo
      obtain ⟨s', hs', hfailed⟩ := h.reaches_failed false (c := .kill i) (d := .kill j)
        (fun he => hij (Caller.kill.inj he)) (hkill i x hi hx) (hkill j y hj hy)
      exact ⟨s', hreached.trans hs', hfailed⟩
    | true =>
      obtain ⟨x, hx, hxv⟩ := List.countP_pos_iff.1
        (show 0 < violations T events by rw [Bool.toNat_true] at htwo; omega)
      obtain ⟨i, hi⟩ := List.mem_iff_getElem?.1 hx
      -- the signal comes once the event has been handled
      have hsignal : Enabled true s .signal := ⟨h.failed, rfl, hmain⟩
      have h' : Joinable (s.step .signal) := ⟨h.running, h.joinable, h.joiner, h.failed⟩
      obtain ⟨s', hs', hfailed⟩ := h'.reaches_failed true (c := .kill i) (d := .main) (by simp)
        ((goto_stop_ne s (by simp) _).trans (hkill i x hi hxv)) (goto_stop_self ..)
      exact ⟨s', hreached.trans (.head hsignal hs'), hfailed⟩

/-! ### The kill switch stops the machine -/

/-- The actions of the reader thread. -/
def Action.OfReader : Action → Prop
  | .check | .read _ _ | .hangUp | .handle | .endBatch => True
  | .connect | .signal | .fire | .stop _ => False

section Steps

variable {T : ProcessTree} {events : List SyscallEvent} {interrupted : Bool} {s : VMController}
  {a : Action}

/-- The reader is there when an event has been handled. -/
theorem Sound.connected (h : Sound T events interrupted s) {n : ℕ}
    (hn : s.stop (.kill n) ≠ .notCalled) : s.reader ≠ .absent := by
  intro hr
  obtain ⟨record, hrecord, -⟩ := h.kills n hn
  rw [h.unconnected hr] at hrecord
  cases hrecord

/-- The others leave the reader alone. -/
theorem reader_step (ha : Enabled interrupted s a) (hr : s.reader ≠ .absent) (hnot : ¬a.OfReader) :
    (s.step a).reader = s.reader ∧ (s.step a).records = s.records := by
  cases a with
  | connect => exact absurd ha.2 hr
  | signal | fire => exact ⟨rfl, rfl⟩
  | stop c => exact ⟨(stopStep_frame s c).1, (stopStep_frame s c).2.2⟩
  | _ => exact absurd trivial hnot

/-- A reader that has ended handles nothing. -/
theorem finished_step (hr : s.reader = .finished) (ha : Enabled interrupted s a) :
    (s.step a).reader = .finished ∧ (s.step a).records = s.records := by
  have hnot : ¬a.OfReader := by
    intro how
    obtain ⟨-, ha⟩ := ha
    cases a <;> simp_all [Action.OfReader]
  obtain ⟨hreader, hrecords⟩ := reader_step ha (by simp [hr]) hnot
  exact ⟨hreader.trans hr, hrecords⟩

/-- Once the guest has connected, the reader is there. -/
theorem connected_step (hr : s.reader ≠ .absent) (ha : Enabled interrupted s a) :
    (s.step a).reader ≠ .absent := by
  by_cases how : a.OfReader
  · cases a with
    | check =>
      simp only [VMController.step]
      split_ifs <;> simp
    | handle =>
      obtain ⟨e, rest, hr'⟩ := ha.2
      rw [VMController.step, hr']
      simp [handleEvent]
    | read _ _ | hangUp | endBatch => simp [VMController.step]
    | _ => cases how
  · rw [(reader_step ha hr how).1]
    exact hr

/-- And it stays told to stop. -/
theorem stopReader_step (hr : s.reader ≠ .absent) (hs : s.stopReader = true)
    (ha : Enabled interrupted s a) : (s.step a).stopReader = true := by
  cases a with
  | connect => exact absurd ha.2 hr
  | handle =>
    rw [VMController.step]
    split <;> exact hs
  | stop c => simp [VMController.step, stopStep_eq, hs]
  | _ => exact hs

/-- A call that has returned has found the machine stopped, or stopped it. -/
theorem Sound.stopped_step (h : Sound T events interrupted s) (ha : Enabled interrupted s a)
    (hstopped : ∀ c, s.stop c = .returned → s.running = false) {c : Caller}
    (hc : (s.step a).stop c = .returned) : (s.step a).running = false := by
  rcases h.stop_step ha c with hsame | ⟨-, hcalled⟩ | rfl
  · exact running_step (hstopped c (hsame.symm.trans hc))
  · cases hcalled.symm.trans hc
  · rcases next_eq_returned ((stopStep_self s c).symm.trans hc) with ⟨-, hr⟩ | hp | hp
    · exact running_step hr
    · simp [VMController.step, stopStep_eq, hp]
    · exact running_step (hstopped c hp)

/-- What is so without a signal: the machine is stopped after the reader has ended. -/
structure Quiet (T : ProcessTree) (events : List SyscallEvent) (s : VMController) : Prop where
  sound : Sound T events false s
  worker : WorkerReturns s
  joined : ∀ c, s.stop c = .joined → s.reader = .finished
  stopped : s.running = false → s.reader = .finished

/-- Before the run. -/
theorem quiet_start (T : ProcessTree) (events : List SyscallEvent) : Quiet T events (start T events) :=
  ⟨sound_start .., .inl rfl, fun _ h => (by cases h), fun h => (by cases h)⟩

/-- The reader has ended when a call gets past `join`, and when it stops the machine. -/
theorem Quiet.stopStep (h : Quiet T events s) {c : Caller} (ha : Enabled false s (.stop c)) :
    ((s.stopStep c).stop c = .joined → s.reader = .finished) ∧
      ((s.stopStep c).running = false → s.reader = .finished) := by
  refine ⟨fun hc => ?_, fun hr => ?_⟩
  · rcases next_eq_joined ((stopStep_self s c).symm.trans hc) with ⟨hp, hj⟩ | hp
    · cases c with
      | main => cases h.sound.main ha.2.1
      | worker => exact absurd rfl (h.worker.ne_worker (by simp [hp]) (by simp [hp]) ha.2.1)
      | kill n => exact (h.sound.ended hj).resolve_left (h.sound.connected ha.2.1)
    · exact ha.2.2.2 hp
  · rw [stopStep_eq] at hr
    rcases Bool.and_eq_false_iff.1 hr with hr | hr
    · exact h.stopped hr
    · exact h.joined c (by simpa using hr)

/-- A step keeps it. -/
theorem Quiet.step (h : Quiet T events s) (ha : Enabled false s a) :
    Quiet T events (s.step a) := by
  have hfinished : s.reader = .finished → (s.step a).reader = .finished := fun hr =>
    (finished_step hr ha).1
  refine ⟨h.sound.step ha, h.worker.step ha, fun c hc => hfinished ?_, fun hr => hfinished ?_⟩
  · rcases h.sound.stop_step ha c with hsame | ⟨-, hcalled⟩ | rfl
    · exact h.joined c (hsame.symm.trans hc)
    · cases hcalled.symm.trans hc
    · exact (h.stopStep ha).1 hc
  · cases a with
    | stop c => exact (h.stopStep ha).2 hr
    | handle =>
      obtain ⟨e, rest, hr'⟩ := ha.2
      rw [VMController.step, hr'] at hr
      exact h.stopped hr
    | _ => exact h.stopped hr

end Steps

section Live

variable {T : ProcessTree} {events : List SyscallEvent} {interrupted : Bool}
  {X : Execution step (Enabled interrupted) (start T events)}

/-- It holds at all times. -/
theorem sound_state (m : ℕ) : Sound T events interrupted (X.state m) :=
  Execution.invariant (fun _ _ h ha => h.step ha) (sound_start ..) m

/-- After `stop` the VM is off. -/
theorem stopped_state (m : ℕ) (c : Caller) (hc : (X.state m).stop c = .returned) :
    (X.state m).running = false := by
  have h : Sound T events interrupted (X.state m) ∧
      ∀ c, (X.state m).stop c = .returned → (X.state m).running = false :=
    Execution.invariant (I := fun s : VMController => Sound T events interrupted s ∧
        ∀ c, s.stop c = .returned → s.running = false)
      (fun _ _ h ha => ⟨h.1.step ha, fun _ hc => h.1.stopped_step ha h.2 hc⟩)
      ⟨sound_start .., fun _ h => (by cases h)⟩ m
  exact h.2 c hc

/-- A reader that is neither absent nor finished goes on. -/
theorem reader_acts (hfair : X.FairTo Action.OfReader) (hok : ∀ m, (X.state m).failed = false)
    {m : ℕ} {r : ReaderThread} (hr : (X.state m).reader = r) (habsent : r ≠ .absent)
    (hfinished : r ≠ .finished) :
    ∃ k ≥ m, (X.state k).reader = r ∧ ∃ a, X.act k = some a ∧ a.OfReader := by
  refine hfair.acts (P := fun k => (X.state k).reader = r) hr (fun k _ hk hnot => ?_) fun k _ hk => ?_
  · exact Execution.next (I := fun s : VMController => s.reader = r) hk fun a hact ha =>
      (reader_step ha (hk ▸ habsent) (hnot a hact)).1.trans hk
  · cases r with
    | absent => exact absurd rfl habsent
    | finished => exact absurd rfl hfinished
    | looping => exact ⟨.check, trivial, hok k, hk⟩
    | reading valid => exact ⟨.hangUp, trivial, hok k, valid, hk⟩
    | handling buffer =>
      cases buffer with
      | nil => exact ⟨.endBatch, trivial, hok k, hk⟩
      | cons e rest => exact ⟨.handle, trivial, hok k, e, rest, hk⟩

/-- **A reader that has been told to stop ends.** -/
theorem looping_ends (hfair : X.FairTo Action.OfReader) (hok : ∀ m, (X.state m).failed = false)
    {m : ℕ} (hflag : ∀ k ≥ m, (X.state k).stopReader = true) (hr : (X.state m).reader = .looping) :
    ∃ k ≥ m, (X.state k).reader = .finished := by
  obtain ⟨k, hk, hrk, a, hact, how⟩ := reader_acts hfair hok hr (by simp) (by simp)
  obtain ⟨-, ha⟩ := Execution.enabled hact
  refine ⟨k + 1, by omega, ?_⟩
  rw [Execution.state_succ_some hact]
  cases a with
  | check =>
    rw [step, hflag k hk]
    rfl
  | _ => simp_all [Action.OfReader]

/-- The buffer is worked off. -/
theorem handling_ends (hfair : X.FairTo Action.OfReader) (hok : ∀ m, (X.state m).failed = false)
    {buffer : List SyscallEvent} : ∀ {m : ℕ}, (∀ k ≥ m, (X.state k).stopReader = true) →
      (X.state m).reader = .handling buffer → ∃ k ≥ m, (X.state k).reader = .finished := by
  induction buffer with
  | nil =>
    intro m hflag hr
    obtain ⟨k, hk, hrk, a, hact, how⟩ := reader_acts hfair hok hr (by simp) (by simp)
    obtain ⟨-, ha⟩ := Execution.enabled hact
    have hnext : (X.state (k + 1)).reader = .looping := by
      rw [Execution.state_succ_some hact]
      cases a with
      | endBatch => rfl
      | _ => simp_all [Action.OfReader]
    obtain ⟨l, hl, hend⟩ := looping_ends hfair hok (fun l hl => hflag l (by omega)) hnext
    exact ⟨l, by omega, hend⟩
  | cons e rest ih =>
    intro m hflag hr
    obtain ⟨k, hk, hrk, a, hact, how⟩ := reader_acts hfair hok hr (by simp) (by simp)
    obtain ⟨-, ha⟩ := Execution.enabled hact
    have hnext : (X.state (k + 1)).reader = .handling rest := by
      rw [Execution.state_succ_some hact]
      cases a with
      | handle =>
        rw [step, hrk]
        rfl
      | _ => simp_all [Action.OfReader]
    obtain ⟨l, hl, hend⟩ := ih (fun l hl => hflag l (by omega)) hnext
    exact ⟨l, by omega, hend⟩

/-- So the reader ends. -/
theorem reader_ends (hfair : X.FairTo Action.OfReader) (hok : ∀ m, (X.state m).failed = false)
    {m : ℕ} (hflag : ∀ k ≥ m, (X.state k).stopReader = true) (hr : (X.state m).reader ≠ .absent) :
    ∃ k ≥ m, (X.state k).reader = .finished := by
  cases hread : (X.state m).reader with
  | absent => exact absurd hread hr
  | finished => exact ⟨m, le_rfl, hread⟩
  | looping => exact looping_ends hfair hok hflag hread
  | handling buffer => exact handling_ends hfair hok hflag hread
  | reading valid =>
    obtain ⟨k, hk, hrk, a, hact, how⟩ := reader_acts hfair hok hread (by simp) (by simp)
    obtain ⟨-, ha⟩ := Execution.enabled hact
    have hnext := Execution.state_succ_some hact
    cases a with
    | hangUp => exact ⟨k + 1, by omega, by rw [hnext]; rfl⟩
    | read count left =>
      have hbuffer : (X.state (k + 1)).reader =
          .handling ((X.state k).incoming.take count) := by rw [hnext]; rfl
      obtain ⟨l, hl, hend⟩ := handling_ends hfair hok (fun l hl => hflag l (by omega)) hbuffer
      exact ⟨l, by omega, hend⟩
    | _ => simp_all [Action.OfReader]

/-- A call of `stop` stays where it is until it acts. -/
theorem stop_stays {c : Caller} {k : ℕ} {p : Stop} (hcalled : p ≠ .notCalled)
    (hp : (X.state k).stop c = p) (hnot : ∀ a, X.act k = some a → ¬a = .stop c) :
    (X.state (k + 1)).stop c = p := by
  refine Execution.next (I := fun s : VMController => s.stop c = p) hp fun a hact ha => ?_
  rcases (sound_state k).stop_step ha c with hsame | ⟨hno, -⟩ | rfl
  · exact hsame.trans hp
  · exact absurd (hp.symm.trans hno) hcalled
  · exact absurd rfl (hnot _ hact)

section Fair

variable {c : Caller} (hfair : X.FairTo (· = .stop c)) (hok : ∀ m, (X.state m).failed = false)

include hfair hok

/-- A call of `stop` that is not in `join` goes on. -/
theorem stop_acts {m : ℕ} {p : Stop} (hp : (X.state m).stop c = p) (hcalled : p ≠ .notCalled)
    (hreturned : p ≠ .returned) (hjoining : p ≠ .joining) :
    ∃ k ≥ m, (X.state k).stop c = p ∧ X.state (k + 1) = (X.state k).stopStep c := by
  have hable : ∀ k ≥ m, (X.state k).stop c = p →
      ∃ a, a = .stop c ∧ Enabled interrupted (X.state k) a := by
    intro k _ hk
    subst hk
    exact ⟨_, rfl, hok k, hcalled, hreturned, fun he => absurd he hjoining⟩
  obtain ⟨k, hk, hpk, a, hact, rfl⟩ := hfair.acts hp (fun _ _ => stop_stays hcalled) hable
  exact ⟨k, hk, hpk, Execution.state_succ_some hact⟩

variable (hreader : X.FairTo Action.OfReader)

include hreader

/-- `join` returns. -/
theorem joining_leads {m : ℕ} (hflag : ∀ k ≥ m, (X.state k).stopReader = true)
    (hr : (X.state m).reader ≠ .absent) (hp : (X.state m).stop c = .joining) :
    ∃ k ≥ m, (X.state k).stop c = .joined := by
  have hacts : ∃ k ≥ m, (X.state k).stop c = .joining ∧ ∃ a, X.act k = some a ∧ a = .stop c := by
    rcases Execution.stays_or_acts hp fun _ _ => stop_stays (by simp) with hforever | hacts
    · obtain ⟨k, hk, hend⟩ := reader_ends hreader hok hflag hr
      have hable : ∀ l ≥ k, ∃ a, a = .stop c ∧ Enabled interrupted (X.state l) a := by
        intro l hl
        have hj := hforever l (by omega)
        have hend' : (X.state l).reader = .finished :=
          Execution.stable (I := fun s : VMController => s.reader = .finished)
            (fun _ _ h ha => (finished_step h ha).1) hl hend
        exact ⟨_, rfl, hok l, by simp [hj], by simp [hj], fun _ => hend'⟩
      obtain ⟨l, hl, hact⟩ := hfair k hable
      exact ⟨l, by omega, hforever l (by omega), hact⟩
    · exact hacts
  obtain ⟨k, hk, hj, a, hact, rfl⟩ := hacts
  refine ⟨k + 1, by omega, ?_⟩
  rw [Execution.state_succ_some hact, step, stopStep, hj]
  exact goto_stop_self ..

/-- From the test of `joinable` on. -/
theorem closed_leads {m : ℕ} (hflag : ∀ k ≥ m, (X.state k).stopReader = true)
    (hr : ∀ k ≥ m, (X.state k).reader ≠ .absent) (hp : (X.state m).stop c = .closed) :
    ∃ k ≥ m, (X.state k).stop c = .returned := by
  have hjoined : ∃ k ≥ m, (X.state k).stop c = .joined := by
    obtain ⟨k₁, hk₁, hp₁, hnext₁⟩ := stop_acts hfair hok hp (by simp) (by simp) (by simp)
    have hp₁' : (X.state (k₁ + 1)).stop c =
        if (X.state k₁).joinable then .willJoin else .joined := by
      rw [hnext₁, stopStep, hp₁]
      exact goto_stop_self ..
    split_ifs at hp₁' with hj
    · obtain ⟨k₂, hk₂, hp₂, hnext₂⟩ := stop_acts hfair hok hp₁' (by simp) (by simp) (by simp)
      -- `join` has been called when it does not fail
      have hp₂' : (X.state (k₂ + 1)).stop c = .joining := by
        have hok₂ := hok (k₂ + 1)
        rw [hnext₂, stopStep, hp₂] at hok₂ ⊢
        dsimp only at hok₂ ⊢
        split_ifs at hok₂ ⊢
        · exact goto_stop_self ..
      obtain ⟨k, hk, hp⟩ := joining_leads hfair hok hreader (fun l hl => hflag l (by omega))
        (hr _ (by omega)) hp₂'
      exact ⟨k, by omega, hp⟩
    · exact ⟨k₁ + 1, by omega, hp₁'⟩
  obtain ⟨k, hk, hp⟩ := hjoined
  obtain ⟨l, hl, hpl, hnext⟩ := stop_acts hfair hok hp (by simp) (by simp) (by simp)
  refine ⟨l + 1, by omega, ?_⟩
  rw [hnext, stopStep, hpl]
  exact goto_stop_self ..

/-- **A call of `stop` returns**, if the guest has connected before it. -/
theorem called_leads {m : ℕ} (hr : (X.state m).reader ≠ .absent) (hp : (X.state m).stop c = .called) :
    ∃ k ≥ m, (X.state k).stop c = .returned := by
  obtain ⟨k₁, hk₁, hp₁, hnext₁⟩ := stop_acts hfair hok hp (by simp) (by simp) (by simp)
  cases hrunning : (X.state k₁).running with
  | false =>
    refine ⟨k₁ + 1, by omega, ?_⟩
    rw [hnext₁, stopStep, hp₁, hrunning]
    exact goto_stop_self ..
  | true =>
    have hp₁' : (X.state (k₁ + 1)).stop c = .passed := by
      rw [hnext₁, stopStep, hp₁, hrunning]
      exact goto_stop_self ..
    obtain ⟨k₂, hk₂, hp₂, hnext₂⟩ := stop_acts hfair hok hp₁' (by simp) (by simp) (by simp)
    have hr₂ : (X.state (k₂ + 1)).reader ≠ .absent :=
      Execution.stable (I := fun s : VMController => s.reader ≠ .absent)
        (fun _ _ h ha => connected_step h ha) (by omega) hr
    have hflag : ∀ k ≥ k₂ + 1, (X.state k).reader ≠ .absent ∧ (X.state k).stopReader = true := by
      refine fun k hk => Execution.stable
        (I := fun s : VMController => s.reader ≠ .absent ∧ s.stopReader = true)
        (fun _ _ h ha => ⟨connected_step h.1 ha, stopReader_step h.1 h.2 ha⟩) hk ⟨hr₂, ?_⟩
      rw [hnext₂, stopStep, hp₂]
    have hp₂' : (X.state (k₂ + 1)).stop c = .flagged := by
      rw [hnext₂, stopStep, hp₂]
      exact goto_stop_self ..
    obtain ⟨k₃, hk₃, hp₃, hnext₃⟩ := stop_acts hfair hok hp₂' (by simp) (by simp) (by simp)
    have hp₃' : (X.state (k₃ + 1)).stop c = .closed := by
      rw [hnext₃, stopStep, hp₃]
      exact goto_stop_self ..
    obtain ⟨k, hk, hreturned⟩ := closed_leads hfair hok hreader
      (fun l hl => (hflag l (by omega)).2) (fun l hl => (hflag l (by omega)).1) hp₃'
    exact ⟨k, by omega, hreturned⟩

end Fair

/-- **The kill switch works.**  In an execution that is fair to the threads and in which no
`join` fails, once a violation has been handled while the machine runs, it is stopped from some
moment on.  Without a signal the reader has ended by then, and no event is handled any more. -/
theorem kill_switch_stops (hreader : X.FairTo Action.OfReader)
    (hcallers : ∀ c, X.FairTo (· = .stop c)) (hok : ∀ m, (X.state m).failed = false) {m : ℕ}
    {e : SyscallEvent} {rest : List SyscallEvent} (hact : X.act m = some .handle)
    (hr : (X.state m).reader = .handling (e :: rest))
    (hv : isViolation (processEvent (X.state m).tree e).1 = true)
    (hrunning : (X.state m).running = true) :
    ∃ k, ∀ l ≥ k, (X.state l).running = false ∧ (interrupted = false →
      (X.state l).reader = .finished ∧ (X.state l).records = (X.state k).records) := by
  have hnext : X.state (m + 1) = (X.state m).handleEvent e rest := by
    rw [Execution.state_succ_some hact, step, hr]
  have hp : (X.state (m + 1)).stop (.kill (X.state m).records.length) = .called := by
    rw [hnext]
    simp only [handleEvent, hv, hrunning]
    exact Function.update_self ..
  obtain ⟨k, -, hreturned⟩ := called_leads (hcallers _) hok hreader (m := m + 1)
    (by rw [hnext]; simp [handleEvent]) hp
  have hk := stopped_state k _ hreturned
  refine ⟨k, fun l hl => ⟨Execution.stable (I := fun s : VMController => s.running = false)
    (fun _ _ h _ => running_step h) hl hk, ?_⟩⟩
  rintro rfl
  have hquiet : Quiet T events (X.state k) := Execution.invariant (fun _ _ h ha => h.step ha)
    (quiet_start ..) k
  refine Execution.stable (I := fun s : VMController => s.reader = .finished ∧
    s.records = (X.state k).records) (fun _ _ h ha => ?_) hl ⟨hquiet.stopped hk, rfl⟩
  obtain ⟨hreader', hrecords⟩ := finished_step h.1 ha
  exact ⟨hreader', hrecords.trans h.2⟩

end Live

/-- The script opens a file with secrets. -/
def secretEvent : SyscallEvent := ⟨100, 50, eventOpen, "node".toList, ".env".toList⟩

/-- The reader ends while the thread of the event waits for it in `join`. -/
def firing : List Action :=
  [.connect, .check, .read 1 0, .handle, .stop (.kill 0), .stop (.kill 0), .stop (.kill 0),
    .stop (.kill 0), .stop (.kill 0), .endBatch, .check, .stop (.kill 0), .stop (.kill 0)]

/-- The run is legal. -/
theorem firing_legal :
    Along step (Enabled false) (start scriptTree [secretEvent]) firing := by
  refine ⟨⟨rfl, rfl⟩, ⟨rfl, rfl⟩, ⟨rfl, rfl, by decide⟩, ⟨rfl, _, _, rfl⟩,
    ⟨rfl, ?_⟩, ⟨rfl, ?_⟩, ⟨rfl, ?_⟩, ⟨rfl, ?_⟩, ⟨rfl, ?_⟩, ⟨rfl, rfl⟩, ⟨rfl, rfl⟩, ⟨rfl, ?_⟩,
    ⟨rfl, ?_⟩, trivial⟩
  -- only one of the steps is in `join`
  all_goals exact ⟨by decide, by decide, by first | exact fun _ => rfl | exact fun hj => absurd hj (by decide)⟩

/-- Nothing is left to do. -/
theorem firing_done (a : Action) (how : a.OfReader ∨ ∃ c, a = .stop c) :
    ¬Enabled false (run step (start scriptTree [secretEvent]) firing) a := by
  rintro ⟨-, ha⟩
  rcases how with how | ⟨c, rfl⟩
  · cases a with
    | hangUp => obtain ⟨_, ha⟩ := ha; cases ha
    | handle => obtain ⟨_, _, ha⟩ := ha; cases ha
    | read _ _ => cases ha.1
    | check | endBatch => cases ha
    | _ => cases how
  · -- the event is the only one, and its thread has returned
    have h : Sound scriptTree [secretEvent] false _ :=
      firing_legal.invariant (fun _ _ h ha => h.step ha) (sound_start ..)
    by_cases hc : c = .worker
    · subst hc
      exact ha.1 (by decide)
    · obtain rfl := h.lone (by decide) hc (d := .kill 0) (by simp) ha.1 (by decide)
      exact ha.2.1 (by decide)

theorem kill_switch_stops_secret : ∃ k, ∀ l ≥ k,
    ((Execution.ofRun firing_legal).state l).running = false ∧
      (false = false → ((Execution.ofRun firing_legal).state l).reader = .finished ∧
        ((Execution.ofRun firing_legal).state l).records =
          ((Execution.ofRun firing_legal).state k).records) := by
  refine kill_switch_stops (Execution.fairTo_ofRun _ fun a ha => firing_done a (.inl ha))
    (fun c => Execution.fairTo_ofRun _ fun a ha => firing_done a (.inr ⟨c, ha⟩)) (fun m => ?_)
    (m := 3) (e := secretEvent) rfl rfl (by decide) rfl
  have hsafe : Safe scriptTree [secretEvent] false ((Execution.ofRun firing_legal).state m) :=
    Execution.invariant (fun _ _ h ha => h.step (by decide) ha) (safe_start ..) m
  exact hsafe.failed

end VMController

end Host
end AarchGate
