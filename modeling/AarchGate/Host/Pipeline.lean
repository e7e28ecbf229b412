/-
# From the system calls of the guest to the policy engine

The path of a telemetry record through all its stages: the tracepoints of
`src/guest/tracer.bpf.c` reserve a record in the ring buffer, fill it and submit it; the agent
(`src/guest/agent.cpp`) polls the ring buffer and writes each record to the connection; the
reader thread of `src/host/vm_controller.mm` cuts the stream into records again and passes them
to the policy engine.

The tracepoints run on several processors.  The ring buffer hands out records in the order of
the reservations, and the consumer stops at a record that is reserved and not submitted yet.
When it is full, `bpf_ringbuf_reserve` fails and the call leaves no trace.  A write to a
connection that the host has closed fails, and the agent stops.

* Whatever the memory of the ring buffer held before, the policy engine reads the same event of
  a call, with its file name cut to 255 bytes (`TracedCall.event_trace`).
* In every interleaving, with writes that accept whole records, the host has seen the first
  calls of those that got a record, in the order of their reservations (`Flows`).  Its process
  tree is that of these calls, and if nobody is held up forever each of them gets into it
  (`host_follows_guest`).
-/

import AarchGate.Host.Address
import AarchGate.Host.Telemetry
import AarchGate.Trace.Fair
import Mathlib.Tactic.IntervalCases

namespace AarchGate
namespace Host

open A64 (Word)
open Ir (Name)
open AarchGate.Core (Map)
open Framing
open Trace (Execution)

/-! ### What is recorded of a call -/

/-- The system calls with a tracepoint, with the argument that it reads. -/
inductive Syscall where
  | execve (filename : List Byte)
  | openat (filename : List Byte)
  | connect (kernelReads : Bool) (addr : Option (Record Byte 16))

/-- A call of a task. -/
structure TracedCall where
  task : CurrentTask
  call : Syscall

namespace TracedCall

/-- The record that the tracepoint submits. -/
def trace (c : TracedCall) (ev : WireEvent) : WireEvent :=
  match c.call with
  | .execve filename => traceExecve ev c.task filename
  | .openat filename => traceOpenat ev c.task filename
  | .connect kernelReads addr => traceConnect ev c.task kernelReads addr

/-- The file name ends at its zero, and the address is not `NULL`. -/
def Described (c : TracedCall) : Prop :=
  match c.call with
  | .execve filename => 0 ∉ filename
  | .openat filename => 0 ∉ filename
  | .connect _ addr => addr.isSome = true

/-- The mark of an address. -/
def connectKind (kernelReads : Bool) (addr : Record Byte 16) : String :=
  let family := if kernelReads then ofWordBytes 16 (slice addr.val 0 2) else 0
  if family = afInet then "ipv4_connect"
  else if family = afInet6 then "ipv6_connect"
  else "other_connect"

/-- What a call is for the policy engine. -/
def event (c : TracedCall) : SyscallEvent where
  pid := c.task.pidTgid >>> 32
  ppid := c.task.parentTgid.elim 0 fun tgid => tgid.signExtend 64
  eventType :=
    match c.call with
    | .execve _ => eventExec
    | .openat _ => eventOpen
    | .connect .. => eventConnect
  comm := text (c.task.comm.val.takeWhile (· ≠ 0))
  argStr :=
    match c.call with
    | .execve filename => text (filename.take 255)
    | .openat filename => text (filename.take 255)
    | .connect kernelReads addr =>
      addr.elim [] fun addr => text (bytesOf (connectKind kernelReads addr))

/-- The text that was copied is read back. -/
theorem argStr_memcpy (dst : Record Byte 256) {s : String} (hs : 0 ∉ bytesOf s)
    (h : (connectMark s).length ≤ 256) :
    cString (memcpy dst (connectMark s) h).val = some (text (bytesOf s)) := by
  change cString (bytesOf s ++ [0] ++ _) = _
  rw [List.append_assoc]
  exact cString_terminated hs _

/-- **The engine reads what was called**, whatever the ring buffer held. -/
theorem event_trace {c : TracedCall} (hc : c.Described) (ev : WireEvent) :
    (c.trace ev).event = some c.event := by
  obtain ⟨task, call⟩ := c
  have hcomm : cString task.comm.val = some (text (task.comm.val.takeWhile (· ≠ 0))) :=
    if_pos task.comm_terminated
  cases call with
  | execve filename =>
    have harg : cString (traceExecve ev task filename).argStr.val = some (text (filename.take 255)) :=
      cString_terminated (fun h => hc (List.mem_of_mem_take h)) _
    rw [trace, WireEvent.event, harg, show (traceExecve ev task filename).comm = task.comm from rfl,
      hcomm]
    rfl
  | openat filename =>
    have harg : cString (traceOpenat ev task filename).argStr.val = some (text (filename.take 255)) :=
      cString_terminated (fun h => hc (List.mem_of_mem_take h)) _
    rw [trace, WireEvent.event, harg, show (traceOpenat ev task filename).comm = task.comm from rfl,
      hcomm]
    rfl
  | connect kernelReads addr =>
    obtain ⟨addr, rfl⟩ := Option.isSome_iff_exists.1 hc
    have hread : ∀ (e : WireEvent) {s : String} (h : (connectMark s).length ≤ 256),
        e.comm = task.comm → e.argStr = memcpy (fillCommon ev task eventConnect).argStr
          (connectMark s) h → 0 ∉ bytesOf s →
        e.event = some ⟨e.pid, e.ppid, e.eventType, text (task.comm.val.takeWhile (· ≠ 0)),
          text (bytesOf s)⟩ := by
      intro e s h hcomm' harg hs
      rw [WireEvent.event, hcomm', harg, hcomm, argStr_memcpy _ hs]
      rfl
    simp only [trace, traceConnect, fillAddress, event, Option.elim_some, connectKind]
    generalize (if kernelReads = true then ofWordBytes 16 (slice addr.val 0 2) else 0) = family
    split_ifs
    · exact hread _ (s := "ipv4_connect") (by decide) rfl rfl (by decide)
    · exact hread _ (s := "ipv6_connect") (by decide) rfl rfl (by decide)
    · exact hread _ (s := "other_connect") (by decide) rfl rfl (by decide)

end TracedCall

/-! ### The process tree -/

/-- `event_cb` on a record: what it does to the tree, unless it reads past the end of a text. -/
def processRecord (T : ProcessTree) (e : WireEvent) : Option ProcessTree :=
  e.event.map fun event => (processEvent T event).2

/-- The tree of the host, after the records that the reader has passed on. -/
def Reader.tree (r : Reader) : Option ProcessTree := r.delivered.foldlM processRecord Map.empty

/-- The tree after calls of which nothing is lost. -/
def treeOf (calls : List TracedCall) : ProcessTree :=
  calls.foldl (fun T c => (processEvent T c.event).2) Map.empty

/-- Records that are read as the calls give the tree of the calls. -/
theorem foldlM_processRecord {calls : List TracedCall} : ∀ {es : List WireEvent} {T : ProcessTree},
    es.map WireEvent.event = calls.map (fun c => some c.event) →
    es.foldlM processRecord T = some (calls.foldl (fun T c => (processEvent T c.event).2) T) := by
  induction calls with
  | nil =>
    intro es T h
    rw [List.map_eq_nil_iff.1 h]
    rfl
  | cons c calls ih =>
    intro es T h
    obtain ⟨e, es, rfl, he, hes⟩ := List.map_eq_cons_iff.1 h
    have hfirst : processRecord T e = some (processEvent T c.event).2 := by rw [processRecord, he]; rfl
    rw [List.foldlM_cons, hfirst]
    exact ih hes

/-! ### The stages -/

/-- Where the tracepoint of a call is. -/
inductive Tracepoint where
  | notCalled
  | reserved
  | submitted
  -- `bpf_ringbuf_reserve` has returned `NULL`
  | dropped
  deriving DecidableEq

/-- The ring buffer, the agent, the connection and the reader; the calls are the elements of
`K`. -/
structure Pipeline (K : Type) where
  tracepoint : K → Tracepoint
  -- the records that are not consumed, and all calls that got one, with it
  ring : List (K × WireEvent)
  reserved : List (K × WireEvent)
  -- `g_stop` of the agent, and whether the host has closed the connection
  stop : Bool
  closed : Bool
  connection : Connection

namespace Pipeline

/-- The two halves of a tracepoint, `handle_bpf_event`, a `read` of the host and `close`. -/
inductive Action (K : Type) where
  | reserve (c : K) (held : WireEvent)
  | submit (c : K)
  | consume (accepted : ℕ)
  | read (count : ℕ)
  | close

/-- The write accepts the whole record. -/
def Action.Whole {K : Type} : Action K → Prop
  | .consume accepted => accepted = eventSize
  | _ => True

/-- The tracepoint of a call goes on. -/
def Action.Submits {K : Type} (c : K) : Action K → Prop
  | .submit c' => c' = c
  | _ => False

/-- The agent goes on. -/
def Action.Consumes {K : Type} : Action K → Prop
  | .consume _ => True
  | _ => False

/-- The reader goes on. -/
def Action.Reads {K : Type} : Action K → Prop
  | .read _ => True
  | _ => False

variable {K : Type} [DecidableEq K]

section Model

variable (room : ℕ) (call : K → TracedCall)

/-- Before the first call. -/
def start : Pipeline K where
  tracepoint _ := .notCalled
  ring := []
  reserved := []
  stop := false
  closed := false
  connection := .start

omit [DecidableEq K] in
/-- The calls that got a record, in the order of their reservations. -/
def captured (s : Pipeline K) : List K := s.reserved.map Prod.fst

/-- When a stage can go on.  The consumer stops at a record that is not submitted. -/
def Enabled (s : Pipeline K) : Action K → Prop
  | .reserve c _ => s.tracepoint c = .notCalled
  | .submit c => s.tracepoint c = .reserved
  | .consume accepted => s.stop = false ∧ (∃ c e rest, s.ring = (c, e) :: rest ∧
      s.tracepoint c = .submitted) ∧ 0 < accepted ∧ accepted ≤ eventSize
  | .read count => s.closed = false ∧ s.connection.Allowed (.read count)
  | .close => True

/-- What a stage does; the ring buffer has room for `room` records. -/
def step (s : Pipeline K) : Action K → Pipeline K
  | .reserve c held =>
    if s.ring.length < room then
      { s with
        tracepoint := Function.update s.tracepoint c .reserved
        ring := s.ring ++ [(c, (call c).trace held)]
        reserved := s.reserved ++ [(c, (call c).trace held)] }
    else { s with tracepoint := Function.update s.tracepoint c .dropped }
  | .submit c => { s with tracepoint := Function.update s.tracepoint c .submitted }
  | .consume accepted =>
    match s.ring with
    | [] => s
    | (_, e) :: rest =>
      -- a write to a closed connection fails
      if s.closed then { s with ring := rest, stop := true }
      else { s with ring := rest, connection := s.connection.step (.emit e accepted) }
  | .read count => { s with connection := s.connection.step (.read count) }
  | .close => { s with closed := true }

end Model

/-! ### The host sees the first of them -/

/-- **Where the records are.**  Those that were written, those whose write failed and those in
the ring buffer are the records of the calls that got one, each of another call. -/
structure Flows (call : K → TracedCall) (s : Pipeline K) : Prop where
  flow : ∃ lost, s.reserved.map Prod.snd =
    s.connection.emitted ++ lost ++ s.ring.map Prod.snd ∧ (s.closed = false → lost = [])
  suffix : s.ring <:+ s.reserved
  records : ∀ x ∈ s.reserved, ∃ held, x.2 = (call x.1).trace held
  nodup : (s.reserved.map Prod.fst).Nodup
  mem : ∀ c, c ∈ s.reserved.map Prod.fst ↔ s.tracepoint c = .reserved ∨ s.tracepoint c = .submitted
  inOrder : s.connection.InOrder

omit [DecidableEq K] in
/-- Before any call. -/
theorem flows_start (call : K → TracedCall) : Flows call (start : Pipeline K) where
  flow := ⟨[], rfl, fun _ => rfl⟩
  suffix := List.suffix_rfl
  records := by simp [start]
  nodup := List.nodup_nil
  mem := by simp [start]
  inOrder := ⟨rfl, by simp [start, Connection.start, Reader.start]⟩

section Flows

variable {room : ℕ} {call : K → TracedCall} {s : Pipeline K}

/-- A reservation. -/
theorem Flows.reserve (h : Flows call s) {c : K} {held : WireEvent}
    (ha : s.tracepoint c = .notCalled) : Flows call (step room call s (.reserve c held)) := by
  have hnew : c ∉ s.reserved.map Prod.fst := by
    rw [h.mem, ha]
    simp
  rw [step]
  split_ifs with hroom
  · obtain ⟨lost, hflow, hlost⟩ := h.flow
    constructor
    · exact ⟨lost, by simp [hflow], hlost⟩
    · obtain ⟨front, hfront⟩ := h.suffix
      exact ⟨front, by rw [← hfront, List.append_assoc]⟩
    · intro x hx
      rcases List.mem_append.1 hx with hx | hx
      · exact h.records x hx
      · rw [List.mem_singleton.1 hx]
        exact ⟨held, rfl⟩
    · rw [List.map_append]
      exact h.nodup.append (List.nodup_singleton c) (List.disjoint_singleton.2 hnew)
    · intro c'
      by_cases hcc : c' = c
      · simp [hcc]
      · have := h.mem c'
        simp only [List.map_append, List.mem_append, Function.update_of_ne hcc, ← this]
        simp [hcc]
    · exact h.inOrder
  · refine { h with mem := fun c' => ?_ }
    by_cases hcc : c' = c
    · simpa [hcc] using hnew
    · simpa [hcc] using h.mem c'

/-- A record sent. -/
theorem Flows.consume (h : Flows call s) (ha : Enabled s (.consume eventSize)) :
    Flows call (step room call s (.consume eventSize)) := by
  obtain ⟨-, ⟨c, e, rest, hring, -⟩, -⟩ := ha
  obtain ⟨lost, hflow, hlost⟩ := h.flow
  have hsuffix : rest <:+ s.reserved := (List.suffix_cons (c, e) rest).trans (hring ▸ h.suffix)
  rw [hring, List.map_cons] at hflow
  simp only [step, hring]
  cases hclosed : s.closed with
  | true =>
    rw [if_pos rfl]
    refine { h with flow := ⟨lost ++ [e], ?_, ?_⟩, suffix := hsuffix }
    · simp [hflow]
    · simp
  | false =>
    rw [if_neg (by simp)]
    rw [hlost hclosed, List.append_nil] at hflow
    refine { h with flow := ⟨[], ?_, fun _ => rfl⟩, suffix := hsuffix, inOrder := ?_ }
    · simp [hflow, Connection.step]
    · exact h.inOrder.step (a := .emit e eventSize) rfl

/-- **One action** of a whole write or of another stage. -/
theorem Flows.step (h : Flows call s) {a : Action K} (ha : Enabled s a) (hw : a.Whole) :
    Flows call (step room call s a) := by
  cases a with
  | reserve c held => exact h.reserve ha
  | submit c =>
    refine { h with mem := fun c' => ?_ }
    rw [Enabled] at ha
    have hmem := h.mem c'
    by_cases hcc : c' = c
    · rw [hcc, ha] at hmem
      simpa [Pipeline.step, hcc] using hmem
    · simpa [Pipeline.step, hcc] using hmem
  | consume accepted =>
    cases hw
    exact h.consume ha
  | read count => exact { h with inOrder := h.inOrder.step (a := .read count) trivial }
  | close =>
    obtain ⟨lost, hflow, -⟩ := h.flow
    exact { h with flow := ⟨lost, hflow, fun hclosed => by cases hclosed⟩ }

omit [DecidableEq K] in
/-- **The tree of the host** is that of the first calls. -/
theorem Flows.tree (h : Flows call s) (hcalls : ∀ c, (call c).Described) :
    s.connection.reader.tree =
      some (treeOf ((s.captured.take s.connection.reader.delivered.length).map call)) := by
  obtain ⟨lost, hflow, -⟩ := h.flow
  have hprefix : s.connection.reader.delivered <+: s.reserved.map Prod.snd := by
    rw [hflow, List.append_assoc]
    exact h.inOrder.delivered_isPrefix.trans (List.prefix_append ..)
  have htake := List.prefix_iff_eq_take.1 hprefix
  rw [← List.map_take] at htake
  refine foldlM_processRecord ?_
  generalize s.connection.reader.delivered.length = k at htake ⊢
  rw [htake, captured, ← List.map_take, List.map_map, List.map_map, List.map_map]
  refine List.map_congr_left fun x hx => ?_
  obtain ⟨held, hheld⟩ := h.records x (List.mem_of_mem_take hx)
  rw [Function.comp_apply, hheld]
  exact TracedCall.event_trace (hcalls x.1) held

end Flows

/-! ### And all of them in the end -/

section Step

variable {room : ℕ} {call : K → TracedCall} {s : Pipeline K} {a : Action K}

/-- An open connection goes on. -/
theorem stop_step (hopen : s.closed = false) (hstop : s.stop = false) :
    (step room call s a).stop = false := by
  cases a with
  | reserve c held =>
    rw [step]
    split_ifs <;> exact hstop
  | consume accepted =>
    rw [step]
    split
    · exact hstop
    · rw [hopen]
      exact hstop
  | _ => exact hstop

/-- Records stay reserved. -/
theorem reserved_step (s : Pipeline K) (a : Action K) :
    s.reserved <+: (step room call s a).reserved := by
  cases a with
  | reserve c held =>
    rw [step]
    split_ifs
    · exact List.prefix_append ..
    · exact List.prefix_rfl
  | consume accepted =>
    rw [step]
    split
    · exact List.prefix_rfl
    · split_ifs <;> exact List.prefix_rfl
  | _ => exact List.prefix_rfl

/-- And sent. -/
theorem emitted_step (s : Pipeline K) (a : Action K) :
    s.connection.emitted.length ≤ (step room call s a).connection.emitted.length := by
  cases a with
  | reserve c held =>
    rw [step]
    split_ifs <;> exact le_rfl
  | consume accepted =>
    rw [step]
    split
    · exact le_rfl
    · split_ifs
      · exact le_rfl
      · simp [Connection.step]
  | _ => exact le_rfl

/-- The first record stays until it is consumed. -/
theorem ring_step {x : K × WireEvent} {rest : List (K × WireEvent)} (hring : s.ring = x :: rest)
    (hnot : ¬a.Consumes) : ∃ rest, (step room call s a).ring = x :: rest := by
  cases a with
  | reserve c held =>
    rw [step]
    split_ifs
    · exact ⟨rest ++ [(c, (call c).trace held)], by simp [hring]⟩
    · exact ⟨rest, hring⟩
  | consume accepted => exact absurd trivial hnot
  | _ => exact ⟨rest, hring⟩

/-- A record that is reserved stays so until it is submitted … -/
theorem reserved_stays_step {c : K} (ha : Enabled s a) (h : s.tracepoint c = .reserved)
    (hnot : ¬a.Submits c) : (step room call s a).tracepoint c = .reserved := by
  cases a with
  | reserve c' held =>
    have hne : c ≠ c' := by
      rintro rfl
      cases h.symm.trans ha
    rw [step]
    split_ifs <;> simp [hne, h]
  | submit c' => simpa [step, Function.update_of_ne (Ne.symm hnot)] using h
  | consume accepted =>
    rw [step]
    split
    · exact h
    · split_ifs <;> exact h
  | _ => exact h

/-- … and then for good. -/
theorem submitted_step {c : K} (ha : Enabled s a) (h : s.tracepoint c = .submitted) :
    (step room call s a).tracepoint c = .submitted := by
  cases a with
  | reserve c' held =>
    have hne : c ≠ c' := by
      rintro rfl
      cases h.symm.trans ha
    rw [step]
    split_ifs <;> simp [hne, h]
  | submit c' => simp [step, Function.update_apply, h]
  | consume accepted =>
    rw [step]
    split
    · exact h
    · split_ifs <;> exact h
  | _ => exact h

/-- The bytes that the reader has read. -/
def bytesRead (s : Pipeline K) : ℕ :=
  eventSize * s.connection.reader.delivered.length + s.connection.reader.buffer.length

omit [DecidableEq K] in
/-- A byte is read or on its way. -/
theorem Flows.bytesRead_add (h : Flows call s) :
    s.bytesRead + s.connection.fifo.length = eventSize * s.connection.emitted.length := by
  have := congrArg List.length h.inOrder.bytes
  simp only [length_flatten, List.length_map, List.length_append] at this
  rw [bytesRead, Nat.mul_comm eventSize, Nat.mul_comm eventSize, this, Nat.add_assoc]

variable (room call s) in
/-- Only the reader takes bytes off the connection. -/
theorem fifo_step (hnot : ¬a.Reads) :
    s.connection.fifo.length ≤ (step room call s a).connection.fifo.length ∧
      (step room call s a).bytesRead = s.bytesRead := by
  cases a with
  | reserve c held =>
    rw [step]
    split_ifs <;> exact ⟨le_rfl, rfl⟩
  | consume accepted =>
    rw [step]
    split
    · exact ⟨le_rfl, rfl⟩
    · split_ifs
      · exact ⟨le_rfl, rfl⟩
      · exact ⟨by simp [Connection.step, handleBpfEvent], rfl⟩
  | read count => exact absurd trivial hnot
  | _ => exact ⟨le_rfl, rfl⟩

end Step

section Fair

variable {room : ℕ} {call : K → TracedCall} {X : Execution (step room call) Enabled start}
  (hwhole : ∀ n a, X.act n = some a → a.Whole)
include hwhole

/-- It holds at all times. -/
theorem flows_state (n : ℕ) : Flows call (X.state n) := by
  induction n with
  | zero => exact flows_start call
  | succ n ih => exact Execution.next ih fun a ha hen => ih.step hen (hwhole n a ha)

omit hwhole in
/-- Records stay reserved. -/
theorem reserved_mono {n m : ℕ} (hnm : n ≤ m) : (X.state n).reserved <+: (X.state m).reserved :=
  Execution.stable (I := fun s : Pipeline K => (X.state n).reserved <+: s.reserved)
    (fun s a h _ => h.trans (reserved_step s a)) hnm List.prefix_rfl

omit hwhole in
/-- And sent. -/
theorem emitted_mono {n m : ℕ} (hnm : n ≤ m) :
    (X.state n).connection.emitted.length ≤ (X.state m).connection.emitted.length :=
  Execution.stable (I := fun s : Pipeline K =>
      (X.state n).connection.emitted.length ≤ s.connection.emitted.length)
    (fun s a h _ => h.trans (emitted_step s a)) hnm le_rfl

variable (hopen : ∀ n, (X.state n).closed = false)
  (hsubmits : ∀ c, X.FairTo (Action.Submits c)) (hconsumes : X.FairTo Action.Consumes)
include hopen

omit hwhole in
/-- The collector runs. -/
theorem running_state (n : ℕ) : (X.state n).stop = false := by
  induction n with
  | zero => rfl
  | succ n ih =>
    exact Execution.next (I := fun s : Pipeline K => s.stop = false) ih
      fun a _ _ => stop_step (hopen n) ih

/-- A record is sent or in the ring. -/
theorem ring_length (n : ℕ) : (X.state n).reserved.length =
    (X.state n).connection.emitted.length + (X.state n).ring.length := by
  obtain ⟨lost, hflow, hlost⟩ := (flows_state hwhole n).flow
  have := congrArg List.length hflow
  simpa [hlost (hopen n)] using this

include hsubmits hconsumes

/-- The first record of the ring buffer is written. -/
theorem emits {n : ℕ} (hn : (X.state n).ring ≠ []) : ∃ m ≥ n,
    (X.state n).connection.emitted.length + 1 ≤ (X.state m).connection.emitted.length := by
  obtain ⟨⟨c, e⟩, rest, hring⟩ := List.exists_cons_of_ne_nil hn
  suffices h : ∃ m ≥ n, (∃ rest, (X.state m).ring = (c, e) :: rest) ∧
      ∃ a, X.act m = some a ∧ a.Consumes by
    obtain ⟨m, hm, ⟨rest, hring⟩, a, ha, hown⟩ := h
    cases a with
    | consume accepted =>
      refine ⟨m + 1, by omega, ?_⟩
      have hmono := emitted_mono (X := X) hm
      rw [Execution.state_succ_some ha, step, hring]
      simp only [hopen m, Bool.false_eq_true, if_false, Connection.step, List.length_append,
        List.length_singleton]
      omega
    | _ => cases hown
  have hfront : (∀ m ≥ n, ∃ rest, (X.state m).ring = (c, e) :: rest) ∨ ∃ m ≥ n,
      (∃ rest, (X.state m).ring = (c, e) :: rest) ∧ ∃ a, X.act m = some a ∧ a.Consumes := by
    refine Execution.stays_or_acts ⟨rest, hring⟩ fun m _ hP hnot => ?_
    refine Execution.next (I := fun s : Pipeline K => ∃ rest, s.ring = (c, e) :: rest) hP
      fun a ha _ => ?_
    obtain ⟨rest, hring⟩ := hP
    exact ring_step hring (hnot a ha)
  rcases hfront with hstays | hacts
  · -- its call submits it, and then the agent can go on
    have hsubmitted : ∃ k ≥ n, (X.state k).tracepoint c = .submitted := by
      have hmem : c ∈ (X.state n).reserved.map Prod.fst :=
        List.mem_map.2 ⟨(c, e), (flows_state hwhole n).suffix.subset (by simp [hring]), rfl⟩
      rcases ((flows_state hwhole n).mem c).1 hmem with hreserved | hsubmitted
      · obtain ⟨k, hk, hP, a, ha, hown⟩ := (hsubmits c).acts
          (P := fun m => (X.state m).tracepoint c = .reserved) hreserved
          (fun m _ hP hnot => Execution.next (I := fun s : Pipeline K => s.tracepoint c = .reserved)
            hP fun a ha hen => reserved_stays_step hen hP (hnot a ha))
          fun m _ hP => ⟨.submit c, rfl, hP⟩
        refine ⟨k + 1, by omega, ?_⟩
        rw [Execution.state_succ_some ha]
        cases a with
        | submit c' =>
          cases hown
          exact Function.update_self ..
        | _ => cases hown
      · exact ⟨n, le_rfl, hsubmitted⟩
    obtain ⟨k, hk, hsub⟩ := hsubmitted
    obtain ⟨m, hm, hact⟩ := hconsumes k fun m hm => by
      obtain ⟨rest, hring⟩ := hstays m (by omega)
      have := Execution.stable (I := fun s : Pipeline K => s.tracepoint c = .submitted)
        (fun _ _ h ha => submitted_step ha h) hm hsub
      exact ⟨.consume eventSize, trivial, running_state hopen m, ⟨c, e, rest, hring, this⟩,
        by decide, le_rfl⟩
    exact ⟨m, by omega, hstays m (by omega), hact⟩
  · exact hacts

/-- Each reserved record is sent. -/
theorem exists_emitted {n : ℕ} (j : ℕ) (hj : j ≤ (X.state n).reserved.length) :
    ∃ m ≥ n, j ≤ (X.state m).connection.emitted.length := by
  induction j with
  | zero => exact ⟨n, le_rfl, Nat.zero_le _⟩
  | succ j ih =>
    obtain ⟨m, hm, hle⟩ := ih (by omega)
    by_cases hdone : j + 1 ≤ (X.state m).connection.emitted.length
    · exact ⟨m, hm, hdone⟩
    · have hlength := ring_length hwhole hopen m
      have hmono := (reserved_mono (X := X) hm).length_le
      obtain ⟨k, hk, h⟩ := emits hwhole hopen hsubmits hconsumes (n := m) (by
        rw [← List.length_pos_iff_ne_nil]
        omega)
      exact ⟨k, by omega, by omega⟩

omit hsubmits hconsumes

variable (hreads : X.FairTo Action.Reads)
include hreads

/-- What lies in the connection is read. -/
theorem reads {n : ℕ} (hn : (X.state n).connection.fifo ≠ []) :
    ∃ m ≥ n, (X.state n).bytesRead + 1 ≤ (X.state m).bytesRead := by
  have hpos := List.length_pos_iff_ne_nil.2 hn
  obtain ⟨m, hm, ⟨hfifo, hbytes⟩, a, ha, hown⟩ := hreads.acts
    (P := fun m => 0 < (X.state m).connection.fifo.length ∧
      (X.state m).bytesRead = (X.state n).bytesRead) ⟨hpos, rfl⟩
    (fun m _ hP hnot => Execution.next (I := fun s : Pipeline K =>
        0 < s.connection.fifo.length ∧ s.bytesRead = (X.state n).bytesRead) hP
      fun a ha _ => by
        obtain ⟨hfifo, hbytes⟩ := fifo_step room call (X.state m) (hnot a ha)
        exact ⟨hP.1.trans_le hfifo, hbytes.trans hP.2⟩)
    fun m _ hP => ⟨.read 1, trivial, hopen m, by decide, by decide, hP.1⟩
  cases a with
  | read count =>
    obtain ⟨-, hcount, -, hle⟩ := Execution.enabled ha
    have hbefore := (flows_state hwhole m).bytesRead_add
    have hafter := (flows_state hwhole (m + 1)).bytesRead_add
    rw [Execution.state_succ_some ha] at hafter
    simp only [step, Connection.step, List.length_drop] at hafter
    refine ⟨m + 1, by omega, ?_⟩
    rw [Execution.state_succ_some ha]
    simp only [step, Connection.step]
    omega
  | _ => cases hown

/-- The records that were written are delivered. -/
theorem exists_delivered {n : ℕ} :
    ∃ m ≥ n, (X.state n).connection.emitted.length ≤ (X.state m).connection.reader.delivered.length := by
  have hbytes : ∀ b ≤ eventSize * (X.state n).connection.emitted.length,
      ∃ m ≥ n, b ≤ (X.state m).bytesRead := by
    intro b
    induction b with
    | zero => exact fun _ => ⟨n, le_rfl, Nat.zero_le _⟩
    | succ b ih =>
      intro hb
      obtain ⟨m, hm, hle⟩ := ih (by omega)
      by_cases hdone : b + 1 ≤ (X.state m).bytesRead
      · exact ⟨m, hm, hdone⟩
      · have htotal := (flows_state hwhole m).bytesRead_add
        have hmono := Nat.mul_le_mul_left eventSize (emitted_mono (X := X) hm)
        obtain ⟨k, hk, h⟩ := reads hwhole hopen hreads (n := m) (by
          rw [← List.length_pos_iff_ne_nil]
          omega)
        exact ⟨k, by omega, by omega⟩
  obtain ⟨m, hm, hle⟩ := hbytes _ le_rfl
  refine ⟨m, hm, ?_⟩
  have hbuffer := (flows_state hwhole m).inOrder.buffer_lt
  unfold bytesRead eventSize at hle
  unfold eventSize at hbuffer
  omega

end Fair

/-- **The host follows the guest.**  For any number of processors, every interleaving of the
stages and every size of the ring buffer, with writes that accept whole records: the process tree
of the host is at any time that of the first calls that got a record, as many as it has been
passed, in the order of their reservations and each once.  Every call that got a record is among
them in the end, if no stage is held up forever and the host does not close the connection. -/
theorem host_follows_guest {room : ℕ} {call : K → TracedCall} (hcalls : ∀ c, (call c).Described)
    (X : Execution (step room call) Enabled start) (hwhole : ∀ n a, X.act n = some a → a.Whole) :
    (∀ n, (X.state n).connection.reader.tree = some (treeOf (((X.state n).captured.take
        (X.state n).connection.reader.delivered.length).map call)) ∧ (X.state n).captured.Nodup) ∧
    ((∀ n, (X.state n).closed = false) → (∀ c, X.FairTo (Action.Submits c)) →
      X.FairTo Action.Consumes → X.FairTo Action.Reads →
      ∀ n, ∃ m ≥ n, ∃ later, (X.state n).captured ++ later <+: (X.state m).captured ∧
        (X.state m).connection.reader.tree =
          some (treeOf (((X.state n).captured ++ later).map call))) := by
  refine ⟨fun n => ⟨(flows_state hwhole n).tree hcalls, (flows_state hwhole n).nodup⟩,
    fun hopen hsubmits hconsumes hreads n => ?_⟩
  obtain ⟨k, hk, hemitted⟩ := exists_emitted hwhole hopen hsubmits hconsumes _ (le_refl _) (n := n)
  obtain ⟨m, hm, hdelivered⟩ := exists_delivered hwhole hopen hreads (n := k)
  have hmono : (X.state n).captured <+: (X.state m).captured := (reserved_mono (by omega)).map _
  obtain ⟨later, hlater⟩ := List.prefix_of_prefix_length_le hmono
    (List.take_prefix (X.state m).connection.reader.delivered.length (X.state m).captured) (by
      rw [List.length_take, captured, List.length_map]
      refine le_min (hemitted.trans hdelivered) ?_
      simpa only [captured, List.length_map] using hmono.length_le)
  exact ⟨m, by omega, later, hlater ▸ List.take_prefix .., hlater ▸ (flows_state hwhole m).tree hcalls⟩

/-- The first process starts a program. -/
def execInit : TracedCall := ⟨firstTask, .execve (bytesOf "/sbin/init")⟩

/-- One call, from its tracepoint to the host, which reads its record in two pieces. -/
def oneCall : Execution (step 1 fun _ : Unit => execInit) Enabled start where
  act n := [.reserve () (.fill 7), .submit (), .consume eventSize, .read 100, .read 228][n]?
  legal n a ha := by
    have hn := (List.getElem?_eq_some_iff.1 ha).1
    simp only [List.length_cons, List.length_nil] at hn
    interval_cases n <;> cases ha <;>
      simp [Trace.stateAt, step, Enabled, start, Connection.step, Connection.start,
        Connection.Allowed, handleBpfEvent, WireEvent.length_bytes]
    all_goals decide

/-- Nothing is left to do at the end. -/
theorem oneCall_end : (oneCall.state 5).tracepoint () = .submitted ∧ (oneCall.state 5).ring = [] ∧
    (oneCall.state 5).connection.fifo = [] ∧ (oneCall.state 5).captured = [()] := by
  simp [Execution.state, oneCall, Trace.stateAt, step, start, Connection.step, Connection.start,
    handleBpfEvent, captured]

/-- The host does not close the connection. -/
theorem oneCall_open (n : ℕ) : (oneCall.state n).closed = false := by
  induction n with
  | zero => rfl
  | succ n ih =>
    refine Execution.next (I := fun s : Pipeline Unit => s.closed = false) ih fun a ha hen => ?_
    have hmem := List.mem_of_getElem? ha
    simp only [List.mem_cons, List.not_mem_nil, or_false] at hmem
    rcases hmem with rfl | rfl | rfl | rfl | rfl
    · rw [step]
      split_ifs <;> exact ih
    · exact ih
    · rw [step]
      split
      · exact ih
      · split_ifs <;> exact ih
    · exact ih
    · exact ih

theorem host_follows_guest_init :
    ∃ m T, (oneCall.state m).connection.reader.tree = some T ∧ T 1 = some ⟨1, 0, [], false⟩ := by
  obtain ⟨hsubmitted, hring, hfifo, hcaptured⟩ := oneCall_end
  have hend : ∀ m ≥ 5, oneCall.act m = none := fun m hm => List.getElem?_eq_none hm
  have hwhole : ∀ n a, oneCall.act n = some a → a.Whole := by
    intro n a ha
    have hmem := List.mem_of_getElem? ha
    simp only [List.mem_cons, List.not_mem_nil, or_false] at hmem
    rcases hmem with rfl | rfl | rfl | rfl | rfl <;> simp [Action.Whole]
  have hcalls : ∀ c : Unit, ((fun _ : Unit => execInit) c).Described := fun _ =>
    show (0 : Byte) ∉ bytesOf "/sbin/init" by decide
  obtain ⟨hsafe, hlive⟩ := host_follows_guest hcalls oneCall hwhole
  obtain ⟨m, -, later, hprefix, htree⟩ := hlive oneCall_open
    (fun c => Execution.fairTo_of_ended hend fun a ha => by
      cases a with
      | submit c => simp [Enabled, hsubmitted]
      | _ => cases ha)
    (Execution.fairTo_of_ended hend fun a ha => by
      cases a with
      | consume accepted => simp [Enabled, hring]
      | _ => cases ha)
    (Execution.fairTo_of_ended hend fun a ha => by
      cases a with
      | read count =>
        simp only [Enabled, Connection.Allowed, hfifo, List.length_nil]
        omega
      | _ => cases ha) 5
  -- there is no other call
  have hnodup := (hsafe m).2.sublist hprefix.sublist
  rw [hcaptured] at hnodup htree
  obtain rfl : later = [] := by
    cases later with
    | nil => rfl
    | cons c later => simp at hnodup
  exact ⟨m, _, htree, rfl⟩

end Pipeline

end Host
end AarchGate
