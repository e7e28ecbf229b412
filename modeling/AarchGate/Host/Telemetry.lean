/-
# The telemetry stream

`handle_bpf_event` of the agent in the guest (`src/guest/agent.cpp`), the connection to the
host, and the reader thread there, `VMControllerImpl::start_reader` in
`src/host/vm_controller.mm`.

The reader appends what a `read` returns to its buffer and takes off whole records; there
is no mark between records.  So it does not matter how the stream is cut into reads
(`loop_delivers`).  The agent writes a record with a single call and takes no notice of how
many bytes that call accepts.  As long as every write accepts the whole record, the host
sees the events in their order, none lost, whatever the interleaving
(`delivered_prefix`); a write that accepts a part of it joins the rest of the record with
the next one, and what the reader takes off from there on is no event (`short_write_splices`).

The connection is a queue of bytes that loses none.  A `read` that returns nothing ends the
reader; `stop_reader` is not set.
-/

import AarchGate.Host.Wire

namespace AarchGate
namespace Host

open Framing
open Trace (run Along)

/-! ### The reader -/

/-- The reader thread: its buffer, and the events it has passed to `event_cb`. -/
structure Reader where
  buffer : List Byte
  delivered : List WireEvent

namespace Reader

/-- The reader at its start. -/
def start : Reader := ⟨[], []⟩

/-- The inner loop: records are copied out and erased as long as there is one. -/
def deliver (s : Reader) : Reader :=
  if h : eventSize ≤ s.buffer.length then
    deliver ⟨s.buffer.drop eventSize,
      s.delivered ++ [.ofBytes ⟨s.buffer.take eventSize, List.length_take_of_le h⟩]⟩
  else s
termination_by s.buffer.length
decreasing_by
  have : 0 < eventSize := by decide
  rw [List.length_drop]
  omega

/-- One iteration of the outer loop, with the bytes that `read` returned. -/
def receive (s : Reader) (temp : List Byte) : Reader :=
  deliver { s with buffer := s.buffer ++ temp }

/-- The outer loop. -/
def loop (s : Reader) : List (List Byte) → Reader
  | [] => s
  | temp :: reads => if temp = [] then s else loop (s.receive temp) reads

/-- The inner loop drains the buffer. -/
theorem deliver_eq (s : Reader) : s.deliver = ⟨(drain eventSize s.buffer).2,
    s.delivered ++ (drain eventSize s.buffer).1.map WireEvent.ofBytes⟩ := by
  fun_induction deliver s with
  | case1 s h ih =>
    rw [ih, drain_of_le h, List.map_cons, List.append_assoc]
    rfl
  | case2 s h =>
    rw [drain_of_lt (by omega), List.map_nil, List.append_nil]

/-- **The whole loop** drains the stream, however it is cut. -/
theorem loop_eq {reads : List (List Byte)} (hreads : ∀ temp ∈ reads, temp ≠ []) {s : Reader}
    (hs : s.buffer.length < eventSize) :
    s.loop reads = ⟨(drain eventSize (s.buffer ++ reads.flatten)).2,
      s.delivered ++ (drain eventSize (s.buffer ++ reads.flatten)).1.map WireEvent.ofBytes⟩ := by
  induction reads generalizing s with
  | nil =>
    rw [loop, List.flatten_nil, List.append_nil, drain_of_lt hs, List.map_nil, List.append_nil]
  | cons temp reads ih =>
    obtain ⟨htemp, hreads⟩ := List.forall_mem_cons.1 hreads
    rw [loop, if_neg htemp, receive, deliver_eq, ih hreads (drain_rest_lt _), List.flatten_cons,
      ← List.append_assoc s.buffer, drain_append (s.buffer ++ temp), List.map_append,
      List.append_assoc]

/-- **Decoding does not depend on the segmentation.**  For every sequence of reads, the
events delivered are the consecutive records of the bytes read, and the rest stays in the
buffer. -/
theorem loop_delivers {reads : List (List Byte)}
    (hreads : ∀ temp ∈ reads, temp ≠ [] ∧ temp.length ≤ 4096) :
    (start.loop reads).delivered.map WireEvent.bytes =
        (List.range (reads.flatten.length / eventSize)).map (fun k =>
          slice reads.flatten (k * eventSize) eventSize) ∧
      (start.loop reads).buffer =
        reads.flatten.drop (reads.flatten.length / eventSize * eventSize) ∧
      (start.loop reads).buffer.length = reads.flatten.length % eventSize := by
  rw [loop_eq (fun temp h => (hreads temp h).1) (by decide)]
  simp only [start, List.nil_append]
  refine ⟨?_, drain_rest _, ?_⟩
  · rw [List.map_map]
    exact (List.map_congr_left fun r _ => WireEvent.bytes_ofBytes r).trans (drain_slices _)
  · rw [drain_rest, List.length_drop, Nat.mod_eq_sub, Nat.mul_comm]

/-- A record in two reads, the second of which goes on by a byte. -/
theorem loop_delivers_split :
    (start.loop [(WireEvent.fill 0).bytes.take 100, (WireEvent.fill 0).bytes.drop 100 ++ [7]]).buffer =
      [7] := by
  have hlen := (WireEvent.fill 0).length_bytes
  generalize (WireEvent.fill 0).bytes = bs at hlen ⊢
  have hreads : ∀ temp ∈ [bs.take 100, bs.drop 100 ++ [7]], temp ≠ [] ∧ temp.length ≤ 4096 := by
    intro temp htemp
    simp only [List.mem_cons, List.not_mem_nil, or_false] at htemp
    rw [← List.length_pos_iff_ne_nil]
    rcases htemp with rfl | rfl
    · rw [List.length_take, hlen]
      decide
    · rw [List.length_append, List.length_drop, hlen]
      decide
  have hflat : [bs.take 100, bs.drop 100 ++ [7]].flatten = bs ++ [7] := by
    simp only [List.flatten_cons, List.flatten_nil, List.append_nil]
    rw [← List.append_assoc, List.take_append_drop]
  obtain ⟨-, hbuffer, -⟩ := loop_delivers hreads
  rw [hbuffer, hflat, List.length_append, hlen]
  exact List.drop_left' hlen

end Reader

/-! ### The connection -/

/-- The agent, the connection and the reader. -/
structure Connection where
  emitted : List WireEvent
  fifo : List Byte
  reader : Reader

/-- A call of `handle_bpf_event` whose `write` accepts a number of bytes, or a `read` of the
host. -/
inductive Action where
  | emit (e : WireEvent) (accepted : ℕ)
  | read (count : ℕ)

/-- `handle_bpf_event`: one `write` of the record, whose result is only compared with 0. -/
def handleBpfEvent (fifo : List Byte) (e : WireEvent) (accepted : ℕ) : List Byte :=
  fifo ++ e.bytes.take accepted

namespace Connection

/-- The connection is new. -/
def start : Connection := ⟨[], [], .start⟩

/-- What stream sockets allow: a write accepts a part of the record, a read returns a part of
what is there. -/
def Allowed (s : Connection) : Action → Prop
  | .emit _ accepted => 0 < accepted ∧ accepted ≤ eventSize
  | .read count => 0 < count ∧ count ≤ 4096 ∧ count ≤ s.fifo.length

/-- One step. -/
def step (s : Connection) : Action → Connection
  | .emit e accepted =>
    { s with emitted := s.emitted ++ [e], fifo := handleBpfEvent s.fifo e accepted }
  | .read count =>
    { s with fifo := s.fifo.drop count, reader := s.reader.receive (s.fifo.take count) }

/-- The write accepts the whole record. -/
def Whole : Action → Prop
  | .emit _ accepted => accepted = eventSize
  | .read _ => True

/-- The events emitted are, byte by byte, those delivered, the buffer and the connection. -/
structure InOrder (s : Connection) : Prop where
  bytes : flatten (s.emitted.map WireEvent.record) =
    flatten (s.reader.delivered.map WireEvent.record) ++ (s.reader.buffer ++ s.fifo)
  buffer_lt : s.reader.buffer.length < eventSize

theorem record_ofBytes (r : Record Byte eventSize) : (WireEvent.ofBytes r).record = r :=
  Subtype.ext (WireEvent.bytes_ofBytes r)

/-- **One step** of a whole write or a read keeps the order. -/
theorem InOrder.step {s : Connection} (h : s.InOrder) {a : Action} (hw : Whole a) :
    (s.step a).InOrder := by
  cases a with
  | emit e accepted =>
    obtain rfl : accepted = eventSize := hw
    refine ⟨?_, h.buffer_lt⟩
    have hbytes : e.bytes.take eventSize = e.bytes := List.take_of_length_le (by rw [e.length_bytes])
    simp only [Connection.step, handleBpfEvent, hbytes, List.map_append, List.map_cons, List.map_nil,
      flatten_append, flatten_cons, flatten_nil, List.append_nil, h.bytes, List.append_assoc]
    rfl
  | read count =>
    simp only [Connection.step, Reader.receive, Reader.deliver_eq]
    refine ⟨?_, drain_rest_lt _⟩
    have hrec : ((drain eventSize (s.reader.buffer ++ s.fifo.take count)).1.map
        WireEvent.ofBytes).map WireEvent.record =
          (drain eventSize (s.reader.buffer ++ s.fifo.take count)).1 := by
      rw [List.map_map]
      exact (List.map_congr_left fun r _ => record_ofBytes r).trans (List.map_id _)
    simp only [List.map_append, flatten_append, hrec]
    rw [h.bytes, List.append_assoc, ← List.append_assoc (flatten (drain _ _).1), drain_flatten,
      List.append_assoc, List.take_append_drop]

/-- Records in the order of their bytes are in order. -/
theorem InOrder.delivered_isPrefix {s : Connection} (h : s.InOrder) : s.reader.delivered <+: s.emitted := by
  have hdrain : ∀ es : List WireEvent,
      (drain eventSize (flatten (es.map WireEvent.record))).1.map WireEvent.ofBytes = es := by
    intro es
    have := drain_eq (es.map WireEvent.record) (show ([] : List Byte).length < eventSize by decide)
    rw [List.append_nil] at this
    rw [this, List.map_map]
    exact (List.map_congr_left fun e _ => e.ofBytes_record).trans (List.map_id _)
  have hpre := drain_prefix (n := eventSize) (show flatten (s.reader.delivered.map WireEvent.record) <+:
    flatten (s.emitted.map WireEvent.record) from ⟨_, h.bytes.symm⟩)
  have hmap := hpre.map WireEvent.ofBytes
  rwa [hdrain, hdrain] at hmap

/-- **Integrity of the stream.**  In every run whose writes all accept the whole record, with
reads of any size and in any interleaving, the events delivered are at any time a prefix of
those emitted. -/
theorem delivered_prefix {as : List Action}
    (h : Along step (fun s a => s.Allowed a ∧ Whole a) start as) :
    (run step start as).reader.delivered <+: (run step start as).emitted :=
  (Along.invariant (I := InOrder) (fun _ _ hI ha => hI.step ha.2) ⟨rfl, by decide⟩ h).delivered_isPrefix

/-- Two records in three reads, the first of which comes between the two writes. -/
theorem delivered_prefix_two :
    (run step start [.emit (.fill 0) eventSize, .read 100, .emit (.fill 1) eventSize, .read 456,
      .read 100]).reader.delivered <+: [.fill 0, .fill 1] := by
  refine delivered_prefix ⟨⟨⟨by decide, Nat.le_refl _⟩, rfl⟩, ⟨⟨by decide, by decide, ?_⟩, trivial⟩,
    ⟨⟨by decide, Nat.le_refl _⟩, rfl⟩, ⟨⟨by decide, by decide, ?_⟩, trivial⟩,
    ⟨⟨by decide, by decide, ?_⟩, trivial⟩, trivial⟩ <;>
  simp only [step, start, handleBpfEvent, List.nil_append, List.length_append, List.length_drop,
    List.length_take, WireEvent.length_bytes] <;>
  decide

/-- What is delivered of a stream that starts with a record. -/
theorem receive_record (r : Record Byte eventSize) :
    (Reader.start.receive r.val).delivered = [.ofBytes r] := by
  have h := drain_eq [r] (show ([] : List Byte).length < eventSize by decide)
  rw [flatten_cons, flatten_nil, List.append_nil, List.append_nil] at h
  rw [Reader.receive, Reader.deliver_eq]
  simp only [Reader.start, List.nil_append, h, List.map_cons, List.map_nil]

/-- **A short write.**  Whatever part of a record a write accepts, there are events for which
it is joined with the next record to one that was never emitted. -/
theorem short_write_splices {k : ℕ} (hk : 0 < k) (hlt : k < eventSize) :
    Along step Allowed start [.emit (.fill 0) k, .emit (.fill 1) eventSize, .read eventSize] ∧
      ¬(run step start [.emit (.fill 0) k, .emit (.fill 1) eventSize,
        .read eventSize]).reader.delivered <+: [.fill 0, .fill 1] := by
  -- what lies in the connection before the read
  have hfifo : (run step start [.emit (.fill 0) k, .emit (.fill 1) eventSize]).fifo =
      List.replicate k 0 ++ List.replicate eventSize 1 := by
    simp only [run, List.foldl_cons, List.foldl_nil, step, start, handleBpfEvent,
      WireEvent.bytes_fill, List.take_replicate, List.nil_append, Nat.min_self,
      Nat.min_eq_left (Nat.le_of_lt hlt)]
  have htake : (List.replicate k (0 : Byte) ++ List.replicate eventSize 1).take eventSize =
      List.replicate k 0 ++ List.replicate (eventSize - k) 1 := by
    rw [List.take_append, List.length_replicate, List.take_replicate, List.take_replicate,
      Nat.min_eq_right (Nat.le_of_lt hlt), Nat.min_eq_left (Nat.sub_le ..)]
  have hlen : (List.replicate k (0 : Byte) ++ List.replicate (eventSize - k) 1).length = eventSize := by
    rw [List.length_append, List.length_replicate, List.length_replicate]
    omega
  refine ⟨⟨⟨hk, Nat.le_of_lt hlt⟩, ⟨by decide, Nat.le_refl _⟩, ⟨by decide, by decide, ?_⟩, trivial⟩, ?_⟩
  · refine Nat.le_trans ?_ (Nat.le_of_eq (congrArg List.length hfifo).symm)
    rw [List.length_append, List.length_replicate, List.length_replicate]
    omega
  · intro hpre
    have hrun : (run step start [.emit (.fill 0) k, .emit (.fill 1) eventSize,
        .read eventSize]).reader.delivered = [.ofBytes ⟨_, hlen⟩] := by
      rw [← receive_record]
      refine congrArg (fun bs => (Reader.start.receive bs).delivered) ?_
      exact (congrArg (List.take eventSize) hfifo).trans htake
    rw [hrun, List.cons_prefix_cons] at hpre
    have hbytes := congrArg WireEvent.bytes hpre.1
    rw [WireEvent.bytes_ofBytes, WireEvent.bytes_fill] at hbytes
    have hmem : (1 : Byte) ∈ List.replicate eventSize 0 := by
      rw [← hbytes]
      exact List.mem_append_right _ (List.mem_replicate.2 ⟨by omega, rfl⟩)
    exact absurd (List.eq_of_mem_replicate hmem) (by decide)

/-- One byte of a record is accepted, then a whole record. -/
theorem one_byte_write_splices :
    Along step Allowed start [.emit (.fill 0) 1, .emit (.fill 1) eventSize, .read eventSize] ∧
      ¬(run step start [.emit (.fill 0) 1, .emit (.fill 1) eventSize,
        .read eventSize]).reader.delivered <+:
        (run step start [.emit (.fill 0) 1, .emit (.fill 1) eventSize, .read eventSize]).emitted :=
  short_write_splices (by decide) (by decide)

end Connection

end Host
end AarchGate
