/-
# The record on the wire

`common/vsock_protocol.h`: `SyscallEvent`, the packed structure of 328 bytes that the guest
sends for every system call and the host copies out of its buffer.  Both sides are
little-endian and lay the structure out without gaps, so the record is the concatenation
of its fields.

`WireEvent.ofBytes` and `WireEvent.bytes` are inverse to each other; `SyscallEvent` in
`Host.Policy` is what the policy engine reads of a record, with the two character arrays as
C strings (`WireEvent.event`).
-/

import AarchGate.Framing.LittleEndian
import AarchGate.Framing.Records
import AarchGate.Host.Policy

namespace AarchGate
namespace Host

open A64 (Word)
open Ir (Name)
open Framing

/-- `sizeof(SyscallEvent)`. -/
abbrev eventSize : ℕ := 328

/-- `SyscallEvent`, all of it. -/
@[ext] structure WireEvent where
  timestampNs : Word
  pid : Word
  ppid : Word
  eventType : Word
  comm : Record Byte 32
  argStr : Record Byte 256
  ipAddress : BitVec 32
  port : BitVec 16
  padding : Record Byte 2
  deriving DecidableEq

/-- The bytes from `offset` on. -/
def slice (bs : List Byte) (offset size : ℕ) : List Byte := (bs.drop offset).take size

/-- A slice within the bytes. -/
theorem length_slice {bs : List Byte} {offset size : ℕ} (h : offset + size ≤ bs.length) :
    (slice bs offset size).length = size := by
  rw [slice, List.length_take_of_le]
  rw [List.length_drop]
  omega

/-- Two slices that follow each other. -/
theorem slice_append (bs : List Byte) (offset size size' : ℕ) :
    slice bs offset size ++ slice bs (offset + size) size' = slice bs offset (size + size') := by
  rw [slice, slice, slice, List.take_add, List.drop_drop]

/-- The slice of one of several parts. -/
theorem slice_flatten (fs : List (List Byte)) {i : ℕ} {f : List Byte} (hi : fs[i]? = some f) :
    slice fs.flatten (fs.take i).flatten.length f.length = f := by
  obtain ⟨hlt, rfl⟩ := List.getElem?_eq_some_iff.1 hi
  have hsplit : fs.flatten = (fs.take i).flatten ++ (fs[i] ++ (fs.drop (i + 1)).flatten) := by
    rw [← List.flatten_cons, ← List.flatten_append, ← List.drop_eq_getElem_cons,
      List.take_append_drop]
  rw [slice, hsplit, List.drop_left, List.take_left]

namespace WireEvent

/-- The fields, in the order of the structure. -/
def fields (e : WireEvent) : List (List Byte) :=
  [wordBytes 8 e.timestampNs, wordBytes 8 e.pid, wordBytes 8 e.ppid, wordBytes 8 e.eventType,
    e.comm.val, e.argStr.val, wordBytes 4 e.ipAddress, wordBytes 2 e.port, e.padding.val]

/-- The record as it is written. -/
def bytes (e : WireEvent) : List Byte := e.fields.flatten

/-- The record as it is copied out of a buffer. -/
def ofBytes (r : Record Byte eventSize) : WireEvent where
  timestampNs := ofWordBytes 64 (slice r.val 0 8)
  pid := ofWordBytes 64 (slice r.val 8 8)
  ppid := ofWordBytes 64 (slice r.val 16 8)
  eventType := ofWordBytes 64 (slice r.val 24 8)
  comm := ⟨slice r.val 32 32, length_slice (by rw [r.property]; decide)⟩
  argStr := ⟨slice r.val 64 256, length_slice (by rw [r.property]; decide)⟩
  ipAddress := ofWordBytes 32 (slice r.val 320 4)
  port := ofWordBytes 16 (slice r.val 324 2)
  padding := ⟨slice r.val 326 2, length_slice (by rw [r.property])⟩

/-- The size of an event. -/
theorem length_bytes (e : WireEvent) : e.bytes.length = eventSize := by
  simp [bytes, fields]

/-- The record as an element of a stream of records. -/
def record (e : WireEvent) : Record Byte eventSize := ⟨e.bytes, e.length_bytes⟩

/-- **What was written is read back.** -/
theorem ofBytes_record (e : WireEvent) : ofBytes e.record = e := by
  have hslice : ∀ i f offset size, e.fields[i]? = some f → (e.fields.take i).flatten.length = offset →
      f.length = size → slice e.record.val offset size = f := by
    rintro i f _ _ hi rfl rfl
    exact slice_flatten e.fields hi
  have h0 := hslice 0 (wordBytes 8 e.timestampNs) 0 8 rfl rfl (length_wordBytes ..)
  have h1 := hslice 1 (wordBytes 8 e.pid) 8 8 rfl (by simp [fields]) (length_wordBytes ..)
  have h2 := hslice 2 (wordBytes 8 e.ppid) 16 8 rfl (by simp [fields]) (length_wordBytes ..)
  have h3 := hslice 3 (wordBytes 8 e.eventType) 24 8 rfl (by simp [fields]) (length_wordBytes ..)
  have h4 := hslice 4 e.comm.val 32 32 rfl (by simp [fields]) e.comm.property
  have h5 := hslice 5 e.argStr.val 64 256 rfl (by simp [fields]) e.argStr.property
  have h6 := hslice 6 (wordBytes 4 e.ipAddress) 320 4 rfl (by simp [fields]) (length_wordBytes ..)
  have h7 := hslice 7 (wordBytes 2 e.port) 324 2 rfl (by simp [fields]) (length_wordBytes ..)
  have h8 := hslice 8 e.padding.val 326 2 rfl (by simp [fields]) e.padding.property
  simp only [ofBytes, h0, h1, h2, h3, h4, h5, h6, h7, h8, Subtype.coe_eta]
  simp [ofWordBytes_wordBytes]

/-- An integer field of a block. -/
theorem wordBytes_slice (r : Record Byte eventSize) {w offset size : ℕ} (h : offset + size ≤ eventSize)
    (hw : 2 ^ w = 256 ^ size) :
    wordBytes size (ofWordBytes w (slice r.val offset size)) = slice r.val offset size := by
  have hlen : (slice r.val offset size).length = size := length_slice (by rw [r.length_val]; exact h)
  have hback := wordBytes_ofWordBytes (show 2 ^ w = 256 ^ (slice r.val offset size).length by
    rw [hlen, hw])
  rwa [hlen] at hback

/-- **Every block of 328 bytes is a record.** -/
theorem bytes_ofBytes (r : Record Byte eventSize) : (ofBytes r).bytes = r.val := by
  have hwhole : slice r.val 0 328 = r.val := by
    rw [slice, List.drop_zero, List.take_of_length_le (by rw [r.length_val])]
  have hcut : ∀ offset size, slice r.val 0 offset ++ slice r.val offset size =
      slice r.val 0 (offset + size) := by
    intro offset size
    have h := slice_append r.val 0 offset size
    rwa [Nat.zero_add] at h
  simp only [bytes, fields, ofBytes, List.flatten_cons, List.flatten_nil, List.append_nil]
  rw [wordBytes_slice r (by decide) (by decide), wordBytes_slice r (by decide) (by decide),
    wordBytes_slice r (by decide) (by decide), wordBytes_slice r (by decide) (by decide),
    wordBytes_slice r (by decide) (by decide), wordBytes_slice r (by decide) (by decide)]
  simp only [← List.append_assoc, hcut, Nat.reduceAdd]
  exact hwhole

/-- The event all of whose bytes are `b`. -/
def fill (b : Byte) : WireEvent :=
  ofBytes ⟨List.replicate eventSize b, List.length_replicate⟩

theorem bytes_fill (b : Byte) : (fill b).bytes = List.replicate eventSize b :=
  bytes_ofBytes _

end WireEvent

end Host
end AarchGate
