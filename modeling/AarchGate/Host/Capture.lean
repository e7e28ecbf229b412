/-
# From the guest's `openat` to the classification of the path

`trace_openat` in `src/guest/tracer.bpf.c` fills a record of the ring buffer for every
`openat`; the host classifies it by the patterns of sensitive paths
(`PolicyEngine::process_event`, in `Host.Policy`).

`arg_str` holds 256 bytes, so of a longer path `bpf_probe_read_user_str` keeps the first
255.  The record is marked exactly if a pattern lies within these, and so the mark is right
for a path exactly if it has no pattern or has one there (`sensitive_iff`).

The helpers of the kernel are taken as documented: `bpf_probe_read_user_str` copies at most
`size - 1` bytes and terminates them, `bpf_get_current_comm` leaves a terminated name.  The
bytes of a record that are not written keep what the ring buffer held.
-/

import AarchGate.Host.Wire

namespace AarchGate
namespace Host

open A64 (Word)
open Ir (Name)
open AarchGate.Core (Map)
open Framing

/-! ### C strings -/

/-- The characters of a string of bytes. -/
def text (bs : List Byte) : Name := bs.map fun b => Char.ofNat b.toNat

/-- `std::string s(array)`: the bytes before the first zero.  Without one the constructor reads
past the array. -/
def cString (bs : List Byte) : Option Name :=
  if 0 ∈ bs then some (text (bs.takeWhile (· ≠ 0))) else none

/-- What the policy engine reads of a record. -/
def WireEvent.event (e : WireEvent) : Option SyscallEvent := do
  let comm ← cString e.comm.val
  let argStr ← cString e.argStr.val
  some ⟨e.pid, e.ppid, e.eventType, comm, argStr⟩

/-- A terminated string is read back. -/
theorem cString_terminated {s : List Byte} (hs : 0 ∉ s) (rest : List Byte) :
    cString (s ++ 0 :: rest) = some (text s) := by
  have hall : ∀ b ∈ s, decide (b ≠ 0) = true := fun b hb => decide_eq_true fun h => hs (h ▸ hb)
  rw [cString, if_pos (by simp), List.takeWhile_append_of_pos hall, List.takeWhile_cons_of_neg (by simp),
    List.append_nil]

/-! ### The tracer -/

/-- `bpf_probe_read_user_str(dst, sizeof(dst), src)`, for a string without zeros. -/
def bpfProbeReadUserStr {size : ℕ} [NeZero size] (dst : Record Byte size) (src : List Byte) :
    Record Byte size :=
  ⟨src.take (size - 1) ++ 0 :: dst.val.drop ((src.take (size - 1)).length + 1), by
    have := Nat.pos_of_neZero size
    rw [List.length_append, List.length_cons, List.length_drop, dst.length_val, List.length_take]
    omega⟩

/-- What the helpers of the kernel tell about the current task. -/
structure CurrentTask where
  ktimeNs : Word
  pidTgid : Word
  comm : Record Byte 32
  parentTgid : Option (BitVec 32)
  comm_terminated : 0 ∈ comm.val

/-- `fill_common`. -/
def fillCommon (ev : WireEvent) (task : CurrentTask) (type : Word) : WireEvent :=
  { ev with
    timestampNs := task.ktimeNs
    pid := task.pidTgid >>> 32
    eventType := type
    comm := task.comm
    ppid := task.parentTgid.elim 0 fun tgid => tgid.signExtend 64 }

/-- `trace_openat`; `ev` is what the ring buffer held. -/
def traceOpenat (ev : WireEvent) (task : CurrentTask) (filename : List Byte) : WireEvent :=
  { fillCommon ev task eventOpen with
    argStr := bpfProbeReadUserStr (fillCommon ev task eventOpen).argStr filename }

/-- `trace_execve`. -/
def traceExecve (ev : WireEvent) (task : CurrentTask) (filename : List Byte) : WireEvent :=
  { fillCommon ev task eventExec with
    argStr := bpfProbeReadUserStr (fillCommon ev task eventExec).argStr filename }

/-! ### The classification -/

/-- The path contains a sensitive substring. -/
def Sensitive (path : List Byte) : Prop := ∃ p ∈ sensitivePatterns, p <:+: text path

/-- The test decides it. -/
theorem hasSensitivePattern_eq_true {path : List Byte} :
    hasSensitivePattern (text path) = true ↔ Sensitive path := by
  simp [hasSensitivePattern, Sensitive, List.any_eq_true]

/-- A part of a path has no other patterns. -/
theorem Sensitive.of_take {path : List Byte} {k : ℕ} (h : Sensitive (path.take k)) :
    Sensitive path := by
  obtain ⟨p, hp, hinfix⟩ := h
  refine ⟨p, hp, hinfix.trans ?_⟩
  rw [text, List.map_take]
  exact (List.take_prefix ..).isInfix

/-- What the host makes of the record. -/
theorem traceOpenat_event (ev : WireEvent) (task : CurrentTask) {path : List Byte} (hpath : 0 ∉ path) :
    ∃ e, (WireEvent.ofBytes (traceOpenat ev task path).record).event = some e ∧
      e.eventType = eventOpen ∧ e.argStr = text (path.take 255) := by
  have hcomm : cString task.comm.val = some (text (task.comm.val.takeWhile (· ≠ 0))) :=
    if_pos task.comm_terminated
  have harg : cString (traceOpenat ev task path).argStr.val = some (text (path.take 255)) :=
    cString_terminated (fun h => hpath (List.mem_of_mem_take h)) _
  rw [WireEvent.ofBytes_record, WireEvent.event, harg]
  refine ⟨_, by rw [show (traceOpenat ev task path).comm = task.comm from rfl, hcomm]; rfl, rfl, rfl⟩

/-- The mark of a record of an `openat`. -/
theorem isSensitive_open (T : ProcessTree) {e : SyscallEvent} (he : e.eventType = eventOpen) :
    (processEvent T e).1.isSensitive = if hasSensitivePattern e.argStr then 1 else 0 := by
  rw [processEvent]
  simp only [if_pos he]

/-- **The mark of a path.**  For every path, the record the policy engine returns for an
`openat` of it is marked as sensitive if and only if the path is, exactly if the path has no
sensitive substring or has one within its first 255 bytes. -/
theorem sensitive_iff (T : ProcessTree) (ev : WireEvent) (task : CurrentTask) {path : List Byte}
    (hpath : 0 ∉ path) :
    ∃ e, (WireEvent.ofBytes (traceOpenat ev task path).record).event = some e ∧
      (((processEvent T e).1.isSensitive = 1 ↔ Sensitive path) ↔
        (Sensitive path → Sensitive (path.take 255))) := by
  obtain ⟨e, he, htype, harg⟩ := traceOpenat_event ev task hpath
  have hmark : (processEvent T e).1.isSensitive = 1 ↔ Sensitive (path.take 255) := by
    rw [← hasSensitivePattern_eq_true, ← harg, isSensitive_open T htype]
    cases hasSensitivePattern e.argStr <;> simp
  refine ⟨e, he, ?_⟩
  rw [hmark]
  exact ⟨fun h => h.2, fun h => ⟨.of_take, h⟩⟩

/-- The first process, at the start. -/
def firstTask : CurrentTask where
  ktimeNs := 0
  pidTgid := 0x100000001
  comm := ⟨List.replicate 32 0, List.length_replicate⟩
  parentTgid := none
  comm_terminated := by simp

/-- The bytes of a string. -/
def bytesOf (s : String) : List Byte := s.toList.map fun c => BitVec.ofNat 8 c.toNat

/-- `/root/.env` is marked. -/
theorem sensitive_iff_env :
    ∃ e, (WireEvent.ofBytes (traceOpenat (.fill 0) firstTask (bytesOf "/root/.env")).record).event =
      some e ∧ (processEvent Map.empty e).1.isSensitive = 1 := by
  obtain ⟨e, he, h⟩ := sensitive_iff Map.empty (.fill 0) firstTask
    (show 0 ∉ bytesOf "/root/.env" by decide)
  have hs : Sensitive (bytesOf "/root/.env") :=
    ⟨".env".toList, by decide, "/root/".toList, [], by decide⟩
  have htake : (bytesOf "/root/.env").take 255 = bytesOf "/root/.env" :=
    List.take_of_length_le (by decide)
  exact ⟨e, he, (h.2 fun _ => htake.symm ▸ hs).2 hs⟩

/-- A path of one letter has no pattern. -/
theorem not_sensitive_replicate (n : ℕ) : ¬Sensitive (List.replicate n 97) := by
  rintro ⟨p, hp, hinfix⟩
  have hother : ∀ p ∈ sensitivePatterns, ∃ c ∈ p, c ≠ 'a' := by simp [sensitivePatterns]
  obtain ⟨c, hc, hne⟩ := hother p hp
  have hmem := hinfix.subset hc
  rw [text, List.map_replicate] at hmem
  exact hne (List.eq_of_mem_replicate hmem)

/-- A file `.env` behind 255 bytes of path is not marked. -/
theorem long_path_unmarked :
    ∃ e, (WireEvent.ofBytes (traceOpenat (.fill 0) firstTask
        (List.replicate 255 97 ++ bytesOf ".env")).record).event = some e ∧
      Sensitive (List.replicate 255 97 ++ bytesOf ".env") ∧
      (processEvent Map.empty e).1.isSensitive = 0 := by
  have hzero : (0 : Byte) ∉ List.replicate 255 97 ++ bytesOf ".env" := by
    rw [List.mem_append, not_or]
    exact ⟨fun h => absurd (List.eq_of_mem_replicate h) (by decide), by decide⟩
  obtain ⟨e, he, htype, harg⟩ := traceOpenat_event (.fill 0) firstTask hzero
  refine ⟨e, he, ⟨".env".toList, by decide, text (List.replicate 255 97), [], ?_⟩, ?_⟩
  · have henv : text (bytesOf ".env") = ".env".toList := by decide
    rw [← henv, List.append_nil]
    exact List.map_append.symm
  · rw [isSensitive_open Map.empty htype, harg, List.take_left' List.length_replicate]
    rw [if_neg (by rw [hasSensitivePattern_eq_true]; exact not_sensitive_replicate 255)]

end Host
end AarchGate
