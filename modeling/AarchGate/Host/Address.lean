/-
# From the guest's `connect` to the address on the screen

`trace_connect` in `src/guest/tracer.bpf.c` stores the address and the port of an IPv4 socket
address in the record.  Two programs print them: the daemon in its alert
(`SyscallBatchCollector::add_event` in `src/host/main.cpp`), and the monitor in its log
(`render_dashboard` in `src/host/monitor.cpp`), there in place of an argument that is empty or
`other_connect`.

In memory the socket address is in network byte order.  The port is turned around, the address
is not, and both decoders start from the top byte: `a.b.c.d` is shown as `d.c.b.a`, with the
right port.  So it is shown as it is exactly if it reads the same in both directions
(`connection_shown_iff`).

Of the log only the end of a `CONNECT` line is modelled, from the arrow on.  The tracer reads
the family through `bpf_probe_read_kernel`, from an address of the user's; where the kernel
refuses that, the helper leaves a zero, and the record keeps what the ring buffer held.
-/

import AarchGate.Host.Capture
import AarchGate.Host.Dashboard

namespace AarchGate
namespace Host

open A64 (Word)
open Ir (Name)
open AarchGate.Core (Map)
open Framing

/-! ### The tracer -/

/-- `AF_INET`. -/
def afInet : BitVec 16 := 2

/-- `AF_INET6`. -/
def afInet6 : BitVec 16 := 10

/-- `__builtin_memcpy(dst, src, src.length)`. -/
def memcpy {size : ℕ} (dst : Record Byte size) (src : List Byte) (h : src.length ≤ size) :
    Record Byte size :=
  ⟨src ++ dst.val.drop src.length, by
    rw [List.length_append, List.length_drop, dst.length_val]
    omega⟩

/-- The marks of the kinds of addresses, with the zero at their ends. -/
def connectMark (s : String) : List Byte := bytesOf s ++ [0]

/-- The conversion of the port. -/
def hostPort (rawPort : BitVec 16) : BitVec 16 :=
  ((rawPort &&& 0xff) <<< 8) ||| ((rawPort &&& 0xff00) >>> 8)

/-- What `trace_connect` takes over from the socket address, by its family. -/
def fillAddress (ev : WireEvent) (family : BitVec 16) (addr : Record Byte 16) : WireEvent :=
  if family = afInet then
    { ev with
      ipAddress := ofWordBytes 32 (slice addr.val 4 4)
      port := hostPort (ofWordBytes 16 (slice addr.val 2 2))
      argStr := memcpy ev.argStr (connectMark "ipv4_connect") (by decide) }
  else if family = afInet6 then
    { ev with argStr := memcpy ev.argStr (connectMark "ipv6_connect") (by decide) }
  else { ev with argStr := memcpy ev.argStr (connectMark "other_connect") (by decide) }

/-- `trace_connect`; `ev` is what the ring buffer held, `addr` the second argument of the
call, and `kernelReads` says whether `bpf_probe_read_kernel` can read there. -/
def traceConnect (ev : WireEvent) (task : CurrentTask) (kernelReads : Bool)
    (addr : Option (Record Byte 16)) : WireEvent :=
  let ev := fillCommon ev task eventConnect
  match addr with
  | none => ev
  | some addr =>
    fillAddress ev (if kernelReads then ofWordBytes 16 (slice addr.val 0 2) else 0) addr

/-- The `sockaddr_in` of `a.b.c.d` and port `p`: address and port in network byte order. -/
def sockaddrIn (a b c d : Byte) (p : BitVec 16) (zero : Record Byte 8) : Record Byte 16 :=
  ⟨wordBytes 2 afInet ++ (wordBytes 2 p).reverse ++ [a, b, c, d] ++ zero.val, by
    simp [zero.length_val]⟩

/-! ### The two decoders -/

/-- `a.b.c.d`. -/
def dottedQuad (a b c d : ℕ) : Name :=
  decimal a ++ '.' :: (decimal b ++ '.' :: (decimal c ++ '.' :: decimal d))

/-- The bytes of an address from the top, as both programs print them. -/
def dotted (ip : BitVec 32) : Name :=
  dottedQuad ((ip >>> 24) &&& 0xFF).toNat ((ip >>> 16) &&& 0xFF).toNat
    ((ip >>> 8) &&& 0xFF).toNat (ip &&& 0xFF).toNat

/-- An address and a port. -/
def endpoint (address : Name) (port : ℕ) : Name := address ++ ':' :: decimal port

/-- The alert, around what was attempted. -/
def alertLines (event : SyscallEvent) (attempt : Name) : Name :=
  "\n".toList ++ List.replicate 80 '!' ++ "\n".toList ++
    "!!! CRITICAL SECURITY ALERT: POLICY VIOLATION DETECTED\n".toList ++
    "!!! Process '".toList ++ event.comm ++ "' (PID ".toList ++ decimal event.pid.toNat ++
    ") is a preinstall script\n".toList ++ attempt ++
    "!!! TERMINATING MICRO-VM SANDBOX IMMEDIATELY...\n".toList ++ List.replicate 80 '!' ++
    "\n\n".toList

/-- The line of the alert for a connection. -/
def exfiltration (target : Name) : Name :=
  "!!! Attempted NETWORK EXFILTRATION to: ".toList ++ target ++ "\n".toList

/-- What `SyscallBatchCollector::add_event` prints for a violation. -/
def alertText (event : SyscallEvent) (record : SyscallTraceRecord) (ip : BitVec 32)
    (port : BitVec 16) : Name :=
  alertLines event
    (if record.isSensitive ≠ 0 then
      "!!! Attempted to READ sensitive file: ".toList ++ event.argStr ++ "\n".toList
    else exfiltration (endpoint (dotted ip) port.toNat))

/-- The arguments for which the monitor falls back on the address. -/
def FallsBack (argStr : Name) : Prop := argStr = [] ∨ argStr = "other_connect".toList

instance (argStr : Name) : Decidable (FallsBack argStr) := inferInstanceAs (Decidable (_ ∨ _))

/-- `dest` in `render_dashboard`. -/
def connectDest (argStr : Name) (ip : BitVec 32) : Name :=
  if FallsBack argStr then dotted ip else argStr

/-- The end of a `CONNECT` line. -/
def connectLine (dest : Name) (port : BitVec 16) : Name :=
  " -> ".toList ++ endpoint dest port.toNat ++ "\n".toList

/-! ### What a text says -/

/-- A number is known by its digits. -/
theorem decimal_inj {m n : ℕ} : decimal m = decimal n ↔ m = n := by
  refine ⟨fun h => ?_, congrArg decimal⟩
  have hback := congrArg (fun s => Nat.ofDigitChars 10 s 0) h
  simpa only [decimal, Nat.ofDigitChars_toDigits (show 1 < 10 by decide) (Nat.le_refl 10)]
    using hback

/-- And has nothing but digits. -/
theorem not_mem_decimal {c : Char} (hc : c.isDigit = false) (n : ℕ) : c ∉ decimal n := by
  intro hmem
  rw [Nat.isDigit_of_mem_toDigits (by decide) (Nat.le_refl 10) hmem] at hc
  exact absurd hc (by decide)

/-- Two texts are cut at the first separator. -/
theorem append_sep_inj {c : Char} {s t s' t' : Name} (hs : c ∉ s) (hs' : c ∉ s') :
    s ++ c :: t = s' ++ c :: t' ↔ s = s' ∧ t = t' := by
  induction s generalizing s' with
  | nil =>
    cases s' with
    | nil => simp
    | cons x s' =>
      have hne : c ≠ x := fun h => hs' (h ▸ List.mem_cons_self)
      simp [hne]
  | cons x s ih =>
    have hne : x ≠ c := fun h => hs (h ▸ List.mem_cons_self)
    cases s' with
    | nil => simp [hne]
    | cons x' s' =>
      simp [ih (fun h => hs (List.mem_cons_of_mem x h)) fun h => hs' (List.mem_cons_of_mem x' h),
        and_assoc]

/-- **A text determines the address and the port.** -/
theorem endpoint_inj {a b c d p a' b' c' d' p' : ℕ} :
    endpoint (dottedQuad a b c d) p = endpoint (dottedQuad a' b' c' d') p' ↔
      (a = a' ∧ b = b' ∧ c = c' ∧ d = d') ∧ p = p' := by
  have hdot : ∀ n, '.' ∉ decimal n := not_mem_decimal (by decide)
  have hcolon : ∀ n, ':' ∉ decimal n := not_mem_decimal (by decide)
  simp only [endpoint, dottedQuad, List.append_assoc, List.cons_append]
  rw [append_sep_inj (hdot a) (hdot a'), append_sep_inj (hdot b) (hdot b'),
    append_sep_inj (hdot c) (hdot c'), append_sep_inj (hcolon d) (hcolon d')]
  simp only [decimal_inj, and_assoc]

/-- The decoders show the bytes of the integer from the last to the first. -/
theorem dotted_eq {ip : BitVec 32} {a b c d : Byte} (h : wordBytes 4 ip = [d, c, b, a]) :
    dotted ip = dottedQuad a.toNat b.toNat c.toNat d.toNat := by
  have hbyte : ∀ k, ((ip >>> k) &&& 0xFF).toNat = ip.toNat / 2 ^ k % 256 := by
    intro k
    rw [BitVec.toNat_and, BitVec.toNat_ushiftRight, Nat.shiftRight_eq_div_pow]
    exact Nat.and_two_pow_sub_one_eq_mod _ 8
  have hlast := hbyte 0
  rw [BitVec.ushiftRight_zero] at hlast
  simp only [wordBytes, leBytes, List.cons.injEq, and_true] at h
  obtain ⟨rfl, rfl, rfl, rfl⟩ := h
  rw [dotted, hbyte, hbyte, hbyte, hlast]
  simp only [BitVec.toNat_ofNat, Nat.div_div_eq_div_mul, Nat.reducePow, Nat.reduceMul, Nat.div_one]

/-- An alert shows its text. -/
theorem alertLines_inj {event : SyscallEvent} {s t : Name}
    (h : alertLines event s = alertLines event t) : s = t := by
  unfold alertLines at h
  have hhead := List.append_cancel_right (List.append_cancel_right (List.append_cancel_right h))
  exact List.append_cancel_left hhead

/-- So does its endpoint. -/
theorem exfiltration_inj {s t : Name} (h : exfiltration s = exfiltration t) : s = t := by
  unfold exfiltration at h
  exact List.append_cancel_left (List.append_cancel_right h)

section Shown

variable {T : ProcessTree} {event : SyscallEvent} {ip : BitVec 32} {port : BitVec 16}
  {a b c d : Byte} {p : BitVec 16}

/-- An endpoint shows address and port. -/
theorem endpoint_dotted_iff :
    endpoint (dotted ip) port.toNat =
        endpoint (dottedQuad a.toNat b.toNat c.toNat d.toNat) p.toNat ↔
      wordBytes 4 ip = [d, c, b, a] ∧ port = p := by
  obtain ⟨a', b', c', d', hip⟩ : ∃ a' b' c' d', wordBytes 4 ip = [d', c', b', a'] :=
    ⟨_, _, _, _, rfl⟩
  rw [dotted_eq hip, endpoint_inj, hip]
  simp only [BitVec.toNat_inj, List.cons.injEq, and_true]
  constructor
  · rintro ⟨⟨ha, hb, hc, hd⟩, hp⟩
    exact ⟨⟨hd, hc, hb, ha⟩, hp⟩
  · rintro ⟨⟨hd, hc, hb, ha⟩, hp⟩
    exact ⟨⟨ha, hb, hc, hd⟩, hp⟩

/-- **The texts for a connection say `a.b.c.d` and `p`**: the alert of the daemon, and a line
of the monitor where it falls back on the address. -/
structure Shown (T : ProcessTree) (event : SyscallEvent) (ip : BitVec 32) (port : BitVec 16)
    (a b c d : Byte) (p : BitVec 16) : Prop where
  alert : alertText event (processEvent T event).1 ip port =
    alertLines event (exfiltration (endpoint (dottedQuad a.toNat b.toNat c.toNat d.toNat) p.toNat))
  log : ∀ argStr, FallsBack argStr → connectLine (connectDest argStr ip) port =
    connectLine (dottedQuad a.toNat b.toNat c.toNat d.toNat) p

/-- The alert for a `connect` is about the connection. -/
theorem alertText_connect (hevent : event.eventType = eventConnect) :
    alertText event (processEvent T event).1 ip port =
      alertLines event (exfiltration (endpoint (dotted ip) port.toNat)) := by
  have hsensitive : (processEvent T event).1.isSensitive = 0 := by
    rw [processEvent]
    exact if_neg (by rw [hevent]; decide)
  rw [alertText, if_neg (not_not.2 hsensitive)]

/-- What the alert shows. -/
theorem shown_iff (hevent : event.eventType = eventConnect) :
    Shown T event ip port a b c d p ↔ wordBytes 4 ip = [d, c, b, a] ∧ port = p := by
  rw [← endpoint_dotted_iff]
  constructor
  · rintro ⟨halert, -⟩
    rw [alertText_connect hevent] at halert
    exact exfiltration_inj (alertLines_inj halert)
  · intro h
    refine ⟨by rw [alertText_connect hevent, h], fun argStr hback => ?_⟩
    rw [connectDest, if_pos hback, connectLine, h, connectLine]

end Shown

/-! ### From the tracer to the texts -/

/-- The bytes are swapped. -/
theorem toNat_hostPort (raw : BitVec 16) :
    (hostPort raw).toNat = 256 * (raw.toNat % 256) + raw.toNat / 256 := by
  have hraw := raw.isLt
  have hlow : (raw &&& 0xff).toNat = raw.toNat % 256 := Nat.and_two_pow_sub_one_eq_mod _ 8
  have hhigh : ((raw &&& 0xff00) >>> 8).toNat = raw.toNat / 256 := by
    rw [BitVec.ushiftRight_and_distrib]
    rw [BitVec.toNat_and, BitVec.toNat_ushiftRight, Nat.shiftRight_eq_div_pow]
    refine (Nat.and_two_pow_sub_one_eq_mod _ 8).trans (Nat.mod_eq_of_lt ?_)
    omega
  rw [hostPort, BitVec.toNat_or, BitVec.toNat_shiftLeft, hlow, hhigh]
  rw [Nat.mod_eq_of_lt (by rw [Nat.shiftLeft_eq]; omega),
    ← Nat.shiftLeft_add_eq_or_of_lt (by omega), Nat.shiftLeft_eq]
  omega

/-- A port in network order is read back. -/
theorem hostPort_network (p : BitVec 16) :
    hostPort (ofWordBytes 16 (wordBytes 2 p).reverse) = p := by
  have hp := p.isLt
  have hraw : (ofWordBytes 16 (wordBytes 2 p).reverse).toNat =
      p.toNat / 256 + 256 * (p.toNat % 256) := by
    simp only [wordBytes, leBytes, List.reverse_cons, List.reverse_nil, List.nil_append,
      List.cons_append, ofWordBytes, leValue, BitVec.toNat_ofNat]
    rw [Nat.mod_eq_of_lt (show p.toNat / 256 < 2 ^ 8 by omega)]
    omega
  refine BitVec.eq_of_toNat_eq ?_
  rw [toNat_hostPort, hraw]
  omega

section Trace

variable (ev : WireEvent) (task : CurrentTask) (kernelReads : Bool)

/-- Whatever the family is, the argument becomes a terminated mark, and the head of the record
stays. -/
theorem fillAddress_spec (family : BitVec 16) (addr : Record Byte 16) :
    (∃ mark rest, 0 ∉ mark ∧ (fillAddress ev family addr).argStr.val = mark ++ 0 :: rest) ∧
      (fillAddress ev family addr).pid = ev.pid ∧
      (fillAddress ev family addr).eventType = ev.eventType ∧
      (fillAddress ev family addr).comm = ev.comm := by
  have hmark : ∀ (s : String) (h : (connectMark s).length ≤ 256),
      (memcpy ev.argStr (connectMark s) h).val =
        bytesOf s ++ 0 :: ev.argStr.val.drop (connectMark s).length := by
    intro s h
    simp [memcpy, connectMark]
  rw [fillAddress]
  split_ifs
  · exact ⟨⟨_, _, by decide, hmark "ipv4_connect" (by decide)⟩, rfl, rfl, rfl⟩
  · exact ⟨⟨_, _, by decide, hmark "ipv6_connect" (by decide)⟩, rfl, rfl, rfl⟩
  · exact ⟨⟨_, _, by decide, hmark "other_connect" (by decide)⟩, rfl, rfl, rfl⟩

/-- What the host makes of the record. -/
theorem traceConnect_event (addr : Record Byte 16) :
    ∃ event, (traceConnect ev task kernelReads (some addr)).event = some event ∧
      event.pid = task.pidTgid >>> 32 ∧ event.eventType = eventConnect := by
  rw [traceConnect]
  obtain ⟨⟨mark, rest, hmark, harg⟩, hpid, htype, hcomm⟩ := fillAddress_spec
    (fillCommon ev task eventConnect)
    (if kernelReads then ofWordBytes 16 (slice addr.val 0 2) else 0) addr
  have hname : cString task.comm.val = some (text (task.comm.val.takeWhile (· ≠ 0))) :=
    if_pos task.comm_terminated
  rw [WireEvent.event, hcomm, show (fillCommon ev task eventConnect).comm = task.comm from rfl,
    hname, harg, cString_terminated hmark, hpid, htype]
  exact ⟨_, rfl, rfl, rfl⟩

/-- **The address and the port in the record**, for `a.b.c.d` and `p`: the address byte by byte
as it was in memory, the port as a number. -/
theorem traceConnect_fields (a b c d : Byte) (p : BitVec 16) (zero : Record Byte 8) :
    let w := traceConnect ev task kernelReads (some (sockaddrIn a b c d p zero))
    wordBytes 4 w.ipAddress = (if kernelReads then [a, b, c, d] else wordBytes 4 ev.ipAddress) ∧
      w.port = if kernelReads then p else ev.port := by
  intro w
  cases kernelReads with
  | false => exact ⟨rfl, rfl⟩
  | true =>
    have hfamily : ofWordBytes 16 (slice (sockaddrIn a b c d p zero).val 0 2) = afInet :=
      ofWordBytes_wordBytes (k := 2) (by decide) afInet
    have hw : w =
        fillAddress (fillCommon ev task eventConnect) afInet (sockaddrIn a b c d p zero) := by
      show fillAddress _ (ofWordBytes 16 (slice (sockaddrIn a b c d p zero).val 0 2)) _ = _
      rw [hfamily]
    have hsize : 2 ^ 32 = 256 ^ [a, b, c, d].length := by simp
    rw [hw, fillAddress, if_pos rfl, if_pos rfl, if_pos rfl]
    exact ⟨wordBytes_ofWordBytes hsize, hostPort_network p⟩

end Trace

/-- **When a connection is shown as it is.**  For every address `a.b.c.d` and port `p` given to
`connect`: the alert of the daemon and the fallback of the monitor show them exactly if
`a = d` and `b = c`.  Where the tracer cannot read the family, they show what the ring buffer
held. -/
theorem connection_shown_iff (T : ProcessTree) (ev : WireEvent) (task : CurrentTask)
    (kernelReads : Bool) (a b c d : Byte) (p : BitVec 16) (zero : Record Byte 8) :
    let w := WireEvent.ofBytes
      (traceConnect ev task kernelReads (some (sockaddrIn a b c d p zero))).record
    ∃ event, w.event = some event ∧
      (Shown T event w.ipAddress w.port a b c d p ↔
        if kernelReads then a = d ∧ b = c
        else wordBytes 4 ev.ipAddress = [d, c, b, a] ∧ ev.port = p) := by
  rw [WireEvent.ofBytes_record]
  intro w
  obtain ⟨event, hevent, -, htype⟩ :=
    traceConnect_event ev task kernelReads (sockaddrIn a b c d p zero)
  refine ⟨event, hevent, ?_⟩
  obtain ⟨hip, hport⟩ := traceConnect_fields ev task kernelReads a b c d p zero
  rw [shown_iff htype, hip, hport]
  cases kernelReads with
  | false => exact Iff.rfl
  | true =>
    simp only [if_true, List.cons.injEq, and_true]
    constructor
    · rintro ⟨had, hbc, -, -⟩
      exact ⟨had, hbc⟩
    · rintro ⟨rfl, rfl⟩
      exact ⟨rfl, rfl, rfl, rfl⟩

/-- An install script connects to 10.0.0.1, and both texts say 1.0.0.10. -/
theorem address_shown_reversed :
    let w := WireEvent.ofBytes (traceConnect (.fill 0) firstTask true
      (some (sockaddrIn 10 0 0 1 80 ⟨List.replicate 8 0, rfl⟩))).record
    let T : ProcessTree := Map.empty.assign 1 ⟨1, 0, [], true⟩
    ∃ event, w.event = some event ∧ isViolation (processEvent T event).1 = true ∧
      alertText event (processEvent T event).1 w.ipAddress w.port =
        alertLines event (exfiltration "1.0.0.10:80".toList) ∧
      connectLine (connectDest [] w.ipAddress) w.port = " -> 1.0.0.10:80\n".toList ∧
      ¬Shown T event w.ipAddress w.port 10 0 0 1 80 := by
  rw [WireEvent.ofBytes_record]
  intro w T
  obtain ⟨event, hevent, hpid, htype⟩ := traceConnect_event (.fill 0) firstTask true
    (sockaddrIn 10 0 0 1 80 ⟨List.replicate 8 0, rfl⟩)
  obtain ⟨hip, hport⟩ := traceConnect_fields (.fill 0) firstTask true 10 0 0 1 80
    ⟨List.replicate 8 0, rfl⟩
  have htext : endpoint (dotted w.ipAddress) w.port.toNat = "1.0.0.10:80".toList := by
    rw [dotted_eq hip, hport]
    decide
  refine ⟨event, hevent, ?_, ?_, ?_, ?_⟩
  · have hpid' : event.pid = 1 := hpid
    simp [isViolation, processEvent, preinstallStatus, htype, hpid', T, eventConnect, eventExec,
      eventOpen]
  · rw [alertText_connect htype, htext]
  · rw [connectDest, if_pos (show FallsBack [] from Or.inl rfl), connectLine, htext]
    decide
  · rw [shown_iff htype, hip]
    decide

end Host
end AarchGate
