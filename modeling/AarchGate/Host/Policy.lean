/-
# The policy engine of the host

`src/host/policy_engine.cpp`: the process tree and the classification of system
calls, `PolicyEngine::process_event`, `register_process`, `unregister_process`, and
the direct test for a violation in `SyscallBatchCollector::add_event` of
`src/host/main.cpp`.

The tree marks the descendants of install scripts.  A process gets its mark when
it is first executed, from its parent or from its name, and is looked up by every
later event.  The two results are about what becomes of a mark.

* An `EXEC` writes the entry of its process anew, so a marked process keeps its
  mark exactly as long as each of its `EXEC`s has a marked parent or is a script
  (`flag_kept_iff`).
* Only an `EXEC` enters a process in the tree, so the mark is inherited along a
  chain of processes as long as those in the middle come by `EXEC` and keep their
  mark (`flag_inherited`).

The timestamp, the address and the port of an event are left out: `process_event`
does not read them.  The lock makes each call one step.
-/

import AarchGate.Core.Registry
import AarchGate.Trace.Along
import Mathlib.Data.List.Infix

namespace AarchGate
namespace Host

open A64 (Word)
open Ir (Name)
open AarchGate.Core (Map)
open Trace (run Along)

/-- `EVENT_EXEC`. -/
def eventExec : Word := 1

/-- `EVENT_OPEN`. -/
def eventOpen : Word := 2

/-- `EVENT_CONNECT`. -/
def eventConnect : Word := 3

/-- `SyscallEvent`. -/
structure SyscallEvent where
  pid : Word
  ppid : Word
  eventType : Word
  comm : Name
  argStr : Name

/-- `SyscallTraceRecord`, without the padding. -/
@[ext] structure SyscallTraceRecord where
  pid : Word
  ppid : Word
  eventType : Word
  isPreinstall : Word
  isSensitive : Word
  isUnauthorized : Word
  deriving DecidableEq

/-- `ProcessNode`. -/
structure ProcessNode where
  pid : Word
  ppid : Word
  comm : Name
  isPreinstallDescendant : Bool

/-- `PolicyEngine::process_tree_`. -/
abbrev ProcessTree := Map Word ProcessNode

namespace ProcessTree

/-- `PolicyEngine::is_preinstall_process`: the process has an entry with the mark. -/
def isPreinstallProcess (T : ProcessTree) (pid : Word) : Bool :=
  (T pid).any (·.isPreinstallDescendant)

/-- `PolicyEngine::register_process`. -/
def registerProcess (T : ProcessTree) (pid ppid : Word) (comm : Name) (forcePreinstall : Bool) :
    ProcessTree :=
  T.assign pid ⟨pid, ppid, comm, forcePreinstall⟩

/-- `PolicyEngine::unregister_process`. -/
def unregisterProcess (T : ProcessTree) (pid : Word) : ProcessTree :=
  fun q => if q = pid then none else T q

end ProcessTree

/-- An interpreter started by a process other than the first counts as an install
script. -/
def isScript (event : SyscallEvent) : Bool :=
  ["sh".toList, "bash".toList, "node".toList, "python".toList].contains event.comm &&
    decide (1 < event.ppid)

/-- The patterns of sensitive paths. -/
def sensitivePatterns : List Name :=
  [".ssh/".toList, ".aws/".toList, "aws/credentials".toList, ".env".toList, ".npmrc".toList,
    ".gitconfig".toList, "/etc/passwd".toList, "/etc/shadow".toList, "/proc/self/environ".toList,
    "id_rsa".toList, "id_ed25519".toList, "authorized_keys".toList]

/-- `arg.find(pattern) != npos` for one of the patterns. -/
def hasSensitivePattern (arg : Name) : Bool := sensitivePatterns.any fun p => decide (p <:+: arg)

/-- `is_untrusted_script` of an `EXEC`. -/
def isUntrustedScript (T : ProcessTree) (event : SyscallEvent) : Bool :=
  T.isPreinstallProcess event.ppid || isScript event

/-- `is_preinstall_process` in `process_event`. -/
def preinstallStatus (T : ProcessTree) (event : SyscallEvent) : Bool :=
  if event.eventType = eventExec then isUntrustedScript T event
  else
    match T event.pid with
    | some node => node.isPreinstallDescendant
    -- a process that is not in the tree is judged by its parent
    | none => T.isPreinstallProcess event.ppid

/-- `PolicyEngine::process_event`: the record and the tree. -/
def processEvent (T : ProcessTree) (event : SyscallEvent) : SyscallTraceRecord × ProcessTree :=
  ({ pid := event.pid
     ppid := event.ppid
     eventType := event.eventType
     isPreinstall := if preinstallStatus T event then 1 else 0
     isSensitive :=
      if event.eventType = eventOpen then if hasSensitivePattern event.argStr then 1 else 0 else 0
     isUnauthorized := if event.eventType = eventConnect then 1 else 0 },
    if event.eventType = eventExec then
      T.assign event.pid ⟨event.pid, event.ppid, event.comm, isUntrustedScript T event⟩
    else T)

/-- `is_violation` in `SyscallBatchCollector::add_event`. -/
def isViolation (record : SyscallTraceRecord) : Bool :=
  record.isPreinstall = 1 &&
    (record.isSensitive = 1 && record.eventType = eventOpen ||
      record.isUnauthorized = 1 && record.eventType = eventConnect)

/-- The calls that change the tree. -/
inductive Call where
  | event (e : SyscallEvent)
  | register (pid ppid : Word) (comm : Name) (forcePreinstall : Bool)
  | unregister (pid : Word)

/-- One call. -/
def step (T : ProcessTree) : Call → ProcessTree
  | .event e => (processEvent T e).2
  | .register pid ppid comm forcePreinstall => T.registerProcess pid ppid comm forcePreinstall
  | .unregister pid => T.unregisterProcess pid

/-! ### A mark stays -/

/-- The call does not take the mark of process `p` away: an `EXEC` of `p` has a marked
parent or is a script, and `p` is not registered or unregistered. -/
def KeepsFlag (p : Word) (T : ProcessTree) : Call → Prop
  | .event e => e.pid = p → e.eventType = eventExec →
      T.isPreinstallProcess e.ppid = true ∨ isScript e = true
  | .register pid _ _ _ => pid ≠ p
  | .unregister pid => pid ≠ p

/-- The record of an event of `p` has `is_preinstall` set. -/
def RecordsFlag (p : Word) (T : ProcessTree) : Call → Prop
  | .event e => e.pid = p → (processEvent T e).1.isPreinstall = 1
  | _ => True

section Flag

variable {p : Word} {T : ProcessTree}

/-- The process that was set. -/
theorem isPreinstallProcess_assign_self (T : ProcessTree) (node : ProcessNode) :
    ProcessTree.isPreinstallProcess (T.assign p node) p = node.isPreinstallDescendant := by
  simp [ProcessTree.isPreinstallProcess]

/-- The others stay. -/
theorem isPreinstallProcess_assign_ne {q : Word} (h : p ≠ q) (node : ProcessNode) :
    ProcessTree.isPreinstallProcess (T.assign q node) p = T.isPreinstallProcess p := by
  rw [ProcessTree.isPreinstallProcess, T.assign_ne h, ProcessTree.isPreinstallProcess]

/-- The two reasons. -/
theorem isUntrustedScript_eq_true {e : SyscallEvent} :
    isUntrustedScript T e = true ↔ T.isPreinstallProcess e.ppid = true ∨ isScript e = true := by
  rw [isUntrustedScript, Bool.or_eq_true]

/-- What the record says. -/
theorem isPreinstall_eq_one {e : SyscallEvent} :
    (processEvent T e).1.isPreinstall = 1 ↔ preinstallStatus T e = true := by
  rw [processEvent]
  cases preinstallStatus T e <;> simp

/-- **One call**: the mark stays. -/
theorem flag_step (h : T.isPreinstallProcess p = true) {c : Call} (hc : KeepsFlag p T c) :
    (step T c).isPreinstallProcess p = true := by
  cases c with
  | event e =>
    by_cases hexec : e.eventType = eventExec
    · rw [step, processEvent]
      simp only [if_pos hexec]
      by_cases hp : e.pid = p
      · subst hp
        rw [isPreinstallProcess_assign_self]
        exact isUntrustedScript_eq_true.2 (hc rfl hexec)
      · rw [isPreinstallProcess_assign_ne (Ne.symm hp)]
        exact h
    · rw [step, processEvent]
      simp only [if_neg hexec]
      exact h
  | register pid ppid comm forcePreinstall =>
    rw [step, ProcessTree.registerProcess, isPreinstallProcess_assign_ne (Ne.symm hc)]
    exact h
  | unregister pid =>
    have hne : p ≠ pid := Ne.symm hc
    rw [step, ProcessTree.isPreinstallProcess, ProcessTree.unregisterProcess, if_neg hne]
    exact h

/-- A call other than a registration of `p`. -/
def Spares (p : Word) : Call → Prop
  | .event _ => True
  | .register pid _ _ _ => pid ≠ p
  | .unregister pid => pid ≠ p

/-- The records of a marked process have the mark, except for an `EXEC` that takes it. -/
theorem recordsFlag_iff (h : T.isPreinstallProcess p = true) {c : Call} (hc : Spares p c) :
    RecordsFlag p T c ↔ KeepsFlag p T c := by
  cases c with
  | event e =>
    refine forall_congr' fun hp => ?_
    subst hp
    rw [ProcessTree.isPreinstallProcess, Option.any_eq_true] at h
    obtain ⟨node, hnode, hflag⟩ := h
    rw [isPreinstall_eq_one, preinstallStatus, hnode, ← isUntrustedScript_eq_true]
    split_ifs with hexec
    · exact ⟨fun hs _ => hs, fun hs => hs hexec⟩
    · exact ⟨fun _ he => absurd he hexec, fun _ => hflag⟩
  | register => exact ⟨fun _ => hc, fun _ => trivial⟩
  | unregister => exact ⟨fun _ => hc, fun _ => trivial⟩

end Flag

/-- **When a marked process keeps its mark**: along any calls that do not register or
unregister it, all records of its events have `is_preinstall` set exactly when each
of its `EXEC`s has a marked parent or is a script. -/
theorem flag_kept_iff {p : Word} {T : ProcessTree} (h : T.isPreinstallProcess p = true)
    {calls : List Call} (hcalls : ∀ c ∈ calls, Spares p c) :
    Along step (RecordsFlag p) T calls ↔ Along step (KeepsFlag p) T calls := by
  refine Along.congr (N := Spares p) (I := fun T : ProcessTree => T.isPreinstallProcess p = true)
    ?_ ?_ h hcalls
  · exact fun T c hT hc => flag_step hT hc
  · exact fun T c hc hT => recordsFlag_iff hT hc

/-- An event of a process without arguments. -/
def bareEvent (pid ppid eventType : Word) (comm : Name) : SyscallEvent :=
  ⟨pid, ppid, eventType, comm, []⟩

/-- The tree with the install script `100` alone. -/
def scriptTree : ProcessTree :=
  ProcessTree.registerProcess Map.empty 100 50 "node".toList true

/-- The script starts a shell of its own and opens a file. -/
theorem flag_kept_iff_shell :
    scriptTree.isPreinstallProcess 100 = true ∧
      Along step (RecordsFlag 100) scriptTree
        [.event (bareEvent 100 50 eventExec "sh".toList),
          .event (bareEvent 100 50 eventOpen "sh".toList)] := by
  have h : scriptTree.isPreinstallProcess 100 = true := by decide
  refine ⟨h, (flag_kept_iff h (by simp [Spares])).2 ⟨?_, ?_, trivial⟩⟩
  · exact fun _ _ => Or.inr (by decide)
  · exact fun _ he => absurd he (by decide)

/-- **The mark is lost by an `EXEC`**: the script runs `ls` after its parent has gone, and
neither this record nor that of the file it then opens has the mark. -/
theorem flag_lost_by_exec :
    scriptTree.isPreinstallProcess 100 = true ∧
      (processEvent scriptTree (bareEvent 100 1 eventExec "ls".toList)).1.isPreinstall = 0 ∧
      (processEvent (step scriptTree (.event (bareEvent 100 1 eventExec "ls".toList)))
        (bareEvent 100 1 eventOpen "ls".toList)).1.isPreinstall = 0 := by
  decide

/-! ### A mark is inherited -/

/-- A process of a chain: the calls before its first event, and this event. -/
structure Link where
  before : List Call
  event : SyscallEvent

namespace Link

/-- The tree when the event arrives. -/
def arrival (l : Link) (T : ProcessTree) : ProcessTree := run step T l.before

/-- The tree after the event. -/
def next (l : Link) (T : ProcessTree) : ProcessTree := step (l.arrival T) (.event l.event)

end Link

/-- The processes of the links descend from `p`: the first event of each names the one
before as its parent, and it is not in the tree when the event arrives. -/
def Chain : Word → ProcessTree → List Link → Prop
  | _, _, [] => True
  | p, T, l :: rest =>
    l.event.ppid = p ∧ l.arrival T l.event.pid = none ∧ Chain l.event.pid (l.next T) rest

/-- The records of the events of the chain have `is_preinstall` set. -/
def ChainRecords : ProcessTree → List Link → Prop
  | _, [] => True
  | T, l :: rest =>
    (processEvent (l.arrival T) l.event).1.isPreinstall = 1 ∧ ChainRecords (l.next T) rest

/-- The mark reaches every process of the chain: either the parent `p` has been entered
in the tree, by an `EXEC` or before the chain, and keeps its mark until the event,
or the event is the `EXEC` of a script. -/
def ChainKept : Prop → Word → ProcessTree → List Link → Prop
  | _, _, _, [] => True
  | entered, p, T, l :: rest =>
    (entered ∧ Along step (KeepsFlag p) T l.before ∨
        l.event.eventType = eventExec ∧ isScript l.event = true) ∧
      ChainKept (l.event.eventType = eventExec) l.event.pid (l.next T) rest

section Chain

variable {T : ProcessTree} {e : SyscallEvent}

/-- The first event of a process has the mark if its parent has, or if it is the `EXEC`
of a script. -/
theorem first_recorded (hnone : T e.pid = none)
    (h : T.isPreinstallProcess e.ppid = true ∨ e.eventType = eventExec ∧ isScript e = true) :
    (processEvent T e).1.isPreinstall = 1 := by
  rw [isPreinstall_eq_one, preinstallStatus, hnone]
  split_ifs with hexec
  · exact isUntrustedScript_eq_true.2 (h.imp_right And.right)
  · exact h.resolve_right fun hs => hexec hs.1

/-- An `EXEC` enters the process in the tree with the mark of its record. -/
theorem exec_entered (hexec : e.eventType = eventExec)
    (h : (processEvent T e).1.isPreinstall = 1) :
    (step T (.event e)).isPreinstallProcess e.pid = true := by
  rw [isPreinstall_eq_one, preinstallStatus, if_pos hexec] at h
  rw [step, processEvent]
  simp only [if_pos hexec]
  rw [isPreinstallProcess_assign_self]
  exact h

end Chain

/-- The chain of a process that is marked once it is entered. -/
theorem chain_recorded {links : List Link} :
    ∀ {p : Word} {T : ProcessTree} {entered : Prop},
      (entered → T.isPreinstallProcess p = true) → Chain p T links →
      ChainKept entered p T links → ChainRecords T links := by
  induction links with
  | nil => exact fun _ _ _ => trivial
  | cons l rest ih =>
    rintro p T entered hp ⟨hparent, hnone, hchain⟩ ⟨hl, hkept⟩
    have hrec : (processEvent (l.arrival T) l.event).1.isPreinstall = 1 := by
      refine first_recorded hnone (hl.imp_left fun ⟨hin, hbefore⟩ => ?_)
      rw [hparent]
      exact Along.invariant (I := fun T : ProcessTree => T.isPreinstallProcess p = true)
        (fun _ _ hT hc => flag_step hT hc) (hp hin) hbefore
    exact ⟨hrec, ih (fun hexec => exec_entered hexec hrec) hchain hkept⟩

/-- **The mark is inherited along a chain of processes** from a marked one, in every run
in which each parent is entered in the tree and keeps its mark until the event of
its child, or the child is a script. -/
theorem flag_inherited {p : Word} {T : ProcessTree} (h : T.isPreinstallProcess p = true)
    {links : List Link} (hchain : Chain p T links) (hkept : ChainKept True p T links) :
    ChainRecords T links :=
  chain_recorded (fun _ => h) hchain hkept

/-- The script starts `make`, which starts `cc`, which connects. -/
def buildLinks : List Link :=
  [⟨[], bareEvent 101 100 eventExec "make".toList⟩,
    ⟨[.event (bareEvent 101 100 eventOpen "make".toList)],
      bareEvent 102 101 eventConnect "cc".toList⟩]

theorem flag_inherited_build :
    scriptTree.isPreinstallProcess 100 = true ∧ Chain 100 scriptTree buildLinks ∧
      ChainRecords scriptTree buildLinks := by
  have h : scriptTree.isPreinstallProcess 100 = true := by decide
  have hchain : Chain 100 scriptTree buildLinks := by
    refine ⟨rfl, ?_, rfl, ?_, trivial⟩ <;> rfl
  have hkept : ChainKept True 100 scriptTree buildLinks :=
    ⟨Or.inl ⟨trivial, trivial⟩, Or.inl ⟨rfl, fun _ he => absurd he (by decide), trivial⟩, trivial⟩
  exact ⟨h, hchain, flag_inherited h hchain hkept⟩

/-- **A process that was forked and not executed breaks the chain**: its own first event
has the mark, that of its child has not. -/
theorem flag_not_inherited_fork :
    let links : List Link :=
      [⟨[], bareEvent 101 100 eventOpen "node".toList⟩,
        ⟨[], bareEvent 102 101 eventOpen "node".toList⟩]
    scriptTree.isPreinstallProcess 100 = true ∧ Chain 100 scriptTree links ∧
      (processEvent scriptTree (bareEvent 101 100 eventOpen "node".toList)).1.isPreinstall = 1 ∧
      ¬ ChainRecords scriptTree links := by
  refine ⟨by decide, ⟨rfl, rfl, rfl, rfl, trivial⟩, by decide, fun h => ?_⟩
  exact absurd h.2.1 (by decide)

end Host
end AarchGate
