/-
# The monitor

`TelemetryModel::add_event` of `src/host/monitor.cpp`, and the messages that
`SyscallBatchCollector::add_event` of `src/host/main.cpp` publishes for it.

The policy engine and the monitor keep a table of processes each, with a mark for the
descendants of install scripts.  Both are fed by the same events, but the engine writes the
entry of a process at each of its `EXEC`s, the monitor at the first one only.  So the two
agree at every point exactly if no `EXEC` of a process that has executed before changes its
mark (`monitor_agrees_iff`): a shell that replaces `npm` in its process is untrusted for the
engine and trusted on the screen (`monitor_misses_shell`).

Messages are delivered in order and none is lost.  The timestamp, the address and the port are
left out, as in the events: they are only printed.
-/

import AarchGate.Host.Policy

namespace AarchGate
namespace Host

open A64 (Word)
open Ir (Name)
open AarchGate.Core (Map)
open Trace (run Along)

/-- `EVENT_MTE_TRAP`. -/
def eventMteTrap : Word := 4

/-- `EVENT_VM_STATE_CHANGE`. -/
def eventVmStateChange : Word := 5

/-- `MonitorEvent`. -/
structure MonitorEvent where
  pid : Word
  ppid : Word
  eventType : Word
  comm : Name
  argStr : Name
  isPreinstall : BitVec 8
  isSensitive : BitVec 8
  isUnauthorized : BitVec 8
  vmRunning : BitVec 8

/-- `ProcessNode` of the monitor. -/
structure MonitorNode where
  pid : Word
  ppid : Word
  comm : Name
  arg : Name
  isPreinstall : Bool
  children : List Word

/-- `TelemetryModel`. -/
structure TelemetryModel where
  vmRunning : Bool
  vmStatusDesc : Name
  totalExecs : Word
  totalOpens : Word
  totalConnects : Word
  totalMteTraps : Word
  totalViolations : Word
  processes : Map Word MonitorNode
  rootPids : List Word
  logs : List MonitorEvent

namespace TelemetryModel

/-- The model when the monitor starts. -/
def start : TelemetryModel where
  vmRunning := false
  vmStatusDesc := "Offline".toList
  totalExecs := 0
  totalOpens := 0
  totalConnects := 0
  totalMteTraps := 0
  totalViolations := 0
  processes := Map.empty
  rootPids := []
  logs := []

/-- The messages of the last twelve events. -/
def log (M : TelemetryModel) (ev : MonitorEvent) : TelemetryModel :=
  let logs := M.logs ++ [ev]
  { M with logs := if 12 < logs.length then logs.tail else logs }

/-- The counters. -/
def count (M : TelemetryModel) (ev : MonitorEvent) : TelemetryModel :=
  let M :=
    if ev.eventType = eventExec then { M with totalExecs := M.totalExecs + 1 }
    else if ev.eventType = eventOpen then { M with totalOpens := M.totalOpens + 1 }
    else if ev.eventType = eventConnect then { M with totalConnects := M.totalConnects + 1 }
    else if ev.eventType = eventMteTrap then { M with totalMteTraps := M.totalMteTraps + 1 }
    else M
  let M :=
    if ev.isSensitive ≠ 0 ∧ ev.isPreinstall ≠ 0 ∧ ev.eventType = eventOpen then
      { M with totalViolations := M.totalViolations + 1 }
    else M
  if ev.isUnauthorized ≠ 0 ∧ ev.isPreinstall ≠ 0 ∧ ev.eventType = eventConnect then
    { M with totalViolations := M.totalViolations + 1 }
  else M

/-- The update of the process tree by an `EXEC`. -/
def addProcess (M : TelemetryModel) (ev : MonitorEvent) : TelemetryModel :=
  if (M.processes ev.pid).isSome then M
  else
    let processes := M.processes.assign ev.pid
      ⟨ev.pid, ev.ppid, ev.comm, ev.argStr, ev.isPreinstall = 1, []⟩
    match if ev.ppid = 0 then none else processes ev.ppid with
    -- the lookup comes after the insertion, so a process may be its own child
    | some parent =>
      { M with
        processes :=
          processes.assign ev.ppid { parent with children := parent.children ++ [ev.pid] } }
    | none => { M with processes := processes, rootPids := M.rootPids ++ [ev.pid] }

/-- `TelemetryModel::add_event`. -/
def addEvent (M : TelemetryModel) (ev : MonitorEvent) : TelemetryModel :=
  if ev.eventType = eventVmStateChange then
    { M with vmRunning := ev.vmRunning = 1, vmStatusDesc := ev.argStr }
  else
    let M := (M.log ev).count ev
    if ev.eventType = eventExec then M.addProcess ev else M

/-- The marks on the screen. -/
def marks (M : TelemetryModel) : Map Word Bool := fun p => (M.processes p).map (·.isPreinstall)

@[simp] theorem processes_log (M : TelemetryModel) (ev : MonitorEvent) :
    (M.log ev).processes = M.processes := rfl

@[simp] theorem processes_count (M : TelemetryModel) (ev : MonitorEvent) :
    (M.count ev).processes = M.processes := by
  unfold count
  dsimp only
  split_ifs <;> rfl

/-- An entry that gets further children keeps its mark. -/
theorem map_assign_children {processes : Map Word MonitorNode} {q : Word} {node : MonitorNode}
    (hq : processes q = some node) (children : List Word) (p : Word) :
    (processes.assign q { node with children := children } p).map (·.isPreinstall) =
      (processes p).map (·.isPreinstall) := by
  by_cases hp : p = q
  · simp [hp, hq]
  · rw [processes.assign_ne hp]

/-- **The first `EXEC` of a process decides.** -/
theorem marks_addProcess (M : TelemetryModel) (ev : MonitorEvent) :
    (M.addProcess ev).marks = M.marks.emplace ev.pid (ev.isPreinstall = 1) := by
  have hsome : (M.marks ev.pid).isSome = (M.processes ev.pid).isSome := Option.isSome_map
  unfold addProcess Map.emplace
  rw [hsome]
  by_cases hknown : (M.processes ev.pid).isSome = true
  · rw [if_pos hknown, if_pos hknown]
  · rw [if_neg hknown, if_neg hknown]
    have hnew : ∀ node : MonitorNode, node.isPreinstall = decide (ev.isPreinstall = 1) →
        (fun p => (M.processes.assign ev.pid node p).map (·.isPreinstall)) =
          M.marks.assign ev.pid (ev.isPreinstall = 1) := by
      intro node hnode
      funext p
      by_cases hp : p = ev.pid
      · simp [hp, hnode]
      · rw [M.processes.assign_ne hp, M.marks.assign_ne hp, marks]
    dsimp only
    split
    · rename_i parent hparent
      split_ifs at hparent
      exact (funext (map_assign_children hparent _)).trans (hnew _ rfl)
    · exact hnew _ rfl

/-- Only an exec marks. -/
theorem marks_addEvent (M : TelemetryModel) (ev : MonitorEvent) :
    (M.addEvent ev).marks =
      if ev.eventType = eventExec then M.marks.emplace ev.pid (ev.isPreinstall = 1) else M.marks := by
  have hframe : ((M.log ev).count ev).marks = M.marks := by
    unfold marks
    rw [processes_count, processes_log]
  by_cases hstate : ev.eventType = eventVmStateChange
  · rw [addEvent, if_pos hstate, if_neg (by rw [hstate]; decide)]
    rfl
  · rw [addEvent, if_neg hstate]
    dsimp only
    split_ifs
    · rw [marks_addProcess, hframe]
    · exact hframe

end TelemetryModel

/-! ### What is published -/

/-- The message of an event. -/
def monitorEvent (event : SyscallEvent) (record : SyscallTraceRecord) (isPreinstall : BitVec 8)
    (running : Bool) : MonitorEvent where
  pid := event.pid
  ppid := event.ppid
  eventType := event.eventType
  comm := event.comm
  argStr := event.argStr
  isPreinstall := isPreinstall
  isSensitive := record.isSensitive.setWidth 8
  isUnauthorized := record.isUnauthorized.setWidth 8
  vmRunning := if running then 1 else 0

/-- The message that the machine is stopped. -/
def stopEvent : MonitorEvent where
  pid := 0
  ppid := 0
  eventType := eventVmStateChange
  comm := "system".toList
  argStr := "Virtual Machine Terminated (Security Kill Switch)".toList
  isPreinstall := 0
  isSensitive := 0
  isUnauthorized := 0
  vmRunning := 0

/-- A call of `SyscallBatchCollector::add_event`, with the two answers of `vm_.is_running()`. -/
structure Handled where
  event : SyscallEvent
  running : Bool
  stillRunning : Bool

/-- The calls of `monitor_cb_`. -/
def Handled.messages (h : Handled) (record : SyscallTraceRecord) : List MonitorEvent :=
  if isViolation record && h.running then [monitorEvent h.event record 1 true, stopEvent]
  else [monitorEvent h.event record (record.isPreinstall.setWidth 8) h.stillRunning]

/-- The policy engine and a monitor. -/
structure Watched where
  tree : ProcessTree
  monitor : TelemetryModel

namespace Watched

/-- Both when they start. -/
def start : Watched := ⟨Map.empty, .start⟩

/-- An event is handled and its messages are delivered. -/
def step (s : Watched) (h : Handled) : Watched where
  tree := (processEvent s.tree h.event).2
  monitor := (h.messages (processEvent s.tree h.event).1).foldl TelemetryModel.addEvent s.monitor

/-- The marks of the policy engine. -/
def treeMarks (s : Watched) : Map Word Bool := fun p => (s.tree p).map (·.isPreinstallDescendant)

/-- The call does not change the mark of a process that has executed before. -/
def KeepsMark (s : Watched) (h : Handled) : Prop :=
  h.event.eventType = eventExec → ∀ node, s.tree h.event.pid = some node →
    node.isPreinstallDescendant = isUntrustedScript s.tree h.event

section Step

variable (s : Watched) (h : Handled)

/-- And in the tree. -/
theorem treeMarks_step : (s.step h).treeMarks =
    if h.event.eventType = eventExec then
      s.treeMarks.assign h.event.pid (isUntrustedScript s.tree h.event) else s.treeMarks := by
  funext p
  simp only [treeMarks, step, processEvent]
  split_ifs with hexec
  · by_cases hp : p = h.event.pid
    · simp [hp]
    · rw [s.tree.assign_ne hp, Map.assign_ne _ hp, treeMarks]
  · rfl

/-- An `EXEC` is no violation, so its message has the mark of its record. -/
theorem marks_step : (s.step h).monitor.marks =
    if h.event.eventType = eventExec then
      s.monitor.marks.emplace h.event.pid (isUntrustedScript s.tree h.event)
    else s.monitor.marks := by
  have hflag : (processEvent s.tree h.event).1.isPreinstall.setWidth 8 = 1 ↔
      preinstallStatus s.tree h.event = true := by
    simp only [processEvent]
    cases preinstallStatus s.tree h.event <;> decide
  have hviolation : h.event.eventType = eventExec →
      isViolation (processEvent s.tree h.event).1 = false := fun hexec => by
    simp [isViolation, processEvent, hexec, eventExec, eventOpen, eventConnect]
  have hmessage := fun isPreinstall running => TelemetryModel.marks_addEvent s.monitor
    (monitorEvent h.event (processEvent s.tree h.event).1 isPreinstall running)
  simp only [show ∀ record isPreinstall running, (monitorEvent h.event record isPreinstall
    running).eventType = h.event.eventType from fun _ _ _ => rfl] at hmessage
  rw [step, Handled.messages]
  by_cases hexec : h.event.eventType = eventExec
  · rw [hviolation hexec, Bool.false_and, if_neg Bool.false_ne_true, List.foldl_cons, List.foldl_nil,
      hmessage, if_pos hexec, if_pos hexec]
    simp only [monitorEvent, hflag, preinstallStatus, if_pos hexec, Bool.decide_eq_true]
  · rw [if_neg hexec]
    split_ifs
    · rw [List.foldl_cons, List.foldl_cons, List.foldl_nil, TelemetryModel.marks_addEvent,
        if_neg (by decide), hmessage, if_neg hexec]
    · rw [List.foldl_cons, List.foldl_nil, hmessage, if_neg hexec]

/-- **One event** keeps the agreement exactly if it keeps the mark. -/
theorem agree_step (hs : s.monitor.marks = s.treeMarks) :
    (s.step h).monitor.marks = (s.step h).treeMarks ↔ s.KeepsMark h := by
  rw [marks_step, treeMarks_step, hs, KeepsMark]
  split_ifs with hexec
  · rw [Map.emplace_eq_assign_iff]
    simp [treeMarks, hexec]
  · simp [hexec]

end Step

/-- The process has executed in one of the calls. -/
def Executed (calls : List Handled) (p : Word) : Prop :=
  ∃ h ∈ calls, h.event.eventType = eventExec ∧ h.event.pid = p

/-- The processes of the tree are those that have executed. -/
theorem isSome_tree_run (calls : List Handled) (p : Word) (s : Watched) :
    ((run step s calls).tree p).isSome = true ↔ (s.tree p).isSome = true ∨ Executed calls p := by
  induction calls generalizing s with
  | nil => simp [run, Executed]
  | cons h calls ih =>
    have hrun : run step s (h :: calls) = run step (s.step h) calls := rfl
    have hexec : Executed (h :: calls) p ↔
        (h.event.eventType = eventExec ∧ h.event.pid = p) ∨ Executed calls p := by
      simp [Executed]
    have htree : ((s.step h).tree p).isSome = true ↔
        (s.tree p).isSome = true ∨ h.event.eventType = eventExec ∧ h.event.pid = p := by
      rw [step, processEvent]
      dsimp only
      split_ifs with he
      · by_cases hp : p = h.event.pid
        · simp [hp, he]
        · rw [Map.assign_ne _ hp]
          simp [Ne.symm hp]
      · simp [he]
    rw [hrun, ih, hexec, htree, or_assoc]

/-- Both tables have the same processes. -/
theorem isSome_marks_run (calls : List Handled) {s : Watched}
    (hs : ∀ p, (s.monitor.marks p).isSome = (s.treeMarks p).isSome) (p : Word) :
    ((run step s calls).monitor.marks p).isSome = ((run step s calls).treeMarks p).isSome := by
  induction calls generalizing s with
  | nil => exact hs p
  | cons h calls ih =>
    refine ih fun q => ?_
    rw [marks_step, treeMarks_step]
    split_ifs with hexec
    · by_cases hq : q = h.event.pid
      · rw [hq, Map.emplace_self, Map.assign_self, Option.isSome_some, Option.isSome_some]
      · rw [Map.emplace_ne _ hq, Map.assign_ne _ hq, hs]
    · exact hs q

/-- The marks are equal if they are for the processes that have executed. -/
theorem agree_iff (calls : List Handled) :
    (run step start calls).monitor.marks = (run step start calls).treeMarks ↔
      ∀ p, Executed calls p → ∃ node treeNode,
        (run step start calls).monitor.processes p = some node ∧
          (run step start calls).tree p = some treeNode ∧
            node.isPreinstall = treeNode.isPreinstallDescendant := by
  have hexec : ∀ p, ((run step start calls).tree p).isSome = true ↔ Executed calls p := fun p => by
    rw [isSome_tree_run]
    simp [start, Map.empty]
  have hsame := isSome_marks_run calls (s := start) fun _ => rfl
  generalize run step start calls = s at hexec hsame
  have hpoint : ∀ p, s.monitor.marks p = s.treeMarks p ↔ (Executed calls p → ∃ node treeNode,
      s.monitor.processes p = some node ∧ s.tree p = some treeNode ∧
        node.isPreinstall = treeNode.isPreinstallDescendant) := by
    intro p
    have hp := hsame p
    simp only [TelemetryModel.marks, treeMarks, Option.isSome_map] at hp ⊢
    rw [← hexec p]
    cases hm : s.monitor.processes p <;> cases ht : s.tree p <;> simp [hm, ht] at hp ⊢
  rw [funext_iff]
  exact forall_congr' hpoint

end Watched

/-- **The monitor and the policy engine agree on who is untrusted** at every point and for every
process that has executed, exactly in the runs in which no `EXEC` of a process that has executed
before changes its mark. -/
theorem monitor_agrees_iff (calls : List Handled) :
    (∀ n p, Watched.Executed (calls.take n) p → ∃ node treeNode,
      (run Watched.step .start (calls.take n)).monitor.processes p = some node ∧
        (run Watched.step .start (calls.take n)).tree p = some treeNode ∧
          node.isPreinstall = treeNode.isPreinstallDescendant) ↔
      Along Watched.step Watched.KeepsMark .start calls := by
  rw [← Along.always_iff (N := fun _ => True)
    (I := fun s : Watched => s.monitor.marks = s.treeMarks) (fun s h _ hs => s.agree_step h hs) rfl
    fun _ _ => trivial]
  exact forall_congr' fun n => (Watched.agree_iff (calls.take n)).symm

/-- **`npm` is replaced by a shell** in the same process: the engine marks the process, the
monitor keeps showing it without a mark. -/
theorem monitor_misses_shell :
    let calls : List Handled :=
      [⟨bareEvent 100 50 eventExec "npm".toList, true, true⟩,
        ⟨bareEvent 100 50 eventExec "sh".toList, true, true⟩]
    Watched.Executed calls 100 ∧
      ((run Watched.step .start calls).tree 100).map (·.isPreinstallDescendant) = some true ∧
        ((run Watched.step .start calls).monitor.processes 100).map (·.isPreinstall) = some false := by
  refine ⟨⟨_, List.mem_cons_self .., rfl, rfl⟩, by decide, by decide⟩

end Host
end AarchGate
