/-
# The process tree on the dashboard

`draw_process_node` of `src/host/monitor.cpp`, and the loop of `render_dashboard`
that calls it for each element of `root_pids`.  The recursion follows the lists of
children, which are built from the parent ids in the messages, and has no record of
the processes it has drawn.

Still it ends, and draws no process twice, whatever the messages say
(`drawRoots_once`).  `add_event` puts a process into one list only, at its first
`EXEC`, and the list is that of a process which is in the table by then
(`Linked.addEvent`).  A process that names itself as its parent gets into its own
list and into no other, so the recursion never comes to it.
-/

import AarchGate.Graph.Forest
import AarchGate.Host.Monitor

namespace AarchGate
namespace Host

open A64 (Word)
open Ir (Name)
open AarchGate.Core (Map)
open Trace (run)

/-- An unsigned integer as `std::cout` and `std::to_string` print it. -/
def decimal (n : ℕ) : Name := Nat.toDigits 10 n

/-- `RESET`. -/
def reset : Name := "\x1b[0m".toList
/-- `BOLD`. -/
def bold : Name := "\x1b[1m".toList
/-- `GREEN`. -/
def green : Name := "\x1b[32m".toList
/-- `YELLOW`. -/
def yellow : Name := "\x1b[33m".toList
/-- `WHITE`. -/
def white : Name := "\x1b[37m".toList

/-- The line of a process. -/
def MonitorNode.line (node : MonitorNode) (pfx : Name) (isLast : Bool) : Name :=
  pfx ++ (if isLast then "└── " else "├── ").toList ++
    (if node.isPreinstall then yellow ++ bold else green) ++ node.comm ++ reset ++
    " (PID: ".toList ++ decimal node.pid.toNat ++ ")".toList ++
    (if node.arg = [] then []
      else " ".toList ++ white ++ "[".toList ++ node.arg ++ "]".toList ++ reset) ++
    "\n".toList

namespace TelemetryModel

/-- `draw_process_node`: its calls in the order they are made, each with the process
it is for and what it prints before it goes on to the children.  `none` if the
recursion goes deeper than `fuel`. -/
def drawProcessNode (M : TelemetryModel) : ℕ → Word → Name → Bool → Option (List (Word × Name))
  | 0, _, _, _ => none
  | fuel + 1, pid, pfx, isLast =>
    match M.processes pid with
    | none => some [(pid, [])]
    | some node =>
      let newPrefix := pfx ++ (if isLast then "    " else "│   ").toList
      (Graph.collect (fun child =>
          M.drawProcessNode fuel child.1 newPrefix (child.2 == node.children.length - 1))
        node.children.zipIdx).map ((pid, node.line pfx isLast) :: ·)

/-- The loop over `root_pids` in `render_dashboard`. -/
def drawRoots (M : TelemetryModel) (fuel : ℕ) : Option (List (Word × Name)) :=
  Graph.collect (fun root =>
    M.drawProcessNode fuel root.1 "  ".toList (root.2 == M.rootPids.length - 1)) M.rootPids.zipIdx

/-- The list of children of a process, empty if it is not in the table. -/
def children (M : TelemetryModel) (pid : Word) : List Word :=
  ((M.processes pid).map (·.children)).getD []

variable {M : TelemetryModel}

/-! ### The calls are a walk along the lists -/

/-- Processes without their prefixes. -/
theorem pids_collect {f : Word × ℕ → Option (List (Word × Name))} {g : Word → Option (List Word)}
    (hf : ∀ child, (f child).map (List.map Prod.fst) = g child.1) (pids : List Word) :
    (Graph.collect f pids.zipIdx).map (List.map Prod.fst) = Graph.collect g pids := by
  rw [Graph.map_collect (k := Prod.fst) hf, List.zipIdx_map_fst]

/-- The processes drawn do not depend on the texts that are passed down. -/
theorem drawProcessNode_pids (fuel : ℕ) (pid : Word) (pfx : Name) (isLast : Bool) :
    (M.drawProcessNode fuel pid pfx isLast).map (List.map Prod.fst) =
      Graph.walk M.children fuel pid := by
  induction fuel generalizing pid pfx isLast with
  | zero => rfl
  | succ fuel ih =>
    rw [drawProcessNode, Graph.walk]
    cases hnode : M.processes pid with
    | none => simp [children, hnode, Graph.collect]
    | some node =>
      have hlist : M.children pid = node.children := by simp [children, hnode]
      rw [hlist, ← pids_collect fun child => ih child.1 _ (child.2 == node.children.length - 1)]
      simp only [Option.map_map]
      rfl

/-- What is drawn is the walk. -/
theorem drawRoots_pids (fuel : ℕ) :
    (M.drawRoots fuel).map (List.map Prod.fst) =
      Graph.collect (Graph.walk M.children fuel) M.rootPids :=
  pids_collect (fun root => drawProcessNode_pids fuel root.1 _ _) M.rootPids

/-- More fuel than is needed changes nothing. -/
theorem drawProcessNode_succ {fuel : ℕ} {pid : Word} {pfx : Name} {isLast : Bool}
    {calls : List (Word × Name)} (h : M.drawProcessNode fuel pid pfx isLast = some calls) :
    M.drawProcessNode (fuel + 1) pid pfx isLast = some calls := by
  induction fuel generalizing pid pfx isLast calls with
  | zero => simp [drawProcessNode] at h
  | succ fuel ih =>
    rw [drawProcessNode] at h ⊢
    cases hnode : M.processes pid with
    | none => simpa [hnode] using h
    | some node =>
      rw [hnode] at h
      simp only [Option.map_eq_some_iff] at h ⊢
      obtain ⟨below, hbelow, rfl⟩ := h
      exact ⟨below, Graph.collect_mono (fun child xs hxs => ih hxs) hbelow, rfl⟩

/-- More depth draws the same. -/
theorem drawRoots_mono {fuel fuel' : ℕ} (hle : fuel ≤ fuel') {calls : List (Word × Name)}
    (h : M.drawRoots fuel = some calls) : M.drawRoots fuel' = some calls := by
  induction hle with
  | refl => exact h
  | step _ ih => exact Graph.collect_mono (fun root xs hxs => drawProcessNode_succ hxs) ih

/-! ### The lists are a forest -/

/-- The lists of the model, for processes that came in the order `order`. -/
structure Linked (M : TelemetryModel) (order : List Word) : Prop where
  forest : Graph.Forest M.children M.rootPids order
  known : ∀ pid, (M.processes pid).isSome ↔ pid ∈ order

/-- The empty model. -/
theorem linked_start : start.Linked [] where
  forest := Graph.forest_nil
  known := fun pid => by simp [start, Map.empty]

/-- Only processes and roots matter. -/
theorem Linked.of_eq {order : List Word} (h : M.Linked order) {M' : TelemetryModel}
    (hprocesses : M'.processes = M.processes) (hroots : M'.rootPids = M.rootPids) :
    M'.Linked order := by
  have hchildren : M'.children = M.children := by
    funext pid
    rw [children, hprocesses, children]
  exact ⟨hchildren ▸ hroots ▸ h.forest, fun pid => hprocesses ▸ h.known pid⟩

/-- A new entry has no children yet. -/
theorem children_new {pid : Word} (hnew : M.processes pid = none) {node : MonitorNode}
    (hnode : node.children = []) :
    children { M with processes := M.processes.assign pid node } = M.children := by
  funext q
  by_cases hq : q = pid
  · simp [children, hq, hnew, hnode]
  · simp only [children]
    rw [M.processes.assign_ne hq]

/-- The link to the parent lengthens one list. -/
theorem children_link {ppid pid : Word} {parent : MonitorNode}
    (hparent : M.processes ppid = some parent) :
    children { M with
      processes := M.processes.assign ppid { parent with children := parent.children ++ [pid] } } =
      Function.update M.children ppid (M.children ppid ++ [pid]) := by
  funext q
  by_cases hq : q = ppid
  · subst hq
    simp [children, hparent]
  · rw [Function.update_of_ne hq]
    simp only [children]
    rw [M.processes.assign_ne hq]

/-- One process more. -/
theorem isSome_assign (processes : Map Word MonitorNode) (pid q : Word) (node : MonitorNode) :
    (processes.assign pid node q).isSome ↔ q = pid ∨ (processes q).isSome := by
  by_cases hq : q = pid
  · simp [hq]
  · rw [processes.assign_ne hq, or_iff_right hq]

/-- **An `EXEC`** adds its process to one list, if it is new. -/
theorem Linked.addProcess {order : List Word} (h : M.Linked order) (ev : MonitorEvent) :
    ∃ order', (M.addProcess ev).Linked order' ∧ order'.length ≤ order.length + 1 := by
  rw [TelemetryModel.addProcess]
  by_cases hknown : (M.processes ev.pid).isSome = true
  · rw [if_pos hknown]
    exact ⟨order, h, Nat.le_succ _⟩
  · rw [if_neg hknown]
    have hout : ev.pid ∉ order := fun hmem => hknown ((h.known _).2 hmem)
    -- the model with the new entry, before it is put into a list
    set node : MonitorNode := ⟨ev.pid, ev.ppid, ev.comm, ev.argStr, ev.isPreinstall = 1, []⟩
    set M₁ : TelemetryModel := { M with processes := M.processes.assign ev.pid node } with hM₁
    have hchildren : M₁.children = M.children :=
      children_new (Option.not_isSome_iff_eq_none.1 hknown) rfl
    have hknown₁ : ∀ pid, (M₁.processes pid).isSome ↔ pid ∈ order ++ [ev.pid] := fun pid => by
      rw [hM₁, isSome_assign, h.known, List.mem_append, List.mem_singleton, or_comm]
    refine ⟨order ++ [ev.pid], ?_, by simp⟩
    dsimp only
    split
    · rename_i parent hparent
      split_ifs at hparent
      have hmem : ev.ppid ∈ order ++ [ev.pid] :=
        (hknown₁ _).1 (Option.isSome_iff_exists.2 ⟨parent, hparent⟩)
      refine ⟨?_, fun pid => ?_⟩
      · have hforest := h.forest.add_child hout hmem
        rw [← hchildren, ← children_link (M := M₁) hparent] at hforest
        exact hforest
      · rw [isSome_assign, hknown₁]
        exact or_iff_right_of_imp fun he => he ▸ hmem
    · have hforest := h.forest.add_root hout
      rw [← hchildren] at hforest
      exact ⟨hforest, hknown₁⟩

theorem rootPids_count (M : TelemetryModel) (ev : MonitorEvent) :
    (M.count ev).rootPids = M.rootPids := by
  unfold count
  dsimp only
  split_ifs <;> rfl

/-- **One event.** -/
theorem Linked.addEvent {order : List Word} (h : M.Linked order) (ev : MonitorEvent) :
    ∃ order', (M.addEvent ev).Linked order' ∧ order'.length ≤ order.length + 1 := by
  rw [TelemetryModel.addEvent]
  split_ifs with hstate hexec
  · exact ⟨order, h.of_eq rfl rfl, Nat.le_succ _⟩
  all_goals
    have hcounted : ((M.log ev).count ev).Linked order :=
      h.of_eq (by simp) (rootPids_count (M.log ev) ev)
  · exact hcounted.addProcess ev
  · exact ⟨order, hcounted, Nat.le_succ _⟩

/-- **A run of events.** -/
theorem Linked.run {order : List Word} (h : M.Linked order) (evs : List MonitorEvent) :
    ∃ order', (run TelemetryModel.addEvent M evs).Linked order' ∧
      order'.length ≤ order.length + evs.length := by
  induction evs generalizing M order with
  | nil => exact ⟨order, h, Nat.le_refl _⟩
  | cons ev evs ih =>
    obtain ⟨order₁, h₁, hlen₁⟩ := h.addEvent ev
    obtain ⟨order₂, h₂, hlen₂⟩ := ih h₁
    exact ⟨order₂, h₂, by simp only [List.length_cons]; omega⟩

end TelemetryModel

/-- **The tree is drawn, and every process at most once.**  For any messages there is
one list of calls that the recursion makes, with a depth of at most one for each
message, and no process is in it twice. -/
theorem drawRoots_once (evs : List MonitorEvent) :
    let M := run TelemetryModel.addEvent .start evs
    ∃ calls, (∀ fuel, evs.length < fuel → M.drawRoots fuel = some calls) ∧
      (calls.map Prod.fst).Nodup := by
  intro M
  obtain ⟨order, hlinked, hlen⟩ := TelemetryModel.linked_start.run evs
  have hfuel : order.length < evs.length + 1 := by simpa using Nat.lt_succ_of_le hlen
  obtain ⟨pids, hpids, hnodup⟩ := hlinked.forest.walk_roots hfuel
  rw [← TelemetryModel.drawRoots_pids, Option.map_eq_some_iff] at hpids
  obtain ⟨calls, hcalls, rfl⟩ := hpids
  exact ⟨calls, fun fuel hfuel => TelemetryModel.drawRoots_mono hfuel hcalls, hnodup⟩

end Host
end AarchGate
