/-
# What the mark of a process means

The process tree keeps one mark per process, written by an `EXEC` or a registration and
overwritten by the next (`src/host/policy_engine.cpp`).  Process numbers are reused, a
process may name itself as its parent, and parents come and go, so the mark says nothing
about the tree of processes at any one time.

It says this about the history: the mark of `p` is there exactly when a chain of writes
leads from the last write of `p`, each time to the last write of the parent before it,
through `EXEC`s to one that is a script or to a registration with the mark
(`flag_iff_chain`).
-/

import AarchGate.Host.Policy
import AarchGate.Trace.LastWrite

namespace AarchGate
namespace Host

open A64 (Word)
open AarchGate.Core (Map)
open Trace (run Store)

namespace Call

/-- The call writes the entry of the process. -/
def Writes : Call → Word → Prop
  | .event e, p => e.eventType = eventExec ∧ e.pid = p
  | .register pid _ _ _, p => pid = p
  | .unregister _, _ => False

/-- The call removes the entry of the process. -/
def Unregisters : Call → Word → Prop
  | .unregister pid, p => pid = p
  | _, _ => False

/-- What a call that writes an entry writes. -/
def entry (T : ProcessTree) : Call → Option ProcessNode
  | .event e => some ⟨e.pid, e.ppid, e.comm, isUntrustedScript T e⟩
  | .register pid ppid comm forcePreinstall => some ⟨pid, ppid, comm, forcePreinstall⟩
  | .unregister _ => none

/-- The call marks the process, whatever its parent: the `EXEC` of a script, or a registration
with `force_preinstall`. -/
def Marks : Call → Prop
  | .event e => e.eventType = eventExec ∧ isScript e = true
  | .register _ _ _ forcePreinstall => forcePreinstall = true
  | .unregister _ => False

end Call

/-- The process tree as a store. -/
def treeStore : Store ProcessTree Call Word ProcessNode where
  step := step
  get T p := T p
  Writes := Call.Writes
  Removes := Call.Unregisters
  value := Call.entry
  get_write {T c p} h := by
    cases c with
    | event e =>
      obtain ⟨hexec, rfl⟩ := h
      simp [step, processEvent, hexec, Call.entry]
    | register pid ppid comm forcePreinstall =>
      cases h
      simp [step, ProcessTree.registerProcess, Call.entry]
    | unregister => cases h
  get_remove {T c p} h := by
    cases c with
    | unregister =>
      cases h
      simp [step, ProcessTree.unregisterProcess]
    | _ => cases h
  get_other {T c p} hw hr := by
    cases c with
    | event e =>
      by_cases hexec : e.eventType = eventExec
      · have hne : p ≠ e.pid := fun h => hw ⟨hexec, h.symm⟩
        simp only [step, processEvent, if_pos hexec, T.assign_ne hne]
      · simp only [step, processEvent, if_neg hexec]
    | register => exact T.assign_ne (Ne.symm hw) _
    | unregister => exact if_neg (Ne.symm hr)
  not_writes {c p} h := by
    cases c with
    | unregister => exact id
    | _ => cases h

/-- **A chain of writes** to the mark of `p` before call `n`: `w 0` is the last write of `p`,
each next one the last write of its parent before it, all but the last are `EXEC`s, and the
last one marks its process. -/
structure WriteChain (calls : List Call) (n : ℕ) (p : Word) (k : ℕ) (w : ℕ → ℕ) : Prop where
  first : treeStore.LastWrite calls n p (w 0)
  next : ∀ i < k, ∃ e, calls[w i]? = some (.event e) ∧ e.eventType = eventExec ∧
    treeStore.LastWrite calls (w i) e.ppid (w (i + 1))
  last : ∃ c, calls[w k]? = some c ∧ c.Marks

section Chain

variable {calls : List Call} {n k : ℕ} {p : Word} {w : ℕ → ℕ}

/-- The chain after its first write. -/
theorem WriteChain.tail (h : WriteChain calls n p (k + 1) w) :
    ∃ e, calls[w 0]? = some (.event e) ∧ e.eventType = eventExec ∧
      WriteChain calls (w 0) e.ppid k fun i => w (i + 1) := by
  obtain ⟨e, he, hexec, hfirst⟩ := h.next 0 (Nat.succ_pos k)
  exact ⟨e, he, hexec, hfirst, fun i hi => h.next (i + 1) (Nat.succ_lt_succ hi), h.last⟩

/-- An `EXEC` before a chain of its parent. -/
theorem WriteChain.exec {i : ℕ} (hi : treeStore.LastWrite calls n p i) {e : SyscallEvent}
    (he : calls[i]? = some (.event e)) (hexec : e.eventType = eventExec)
    (h : WriteChain calls i e.ppid k w) :
    WriteChain calls n p (k + 1) fun j => j.casesOn i w where
  first := hi
  next j hj := by
    cases j with
    | zero => exact ⟨e, he, hexec, h.first⟩
    | succ j => exact h.next j (Nat.lt_of_succ_lt_succ hj)
  last := h.last

/-- A chain of one write. -/
theorem WriteChain.marks {i : ℕ} (hi : treeStore.LastWrite calls n p i) {c : Call}
    (hc : calls[i]? = some c) (h : c.Marks) : WriteChain calls n p 0 fun _ => i where
  first := hi
  next _ hj := absurd hj (Nat.not_lt_zero _)
  last := ⟨c, hc, h⟩

/-- The tree before call `n`. -/
def treeAt (calls : List Call) (n : ℕ) : ProcessTree := treeStore.state Map.empty calls n

/-- The mark is that of the entry the last write left. -/
theorem flag_iff_lastWrite : (treeAt calls n).isPreinstallProcess p = true ↔
    ∃ i c, treeStore.LastWrite calls n p i ∧ calls[i]? = some c ∧
      (c.entry (treeAt calls i)).any (·.isPreinstallDescendant) = true := by
  have hget : ∀ node, treeAt calls n p = some node ↔ ∃ i c, treeStore.LastWrite calls n p i ∧
      calls[i]? = some c ∧ c.entry (treeAt calls i) = some node :=
    fun node => Store.get_eq_some_iff (S := treeStore) fun _ => rfl
  simp only [ProcessTree.isPreinstallProcess, Option.any_eq_true, hget]
  constructor
  · rintro ⟨node, ⟨i, c, hi, hc, hnode⟩, hflag⟩
    exact ⟨i, c, hi, hc, node, hnode, hflag⟩
  · rintro ⟨i, c, hi, hc, node, hnode, hflag⟩
    exact ⟨node, ⟨i, c, hi, hc, hnode⟩, hflag⟩

/-- The mark before every call, by induction on the number of calls before it. -/
theorem flag_iff_chain_at (calls : List Call) (n : ℕ) (p : Word) :
    (treeAt calls n).isPreinstallProcess p = true ↔ ∃ k w, WriteChain calls n p k w := by
  induction n using Nat.strong_induction_on generalizing p with
  | h n ih =>
    rw [flag_iff_lastWrite]
    constructor
    · rintro ⟨i, c, hi, hc, hflag⟩
      obtain ⟨c', hc', hwrites⟩ := hi.writes
      obtain rfl := Option.some.inj (hc.symm.trans hc')
      cases c with
      | event e =>
        rcases isUntrustedScript_eq_true.1 hflag with hparent | hscript
        · obtain ⟨k, w, hchain⟩ := (ih i hi.lt e.ppid).1 hparent
          exact ⟨_, _, .exec hi hc hwrites.1 hchain⟩
        · exact ⟨_, _, .marks hi hc ⟨hwrites.1, hscript⟩⟩
      | register => exact ⟨_, _, .marks hi hc hflag⟩
      | unregister => cases hwrites
    · rintro ⟨k, w, hchain⟩
      cases k with
      | zero =>
        obtain ⟨c, hc, hmarks⟩ := hchain.last
        refine ⟨w 0, c, hchain.first, hc, ?_⟩
        cases c with
        | event e => exact isUntrustedScript_eq_true.2 (Or.inr hmarks.2)
        | register => exact hmarks
        | unregister => cases hmarks
      | succ k =>
        obtain ⟨e, he, -, htail⟩ := hchain.tail
        refine ⟨w 0, .event e, hchain.first, he, isUntrustedScript_eq_true.2 (Or.inl ?_)⟩
        exact (ih (w 0) hchain.first.lt e.ppid).2 ⟨k, _, htail⟩

end Chain

/-- **The exact meaning of the mark**: after any calls, `is_preinstall_process` of `p` is true
exactly when there is a chain of writes from the last write of `p`. -/
theorem flag_iff_chain (calls : List Call) (p : Word) :
    (run step Map.empty calls).isPreinstallProcess p = true ↔
      ∃ k w, WriteChain calls calls.length p k w := by
  have h := flag_iff_chain_at calls calls.length p
  rwa [treeAt, Store.state, List.take_length] at h

/-- A process that names itself as its parent keeps its mark, but not across a removal. -/
example :
    (run step Map.empty [.register 7 1 [] true, .event (bareEvent 7 7 eventExec "ls".toList)]
      ).isPreinstallProcess 7 = true ∧
    (run step Map.empty [.register 7 1 [] true, .unregister 7,
      .event (bareEvent 7 7 eventExec "ls".toList)]).isPreinstallProcess 7 = false := by
  decide

end Host
end AarchGate
