/-
# Indices in range, in both compilers

`compile_scalar_expression` numbers the fields and hands out slots without a limit: the 129th
field gets number 128, and when the scratchpad is full `alloc_slot` returns -1, which the
emission turns into the byte offset -8.  The root comes last and the slot of the root is not
read, so it takes one node more than there are words, and one above it, to see it.

`allocation_in_range_iff` says for both compilers exactly which expressions keep all indices
in range.
-/

import AarchGate.Jit.Bounds
import AarchGate.Jit.Coverage
import AarchGate.Jit.ScalarCorrect

namespace AarchGate
namespace Jit

open A64 Ir

/-! ### Code that computes with no address of the scratchpad -/

/-- The pointer to the scratchpad is in `x1` and `x20` only, and unchanged there. -/
def PointerKept (o : Origins) : Prop :=
  ∀ r, (o.read r).fromBase = true → o.read r = .ptr 0 ∧ (r = .x 1 ∨ r = scratchPtr)

/-- An instruction keeps it so and stays within the scratchpad. -/
def KeepsPointer (i : Instr) : Prop :=
  ∀ o, PointerKept o → PointerKept (i.flow o) ∧ ∀ x ∈ i.touched o, x.Within PadOffset

/-- No other register comes from the pointer. -/
theorem PointerKept.other {o : Origins} (h : PointerKept o) {r : Gp} (h1 : r ≠ .x 1)
    (h20 : r ≠ scratchPtr) : (o.read r).fromBase = false := by
  by_contra hb
  exact (h r (by simpa using hb)).2.elim h1 h20

/-- Code that keeps the pointer. -/
theorem PointerKept.of_spreads {o o' : Origins} (h : PointerKept o) (hs : Spreads o o') :
    PointerKept o' := by
  intro r hr
  rcases hs r with heq | hfree
  · rw [heq] at hr ⊢
    exact h r hr
  · rw [hfree] at hr
    cases hr

/-- An instruction that reads neither of the two registers. -/
theorem keeps_of_sources {i : Instr} (h : .x 1 ∉ i.sources ∧ scratchPtr ∉ i.sources) : KeepsPointer i := by
  intro o ho
  obtain ⟨hflow, htouch⟩ := Instr.spreads (o := o) (i := i) fun r hr =>
    ho.other (fun he => h.1 (he ▸ hr)) fun he => h.2 (he ▸ hr)
  exact ⟨ho.of_spreads hflow, fun x hx => Origin.within_of_fromBase (htouch x hx)⟩

/-- A word of the scratchpad at a fixed offset. -/
theorem within_off {o : Origins} (ho : PointerKept o) {off : Word} (h : PadOffset off) :
    (Mem.origin o (.off scratchPtr off)).Within PadOffset := by
  cases hb : (o.read scratchPtr).fromBase with
  | true => simpa [Mem.origin, (ho _ hb).1, Origin.add, Origin.Within] using h
  | false => exact Origin.within_of_fromBase (by simp [Mem.origin, hb])

/-- A load from the scratchpad. -/
theorem keeps_load {off : Word} (h : PadOffset off) (r : Gp) :
    KeepsPointer (.ldr r (.off scratchPtr off)) := fun o ho =>
  ⟨ho.of_spreads ((Spreads.refl o).write r rfl), fun x hx => by
    obtain rfl := List.mem_singleton.1 hx
    exact within_off ho h⟩

/-- A store to it. -/
theorem keeps_store {off : Word} (h : PadOffset off) (r : Gp) :
    KeepsPointer (.str r (.off scratchPtr off)) := fun o ho =>
  ⟨ho, fun x hx => by
    obtain rfl := List.mem_singleton.1 hx
    exact within_off ho h⟩

/-- `mov(scratchpad_ptr, x1)`. -/
theorem keeps_pointer : KeepsPointer (.mov scratchPtr (.x 1)) := by
  intro o ho
  refine ⟨fun r hr => ?_, fun x hx => absurd hx List.not_mem_nil⟩
  rw [Instr.flow, Origins.read_write_x] at hr ⊢
  split_ifs at hr ⊢ with h20
  · exact ⟨(ho _ hr).1, .inr h20⟩
  · exact ho r hr

/-! ### The scalar kernel -/

section Scalar

variable {g : ℕ → Node} {a : ℕ → Annot}

/-- The slot of an operand lies in the scratchpad. -/
def SlotFits (g : ℕ → Node) (a : ℕ → Annot) (o : ℕ) : Prop :=
  (g o).kind.isLeaf = false → PadOffset (byteOffset (a o).slotId)

/-- `getOperand` keeps the pointer. -/
theorem getOperand_keeps {op : Option ℕ} (hfits : ∀ o, op = some o → SlotFits g a o) (n : ℕ)
    (hn : n ≠ 1 ∧ n ≠ 20) : ∀ i ∈ getOperand g a op (.x n), KeepsPointer i := by
  cases op with
  | none => exact fun i hi => absurd hi List.not_mem_nil
  | some o =>
    rcases NodeKind.leaf_cases (g o).kind with hk | hk | hk
    · simp only [getOperand, hk, List.mem_cons, List.not_mem_nil, or_false, forall_eq_or_imp,
        forall_eq]
      exact ⟨keeps_of_sources (by simp [Instr.sources, Mem.sources]),
        keeps_of_sources (by simp [Instr.sources, Mem.sources])⟩
    · simp only [getOperand, hk, movWide, List.mem_cons, List.not_mem_nil, or_false, forall_eq_or_imp,
        forall_eq]
      refine ⟨keeps_of_sources ?_, keeps_of_sources ?_, keeps_of_sources ?_, keeps_of_sources ?_⟩ <;>
        simp [Instr.sources, hn.1.symm, hn.2.symm]
    · rw [getOperand_slot hk]
      intro i hi
      obtain rfl := List.mem_singleton.1 hi
      exact keeps_load (hfits o rfl hk) _

/-- So does the operator. -/
theorem scalarOp_keeps {n : ℕ} (hcond : ∀ i, (g n).cond = some i → PadOffset (byteOffset (a i).slotId))
    {op : List Instr} (hop : scalarOp g a n = .ok op) : ∀ i ∈ op, KeepsPointer i := by
  rcases scalarOp_cases hop with ⟨o, rfl⟩ | ⟨c, rfl⟩ | rfl | ⟨i, hi, rfl⟩
  · simpa using keeps_of_sources (by simp [Instr.sources])
  · simpa [scalarCompare] using ⟨keeps_of_sources (by simp [Instr.sources]),
      keeps_of_sources (by simp [Instr.sources])⟩
  · simp
  · simpa using ⟨keeps_load (hcond i hi) _, keeps_of_sources (by simp [Instr.sources]),
      keeps_of_sources (by simp [Instr.sources])⟩

/-- The slots a node reads lie in the scratchpad, and so does its own if it has one. -/
structure ReadsFit (g : ℕ → Node) (a : ℕ → Annot) (n : ℕ) : Prop where
  left : ∀ o, (g n).left = some o → SlotFits g a o
  right : ∀ o, (g n).right = some o → SlotFits g a o
  cond : ∀ o, (g n).cond = some o → PadOffset (byteOffset (a o).slotId)
  own : 0 ≤ (a n).slotId → PadOffset (byteOffset (a n).slotId)

/-- And so the code of a node. -/
theorem scalarNode_keeps {n : ℕ} (h : ReadsFit g a n) {code : List Instr}
    (hn : scalarNode g a n = .ok code) : ∀ i ∈ code, KeepsPointer i := by
  obtain ⟨op, hop, hn⟩ := bind_ok hn
  obtain rfl := Except.ok.inj hn
  simp only [List.forall_mem_append]
  refine ⟨⟨⟨getOperand_keeps h.left 16 (by decide), getOperand_keeps h.right 17 (by decide)⟩,
    scalarOp_keeps h.cond hop⟩, fun i hi => ?_⟩
  split_ifs at hi with h0
  · obtain rfl := List.mem_singleton.1 hi
    exact keeps_store (h.own h0) _
  · exact absurd hi List.not_mem_nil

/-- And that of all of them. -/
theorem scalarNodes_keeps {ns : List ℕ} (h : ∀ n ∈ ns, ReadsFit g a n) :
    ∀ {code : List Instr}, scalarNodes g a ns = .ok code → ∀ i ∈ code, KeepsPointer i := by
  induction ns with
  | nil =>
    intro code hc
    obtain rfl := Except.ok.inj hc
    exact fun i hi => absurd hi List.not_mem_nil
  | cons n ns ih =>
    intro code hc
    obtain ⟨c, hn, hc⟩ := bind_ok hc
    obtain ⟨rest, hrest, hc⟩ := bind_ok hc
    obtain rfl := Except.ok.inj hc
    exact List.forall_mem_append.2 ⟨scalarNode_keeps (h n (List.mem_cons_self ..)) hn,
      ih (fun x hx => h x (List.mem_cons_of_mem _ hx)) hrest⟩

/-- What stands around the code of the nodes reads `x1` once, to copy it. -/
theorem scalarFrame_keeps : ∀ i ∈ scalarPrologue ++ scalarHead ++ [.bcond .hs 1] ++ scalarTail ++ [.b 0] ++
    scalarEpilogue ++ [.ret (.x 30)], KeepsPointer i := by
  intro i hi
  have hsources : i = .mov scratchPtr (.x 1) ∨ .x 1 ∉ i.sources ∧ scratchPtr ∉ i.sources := by
    revert i
    decide
  rcases hsources with rfl | h
  · exact keeps_pointer
  · exact keeps_of_sources h

/-- On entry. -/
theorem pointerKept_entry : PointerKept (.entry (.x 1)) := by
  intro r hr
  unfold Origins.read Origins.entry at hr ⊢
  split_ifs at hr ⊢ with hz h1
  · cases hr
  · exact ⟨rfl, .inl h1⟩
  · cases hr

/-- **A scalar kernel stays within the scratchpad** if its nodes read slots that lie there. -/
theorem scalarKernel_confined {ns : List ℕ} (h : ∀ n ∈ ns, ReadsFit g a n) {body : List Instr}
    (hbody : scalarNodes g a ns = .ok body) : ConfinedTo PadOffset (.x 1) (scalarKernel body) := by
  refine confinedTo_of_invariant pointerKept_entry fun i hi => ?_
  have hnodes := scalarNodes_keeps h hbody
  have hframe := scalarFrame_keeps
  rw [scalarKernel] at hi
  simp only [List.mem_append] at hi hframe
  by_cases hb : i ∈ body
  · exact hnodes i hb
  · exact hframe i (by tauto)

/-! ### A slot that is missing -/

/-- A node does not write `scratchPtr`. -/
theorem scalarNode_dest {n : ℕ} {code : List Instr} (hn : scalarNode g a n = .ok code) :
    ∀ i ∈ code, scratchPtr ∉ i.dest := by
  have hget : ∀ op p, p ≠ 20 → ∀ i ∈ getOperand g a op (.x p), scratchPtr ∉ i.dest := by
    intro op p hp
    cases op with
    | none => exact fun i hi => absurd hi List.not_mem_nil
    | some o =>
      rcases NodeKind.leaf_cases (g o).kind with hk | hk | hk
      · simp [getOperand, hk, Instr.dest, Mem.dest, hp.symm]
      · simp [getOperand, hk, movWide, Instr.dest, hp.symm]
      · simp [getOperand_slot hk, Instr.dest, Mem.dest, hp.symm]
  obtain ⟨op, hop, hn⟩ := bind_ok hn
  have hopdest : ∀ i ∈ op, scratchPtr ∉ i.dest := by
    rcases scalarOp_cases hop with ⟨o, rfl⟩ | ⟨c, rfl⟩ | rfl | ⟨i, -, rfl⟩ <;>
      simp [scalarCompare, Instr.dest, Mem.dest]
  obtain rfl := Except.ok.inj hn
  simp only [List.forall_mem_append]
  refine ⟨⟨⟨hget _ 16 (by decide), hget _ 17 (by decide)⟩, hopdest⟩, ?_⟩
  split_ifs <;> simp [Instr.dest, Mem.dest]

/-- Nor do all of them. -/
theorem scalarNodes_dest {ns : List ℕ} :
    ∀ {code : List Instr}, scalarNodes g a ns = .ok code → ∀ i ∈ code, scratchPtr ∉ i.dest := by
  induction ns with
  | nil =>
    intro code hc
    obtain rfl := Except.ok.inj hc
    exact fun i hi => absurd hi List.not_mem_nil
  | cons n ns ih =>
    intro code hc
    obtain ⟨c, hn, hc⟩ := bind_ok hc
    obtain ⟨rest, hrest, hc⟩ := bind_ok hc
    obtain rfl := Except.ok.inj hc
    exact List.forall_mem_append.2 ⟨scalarNode_dest hn, ih hrest⟩

/-- The operands of a node that are no leaves are loaded from their slots. -/
theorem scalarNode_reads {n o : ℕ} (hleaf : (g o).kind.isLeaf = false)
    (hread : (g n).left = some o ∨ (g n).right = some o ∨ (g n).kind = .SELECT ∧ (g n).cond = some o)
    {code : List Instr} (hn : scalarNode g a n = .ok code) :
    ∃ r, .ldr r (.off scratchPtr (byteOffset (a o).slotId)) ∈ code := by
  obtain ⟨op, hop, hn⟩ := bind_ok hn
  obtain rfl := Except.ok.inj hn
  rcases hread with hl | hr | ⟨hk, hc⟩
  · exact ⟨valLeft, by simp [hl, getOperand_slot hleaf]⟩
  · exact ⟨valRight, by simp [hr, getOperand_slot hleaf]⟩
  · rw [scalarOp, hk, hc] at hop
    obtain rfl := Except.ok.inj hop
    exact ⟨tempReg, by simp⟩

/-- The code of a node is in that of all. -/
theorem scalarNodes_mem {ns : List ℕ} : ∀ {code : List Instr}, scalarNodes g a ns = .ok code →
    ∀ n ∈ ns, ∃ c, scalarNode g a n = .ok c ∧ ∀ i ∈ c, i ∈ code := by
  induction ns with
  | nil => exact fun _ n hn => absurd hn List.not_mem_nil
  | cons n' ns ih =>
    intro code hc n hn
    obtain ⟨c, hn', hc⟩ := bind_ok hc
    obtain ⟨rest, hrest, hc⟩ := bind_ok hc
    obtain rfl := Except.ok.inj hc
    rcases List.mem_cons.1 hn with rfl | hn
    · exact ⟨c, hn', fun i hi => List.mem_append_left _ hi⟩
    · obtain ⟨c', hc', hsub⟩ := ih hrest n hn
      exact ⟨c', hc', fun i hi => List.mem_append_right _ (hsub i hi)⟩

/-- **A kernel that loads from word -1 leaves the scratchpad**, in its first row. -/
theorem scalarKernel_not_confined {body : List Instr} (hstraight : Straight body)
    (hdest : ∀ i ∈ body, scratchPtr ∉ i.dest) {r : Gp}
    (hload : .ldr r (.off scratchPtr (byteOffset (-1))) ∈ body) :
    ¬ConfinedTo PadOffset (.x 1) (scalarKernel body) := by
  obtain ⟨c₁, c₂, rfl⟩ := List.append_of_mem hload
  let m : Machine := ⟨fun _ => 0, ⟨false, false, false, false⟩, fun _ => 0⟩
  let front := scalarPrologue ++ scalarHead
  let rest := c₂ ++ scalarTail ++ [.b 0] ++ scalarEpilogue ++ [.ret (.x 30)]
  have hcode : scalarKernel (c₁ ++ .ldr r (.off scratchPtr (byteOffset (-1))) :: c₂) =
      (front ++ [.bcond .hs 1]) ++ c₁ ++ (.ldr r (.off scratchPtr (byteOffset (-1))) :: rest) := by
    simp [scalarKernel, front, rest]
  have hfront : Straight front := by
    simp [front, scalarPrologue, scalarHead, pushPair, Instr.branches]
  -- the test of row 0 does not end the loop
  have htest : Cond.hs.holds (execs front m).flags = false := by rfl
  have h₁ := reaches_block [] front _ (hcode.trans (by rw [List.append_assoc, List.append_assoc]; rfl))
    hfront m (.entry (.x 1))
  have h₂ := reaches_block _ c₁ _ hcode (straight_append.1 hstraight).1 (execs front m)
    (flows front (.entry (.x 1)))
  have hbr : (scalarKernel (c₁ ++ .ldr r (.off scratchPtr (byteOffset (-1))) :: c₂))[front.length]? =
      some (.bcond .hs 1) := by
    rw [hcode]
    simp
  rw [List.length_append, List.length_singleton] at h₂
  have hreach := (h₁.tail (.untaken hbr htest)).trans h₂
  have hptr : (flows c₁ (flows front (.entry (.x 1)))).read scratchPtr = .ptr 0 := by
    rw [flows_read fun i hi => hdest i (List.mem_append_left _ hi)]
    rfl
  refine not_confinedTo hreach (i := .ldr r (.off scratchPtr (byteOffset (-1)))) ?_
    (c := byteOffset (-1)) ?_ not_padOffset_neg
  · rw [hcode]
    simp
  · simp [Instr.touched, Mem.origin, hptr, Origin.add]

end Scalar

/-! ### The indices of the two compilers -/

/-- The indices of `compile_expression` are in range: the carry registers and field numbers of
the nodes, and the words of the scratchpad the kernel loads and stores. -/
structure SlicedInRange (rt : List Instr → Bool) (g : ℕ → Node) (a₀ : ℕ → Annot) (root : ℕ) :
    Prop where
  carry : ∀ n, Reach g root n → isAddSub (g n).kind = true →
    0 ≤ ((compileExpression rt g a₀ root 64).1 n).carryReg ∧
      ((compileExpression rt g a₀ root 64).1 n).carryReg < 6
  field : ∀ n, Reach g root n → (g n).kind = .LOAD →
    0 ≤ ((compileExpression rt g a₀ root 64).1 n).fieldIdx ∧
      ((compileExpression rt g a₀ root 64).1 n).fieldIdx < 128
  words : ∀ code, (compileExpression rt g a₀ root 64).2 = .ok code → ConfinedTo PadOffset (.x 1) code

/-- The indices of `compile_scalar_expression`, which uses no carry registers. -/
structure ScalarInRange (rt : List Instr → Bool) (g : ℕ → Node) (a₀ : ℕ → Annot) (root : ℕ) :
    Prop where
  field : ∀ n, Reach g root n → (g n).kind = .LOAD →
    0 ≤ ((compileScalarExpression rt g a₀ root).1 n).fieldIdx ∧
      ((compileScalarExpression rt g a₀ root).1 n).fieldIdx < 128
  words : ∀ code, (compileScalarExpression rt g a₀ root).2 = .ok code →
    ConfinedTo PadOffset (.x 1) code

section Slots

variable {g : ℕ → Node} {a₀ a : ℕ → Annot} {root n : ℕ} {nodes : List ℕ}

/-- The nodes that need a slot, in the order they are given one. -/
abbrev needSlot (g : ℕ → Node) (nodes : List ℕ) : List ℕ := nodes.filter fun n => !(g n).kind.isLeaf

/-- The nodes that need a slot. -/
theorem ScalarPasses.mem_needSlot (hp : ScalarPasses g a₀ root a nodes) :
    n ∈ needSlot g nodes ↔ Reach g root n ∧ (g n).kind.isLeaf = false := by
  rw [List.mem_filter, hp.mem_iff, Bool.not_eq_true']

/-- Each of them once. -/
theorem ScalarPasses.nodup_needSlot (hp : ScalarPasses g a₀ root a nodes) :
    (needSlot g nodes).Nodup := hp.post.nodup.filter _

/-- As many as there are compound nodes. -/
theorem ScalarPasses.atMostCompound_iff (hp : ScalarPasses g a₀ root a nodes) {k : ℕ} :
    AtMostCompound g root k ↔ (needSlot g nodes).length ≤ k := by
  refine ⟨fun h => h _ hp.nodup_needSlot fun n hn => hp.mem_needSlot.1 hn, fun h ns hnd hns => ?_⟩
  exact (List.Nodup.length_le_of_subset hnd fun n hn => hp.mem_needSlot.2 (hns n hn)).trans h

/-- The root is given its slot last. -/
theorem ScalarPasses.idxOf_root (hp : ScalarPasses g a₀ root a nodes)
    (hleaf : (g root).kind.isLeaf = false) (hn : n ∈ needSlot g nodes) :
    (needSlot g nodes).idxOf n + 1 < (needSlot g nodes).length ↔ n ≠ root := by
  obtain ⟨t, ht⟩ := hp.last
  have hnd : (t ++ [root]).Nodup := ht ▸ hp.post.nodup
  have hsplit : needSlot g nodes = needSlot g t ++ [root] := by
    rw [ht, needSlot, List.filter_append, List.filter_singleton, hleaf]
    rfl
  have hroot : root ∉ needSlot g t := fun h =>
    (List.nodup_append.1 hnd).2.2 root (List.mem_of_mem_filter h) root (List.mem_singleton_self _) rfl
  rw [hsplit] at hn ⊢
  rw [List.length_append, List.length_singleton]
  constructor
  · rintro hlt rfl
    rw [List.idxOf_append_of_notMem hroot] at hlt
    omega
  · intro hne
    have hmem : n ∈ needSlot g t := (List.mem_append.1 hn).resolve_right fun h =>
      hne (List.mem_singleton.1 h)
    rw [List.idxOf_append_of_mem hmem]
    exact Nat.succ_lt_succ (List.idxOf_lt_length_of_mem hmem)

/-- A slot that was given is in the scratchpad. -/
theorem scalarSlot_nonneg {j : ℕ} (h : 0 ≤ scalarSlot j) : PadOffset (byteOffset (scalarSlot j)) := by
  unfold scalarSlot at h ⊢
  split_ifs at h ⊢ with hj
  · exact padOffset_slot h (by exact_mod_cast hj)
  · omega

/-- **With a node too many** there is one below the root that has no word. -/
theorem ScalarPasses.exists_no_slot (hp : ScalarPasses g a₀ root a nodes)
    (hlen : maxSlots + 1 < (needSlot g nodes).length) :
    ∃ n, Reach g root n ∧ n ≠ root ∧ (g n).kind.isLeaf = false ∧ (a n).slotId = -1 := by
  have hlt : maxSlots < (needSlot g nodes).length := by omega
  have hmem : (needSlot g nodes)[maxSlots] ∈ needSlot g nodes := List.getElem_mem hlt
  have hidx := hp.nodup_needSlot.idxOf_getElem maxSlots hlt
  obtain ⟨hreach, hleaf⟩ := hp.mem_needSlot.1 hmem
  refine ⟨_, hreach, fun hroot => ?_, hleaf, ?_⟩
  · rw [hroot] at hleaf hmem hidx
    have := mt (hp.idxOf_root hleaf hmem).1 (not_not.2 rfl)
    omega
  · rw [hp.slot _ ((hp.mem_iff _).2 hreach) hleaf, hidx]
    rfl

/-- … and otherwise every node below the root has one. -/
theorem ScalarPasses.slotFits (hp : ScalarPasses g a₀ root a nodes)
    (hlen : (needSlot g nodes).length ≤ maxSlots + 1) (hroot : (g root).kind.isLeaf = false)
    (hn : Reach g root n) (hne : n ≠ root) : SlotFits g a n := by
  intro hleaf
  have hlast := (hp.idxOf_root hroot (hp.mem_needSlot.2 ⟨hn, hleaf⟩)).2 hne
  have hlt : (needSlot g nodes).idxOf n < maxSlots := by omega
  rw [hp.slot n ((hp.mem_iff n).2 hn) hleaf]
  refine scalarSlot_nonneg ?_
  rw [scalarSlot, if_pos hlt]
  exact Int.natCast_nonneg _

end Slots

section Range

variable {P : NodePool} (hP : Built P) {rt : List Instr → Bool} {t : Ty} {e : Expr t} {root : ℕ}
  (hroot : root < P.nextIdx) (hfresh : Fresh P root)

include hP hroot hfresh

/-- The seventh `ADD` or `SUB` has no carry register. -/
theorem carry_iff {a : ℕ → Annot} {nodes : List ℕ}
    (hprep : prepare P.storage P.annot root = (a, .ok nodes)) :
    (∀ n, Reach P.storage root n → isAddSub (P.storage n).kind = true →
      0 ≤ (a n).carryReg ∧ (a n).carryReg < 6) ↔ AtMostSix P.storage root isAddSub := by
  have hp := prepare_spec hP hroot hprep
  constructor
  · intro h ns hnd hns
    by_contra hlen
    obtain ⟨n, hn, hadd, -, hreg⟩ := hp.exists_no_carry (fun _ => true) hnd
      (fun n hn => ⟨(hns n hn).1, (hns n hn).2, rfl⟩) (by omega)
    have hnone : (P.annot n).carryReg = -1 := by rw [hfresh n hn]
    have := (h n hn hadd).1
    omega
  · intro hsix n hn hadd
    obtain ⟨c, hc, hreg⟩ := hp.carry_of_six (fun ns hnd hns => hsix ns hnd fun n hn =>
      ⟨(hns n hn).1, (hns n hn).2.1⟩) ((hp.mem_iff n).2 hn) (fun _ => hfresh.skipJit hn) hadd
    omega

omit hfresh in
/-- The field numbers are below 128 if there are at most 128 fields. -/
theorem scalar_field_iff {a : ℕ → Annot} {nodes : List ℕ}
    (hp : ScalarPasses P.storage P.annot root a nodes) :
    (∀ n, Reach P.storage root n → (P.storage n).kind = .LOAD →
      0 ≤ (a n).fieldIdx ∧ (a n).fieldIdx < 128) ↔ (fieldOrder P.storage root).length ≤ 128 := by
  obtain ⟨names, hnd, hmem, hidx⟩ := hp.names
  have hlen : names.length = (fieldOrder P.storage root).length :=
    length_eq_fieldOrder hP hroot hnd fun f => by simp only [hmem, hp.mem_iff]
  rw [← hlen]
  constructor
  · intro h
    by_contra hlt
    -- the load of the field with number 128
    have h128 : 128 < names.length := by omega
    obtain ⟨n, hn, hk, hf⟩ := (hmem _).1 (List.getElem_mem h128)
    have hlt := (h n ((hp.mem_iff n).1 hn) hk).2
    rw [hidx n hn hk, hf, hnd.idxOf_getElem] at hlt
    omega
  · intro h n hn hk
    have hn := (hp.mem_iff n).2 hn
    have hlt := List.idxOf_lt_length_of_mem ((hmem _).2 ⟨n, hn, hk, rfl⟩)
    rw [hidx n hn hk]
    omega

variable (he : Represents P.storage e root)

include he

/-- **The bit-sliced compiler.** -/
theorem slicedInRange_iff
    (hkernel : (compileExpression rt P.storage P.annot root 64).2 ≠ .error .nullptr) :
    SlicedInRange rt P.storage P.annot root ↔
      e.compound = true ∧ AtMostSix P.storage root isAddSub := by
  have hsorted : ∀ n, Reach P.storage root n → (P.annot n).skipJit = false → Sorted P.storage n :=
    fun n hn _ => sorted_of_reach he hn
  cases hprep : prepare P.storage P.annot root with
  | mk a res =>
    cases res with
    | error f => exact absurd (by simp only [compileExpression, hprep, prepare_error hprep]) hkernel
    | ok nodes =>
      have hp := prepare_spec hP hroot hprep
      have hfst : (compileExpression rt P.storage P.annot root 64).1 = a := by
        simp only [compileExpression, hprep]
      have hcomp : ∀ code, (compileExpression rt P.storage P.annot root 64).2 = .ok code →
          compileExpression rt P.storage P.annot root 64 = (a, .ok code) := fun code hcode =>
        Prod.ext hfst hcode
      constructor
      · intro h
        have hsix := (carry_iff hP hroot hfresh hprep).1 (by simpa only [hfst] using h.carry)
        refine ⟨?_, hsix⟩
        by_contra hc
        have hleaf : (P.storage root).kind.isLeaf = true := by rw [he.isLeaf]; simpa using hc
        obtain ⟨body, hbody⟩ := emit_isOk hP hroot hprep hsorted (fun ns hnd hns =>
          hsix ns hnd fun n hn => ⟨(hns n hn).1, (hns n hn).2.1⟩) 64
        have hcode : ∃ code, (compileExpression rt P.storage P.annot root 64).2 = .ok code := by
          simp only [compileExpression, hprep, hbody, bind, Except.bind] at hkernel ⊢
          split_ifs at hkernel ⊢ with hrt
          · exact ⟨_, rfl⟩
          · exact absurd rfl hkernel
        obtain ⟨code, hcode⟩ := hcode
        exact compile_leaf_not_confined hP hroot (Nat.le_refl _) (hcomp code hcode) hP.eqSlotId hsorted
          hleaf (hfresh.skipJit (Reach.refl _ _)) (hfresh.slotId (Reach.refl _ _)) (h.words code hcode)
      · rintro ⟨hc, hsix⟩
        refine ⟨?_, fun n hn hk => ?_, fun code hcode => ?_⟩
        · simpa only [hfst] using (carry_iff hP hroot hfresh hprep).2 hsix
        · have hmem := (hp.mem_iff n).2 hn
          have h0 := hp.fieldIdx_nonneg hmem hk
          have hlt := hp.fieldIdx_lt hmem hk
          rw [hfst]
          omega
        · exact compile_confined hP hroot (Nat.le_refl _) (hcomp code hcode) hP.eqSlotId hsorted
            (by rw [he.isLeaf, hc]; rfl)

omit hroot in
/-- **The scalar compiler**: there has to be a word for every node below the root. -/
theorem scalar_words_iff {a : ℕ → Annot} {nodes : List ℕ}
    (hp : ScalarPasses P.storage P.annot root a nodes) {body : List Instr}
    (hbody : scalarNodes P.storage a nodes = .ok body) :
    ConfinedTo PadOffset (.x 1) (scalarKernel body) ↔
      AtMostCompound P.storage root (maxSlots + 1) := by
  rw [hp.atMostCompound_iff]
  constructor
  · intro hconf
    by_contra hlen
    obtain ⟨n, hreach, hne, hleaf, hslot⟩ := hp.exists_no_slot (Nat.lt_of_not_le hlen)
    -- its parent reads it
    obtain ⟨p, hrp, hnp⟩ := hreach.cases_tail.resolve_left hne
    obtain ⟨s, d, hd, -⟩ := he.reach hrp
    obtain ⟨c, hc, hsub⟩ := scalarNodes_mem hbody p ((hp.mem_iff p).2 hrp)
    obtain ⟨r, hr⟩ := scalarNode_reads hleaf (hd.child_cases hnp) hc
    rw [hslot] at hr
    exact scalarKernel_not_confined (scalarNodes_plain hbody).1 (scalarNodes_dest hbody) (hsub _ hr) hconf
  · intro hlen
    refine scalarKernel_confined (fun n hn => ?_) hbody
    have hreach := (hp.mem_iff n).1 hn
    have hfits : ∀ c ∈ (P.storage n).children, SlotFits P.storage a c := by
      intro c hc
      have hne : c ≠ root := by
        have := (hP.ordered.2 n c hc).1
        have := hP.reach_le hreach
        omega
      exact hp.slotFits hlen (he.not_isLeaf_of_reach hreach hc) (hreach.child hc) hne
    refine ⟨fun o ho => hfits o (left_mem_children ho), fun o ho => hfits o (right_mem_children ho),
      fun o ho => hfits o (cond_mem_children ho) ?_, fun h0 => ?_⟩
    · obtain ⟨s, d, hd, -⟩ := he.reach hreach
      exact hd.cond_not_leaf ho
    · cases hleaf : (P.storage n).kind.isLeaf with
      | true =>
        rw [hp.leaf n hleaf, hfresh.slotId hreach] at h0
        omega
      | false =>
        rw [hp.slot n hn hleaf] at h0 ⊢
        exact scalarSlot_nonneg h0

/-- **The scalar compiler.** -/
theorem scalarInRange_iff
    (hkernel : (compileScalarExpression rt P.storage P.annot root).2 ≠ .error .nullptr) :
    ScalarInRange rt P.storage P.annot root ↔
      (fieldOrder P.storage root).length ≤ 128 ∧ AtMostCompound P.storage root (maxSlots + 1) := by
  have hp := prepareScalar_passes hP P.annot hroot
  obtain ⟨body, hbody⟩ := scalarNodes_isOk (prepareScalar P.storage P.annot root).1
    (prepareScalar P.storage P.annot root).2 fun n hn => by
      obtain ⟨s, d, hd, -⟩ := he.reach ((hp.mem_iff n).1 hn)
      exact ⟨s, d, hd⟩
  have hcode : (compileScalarExpression rt P.storage P.annot root).2 = .ok (scalarKernel body) := by
    simp only [compileScalarExpression, hbody, bind, Except.bind] at hkernel ⊢
    split_ifs at hkernel ⊢ with hrt
    · rfl
    · exact absurd rfl hkernel
  rw [← scalar_field_iff hP hroot hp, ← scalar_words_iff hP hfresh he hp hbody]
  refine ⟨fun h => ⟨h.field, h.words _ hcode⟩, fun h => ⟨h.1, fun code hc => ?_⟩⟩
  rw [hcode] at hc
  exact Except.ok.inj hc ▸ h.2

end Range

/-- **Indices in range.**  For every well-typed expression on fresh nodes, a bare field or
constant included: the indices of the bit-sliced compiler are in range exactly if the root is
compound and at most six nodes are `ADD` or `SUB`; those of the scalar compiler exactly if there
are at most 128 fields and no more compound nodes than words, the root apart. -/
theorem allocation_in_range_iff {P : NodePool} (hP : Built P) {t : Ty} {e : Expr t} {root : ℕ}
    (he : Represents P.storage e root) (hroot : root < P.nextIdx) (hfresh : Fresh P root)
    (rt : List Instr → Bool) :
    ((compileExpression rt P.storage P.annot root 64).2 ≠ .error .nullptr →
      (SlicedInRange rt P.storage P.annot root ↔
        e.compound = true ∧ AtMostSix P.storage root isAddSub)) ∧
    ((compileScalarExpression rt P.storage P.annot root).2 ≠ .error .nullptr →
      (ScalarInRange rt P.storage P.annot root ↔
        (fieldOrder P.storage root).length ≤ 128 ∧
          AtMostCompound P.storage root (maxSlots + 1))) :=
  ⟨slicedInRange_iff hP hroot hfresh he, scalarInRange_iff hP hroot hfresh he⟩

/-- `a > 5`, with both compilers. -/
theorem allocation_in_range_gt :
    SlicedInRange (fun _ => true) gtPool.storage gtPool.annot 2 ∧
      ScalarInRange (fun _ => true) gtPool.storage gtPool.annot 2 := by
  obtain ⟨hsliced, hscalar⟩ := allocation_in_range_iff gtPool_built gtPool_represents (by decide)
    gtPool_fresh fun _ => true
  refine ⟨(hsliced ?_).2 ⟨rfl, .of_all gtPool_represents rfl⟩, (hscalar ?_).2 ⟨by decide, ?_⟩⟩
  · have hok : (compileExpression (fun _ => true) gtPool.storage gtPool.annot 2 64).2.isOk = true := by
      decide
    intro h
    rw [h] at hok
    cases hok
  · have hok : (compileScalarExpression (fun _ => true) gtPool.storage gtPool.annot 2).2.isOk =
        true := by decide
    intro h
    rw [h] at hok
    cases hok
  · exact .of_nextIdx gtPool_built (by decide) (by decide)

/-- The pool of `Load("a")`. -/
def loadPool : NodePool := (Expr.load ['a']).pool

/-- **A bare field**: `compile_expression` returns a kernel that loads word -1 of the scratchpad. -/
theorem bare_load_out_of_range :
    (compileExpression (fun _ => true) loadPool.storage loadPool.annot 0 64).2.isOk = true ∧
      ¬SlicedInRange (fun _ => true) loadPool.storage loadPool.annot 0 := by
  have hpool : Pristine loadPool := Expr.pool_pristine _ (by decide)
  have he : Represents loadPool.storage (.load ['a']) 0 :=
    (Expr.pool_stands _ (by decide) (by decide)).represents
  have hok : (compileExpression (fun _ => true) loadPool.storage loadPool.annot 0 64).2.isOk = true := by
    decide
  refine ⟨hok, fun h => ?_⟩
  have hc := ((slicedInRange_iff hpool.built (by decide) (hpool.fresh 0) he fun h => by
    rw [h] at hok; cases hok).1 h).1
  cases hc

end Jit
end AarchGate
