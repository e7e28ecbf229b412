/-
# The operands of an emitted node

An operand of an arithmetic or comparison node is a field (`LOAD`), a constant
or a node with a block of 64 scratchpad words.  `opWord` is plane `b` of an
operand on the machine the code runs on; the emitted code reaches it in two
ways, through a hoisted base address (`hoist_exec`, `loadPlane_exec`) and through
`emit_load_op` with the bit number in `x21` (`emitLoadOp_exec`).
-/

import AarchGate.Jit.CacheExec

namespace AarchGate
namespace Jit

open A64 Ir

/-- Plane `b` of an operand. -/
def opWord (L : Layout) (F : ℕ → ℕ → Word) (g : ℕ → Node) (a : ℕ → Annot) (m : Machine)
    (op b : ℕ) : Word :=
  match (g op).kind with
  | .LOAD => F (a op).fieldIdx.toNat b
  | .CONST => if (g op).constValue.getLsbD b then BitVec.allOnes 64 else 0
  | _ => pad L m ((a op).slotId.toNat + b)

/-- The metadata of an operand is in range: a field of the table, or a block of
the scratchpad. -/
structure OperandOk (L : Layout) (g : ℕ → Node) (a : ℕ → Annot) (op : ℕ) : Prop where
  load : (g op).kind = .LOAD → 0 ≤ (a op).fieldIdx ∧ (a op).fieldIdx.toNat < L.numFields
  block : (g op).kind.isLeaf = false → 0 ≤ (a op).slotId ∧ (a op).slotId.toNat + 64 ≤ maxSlots

/-- `v` is the base address of the planes of an operand. -/
structure IsBase (L : Layout) (g : ℕ → Node) (a : ℕ → Annot) (op : ℕ) (v : Word) : Prop where
  load : (g op).kind = .LOAD → v = L.plane (a op).fieldIdx.toNat
  block : (g op).kind.isLeaf = false → v = wordAt L.scratch (a op).slotId.toNat

variable {L : Layout} {F : ℕ → ℕ → Word} {g : ℕ → Node} {a : ℕ → Annot} {depth : ℕ}
  {saved : ℕ → Word} {m m' : Machine} {op : ℕ}

/-- A case distinction by the sort of an operand, for a block. -/
theorem NodeKind.leaf_match {α : Type*} {k : NodeKind} (x y z : α) : k.isLeaf = false →
    (match k with
      | .LOAD => x
      | .CONST => y
      | _ => z) = z := by
  intro hk
  cases k <;> first | rfl | cases hk

/-- The plane of a `LOAD` is one of its field. -/
theorem opWord_load (hk : (g op).kind = .LOAD) (b : ℕ) :
    opWord L F g a m op b = F (a op).fieldIdx.toNat b := by rw [opWord, hk]

/-- That of a `CONST` is a bit of it in all lanes. -/
theorem opWord_const (hk : (g op).kind = .CONST) (b : ℕ) :
    opWord L F g a m op b = if (g op).constValue.getLsbD b then BitVec.allOnes 64 else 0 := by
  rw [opWord, hk]

/-- Any other is in the block of the node. -/
theorem opWord_block (hk : (g op).kind.isLeaf = false) (b : ℕ) :
    opWord L F g a m op b = pad L m ((a op).slotId.toNat + b) :=
  NodeKind.leaf_match _ _ _ hk

/-- The three sorts of operands. -/
theorem NodeKind.leaf_cases (k : NodeKind) : k = .LOAD ∨ k = .CONST ∨ k.isLeaf = false := by
  cases k <;> simp [NodeKind.isLeaf]

/-- An operand depends on the memory only. -/
theorem opWord_mem_eq (h : m'.mem = m.mem) (b : ℕ) :
    opWord L F g a m' op b = opWord L F g a m op b := by
  unfold opWord pad
  rw [h]

/-- An operand does not see what is written outside its block. -/
theorem opWord_congr {S : ℕ → Prop} (ho : OperandOk L g a op) (h : PadKeeps L S m m')
    (hS : (g op).kind.isLeaf = false → ∀ b < 64, ¬S ((a op).slotId.toNat + b)) {b : ℕ}
    (hb : b < 64) : opWord L F g a m' op b = opWord L F g a m op b := by
  rcases NodeKind.leaf_cases (g op).kind with hk | hk | hk
  · rw [opWord_load hk, opWord_load hk]
  · rw [opWord_const hk, opWord_const hk]
  · rw [opWord_block hk, opWord_block hk]
    have := (ho.block hk).2
    exact h.pad_eq (by omega) (hS hk b hb)

/-- A slot that is in range, as a natural number. -/
theorem byteOffset_toNat {s : ℤ} (hs : 0 ≤ s) : byteOffset s = BitVec.ofNat 64 (8 * s.toNat) := by
  rw [← byteOffset_natCast, Int.toNat_of_nonneg hs]

/-- The address of a block. -/
theorem hoist_block (hk : (g op).kind.isLeaf = false) (h : Gp) :
    hoist g a h op = movWide h (byteOffset (a op).slotId) ++ [.alu .add h h scratchPtr] :=
  NodeKind.leaf_match _ _ _ hk

/-- A plane of it. -/
theorem loadPlane_block (hk : (g op).kind.isLeaf = false) (reg h : Gp) (bit : ℕ) :
    loadPlane g reg h op bit = [.ldr reg (.off h (BitVec.ofNat 64 (bit * 8)))] := by
  unfold loadPlane
  split
  · rename_i h; rw [h] at hk; simp [NodeKind.isLeaf] at hk
  · rfl

/-- The plane at the index register. -/
theorem emitLoadOp_block (hk : (g op).kind.isLeaf = false) (reg : Gp) :
    emitLoadOp g a op reg = movWide scratch1 (byteOffset (a op).slotId) ++
      [.addLsl scratch1 scratch1 bitIndex 3, .ldr reg (.idx scratchPtr scratch1)] :=
  NodeKind.leaf_match _ _ _ hk

/-- **Hoisting an operand** loads its base address. -/
theorem hoist_exec (hE : Env L F depth saved m) (ho : OperandOk L g a op) {h : ℕ} (h20 : h ≠ 20) :
    ∃ v, execs (hoist g a (.x h) op) m = m.write (.x h) v ∧ IsBase L g a op v := by
  rcases NodeKind.leaf_cases (g op).kind with hk | hk | hk
  · refine ⟨L.plane (a op).fieldIdx.toNat, ?_, fun _ => rfl, fun h => by simp [hk, NodeKind.isLeaf] at h⟩
    obtain ⟨h0, hlt⟩ := ho.load hk
    rw [hoist, hk]
    simp only [execs_cons, execs_nil, exec, Mem.resolve, hE.x19, byteOffset_toNat h0]
    rw [← wordAt, hE.table _ hlt]
  · refine ⟨(g op).constValue, ?_, fun h => by simp [hk] at h, fun h => by simp [hk, NodeKind.isLeaf] at h⟩
    rw [hoist, hk]
    exact execs_movWide _ _ _
  · refine ⟨wordAt L.scratch (a op).slotId.toNat, ?_,
      fun h => by simp [h, NodeKind.isLeaf] at hk, fun _ => rfl⟩
    obtain ⟨h0, -⟩ := ho.block hk
    rw [hoist_block hk]
    simp only [execs_append, execs_movWide, execs_cons, execs_nil, exec, Alu.eval,
      Machine.read_write_x, Gp.x.injEq, Ne.symm h20, if_true, if_false, Machine.write_write]
    rw [hE.x20, byteOffset_toNat h0, BitVec.add_comm, ← wordAt]

/-- **Loading one plane of a hoisted operand.** -/
theorem loadPlane_exec (hE : Env L F depth saved m) (ho : OperandOk L g a op) {h : ℕ}
    (hbase : IsBase L g a op (m.read (.x h))) (p : ℕ) {b : ℕ} (hb : b < 64) :
    execs (loadPlane g (.x p) (.x h) op b) m =
      m.write (.x p) (opWord L F g a m op b) := by
  rcases NodeKind.leaf_cases (g op).kind with hk | hk | hk
  · obtain ⟨-, hlt⟩ := ho.load hk
    rw [loadPlane, hk, opWord_load hk]
    simp only [execs_cons, execs_nil, exec, Mem.resolve, hbase.load hk, Nat.mul_comm b 8]
    rw [← wordAt, hE.planes _ hlt b hb]
  · rw [loadPlane, hk, opWord_const hk]
    by_cases hbit : (g op).constValue.getLsbD b = true
    · simp [hbit, BitVec.allOnes]
    · simp [hbit]
  · rw [loadPlane_block hk, opWord_block hk]
    simp only [execs_cons, execs_nil, exec, Mem.resolve, hbase.block hk]
    rw [← wordAt_add, ← pad]

/-- An index register shifted by the addressing mode. -/
theorem shiftLeft_three (b : ℕ) : BitVec.ofNat 64 b <<< 3 = BitVec.ofNat 64 (8 * b) := by
  apply BitVec.eq_of_toNat_eq
  rw [BitVec.toNat_shiftLeft, BitVec.toNat_ofNat, BitVec.toNat_ofNat, Nat.shiftLeft_eq]
  omega

/-- **`emit_load_op`** delivers the plane whose number is in `x21`. -/
theorem emitLoadOp_exec (hE : Env L F depth saved m) (ho : OperandOk L g a op) {b : ℕ} (hb : b < 64)
    (hbit : m.read bitIndex = BitVec.ofNat 64 b) (p : ℕ) :
    let m' := execs (emitLoadOp g a op (.x p)) m
    m'.read (.x p) = opWord L F g a m op b ∧ m'.mem = m.mem ∧ Keeps [.x 7, .x 22, .x p] m m' := by
  have hshift := shiftLeft_three b
  intro m'
  rcases NodeKind.leaf_cases (g op).kind with hk | hk | hk
  · obtain ⟨h0, hlt⟩ := ho.load hk
    have he : m' = (m.write tempPtr (L.plane (a op).fieldIdx.toNat)).write (.x p)
        (opWord L F g a m op b) := by
      show execs (emitLoadOp g a op (.x p)) m = _
      rw [emitLoadOp, hk, opWord_load hk]
      simp only [execs_cons, execs_nil, exec, Mem.resolve, hE.x19, byteOffset_toNat h0]
      rw [← wordAt, hE.table _ hlt]
      simp only [Machine.read_write_x, Machine.mem_write, Gp.x.injEq, if_true]
      rw [if_neg (by decide), hbit, hshift, ← wordAt, hE.planes _ hlt b hb]
    rw [he]
    refine ⟨by simp, by simp, fun r hr => ?_⟩
    simp only [List.mem_cons, List.not_mem_nil, or_false, not_or] at hr
    simp [hr]
  · have he : m' = (m.write scratch1 (g op).constValue).write (.x p)
        (opWord L F g a m op b) := by
      show execs (emitLoadOp g a op (.x p)) m = _
      rw [emitLoadOp, hk, opWord_const hk]
      simp only [execs_append, execs_movWide, execs_cons, execs_nil, exec,
        Alu.eval, Machine.read_write_x, Machine.write_write, Gp.x.injEq, if_true]
      rw [if_neg (by decide), hbit]
      congr 1
      -- bit `b` of the constant, spread over the word by negation
      have hb64 : (BitVec.ofNat 64 b).toNat % 64 = b := by
        rw [BitVec.toNat_ofNat]; omega
      rw [hb64]
      have hand : (g op).constValue >>> b &&& 1 =
          if (g op).constValue.getLsbD b then (1 : Word) else 0 := by
        apply BitVec.eq_of_getLsbD_eq
        intro i hi
        rw [BitVec.getLsbD_and, BitVec.getLsbD_ushiftRight]
        by_cases hi0 : i = 0
        · subst hi0
          cases (g op).constValue.getLsbD b <;> simp
        · have h1 : (1 : Word).getLsbD i = false := by
            simp [BitVec.getLsbD_one, hi0]
          rw [h1, Bool.and_false]
          split_ifs
          · exact h1.symm
          · simp
      rw [hand]
      split_ifs
      · rfl
      · simp
    rw [he]
    refine ⟨by simp, by simp, fun r hr => ?_⟩
    simp only [List.mem_cons, List.not_mem_nil, or_false, not_or] at hr
    simp [hr]
  · obtain ⟨h0, hlt⟩ := ho.block hk
    have he : m' = (m.write scratch1 (BitVec.ofNat 64 (8 * ((a op).slotId.toNat + b)))).write (.x p)
        (opWord L F g a m op b) := by
      show execs (emitLoadOp g a op (.x p)) m = _
      rw [emitLoadOp_block hk, opWord_block hk]
      simp only [execs_append, execs_movWide, execs_cons, execs_nil, exec, Mem.resolve,
        Machine.read_write_x, Machine.write_write, Machine.mem_write, Gp.x.injEq, if_true]
      rw [if_neg (by decide), if_neg (by decide), hbit, hshift, byteOffset_toNat h0,
        ← BitVec.ofNat_add, ← Nat.mul_add, hE.x20, ← wordAt, ← pad]
    rw [he]
    refine ⟨by simp, by simp, fun r hr => ?_⟩
    simp only [List.mem_cons, List.not_mem_nil, or_false, not_or] at hr
    simp [hr]

end Jit
end AarchGate
