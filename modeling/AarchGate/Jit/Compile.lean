/-
# The bit-sliced expression compiler

`JitCompiler::compile_expression` in `src/jit/compiler.cpp`.  After analysis,
field numbering and slot allocation, the nodes are emitted in post-order: a
ripple-carry adder for `ADD` and `SUB`, a comparator from the top bit down for
the comparisons, one logical instruction for `AND`, `OR` and `NOT`, and a
multiplexer for `SELECT`.  Masks go through the register cache, bit-planes
straight to their block.

A compilation may fail in two ways: the function returns a null pointer, or it
runs into behaviour C++ leaves undefined, an index outside `carry_regs` or the
dereference of a null operand (`Fault`).  `JitRuntime::add`, which places the
code in executable memory, is the parameter `rt`.  The metadata written to the
nodes stays there when the compilation fails.
-/

import AarchGate.A64.Run
import AarchGate.Jit.Allocation
import AarchGate.Jit.Cache

namespace AarchGate
namespace Jit

open A64 Ir

/-- How a compilation fails. -/
inductive Fault where
  | nullptr
  | undefined
  deriving DecidableEq, Repr

/-- The two halves of a computation that succeeds. -/
theorem bind_ok {ε α β : Type} {x : Except ε α} {f : α → Except ε β} {r : β}
    (h : (x >>= f) = .ok r) : ∃ v, x = .ok v ∧ f v = .ok r := by
  cases x with
  | error e => exact absurd h (by simp [bind, Except.bind])
  | ok v => exact ⟨v, rfl, h⟩

/-- `hoisted_left`. -/
abbrev hoistedLeft : Gp := .x 16
/-- `hoisted_right`. -/
abbrev hoistedRight : Gp := .x 17

section Emit

variable (g : ℕ → Node) (a : ℕ → Annot)

/-- Loads the base address of an operand's planes, or its constant. -/
def hoist (h : Gp) (op : ℕ) : List Instr :=
  match (g op).kind with
  | .LOAD => [.ldr h (.off fieldPlanesPtr (byteOffset (a op).fieldIdx))]
  | .CONST => movWide h (g op).constValue
  | _ => movWide h (byteOffset (a op).slotId) ++ [.alu .add h h scratchPtr]

/-- Loads one plane of a hoisted operand; the planes of a constant are known. -/
def loadPlane (reg h : Gp) (op bit : ℕ) : List Instr :=
  match (g op).kind with
  | .CONST => if (g op).constValue.getLsbD bit then [.mvn reg .xzr] else [.mov reg .xzr]
  | _ => [.ldr reg (.off h (BitVec.ofNat 64 (bit * 8)))]

/-- One bit of the ripple-carry adder. -/
def addSubBit (sub : Bool) (carry : Gp) (l r bit : ℕ) : List Instr :=
  loadPlane g planeA hoistedLeft l bit ++ loadPlane g planeB hoistedRight r bit ++
    (if sub then [.mvn planeB planeB] else []) ++
    [.alu .eor result planeA planeB, .alu .eor scratch1 result carry,
      .alu .and planeA planeA planeB, .alu .and result result carry,
      .alu .orr carry planeA result, .str scratch1 (.off tempPtr (BitVec.ofNat 64 (bit * 8)))]

/-- The code of an `ADD` or `SUB` node. -/
def emitAddSub (bits : ℕ) (carry : Gp) (n l r : ℕ) : List Instr :=
  [.movImm carry (if (g n).kind = .SUB then 1 else 0)] ++
    hoist g a hoistedLeft l ++ hoist g a hoistedRight r ++
    movWide tempPtr (byteOffset (a n).slotId) ++ [.alu .add tempPtr tempPtr scratchPtr] ++
    (List.range bits).flatMap (addSubBit g ((g n).kind = .SUB) carry l r)

/-- One bit of the comparator. -/
def compareBit (opA opB : ℕ) (hA hB : Gp) (bit : ℕ) : List Instr :=
  loadPlane g planeA hA opA bit ++ loadPlane g planeB hB opB bit ++
    [.alu .bic result planeA planeB, .alu .and result result maskEq,
      .alu .orr maskGt maskGt result, .alu .eor result planeA planeB,
      .alu .bic maskEq maskEq result]

/-- The comparator over all bits, from the most significant one; `LT` and `LE`
swap the operands. -/
def compareBits (bits : ℕ) (k : NodeKind) (l r : ℕ) : List Instr :=
  (List.range bits).flatMap fun i =>
    if k = .LT ∨ k = .LE then compareBit g r l hoistedRight hoistedLeft (bits - 1 - i)
    else compareBit g l r hoistedLeft hoistedRight (bits - 1 - i)

/-- The code of a comparison. -/
def emitCompare (bits : ℕ) (n l r : ℕ) (c : ScratchpadCache) : List Instr × ScratchpadCache :=
  let slot := (a n).slotId
  let eqSlot := (a n).eqSlotId
  let k := (g n).kind
  let r₁ := c.loadSlot eqSlot maskEq
  let r₂ := r₁.2.loadSlot slot maskGt
  let body := hoist g a hoistedLeft l ++ hoist g a hoistedRight r ++ compareBits g bits k l r
  let r₃ := r₂.2.storeSlot slot maskGt
  let r₄ := r₃.2.storeSlot eqSlot maskEq
  let code := r₁.1 ++ r₂.1 ++ body ++ r₃.1 ++ r₄.1
  if k = .GE ∨ k = .LE ∨ k = .EQ then
    let r₅ := r₄.2.loadSlot slot planeA
    let r₆ := r₅.2.loadSlot eqSlot planeB
    let op : Instr := if k = .EQ then .mov result planeB else .alu .orr result planeA planeB
    let r₇ := r₆.2.storeSlot slot result
    (code ++ r₅.1 ++ r₆.1 ++ [op] ++ r₇.1, r₇.2)
  else (code, r₄.2)

/-- The code of `AND`, `OR` and `NOT`. -/
def emitLogic (n l : ℕ) (r : Option ℕ) (c : ScratchpadCache) : List Instr × ScratchpadCache :=
  let r₁ := c.loadSlot (a l).slotId planeA
  match r with
  | some r =>
      let r₂ := r₁.2.loadSlot (a r).slotId planeB
      let op : Alu := if (g n).kind = .AND then .and else .orr
      let r₃ := r₂.2.storeSlot (a n).slotId result
      (r₁.1 ++ r₂.1 ++ [.alu op result planeA planeB] ++ r₃.1, r₃.2)
  | none =>
      let r₃ := r₁.2.storeSlot (a n).slotId result
      (r₁.1 ++ [.mvn result planeA] ++ r₃.1, r₃.2)

/-- `emit_load_op`: one plane of an operand of `SELECT`, the bit in `x21`. -/
def emitLoadOp (op : ℕ) (reg : Gp) : List Instr :=
  match (g op).kind with
  | .LOAD =>
      [.ldr tempPtr (.off fieldPlanesPtr (byteOffset (a op).fieldIdx)),
        .ldr reg (.idxLsl tempPtr bitIndex 3)]
  | .CONST =>
      movWide scratch1 (g op).constValue ++
        [.alu .lsr reg scratch1 bitIndex, .andImm reg reg 1, .neg reg reg]
  | _ =>
      movWide scratch1 (byteOffset (a op).slotId) ++
        [.addLsl scratch1 scratch1 bitIndex 3, .ldr reg (.idx scratchPtr scratch1)]

/-- One bit of the multiplexer. -/
def selectBit (n l r bit : ℕ) : List Instr :=
  [.movImm bitIndex (BitVec.ofNat 64 bit)] ++ emitLoadOp g a l planeA ++ emitLoadOp g a r planeB ++
    [.alu .and scratch1 maskGt planeA, .alu .bic tempPtr planeB maskGt,
      .alu .orr scratch1 scratch1 tempPtr] ++
    movWide tempPtr (byteOffset (a n).slotId + BitVec.ofNat 64 (bit * 8)) ++
    [.str scratch1 (.idx scratchPtr tempPtr)]

/-- The code of a `SELECT` node. -/
def emitSelect (bits : ℕ) (n i l r : ℕ) (c : ScratchpadCache) : List Instr × ScratchpadCache :=
  let r₁ := c.loadSlot (a i).slotId maskGt
  (r₁.1 ++ (List.range bits).flatMap (selectBit g a n l r), r₁.2)

/-- `node->left` and the like, where the source dereferences them. -/
def deref : Option ℕ → Except Fault ℕ
  | some n => .ok n
  | none => .error .undefined

/-- A pointer that is dereferenced is not null. -/
theorem deref_ok {o : Option ℕ} {n : ℕ} (h : deref o = .ok n) : o = some n := by
  cases o with
  | none => cases h
  | some m => exact congrArg some (Except.ok.inj h)

/-- The code of one node. -/
def emitNode (bits n : ℕ) (c : ScratchpadCache) : Except Fault (List Instr × ScratchpadCache) :=
  if (a n).skipJit then .ok ([], c)
  else
    match (g n).kind with
    | .ADD | .SUB => do
        let l ← deref (g n).left
        let r ← deref (g n).right
        if 0 ≤ (a n).carryReg ∧ (a n).carryReg < 6 then
          .ok (emitAddSub g a bits (carryReg (a n).carryReg.toNat) n l r, c)
        else .error .undefined
    | .GT | .LT | .GE | .LE | .EQ => do
        let l ← deref (g n).left
        let r ← deref (g n).right
        .ok (emitCompare g a bits n l r c)
    | .AND | .OR | .NOT => do
        let l ← deref (g n).left
        .ok (emitLogic g a n l (g n).right c)
    | .SELECT => do
        let i ← deref (g n).cond
        let l ← deref (g n).left
        let r ← deref (g n).right
        .ok (emitSelect g a bits n i l r c)
    | _ => .ok ([], c)

variable {g a} {bits n l r i : ℕ} {c : ScratchpadCache}

/-- A node that is marked has no code. -/
theorem emitNode_skip (hs : (a n).skipJit = true) : emitNode g a bits n c = .ok ([], c) := by
  rw [emitNode, if_pos hs]

/-- Nor has a leaf. -/
theorem emitNode_leaf (hs : (a n).skipJit = false) (hk : (g n).kind.isLeaf = true) :
    emitNode g a bits n c = .ok ([], c) := by
  rw [emitNode, hs, if_neg Bool.false_ne_true]
  revert hk
  cases (g n).kind <;> simp [NodeKind.isLeaf]

/-- A sum or a difference. -/
theorem emitNode_addSub (hs : (a n).skipJit = false) (hk : (g n).kind = .ADD ∨ (g n).kind = .SUB)
    (hl : (g n).left = some l) (hr : (g n).right = some r) :
    emitNode g a bits n c = if 0 ≤ (a n).carryReg ∧ (a n).carryReg < 6 then
      .ok (emitAddSub g a bits (carryReg (a n).carryReg.toNat) n l r, c) else .error .undefined := by
  rw [emitNode, hs, if_neg Bool.false_ne_true, hl, hr]
  rcases hk with hk | hk <;> rw [hk] <;> rfl

/-- A comparison. -/
theorem emitNode_compare (hs : (a n).skipJit = false) (hk : (g n).kind.isComparison = true)
    (hl : (g n).left = some l) (hr : (g n).right = some r) :
    emitNode g a bits n c = .ok (emitCompare g a bits n l r c) := by
  rw [emitNode, hs, if_neg Bool.false_ne_true, hl, hr]
  revert hk
  cases (g n).kind <;> simp [NodeKind.isComparison] <;> rfl

/-- A connective. -/
theorem emitNode_logic (hs : (a n).skipJit = false)
    (hk : (g n).kind = .AND ∨ (g n).kind = .OR ∨ (g n).kind = .NOT) (hl : (g n).left = some l) :
    emitNode g a bits n c = .ok (emitLogic g a n l (g n).right c) := by
  rw [emitNode, hs, if_neg Bool.false_ne_true, hl]
  rcases hk with hk | hk | hk <;> rw [hk] <;> rfl

/-- A `SELECT`. -/
theorem emitNode_select (hs : (a n).skipJit = false) (hk : (g n).kind = .SELECT)
    (hi : (g n).cond = some i) (hl : (g n).left = some l) (hr : (g n).right = some r) :
    emitNode g a bits n c = .ok (emitSelect g a bits n i l r c) := by
  rw [emitNode, hs, if_neg Bool.false_ne_true, hi, hl, hr, hk]
  rfl

variable (g a)

/-- The single pass over `all_nodes`. -/
def emitNodes (bits : ℕ) : List ℕ → ScratchpadCache → Except Fault (List Instr)
  | [], _ => .ok []
  | n :: ns, c => do
      let r ← emitNode g a bits n c
      let rest ← emitNodes bits ns r.2
      .ok (r.1 ++ rest)

/-- The initial contents of the slots of a mask. -/
def initNode (n : ℕ) : List Instr :=
  (if 0 ≤ (a n).carryReg ∧ (g n).kind = .SUB then
    [.movImm (carryReg (a n).carryReg.toNat) 1] else []) ++
  (if 0 ≤ (a n).slotId ∧ (a n).resultKind = .BITMASK then
    movWide tempPtr (byteOffset (a n).slotId) ++ [.str .xzr (.idx scratchPtr tempPtr)] ++
      (if 0 ≤ (a n).eqSlotId then
        movWide tempPtr (byteOffset (a n).eqSlotId) ++
          [.movImm scratch1 (-1), .str scratch1 (.idx scratchPtr tempPtr)] else [])
  else [])

/-- The end of the kernel: where the result of the root goes. -/
def emitResult (root : ℕ) : List Instr :=
  if (a root).skipJit then [.movImm (.x 0) 0]
  else if (a root).resultKind = .BITPLANE then
    movWide tempPtr (byteOffset (a root).slotId) ++
      ((List.range 64).flatMap fun i =>
        [.ldr result (.idx scratchPtr tempPtr),
          .str result (.off scratchPtr (BitVec.ofNat 64 (i * 8))), .addImm tempPtr tempPtr 8]) ++
      [.movImm (.x 0) 0]
  else movWide tempPtr (byteOffset (a root).slotId) ++ [.ldr (.x 0) (.idx scratchPtr tempPtr)]

end Emit

/-- `stp` to a fresh pair of words on the stack. -/
def pushPair (r r' : ℕ) : Instr := .stp (.x r) (.x r') (.pre .sp (-16))

/-- `ldp` of the pair on top of the stack. -/
def popPair (r r' : ℕ) : Instr := .ldp (.x r) (.x r') (.post .sp 16)

/-- The prologue: the callee-saved registers to the stack, the arguments to
their registers. -/
def prologue : List Instr :=
  [pushPair 29 30, .mov (.x 29) .sp, pushPair 19 20, pushPair 21 22, pushPair 23 24,
    pushPair 25 26, pushPair 27 28, .mov fieldPlanesPtr (.x 0), .mov scratchPtr (.x 1)]

/-- The carry registers start at zero. -/
def initCarries : List Instr := (List.range 6).map fun i => .movImm (carryReg i) 0

/-- The epilogue. -/
def epilogue : List Instr :=
  [popPair 27 28, popPair 25 26, popPair 23 24, popPair 21 22, popPair 19 20, popPair 29 30]

/-- The passes before the code is emitted: the nodes in post-order and their
metadata, or a null pointer. -/
def prepare (g : ℕ → Node) (a₀ : ℕ → Annot) (root : ℕ) :
    (ℕ → Annot) × Except Fault (List ℕ) :=
  let an := ExpressionAnalyzer.ofRoot g a₀ root
  match assignFields g (some 128) an.arithmeticNodes [] an.annot with
  | (a₁, none) => (a₁, .error .nullptr)
  | (a₁, some _) =>
      let a₂ := (an.arithmeticNodes.filter fun n => (g n).kind = .CONST).foldl
        (fun a n => setAnnot a n fun x => { x with fieldIdx := -2 }) a₁
      match allocNodes g an.allNodes ⟨.init, 0, a₂⟩ with
      | (st, false) => (st.annot, .error .nullptr)
      | (st, true) => (st.annot, .ok an.allNodes)

/-- All instructions of the kernel but the final `ret`. -/
def kernelBody (g : ℕ → Node) (a : ℕ → Annot) (root : ℕ) (nodes : List ℕ)
    (body : List Instr) : List Instr :=
  prologue ++ initCarries ++ nodes.flatMap (initNode g a) ++ body ++ emitResult a root ++ epilogue

/-- `JitCompiler::compile_expression`: the metadata left in the nodes, and the
kernel. -/
def compileExpression (rt : List Instr → Bool) (g : ℕ → Node) (a₀ : ℕ → Annot) (root : ℕ)
    (activeBits : ℕ) : (ℕ → Annot) × Except Fault (List Instr) :=
  match prepare g a₀ root with
  | (a, .error e) => (a, .error e)
  | (a, .ok nodes) =>
      (a, do
        let body ← emitNodes g a activeBits nodes .init
        let code := kernelBody g a root nodes body ++ [.ret (.x 30)]
        if rt code then .ok code else .error .nullptr)

/-! ### How an emission fails -/

section Emission

variable {g : ℕ → Node} {a : ℕ → Annot} {bits : ℕ}

/-- The emission of a node fails by undefined behaviour only. -/
theorem emitNode_error {n : ℕ} {c : ScratchpadCache} {f : Fault}
    (h : emitNode g a bits n c = .error f) : f = .undefined := by
  cases f with
  | undefined => rfl
  | nullptr =>
    unfold emitNode at h
    cases hl : (g n).left <;> cases hr : (g n).right <;> cases hi : (g n).cond <;>
      cases hk : (g n).kind <;> simp only [hl, hr, hi, hk, deref, bind, Except.bind] at h <;>
      split_ifs at h <;> simp at h

/-- It fails only on what is undefined. -/
theorem emitNodes_error {ns : List ℕ} {f : Fault} :
    ∀ {c : ScratchpadCache}, emitNodes g a bits ns c = .error f → f = .undefined := by
  induction ns with
  | nil => exact fun h => absurd h (by simp [emitNodes])
  | cons n ns ih =>
    intro c h
    rw [emitNodes] at h
    cases hn : emitNode g a bits n c with
    | error f' =>
      rw [hn] at h
      obtain rfl := Except.error.inj h
      exact emitNode_error hn
    | ok rc =>
      simp only [hn, bind, Except.bind] at h
      cases hns : emitNodes g a bits ns rc.2 with
      | error f' =>
        rw [hns] at h
        obtain rfl := Except.error.inj h
        exact ih hns
      | ok rest =>
        rw [hns] at h
        cases h

/-- Every node of a pass that succeeds is emitted. -/
theorem emitNodes_mem {ns : List ℕ} : ∀ {c : ScratchpadCache} {code : List Instr},
    emitNodes g a bits ns c = .ok code → ∀ n ∈ ns, ∃ c rc, emitNode g a bits n c = .ok rc := by
  induction ns with
  | nil => exact fun _ n hn => absurd hn List.not_mem_nil
  | cons n' ns ih =>
    intro c code h n hn
    obtain ⟨rc, hrc, h⟩ := bind_ok h
    obtain ⟨rest, hrest, -⟩ := bind_ok h
    rcases List.mem_cons.1 hn with rfl | hn
    · exact ⟨c, rc, hrc⟩
    · exact ih hrest n hn

/-- The code of an unskipped `ADD` or `SUB` has a carry register. -/
theorem emitNode_carry {n : ℕ} {c : ScratchpadCache} {rc : List Instr × ScratchpadCache}
    (hs : (a n).skipJit = false) (hk : isAddSub (g n).kind = true)
    (h : emitNode g a bits n c = .ok rc) : 0 ≤ (a n).carryReg ∧ (a n).carryReg < 6 := by
  have hk' : (g n).kind = .ADD ∨ (g n).kind = .SUB := by simpa [isAddSub] using hk
  by_contra hno
  cases hl : (g n).left with
  | none =>
    rw [emitNode, hs, if_neg Bool.false_ne_true, hl] at h
    rcases hk' with hk | hk <;> rw [hk] at h <;> cases h
  | some l =>
    cases hr : (g n).right with
    | none =>
      rw [emitNode, hs, if_neg Bool.false_ne_true, hl, hr] at h
      rcases hk' with hk | hk <;> rw [hk] at h <;> cases h
    | some r =>
      rw [emitNode_addSub hs hk' hl hr, if_neg hno] at h
      cases h

end Emission

end Jit
end AarchGate
