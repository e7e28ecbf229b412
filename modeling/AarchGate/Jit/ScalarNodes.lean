/-
# One row of the scalar kernel

The code `compile_scalar_expression` emits for the nodes, executed on one row.
`rowPass` says what it computes: every node that is no leaf gets a word from the
words of its operands, and a kind the `switch` has no case for gets the word of
the node computed before it.  `RowSim` is the invariant of the pass over the nodes,
`RowSim.step` is one node and `RowSim.run` the whole row.
-/

import AarchGate.BitPlane.Lanes
import AarchGate.Jit.Operand
import AarchGate.Jit.Scalar

namespace AarchGate
namespace Jit

open A64 Ir BitPlane

/-! ### The words of a row -/

/-- The words of the nodes computed so far, and the last of them. -/
structure RowState where
  val : ℕ → Word
  last : Word

section RowPass

variable (g : ℕ → Node) (row : Name → Word)

/-- The word of an operand. -/
def operandWord (s : RowState) (o : ℕ) : Word :=
  match (g o).kind with
  | .LOAD => row (g o).fieldName
  | .CONST => (g o).constValue
  | _ => s.val o

/-- The word of a node that is no leaf. -/
def rowOp (s : RowState) (n : ℕ) : Word :=
  let l := (g n).left.elim 0 (operandWord g row s)
  let r := (g n).right.elim 0 (operandWord g row s)
  match (g n).kind with
  | .ADD => l + r
  | .SUB => l - r
  | .GT => bit (Cmp.gt.holds l r)
  | .LT => bit (Cmp.lt.holds l r)
  | .GE => bit (Cmp.ge.holds l r)
  | .LE => bit (Cmp.le.holds l r)
  | .EQ => bit (Cmp.eq.holds l r)
  | .AND => l &&& r
  | .OR => l ||| r
  | .SELECT => if (g n).cond.elim 0 s.val = 0 then r else l
  | _ => s.last

/-- One node of a row. -/
def rowStep (s : RowState) (n : ℕ) : RowState :=
  if (g n).kind.isLeaf then s
  else ⟨Function.update s.val n (rowOp g row s n), rowOp g row s n⟩

/-- **The words of a row**: the nodes in the order of the analysis. -/
def rowPass (ns : List ℕ) : RowState := ns.foldl (rowStep g row) ⟨fun _ => 0, 0⟩

end RowPass

/-- One node more. -/
theorem rowPass_append_singleton (g : ℕ → Node) (row : Name → Word) (ns : List ℕ) (n : ℕ) :
    rowPass g row (ns ++ [n]) = rowStep g row (rowPass g row ns) n := by
  simp [rowPass]

/-- A leaf does nothing. -/
theorem rowStep_leaf {g : ℕ → Node} {row : Name → Word} {s : RowState} {n : ℕ}
    (h : (g n).kind.isLeaf = true) : rowStep g row s n = s := by
  simp [rowStep, h]

/-- The value last computed. -/
theorem rowStep_last {g : ℕ → Node} {row : Name → Word} {s : RowState} {n : ℕ}
    (h : (g n).kind.isLeaf = false) : (rowStep g row s n).last = rowOp g row s n := by
  simp [rowStep, h]

/-- The node has its value. -/
theorem rowStep_val_self {g : ℕ → Node} {row : Name → Word} {s : RowState} {n : ℕ}
    (h : (g n).kind.isLeaf = false) : (rowStep g row s n).val n = rowOp g row s n := by
  simp [rowStep, h]

/-- The others keep theirs. -/
theorem rowStep_val_ne {g : ℕ → Node} {row : Name → Word} {s : RowState} {n o : ℕ} (h : o ≠ n) :
    (rowStep g row s n).val o = s.val o := by
  unfold rowStep
  split
  · rfl
  · exact Function.update_of_ne h ..

/-! ### The invariant of a row -/

/-- What the passes establish, with the rows the field arrays hold. -/
structure ScalarMeta (L : Layout) (F : ℕ → ℕ → Word) (g : ℕ → Node) (a : ℕ → Annot)
    (rows : ℕ → Name → Word) (nodes : List ℕ) : Prop where
  post : Graph.PostOrdered (succs g) nodes
  slot : ∀ n ∈ nodes, (g n).kind.isLeaf = false → 0 ≤ (a n).slotId ∧ (a n).slotId.toNat < maxSlots
  inj : ∀ m ∈ nodes, ∀ n ∈ nodes, (g m).kind.isLeaf = false → (g n).kind.isLeaf = false →
    (a m).slotId = (a n).slotId → m = n
  leaf : ∀ n ∈ nodes, (g n).kind.isLeaf = true → (a n).slotId = -1
  fields : ∀ n ∈ nodes, (g n).kind = .LOAD → 0 ≤ (a n).fieldIdx ∧
    (a n).fieldIdx.toNat < L.numFields ∧ ∀ r < 64, F (a n).fieldIdx.toNat r = rows r (g n).fieldName
  typed : ∀ n ∈ nodes, ∃ (t : Ty) (e : Expr t), Represents g e n

/-- **The invariant** in row `r`: the nodes `done` have stored their words, the
last word is in the result register, and the other words of the scratchpad are as
in `p`. -/
structure RowSim (L : Layout) (F : ℕ → ℕ → Word) (g : ℕ → Node) (a : ℕ → Annot)
    (rows : ℕ → Name → Word) (nodes : List ℕ) (saved p : ℕ → Word) (r : ℕ) (acc : Word)
    (done : List ℕ) (m : Machine) : Prop where
  env : Env L F 8 saved m
  row : m.read rowIndex = BitVec.ofNat 64 r
  acc : m.read finalMask = acc
  holds : ∀ n ∈ done, (g n).kind.isLeaf = false →
    pad L m (a n).slotId.toNat = (rowPass g (rows r) done).val n
  res : (∃ n ∈ done, (g n).kind.isLeaf = false) → m.read valRes = (rowPass g (rows r) done).last
  rest : ∀ s < maxSlots, (∀ n ∈ nodes, (g n).kind.isLeaf = false → (a n).slotId.toNat ≠ s) →
    pad L m s = p s

section Row

variable {L : Layout} {F : ℕ → ℕ → Word} {g : ℕ → Node} {a : ℕ → Annot}
  {rows : ℕ → Name → Word} {nodes done todo : List ℕ} {saved p : ℕ → Word} {r n : ℕ} {acc : Word}
  {m m' : Machine}

/-- A compound operand is in its slot. -/
theorem getOperand_slot {o : ℕ} (hk : (g o).kind.isLeaf = false) (out : Gp) :
    getOperand g a (some o) out = [.ldr out (.off scratchPtr (byteOffset (a o).slotId))] :=
  NodeKind.leaf_match _ _ _ hk

/-- **`get_operand`** loads the word of an operand. -/
theorem getOperand_exec (H : ScalarMeta L F g a rows nodes)
    (h : RowSim L F g a rows nodes saved p r acc done m) (hr : r < 64) {o : ℕ} (ho : o ∈ done)
    (hon : o ∈ nodes) (q : ℕ) :
    let m' := execs (getOperand g a (some o) (.x q)) m
    m'.read (.x q) = operandWord g (rows r) (rowPass g (rows r) done) o ∧ m'.mem = m.mem ∧
      Keeps [tempReg, .x q] m m' := by
  intro m'
  -- in all cases the last instruction writes the word
  obtain ⟨w, hm'⟩ : ∃ w,
      m' = (m.write tempReg w).write (.x q) (operandWord g (rows r) (rowPass g (rows r) done) o) ∨
      m' = m.write (.x q) (operandWord g (rows r) (rowPass g (rows r) done) o) := by
    by_cases hload : (g o).kind = .LOAD
    · obtain ⟨h0, hlt, hF⟩ := H.fields o hon hload
      refine ⟨L.plane (a o).fieldIdx.toNat, Or.inl ?_⟩
      have htab : m.mem (L.table + BitVec.ofNat 64 (8 * (a o).fieldIdx.toNat)) = _ :=
        h.env.table _ hlt
      have hval : m.mem (L.plane (a o).fieldIdx.toNat + BitVec.ofNat 64 (8 * r)) =
          rows r (g o).fieldName := (h.env.planes _ hlt r hr).trans (hF r hr)
      simp only [m', getOperand, hload, execs_cons, execs_nil, exec, Mem.resolve, h.env.x19,
        byteOffset_toNat h0, htab, exec, Mem.resolve, Machine.read_write_x, if_true,
        Machine.mem_write, operandWord]
      rw [if_neg (by decide), h.row, shiftLeft_three, hval]
    · by_cases hconst : (g o).kind = .CONST
      · exact ⟨0, Or.inr (by simp only [m', getOperand, hconst, execs_movWide, operandWord])⟩
      · have hleaf : (g o).kind.isLeaf = false := by
          revert hload hconst
          cases (g o).kind <;> simp [NodeKind.isLeaf]
        obtain ⟨h0, -⟩ := H.slot o hon hleaf
        have hpad : m.mem (L.scratch + BitVec.ofNat 64 (8 * (a o).slotId.toNat)) = _ :=
          h.holds o ho hleaf
        refine ⟨0, Or.inr ?_⟩
        simp only [m', getOperand, operandWord, execs_cons, execs_nil, exec, Mem.resolve, h.env.x20,
          byteOffset_toNat h0, hpad]
  rcases hm' with hm' | hm' <;> rw [hm'] <;> refine ⟨by simp, by simp, fun q hq => ?_⟩
  all_goals
    simp only [List.mem_cons, List.not_mem_nil, or_false, not_or] at hq
    simp [hq]

/-- The registers a node writes. -/
def scalarRegs : List Gp := [tempReg, valLeft, valRight, valRes]

/-- Code that keeps the memory and the result register keeps the invariant. -/
theorem RowSim.of_mem_eq (h : RowSim L F g a rows nodes saved p r acc done m)
    (hk : Keeps [tempReg, valLeft, valRight] m m') (hmem : m'.mem = m.mem) :
    RowSim L F g a rows nodes saved p r acc done m' where
  env := h.env.of_mem_eq hk (by decide) hmem
  row := (hk _ (by decide)).trans h.row
  acc := (hk _ (by decide)).trans h.acc
  holds n hn hl := by rw [pad, hmem]; exact h.holds n hn hl
  res hd := (hk _ (by decide)).trans (h.res hd)
  rest s hs hne := by rw [pad, hmem]; exact h.rest s hs hne

/-- The operands of a binary node. -/
theorem operands_exec (H : ScalarMeta L F g a rows nodes)
    (h : RowSim L F g a rows nodes saved p r acc done m) (hr : r < 64)
    (hdn : ∀ x ∈ done, x ∈ nodes) {l k : ℕ} (hl : l ∈ done) (hk : k ∈ done) :
    let m' := execs (getOperand g a (some l) valLeft ++ getOperand g a (some k) valRight) m
    m'.read valLeft = operandWord g (rows r) (rowPass g (rows r) done) l ∧
      m'.read valRight = operandWord g (rows r) (rowPass g (rows r) done) k ∧
      m'.mem = m.mem ∧ Keeps [tempReg, valLeft, valRight] m m' := by
  intro m'
  obtain ⟨hv₁, hm₁, hk₁⟩ := getOperand_exec H h hr hl (hdn l hl) 16
  generalize hx₁ : execs (getOperand g a (some l) (.x 16)) m = m₁ at hv₁ hm₁ hk₁
  have h₁ := h.of_mem_eq (hk₁.mono (by decide)) hm₁
  obtain ⟨hv₂, hm₂, hk₂⟩ := getOperand_exec H h₁ hr hk (hdn k hk) 17
  have hm' : m' = execs (getOperand g a (some k) (.x 17)) m₁ := by
    simp only [m', execs_append, hx₁]
  rw [hm']
  refine ⟨by rw [hk₂ _ (by decide), hv₁], hv₂, hm₂.trans hm₁, ?_⟩
  exact (hk₁.trans hk₂).mono (by decide)

/-! ### One node -/

/-- The store that ends the code of a node. -/
theorem RowSim.store (H : ScalarMeta L F g a rows nodes) (hnodes : nodes = done ++ n :: todo)
    (h : RowSim L F g a rows nodes saved p r acc done m) (hk : Keeps scalarRegs m m')
    (hmem : m'.mem = m.mem) (hleaf : (g n).kind.isLeaf = false)
    (hv : m'.read valRes = rowOp g (rows r) (rowPass g (rows r) done) n) :
    RowSim L F g a rows nodes saved p r acc (done ++ [n])
      (execs (if 0 ≤ (a n).slotId then [.str valRes (.off scratchPtr (byteOffset (a n).slotId))]
        else []) m') := by
  have hn : n ∈ nodes := by rw [hnodes]; simp
  obtain ⟨h0, hlt⟩ := H.slot n hn hleaf
  have hE := h.env.of_mem_eq hk (by decide) hmem
  have haddr : L.scratch + BitVec.ofNat 64 (8 * (a n).slotId.toNat) =
      wordAt L.scratch (a n).slotId.toNat := rfl
  have hm : execs (if 0 ≤ (a n).slotId then [.str valRes (.off scratchPtr
      (byteOffset (a n).slotId))] else []) m' =
      m'.store (wordAt L.scratch (a n).slotId.toNat) (m'.read valRes) := by
    simp [h0, hE.x20, byteOffset_toNat h0, haddr]
  rw [hm]
  have hpad : PadKeeps L (· = (a n).slotId.toNat) m' _ := PadKeeps.store m' hlt (m'.read valRes)
  refine ⟨hE.frame (by simp) (by simp) (by simp) hpad.memKeeps, ?_, ?_, ?_, ?_, ?_⟩
  · rw [Machine.read_store, hk _ (by decide), h.row]
  · rw [Machine.read_store, hk _ (by decide), h.acc]
  · intro x hx hxl
    rw [rowPass_append_singleton]
    rcases List.mem_append.1 hx with hxd | hxn
    · have hxn : x ∈ nodes := by rw [hnodes]; simp [hxd]
      obtain ⟨hx0, hxlt⟩ := H.slot x hxn hxl
      have hxne : x ≠ n := fun heq => (H.post.split hnodes).1 (heq ▸ hxd)
      have hne : (a x).slotId.toNat ≠ (a n).slotId.toNat := fun heq =>
        hxne (H.inj x hxn n hn hxl hleaf (by omega))
      rw [hpad.pad_eq hxlt hne, pad, hmem, rowStep_val_ne hxne]
      exact h.holds x hxd hxl
    · obtain rfl := List.mem_singleton.1 hxn
      rw [rowStep_val_self hleaf, ← hv]
      simp [pad]
  · intro _
    rw [Machine.read_store, rowPass_append_singleton, rowStep_last hleaf, hv]
  · intro s hs hne
    rw [hpad.pad_eq hs (fun heq => hne n hn hleaf heq.symm), pad, hmem]
    exact h.rest s hs hne

/-- The condition code of a comparison. -/
def condOf : Cmp → Cond
  | .gt => .hi
  | .lt => .lo
  | .ge => .hs
  | .le => .ls
  | .eq => .eq

/-- The condition codes decide the unsigned comparisons. -/
theorem condOf_holds (op : Cmp) (x y : Word) :
    (condOf op).holds (cmpFlags x y) = op.holds x y := by
  rw [Bool.eq_iff_iff]
  cases op <;> simp [condOf, Cond.holds, Cmp.holds, cmpFlags, BitVec.lt_def, BitVec.le_def,
    ← BitVec.toNat_inj] <;> omega

/-- The code of a comparison. -/
theorem scalarOp_cmp {op : Cmp} (hk : (g n).kind = op.kind) :
    scalarOp g a n = .ok (scalarCompare (condOf op)) := by
  unfold scalarOp
  rw [hk]
  cases op <;> rfl

/-- And its value. -/
theorem rowOp_cmp {row : Name → Word} {s : RowState} {op : Cmp} {l k : ℕ}
    (hn : IsBinary (g n) op.kind l k) :
    rowOp g row s n = bit (op.holds (operandWord g row s l) (operandWord g row s k)) := by
  unfold rowOp
  rw [hn.kind, hn.left, hn.right]
  cases op <;> rfl

/-- `m'` is `m` after an operation with result `w`. -/
structure OpResult (w : Word) (m m' : Machine) : Prop where
  res : m'.read valRes = w
  mem : m'.mem = m.mem
  keeps : Keeps [tempReg, valRes] m m'

/-- A sum, a difference or a connective computes its value. -/
theorem alu_exec (op : Alu) (m : Machine) :
    OpResult (op.eval (m.read valLeft) (m.read valRight)) m
      (execs [.alu op valRes valLeft valRight] m) := by
  refine ⟨by simp, by simp, fun q hq => ?_⟩
  simp only [List.mem_cons, List.not_mem_nil, or_false, not_or] at hq
  simp [hq]

/-- So does a comparison. -/
theorem scalarCompare_exec (op : Cmp) (m : Machine) :
    OpResult (bit (op.holds (m.read valLeft) (m.read valRight))) m
      (execs (scalarCompare (condOf op)) m) := by
  refine ⟨?_, by simp [scalarCompare], fun q hq => ?_⟩
  · rw [← condOf_holds]
    simp only [scalarCompare, execs_cons, execs_nil, exec, Machine.flags_setFlags,
      Machine.read_write_x, if_true]
    rfl
  · simp only [List.mem_cons, List.not_mem_nil, or_false, not_or] at hq
    simp [scalarCompare, hq]

/-- The operands, the operation and the store of a node. -/
theorem RowSim.step_op (H : ScalarMeta L F g a rows nodes) (hnodes : nodes = done ++ n :: todo)
    (h : RowSim L F g a rows nodes saved p r acc done m) (hleaf : (g n).kind.isLeaf = false)
    {pre op : List Instr} (hk : Keeps [tempReg, valLeft, valRight] m (execs pre m))
    (hmem : (execs pre m).mem = m.mem)
    (hop : OpResult (rowOp g (rows r) (rowPass g (rows r) done) n) (execs pre m)
      (execs op (execs pre m))) :
    RowSim L F g a rows nodes saved p r acc (done ++ [n]) (execs (pre ++ op ++
      (if 0 ≤ (a n).slotId then [.str valRes (.off scratchPtr (byteOffset (a n).slotId))]
        else [])) m) := by
  rw [execs_append, execs_append]
  exact h.store H hnodes ((hk.trans hop.keeps).mono (by decide)) (hop.mem.trans hmem) hleaf hop.res

/-- A node with two operands. -/
theorem RowSim.step_binary (H : ScalarMeta L F g a rows nodes) (hnodes : nodes = done ++ n :: todo)
    (h : RowSim L F g a rows nodes saved p r acc done m) (hr : r < 64)
    (hleaf : (g n).kind.isLeaf = false) {l k : ℕ} (hl : (g n).left = some l)
    (hk : (g n).right = some k) (hld : l ∈ done) (hkd : k ∈ done) {op code : List Instr}
    (hcode : scalarNode g a n = .ok code) (hopc : scalarOp g a n = .ok op)
    (hop : ∀ m₁, RowSim L F g a rows nodes saved p r acc done m₁ →
      m₁.read valLeft = operandWord g (rows r) (rowPass g (rows r) done) l →
      m₁.read valRight = operandWord g (rows r) (rowPass g (rows r) done) k →
      OpResult (rowOp g (rows r) (rowPass g (rows r) done) n) m₁ (execs op m₁)) :
    RowSim L F g a rows nodes saved p r acc (done ++ [n]) (execs code m) := by
  obtain ⟨v₁, v₂, hmem, hkeep⟩ :=
    operands_exec H h hr (fun x hx => by rw [hnodes]; simp [hx]) hld hkd
  rw [scalarNode, hopc, hl, hk] at hcode
  obtain rfl := Except.ok.inj hcode
  exact h.step_op H hnodes hleaf hkeep hmem (hop _ (h.of_mem_eq hkeep hmem) v₁ v₂)

/-- A node of one instruction. -/
theorem RowSim.step_alu (H : ScalarMeta L F g a rows nodes) (hnodes : nodes = done ++ n :: todo)
    (h : RowSim L F g a rows nodes saved p r acc done m) (hr : r < 64)
    (hleaf : (g n).kind.isLeaf = false) {kind : NodeKind} {l k : ℕ}
    (hn : IsBinary (g n) kind l k) {o : Alu} {code : List Instr}
    (hcode : scalarNode g a n = .ok code)
    (hopc : scalarOp g a n = .ok [.alu o valRes valLeft valRight])
    (hrow : rowOp g (rows r) (rowPass g (rows r) done) n =
      o.eval (operandWord g (rows r) (rowPass g (rows r) done) l)
        (operandWord g (rows r) (rowPass g (rows r) done) k)) :
    RowSim L F g a rows nodes saved p r acc (done ++ [n]) (execs code m) := by
  have hdone : ∀ c ∈ (g n).children, c ∈ done := (H.post.split hnodes).2
  refine h.step_binary H hnodes hr hleaf hn.left hn.right (hdone l (by simp [hn.children]))
    (hdone k (by simp [hn.children])) hcode hopc fun m₁ _ v₁ v₂ => ?_
  rw [hrow, ← v₁, ← v₂]
  exact alu_exec o m₁

/-- **One node.** -/
theorem RowSim.step (H : ScalarMeta L F g a rows nodes) (hnodes : nodes = done ++ n :: todo)
    (h : RowSim L F g a rows nodes saved p r acc done m) (hr : r < 64) {code : List Instr}
    (hcode : scalarNode g a n = .ok code) :
    RowSim L F g a rows nodes saved p r acc (done ++ [n]) (execs code m) := by
  have hmem : n ∈ nodes := by rw [hnodes]; simp
  obtain ⟨t, e, he⟩ := H.typed n hmem
  have hdone : ∀ c ∈ (g n).children, c ∈ done := (H.post.split hnodes).2
  cases hleaf : (g n).kind.isLeaf with
  | true =>
    -- a leaf has no operands, no operation and no slot
    have hnil : code = [] := by
      cases e with
      | load | const =>
        rw [scalarNode, scalarOp, he.1.kind, he.1.left, he.1.right, H.leaf n hmem hleaf] at hcode
        exact (Except.ok.inj hcode).symm
      | add | sub | select | cmp | and | or | not =>
        rw [he.isLeaf] at hleaf; simp [Expr.compound] at hleaf
    subst hnil
    refine ⟨h.env, h.row, h.acc, fun x hx hxl => ?_, fun hx => ?_, h.rest⟩
    all_goals rw [rowPass_append_singleton, rowStep_leaf hleaf]
    · rcases List.mem_append.1 hx with hx | hx
      · exact h.holds x hx hxl
      · rw [List.mem_singleton.1 hx, hleaf] at hxl
        exact absurd hxl (by decide)
    · obtain ⟨x, hx, hxl⟩ := hx
      rcases List.mem_append.1 hx with hx | hx
      · exact h.res ⟨x, hx, hxl⟩
      · rw [List.mem_singleton.1 hx, hleaf] at hxl
        exact absurd hxl (by decide)
  | false =>
    cases e with
    | load | const => rw [he.isLeaf] at hleaf; simp [Expr.compound] at hleaf
    | add ea eb =>
      obtain ⟨l, k, hn, -, -⟩ := he
      exact h.step_alu H hnodes hr hleaf hn (o := .add) hcode (by rw [scalarOp, hn.kind])
        (by rw [rowOp, hn.kind, hn.left, hn.right]; rfl)
    | sub ea eb =>
      obtain ⟨l, k, hn, -, -⟩ := he
      exact h.step_alu H hnodes hr hleaf hn (o := .sub) hcode (by rw [scalarOp, hn.kind])
        (by rw [rowOp, hn.kind, hn.left, hn.right]; rfl)
    | and ea eb =>
      obtain ⟨l, k, hn, -, -⟩ := he
      exact h.step_alu H hnodes hr hleaf hn (o := .and) hcode (by rw [scalarOp, hn.kind])
        (by rw [rowOp, hn.kind, hn.left, hn.right]; rfl)
    | or ea eb =>
      obtain ⟨l, k, hn, -, -⟩ := he
      exact h.step_alu H hnodes hr hleaf hn (o := .orr) hcode (by rw [scalarOp, hn.kind])
        (by rw [rowOp, hn.kind, hn.left, hn.right]; rfl)
    | cmp op ea eb =>
      obtain ⟨l, k, hn, -, -⟩ := he
      refine h.step_binary H hnodes hr hleaf hn.left hn.right (hdone l (by simp [hn.children]))
        (hdone k (by simp [hn.children])) hcode (scalarOp_cmp hn.kind) fun m₁ _ v₁ v₂ => ?_
      rw [rowOp_cmp hn, ← v₁, ← v₂]
      exact scalarCompare_exec op m₁
    | select ec ea eb =>
      obtain ⟨i, l, k, hn, hi, -, -⟩ := he
      have hid : i ∈ done := hdone i (by simp [hn.children])
      have hil : (g i).kind.isLeaf = false := by
        rw [hi.isLeaf]
        cases ec <;> rfl
      obtain ⟨h0, -⟩ := H.slot i (by rw [hnodes]; simp [hid]) hil
      refine h.step_binary H hnodes hr hleaf hn.left hn.right (hdone l (by simp [hn.children]))
        (hdone k (by simp [hn.children])) hcode (by rw [scalarOp, hn.kind, hn.cond]; rfl)
        fun m₁ h₁ v₁ v₂ => ?_
      have hpad : m₁.mem (L.scratch + BitVec.ofNat 64 (8 * (a i).slotId.toNat)) = _ :=
        h₁.holds i hid hil
      rw [rowOp, hn.kind, hn.left, hn.right, hn.cond, Option.elim_some, Option.elim_some,
        Option.elim_some, ← v₁, ← v₂]
      refine ⟨?_, by simp, fun q hq => ?_⟩
      · simp [h₁.env.x20, byteOffset_toNat h0, hpad, Cond.holds, cmpFlags]
      · simp only [List.mem_cons, List.not_mem_nil, or_false, not_or] at hq
        simp [hq]
    | not ea =>
      obtain ⟨l, hn, hl⟩ := he
      have hld : l ∈ done := hdone l (by simp [hn.children])
      have hll : (g l).kind.isLeaf = false := by
        rw [hl.isLeaf]
        cases ea <;> rfl
      obtain ⟨-, hmem₁, hk₁⟩ := getOperand_exec H h hr hld (by rw [hnodes]; simp [hld]) 16
      rw [scalarNode, scalarOp, hn.kind, hn.left, hn.right] at hcode
      obtain rfl := Except.ok.inj hcode
      have hk : Keeps [tempReg, valLeft, valRight] m
          (execs (getOperand g a (some l) valLeft ++ getOperand g a none valRight) m) := by
        simpa [getOperand] using hk₁.mono (by decide)
      have hmem' : (execs (getOperand g a (some l) valLeft ++ getOperand g a none valRight) m).mem =
          m.mem := by simpa [getOperand] using hmem₁
      refine h.step_op H hnodes hleaf hk hmem' ⟨?_, rfl, Keeps.refl _ _⟩
      -- no operation: the result register still holds the word before
      rw [rowOp, hn.kind]
      exact (h.of_mem_eq hk hmem').res ⟨l, hld, hll⟩

/-- **The nodes of a row.** -/
theorem RowSim.run (H : ScalarMeta L F g a rows nodes) (hr : r < 64) :
    ∀ {todo done : List ℕ} {m : Machine} {code : List Instr}, nodes = done ++ todo →
      RowSim L F g a rows nodes saved p r acc done m → scalarNodes g a todo = .ok code →
        RowSim L F g a rows nodes saved p r acc nodes (execs code m) := by
  intro todo
  induction todo with
  | nil =>
    intro done m code hnodes h he
    obtain rfl := Except.ok.inj he
    rw [List.append_nil] at hnodes
    exact hnodes ▸ h
  | cons n todo ih =>
    intro done m code hnodes h he
    obtain ⟨c, hn, he⟩ := bind_ok he
    obtain ⟨rest, hrest, he⟩ := bind_ok he
    obtain rfl := Except.ok.inj he
    rw [execs_append]
    exact ih (by rw [hnodes]; simp) (h.step H hnodes hr hn) hrest

end Row

end Jit
end AarchGate
