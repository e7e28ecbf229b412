/-
# The shader source

`ApexEngine::generate_msl_source` in `src/api/engine.cpp`: the Metal kernel that
`set_expression` generates for the `GPU_THROUGHPUT` mode.

The text is kept as its syntax, `MslSource`: the size of the scratchpad, one
statement per node in depth-first post-order (a `Stmt` is the whole text emitted for
a node, with its numbers), and the constants of the aggregator at the end.  What is
the same in every kernel, the helper functions and the reduction, is in
`Gpu.Group` with the meaning of the statements.

Before the text is emitted the nodes are numbered again: `slot_id` becomes the
position of the node among those that are not skipped.  A slot is an `int`, so that
the `-1` of a node that never got one can be written; a null pointer that is read
is undefined behaviour.  The walk has the bound on its depth that the pool gives it.
-/

import AarchGate.Engine.SumMeta

namespace AarchGate
namespace Gpu

open A64 Ir
open Jit (Fault deref setAnnot)

/-- The text emitted for one node; `dst` is the slot it is about. -/
inductive Stmt where
  | load (dst : ℤ) (numFields : ℕ) (fieldIdx : ℤ)
  | const (dst : ℤ) (value : Word)
  | and (dst left right : ℤ)
  | or (dst left right : ℤ)
  | not (dst left : ℤ)
  | select (dst cond left right : ℤ)
  | compare (op : Cmp) (dst left right : ℤ)
  | add (dst left right : ℤ)
  | sub (dst left right : ℤ)
  deriving DecidableEq, Repr

/-- The slot a statement writes. -/
def Stmt.dst : Stmt → ℤ
  | load d _ _ | const d _ | and d _ _ | or d _ _ | not d _ | select d _ _ _ | compare _ d _ _
  | add d _ _ | sub d _ _ => d

/-- The slots a statement names. -/
def Stmt.slots : Stmt → List ℤ
  | load d _ _ | const d _ => [d]
  | not d l => [d, l]
  | and d l r | or d l r | compare _ d l r | add d l r | sub d l r => [d, l, r]
  | select d c l r => [d, c, l, r]

/-- The generated kernel; `leaves` are the slots of the masks that are counted, each
with its weight. -/
structure MslSource where
  scratchpadSize : ℕ
  body : List Stmt
  baseSum : Word
  leaves : List (ℤ × Word)
  deriving DecidableEq, Repr

section Generate

variable (g : ℕ → Node)

/-- `dfs`: the nodes visited and the `post_order`. -/
def dfs : ℕ → ℕ → List ℕ × List ℕ → List ℕ × List ℕ
  | 0, _, st => st
  | fuel + 1, n, st =>
      if n ∈ st.1 then st
      else
        let st' := (g n).children.foldl (fun s c => dfs fuel c s) (n :: st.1, st.2)
        (st'.1, st'.2 ++ [n])

/-- The `post_order` of the expression at `root`. -/
def postOrder (root : ℕ) : List ℕ := (dfs g (NodePool.maxNodes + 1) root ([], [])).2

/-- The sequential `slot_id`s: the metadata, and the next slot. -/
def assignSlots : List ℕ → (ℕ → Annot) × ℕ → (ℕ → Annot) × ℕ
  | [], st => st
  | n :: ns, (a, next) =>
      if (a n).skipJit then assignSlots ns (a, next)
      else assignSlots ns (setAnnot a n fun x => { x with slotId := next }, next + 1)

variable (a : ℕ → Annot)

/-- The statement of a node with two operands. -/
def emitBinary (stmt : ℤ → ℤ → ℤ → Stmt) (n : ℕ) : Except Fault (List Stmt) := do
  let l ← deref (g n).left
  let r ← deref (g n).right
  .ok [stmt (a n).slotId (a l).slotId (a r).slotId]

/-- The `switch` over the kinds. -/
def emitNode (numFields n : ℕ) : Except Fault (List Stmt) :=
  if (a n).skipJit then .ok []
  else match (g n).kind with
    | .LOAD => .ok [.load (a n).slotId numFields (a n).fieldIdx]
    | .CONST => .ok [.const (a n).slotId (g n).constValue]
    | .AND => emitBinary g a .and n
    | .OR => emitBinary g a .or n
    | .NOT => do
        let l ← deref (g n).left
        .ok [.not (a n).slotId (a l).slotId]
    | .SELECT => do
        let c ← deref (g n).cond
        let l ← deref (g n).left
        let r ← deref (g n).right
        .ok [.select (a n).slotId (a c).slotId (a l).slotId (a r).slotId]
    | .GT => emitBinary g a (.compare .gt) n
    | .GE => emitBinary g a (.compare .ge) n
    | .LT => emitBinary g a (.compare .lt) n
    | .LE => emitBinary g a (.compare .le) n
    | .EQ => emitBinary g a (.compare .eq) n
    | .ADD => emitBinary g a .add n
    | .SUB => emitBinary g a .sub n
    | _ => .ok []

/-- The statements of the nodes, one after the other. -/
def emitBody (numFields : ℕ) : List ℕ → Except Fault (List Stmt)
  | [] => .ok []
  | n :: ns => do
      let s ← emitNode g a numFields n
      let ss ← emitBody numFields ns
      .ok (s ++ ss)

/-- `ApexEngine::generate_msl_source`, for a schema of `numFields` fields: the metadata
left in the nodes, and the kernel. -/
def generateMslSource (numFields root : ℕ) : Except Fault ((ℕ → Annot) × MslSource) := do
  let order := postOrder g root
  let (a', next) := assignSlots order (a, 0)
  let body ← emitBody g a' numFields order
  let (baseSum, deltaWeights, masksToPopcount) ← Engine.ApexEngine.sumMeta g a' root
  .ok (a',
    { scratchpadSize := if next = 0 then 1 else next
      body
      baseSum
      leaves := masksToPopcount.zip deltaWeights })

end Generate

end Gpu
end AarchGate
