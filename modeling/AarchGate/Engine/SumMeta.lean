/-
# What a `SUM` root adds up

The fourth step of `set_expression` in `src/api/engine.cpp`, which
`generate_msl_source` repeats for the shader: the constant below an
`ADD(SUM(..), CONST)`, and for every operand of the `SUM` the value it adds to the
base sum, its weight and the slot of its mask.  A well-typed root has none of this
(`sumMeta_typed`).
-/

import AarchGate.Jit.Compile
import Mathlib.Data.BitVec

namespace AarchGate
namespace Engine
namespace ApexEngine

open A64 Ir
open Jit (Fault deref)

variable (g : ℕ → Node)

/-- `ADD(SUM(..), CONST)`: the test of the first and the fourth step. -/
def isSumPlusConst (root : ℕ) : Except Fault Bool :=
  if (g root).kind = .ADD then do
    let l ← deref (g root).left
    if (g l).kind = .SUM then do
      let r ← deref (g root).right
      .ok ((g r).kind = .CONST)
    else .ok false
  else .ok false

/-- The `SUM` below the root, or the root itself. -/
def effectiveRoot (root : ℕ) : Except Fault ℕ := do
  if ← isSumPlusConst g root then deref (g root).left else .ok root

/-- The constant an operand is, if it is one. -/
def constOf (n : Option ℕ) : Option Word :=
  n.bind fun i => if (g i).kind = .CONST then some (g i).constValue else none

/-- Step 4 for one operand of the `SUM`: what it adds to the base sum, its weight
and its mask. -/
def operandMeta (a : ℕ → Annot) (op : ℕ) : Except Fault (Word × Word × ℤ) :=
  if (g op).kind = .SELECT then do
    let c ← deref (g op).cond
    let rightVal := (constOf g (g op).right).getD 0
    .ok (rightVal, (constOf g (g op).left).getD (g op).weight - rightVal, (a c).slotId)
  else .ok (0, (g op).weight, (a op).slotId)

/-- Step 4: the base sum, the weights and the masks of a `SUM` root. -/
def sumMeta (a : ℕ → Annot) (root : ℕ) : Except Fault (Word × List Word × List ℤ) := do
  let base ← if ← isSumPlusConst g root then do
      let r ← deref (g root).right
      .ok (g r).constValue
    else .ok 0
  let sum ← effectiveRoot g root
  if (g sum).kind = .SUM then do
    let ops ← (g sum).operands.mapM (operandMeta g a)
    .ok (base + (ops.map (·.1)).sum, ops.map (·.2.1), ops.map (·.2.2))
  else .ok (base, [], [])

variable {g} {t : Ty} {e : Expr t} {root : ℕ}

/-- The tests for a `SUM` fail. -/
theorem isSumPlusConst_typed (he : Represents g e root) : isSumPlusConst g root = .ok false := by
  unfold isSumPlusConst
  by_cases hk : (g root).kind = .ADD
  · rw [if_pos hk]
    cases e with
    | add a b =>
      obtain ⟨l, r, hb, ha, -⟩ := he
      have hl : (g l).kind ≠ .SUM := by rw [ha.kind]; exact Expr.kind_ne_sum a
      simp only [hb.left, deref, bind, Except.bind, if_neg hl]
    | cmp op => rw [he.kind] at hk; cases op <;> simp [Expr.kind, Cmp.kind] at hk
    | _ => rw [he.kind] at hk; simp [Expr.kind] at hk
  · rw [if_neg hk]

theorem effectiveRoot_typed (he : Represents g e root) : effectiveRoot g root = .ok root := by
  simp only [effectiveRoot, isSumPlusConst_typed he, bind, Except.bind, Bool.false_eq_true, if_false]

/-- A well-typed root has no weights. -/
theorem sumMeta_typed (he : Represents g e root) (a : ℕ → Annot) :
    sumMeta g a root = .ok (0, [], []) := by
  have hk : (g root).kind ≠ .SUM := by rw [he.kind]; exact Expr.kind_ne_sum e
  simp only [sumMeta, isSumPlusConst_typed he, effectiveRoot_typed he, bind, Except.bind,
    Bool.false_eq_true, if_false, if_neg hk]

end ApexEngine
end Engine
end AarchGate
