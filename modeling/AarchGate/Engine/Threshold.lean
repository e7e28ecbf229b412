/-
# A threshold on a single field

`set_logic(schema, field, t)` and `set_expression(schema, GT(Load(field), Const(t)))` are two
ways to count the rows of a schema whose field is above `t`.  They share no code: the first
has a kernel that is unrolled over the bits of the threshold and masks no rows, the second
goes through the compiler of expressions.

`setLogic_eq_setExpression`: both count the same rows, those above the threshold, for every
field of 64 bits with a name that fits into a node, all data and every number of rows.
-/

import AarchGate.Engine.Selection
import AarchGate.Engine.Width
import AarchGate.Ir.Build
import AarchGate.Jit.Accept

namespace AarchGate
namespace Engine

open A64 Ir AarchGate.Core Compute BitPlane
open Jit (compileComparison)
open ApexEngine

/-- `GT(Load(field), Const(t))`; the order of the two arguments is that of the compiler. -/
def thresholdExpr (loadFirst : Bool) (fieldName : Name) (threshold : Word) :
    StateM NodePool (Option ℕ) :=
  if loadFirst then do
    let field ← Builder.Load fieldName
    Builder.GT field (← Builder.Const threshold)
  else do
    let const ← Builder.Const threshold
    Builder.GT (← Builder.Load fieldName) const

/-- The builder calls, in a pool with room for three nodes. -/
theorem thresholdExpr_holds {P : NodePool} (hP : Ready P 3) (loadFirst : Bool) {fieldName : Name}
    (hname : fieldName.length < 64) (threshold : Word) :
    ∃ root P', thresholdExpr loadFirst fieldName threshold P = (some root, P') ∧ Built P' ∧
      Holds P' (.cmp .gt (.load fieldName) (.const threshold)) root := by
  have htake : fieldName.take 63 = fieldName := List.take_of_length_le (by omega)
  cases loadFirst with
  | true =>
    obtain ⟨l, P₁, e₁, hP, -, hl⟩ := Builder.load_rule hP fieldName
    obtain ⟨c, P₂, e₂, hP, k₂, hc⟩ := Builder.const_rule hP threshold
    obtain ⟨root, P₃, e₃, hP, -, hroot⟩ := Builder.gt_rule hP (k₂ hl) hc
    rw [htake] at hroot
    refine ⟨root, P₃, ?_, hP.built, hroot⟩
    rw [thresholdExpr, if_pos rfl, bind_run e₁, bind_run e₂]
    exact e₃
  | false =>
    obtain ⟨c, P₁, e₁, hP, -, hc⟩ := Builder.const_rule hP threshold
    obtain ⟨l, P₂, e₂, hP, k₂, hl⟩ := Builder.load_rule hP fieldName
    obtain ⟨root, P₃, e₃, hP, -, hroot⟩ := Builder.gt_rule hP hl (k₂ hc)
    rw [htake] at hroot
    refine ⟨root, P₃, ?_, hP.built, hroot⟩
    rw [thresholdExpr, if_neg (by decide), bind_run e₁, bind_run e₂]
    exact e₃

/-- The number of rows whose field is above the threshold. -/
def rowsAbove (field : FieldDescriptor) (rowStride : ℕ) (threshold : Word) (data : ℕ → BitVec 8)
    (rowCount : ℕ) : ℕ :=
  ((Finset.range rowCount).filter fun r =>
    threshold < declaredValue data (r * rowStride + field.offset) field.bitWidth).card

namespace LegacyEngine

/-- An engine without logic that does not know the schema; it may know others. -/
structure Unused (E : LegacyEngine) (schemaName : Name) : Prop where
  exprLogic : E.exprLogic = []
  compiledLogic : E.compiledLogic = []
  schema : E.registry.schemas schemaName = none

section Paths

variable {E : LegacyEngine} {schemaName : Name} (hE : E.Unused schemaName)
  {fields : List FieldDescriptor} (rowStride : ℕ) {fieldName : Name} {field : FieldDescriptor}
  (hfield : fields.find? (fun d => d.name = fieldName) = some field) (hwidth : field.bitWidth = 64)
  {PF : Platform} {threshold : Word}

/-- The rows above the threshold, as a count of the values of an expression. -/
theorem rowTotal_rowsAbove {v : ℕ → Bool} {data : ℕ → BitVec 8} {rowCount : ℕ}
    (hwidth : field.bitWidth = 64)
    (hv : ∀ r, v r = decide (threshold < load64 data (r * rowStride + field.offset))) :
    rowTotal (t := .bool) v rowCount =
      BitVec.ofNat 64 (rowsAbove field rowStride threshold data rowCount) := by
  show BitVec.ofNat 64 _ = _
  simp only [rowsAbove, hv, decide_eq_true_eq, hwidth, declaredValue_64]

include hE hfield hwidth

/-- **The logic on a single field** counts the rows above the threshold. -/
theorem setLogic_execute {code : List Instr} (hcode : compileComparison PF.rt threshold = some code)
    (data : ℕ → BitVec 8) (rowCount : ℕ) :
    ∃ E', ((E.registerSchema schemaName fields rowStride).setLogic PF schemaName fieldName
      threshold).execute PF data rowCount =
        some (BitVec.ofNat 64 (rowsAbove field rowStride threshold data rowCount), E') := by
  set E₁ := (E.registerSchema schemaName fields rowStride).setLogic PF schemaName fieldName threshold
    with hE₁
  have hget : (E.registerSchema schemaName fields rowStride).registry.getField schemaName fieldName =
      some field := (SchemaRegistry.getField_registerSchema hE.schema fields fieldName).trans hfield
  have hlogic : E₁.compiledLogic = [(schemaName, ⟨field, some code⟩)] := by
    rw [hE₁, setLogic, hget, hcode]
    show assignLogic E.compiledLogic schemaName _ = _
    rw [hE.compiledLogic]
    rfl
  have hengine : E₁.toApexEngine = E.toApexEngine.registerSchema schemaName fields rowStride := by
    rw [hE₁, setLogic, hget]
    rfl
  have hsel : E₁.selected PF = some (.logic schemaName ⟨field, some code⟩) :=
    selected_logic (by rw [hengine]; exact hE.exprLogic) (by simp [hlogic]) (by simp [hlogic])
  have hmd : (E₁.schemaMetadata schemaName).map (·.rowStride) = some rowStride := by
    rw [hengine]
    simp [ApexEngine.registerSchema, Map.assign]
  obtain ⟨buf, hchunks⟩ := CompiledLogic.legacyChunks_total PF (L := ⟨field, some code⟩) hcode rfl data
    rowStride rowCount (E₁.fieldBuffers 0)
  refine ⟨{ E₁ with fieldBuffers := Function.update E₁.fieldBuffers 0 buf }, ?_⟩
  rw [(evaluates_of_selected hsel hmd (by simp [Install.target])).execute, Install.execute, hchunks,
    ← rowTotal_rowsAbove rowStride hwidth (fun _ => rfl), rowTotal_eq_sum]
  rfl

/-- **The expression** counts the rows above the threshold. -/
theorem setExpression_execute (hrt : ∀ code, PF.rt code = true) {P : NodePool} (hP : Built P)
    {root : ℕ} (hroot : Ir.Holds P (.cmp .gt (.load fieldName) (.const threshold)) root) :
    ∃ a E', (E.registerSchema schemaName fields rowStride).setExpression PF schemaName P.storage
        P.annot (some root) .BIT_SLICED = .ok (a, E') ∧
      ∀ data rowCount, ∃ E'', E'.execute PF data rowCount =
        some (BitVec.ofNat 64 (rowsAbove field rowStride threshold data rowCount), E'') := by
  obtain ⟨a, code, hcomp⟩ := Jit.compile_isOk hP hrt P.annot hroot.represents rfl (by simp [Expr.fields])
    ((Jit.AtMostCompound.of_represents hroot.represents).mono (show 1 ≤ 256 by decide))
    (.of_all hroot.represents rfl) 64
  obtain ⟨E', hset, hacc⟩ := setExpression_accepts
    (E.toApexEngine.registerSchema schemaName fields rowStride) schemaName hroot.represents hcomp
  obtain ⟨-, hexec⟩ := bitSliced_execute hP hroot.represents rfl rfl hroot.fresh hE.schema
    hE.exprLogic (fun f hf => by
      obtain rfl : f = fieldName := by simpa [Expr.fields] using hf
      exact ⟨field, List.mem_of_find?_eq_some hfield, by simpa using List.find?_some hfield⟩) hset hacc
  refine ⟨a, { E with toApexEngine := E' }, ?_, fun data rowCount => ?_⟩
  · rw [setExpression]
    show (ApexEngine.setExpression PF (E.toApexEngine.registerSchema schemaName fields rowStride) _ _ _ _
      _).map _ = _
    rw [hset]
    rfl
  · obtain ⟨E'', hE''⟩ := hexec E'.fieldBuffers data rowCount
    refine ⟨{ E with toApexEngine := E'' }, ?_⟩
    rw [LegacyEngine.execute, if_neg hacc, ← rowTotal_rowsAbove rowStride hwidth (fun r => ?_)]
    · exact congrArg (Option.map _) hE''
    · simp [Expr.eval, Expr.evalWith, Cmp.holds, rowOf, recordAt, hfield]

end Paths

end LegacyEngine

open LegacyEngine in
/-- **The two ways agree.**  For a schema registered once, a field of 64 bits with a name of
fewer than 64 characters, every threshold, all data and every number of rows: an engine with
the logic on the field and an engine with the expression both return the number of rows above
the threshold, although the first masks no rows of the last chunk. -/
theorem setLogic_eq_setExpression (PF : Platform) (hrt : ∀ code, PF.rt code = true)
    {E₁ E₂ : LegacyEngine} {schemaName : Name} (h₁ : E₁.Unused schemaName)
    (h₂ : E₂.Unused schemaName) {fields : List FieldDescriptor} (rowStride : ℕ) {fieldName : Name}
    {field : FieldDescriptor} (hfield : fields.find? (fun d => d.name = fieldName) = some field)
    (hname : fieldName.length < 64) (hwidth : field.bitWidth = 64) (threshold : Word)
    {P : NodePool} (hP : Ready P 3) (loadFirst : Bool) :
    ∃ root P' a E, thresholdExpr loadFirst fieldName threshold P = (some root, P') ∧
      (E₂.registerSchema schemaName fields rowStride).setExpression PF schemaName P'.storage P'.annot
        (some root) .BIT_SLICED = .ok (a, E) ∧
      ∀ data rowCount, ∃ E₁' E₂',
        ((E₁.registerSchema schemaName fields rowStride).setLogic PF schemaName fieldName
            threshold).execute PF data rowCount =
          some (BitVec.ofNat 64 (rowsAbove field rowStride threshold data rowCount), E₁') ∧
        E.execute PF data rowCount =
          some (BitVec.ofNat 64 (rowsAbove field rowStride threshold data rowCount), E₂') := by
  obtain ⟨root, P', hbuild, hbuilt, hroot⟩ := thresholdExpr_holds hP loadFirst hname threshold
  obtain ⟨a, E, hset, hexec⟩ := setExpression_execute h₂ rowStride hfield hwidth hrt hbuilt hroot
  refine ⟨root, P', a, E, hbuild, hset, fun data rowCount => ?_⟩
  obtain ⟨E₁', hE₁⟩ := setLogic_execute h₁ rowStride hfield hwidth
    (show compileComparison PF.rt threshold = some _ by rw [compileComparison]; exact if_pos (hrt _))
    data rowCount
  obtain ⟨E₂', hE₂⟩ := hexec data rowCount
  exact ⟨E₁', E₂', hE₁, hE₂⟩

/-- `a > 20` on 65 rows, one more than a chunk, of which the even ones have `a = 30`. -/
theorem setLogic_eq_setExpression_rows :
    ∃ root P' a E E₁' E₂',
      thresholdExpr true ['a'] 20 NodePool.empty = (some root, P') ∧
      (LegacyEngine.init.registerSchema ['t'] oneField 8).setExpression .standard ['t'] P'.storage
        P'.annot (some root) .BIT_SLICED = .ok (a, E) ∧
      ((LegacyEngine.init.registerSchema ['t'] oneField 8).setLogic .standard ['t'] ['a'] 20).execute
          .standard (fun p => if p % 16 = 0 then 30 else 0) 65 = some (33, E₁') ∧
      E.execute .standard (fun p => if p % 16 = 0 then 30 else 0) 65 = some (33, E₂') := by
  have hnew : LegacyEngine.init.Unused ['t'] := ⟨rfl, rfl, rfl⟩
  have hP : Ready NodePool.empty 3 := ⟨.empty, by decide⟩
  obtain ⟨root, P', a, E, hbuild, hset, hexec⟩ := setLogic_eq_setExpression .standard (fun _ => rfl)
    hnew hnew 8 (show oneField.find? (fun d => d.name = ['a']) = some _ from rfl) (by decide) rfl 20 hP
    true
  obtain ⟨E₁', E₂', h₁, h₂⟩ := hexec (fun p => if p % 16 = 0 then 30 else 0) 65
  have hcount : rowsAbove ⟨['a'], 0, 64, .UINT64⟩ 8 20 (fun p => if p % 16 = 0 then 30 else 0) 65 = 33 := by
    decide
  rw [hcount] at h₁ h₂
  exact ⟨root, P', a, E, E₁', E₂', hbuild, hset, h₁, h₂⟩

end Engine
end AarchGate
