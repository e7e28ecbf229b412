/-
# The logic on a single field

`ApexEngine::set_logic`, and the part of `execute` and `execute_parallel` in
`src/api/engine.cpp` that chooses between the expressions and this older logic.

An engine keeps two maps by schema name: `expr_logic_`, filled by `set_expression`, and
`compiled_logic_`, filled by `set_logic`.  `execute` takes the first entry of `expr_logic_`
in the iteration order of the map, and only if there is none the first entry of
`compiled_logic_`.  The model of the older logic is laid over that of the expressions
(`Engine.Model`), which it does not touch.

`legacyChunks_total`: the older logic counts the rows above its threshold, although it
masks no rows of a short chunk: the lanes there hold zeros.
-/

import AarchGate.Engine.Correct
import AarchGate.Engine.Parallel
import AarchGate.Jit.Comparison

namespace AarchGate
namespace Engine

open A64 Ir AarchGate.Core Compute BitPlane
open Jit (Abi Fault wordAt compileComparison)
open ApexEngine

/-- `ApexEngine::CompiledLogic`. -/
structure CompiledLogic where
  field : FieldDescriptor
  -- `nullptr` where the runtime rejected the code
  kernel : Option (List Instr)

/-- `ApexEngine`, with `compiled_logic_`. -/
structure LegacyEngine extends ApexEngine where
  compiledLogic : List (Name × CompiledLogic)

namespace CompiledLogic

variable (L : CompiledLogic)

/-- The machine on which a kernel for a single column starts. -/
def entry (A : Abi) (planes : ColumnBuffer) : Machine :=
  (A.enter (fun i => if i = 0 then some planes else none) fun _ => 0).write (.x 0) (A.layout.plane 0)

/-- `logic.kernel(planes)`. -/
def invoke (A : Abi) (planes : ColumnBuffer) : Option Word := do
  let code ← L.kernel
  let m ← call code (entry A planes)
  some (m.read (.x 0))

variable (PF : Platform) (data : ℕ → BitVec 8) (rowStride rowCount : ℕ)

/-- The column of a chunk, sliced. -/
def planes (chunk : ℕ) (buf : ColumnBuffer) : ColumnBuffer :=
  sliceN PF.hwy (gatherField data (chunk * 64 * rowStride) L.field rowStride
    (min 64 (rowCount - chunk * 64)) buf) 64

/-- The loop over the chunks. -/
def legacyChunks : List ℕ → Word → ColumnBuffer → Option (Word × ColumnBuffer)
  | [], total, buf => some (total, buf)
  | chunk :: rest, total, buf => do
      let buf' := L.planes PF data rowStride rowCount chunk buf
      let mask ← L.invoke PF.abi buf'
      legacyChunks rest (total + mask.cpop) buf'

end CompiledLogic

namespace LegacyEngine

/-- A new engine. -/
def init : LegacyEngine := { ApexEngine.init with compiledLogic := [] }

/-- `ApexEngine::register_schema`. -/
def registerSchema (E : LegacyEngine) (schemaName : Name) (fields : List FieldDescriptor)
    (totalRowStride : ℕ) : LegacyEngine :=
  { E with toApexEngine := E.toApexEngine.registerSchema schemaName fields totalRowStride }

/-- `ApexEngine::set_logic`. -/
def setLogic (PF : Platform) (E : LegacyEngine) (schemaName fieldName : Name) (threshold : Word) :
    LegacyEngine :=
  match E.registry.getField schemaName fieldName with
  | none => E
  | some field =>
    let logic : CompiledLogic := ⟨field, compileComparison PF.rt threshold⟩
    { E with compiledLogic := assignLogic E.compiledLogic schemaName logic }

/-- `ApexEngine::set_expression`. -/
def setExpression (PF : Platform) (E : LegacyEngine) (schemaName : Name) (g : ℕ → Node)
    (a : ℕ → Annot) (exprRoot : Option ℕ) (mode : ExecutionMode) :
    Except Fault ((ℕ → Annot) × LegacyEngine) :=
  (ApexEngine.setExpression PF E.toApexEngine schemaName g a exprRoot mode).map fun r =>
    (r.1, { E with toApexEngine := r.2 })

section Execute

variable (PF : Platform) (E : LegacyEngine) (data : ℕ → BitVec 8) (rowCount : ℕ)

/-- The logic on a single field, for an engine without expressions. -/
def executeLegacy : Option (Word × LegacyEngine) :=
  if E.compiledLogic = [] then some (0, E)
  else
    match PF.firstKey (E.compiledLogic.map (·.1)) with
    | none => some (0, E)
    | some logicKey =>
      match E.compiledLogic.lookup logicKey, E.schemaMetadata logicKey with
      | some L, some md =>
        (L.legacyChunks PF data md.rowStride rowCount (List.range ((rowCount + 63) / 64)) 0
          (E.fieldBuffers 0)).map fun r =>
            (r.1, { E with fieldBuffers := Function.update E.fieldBuffers 0 r.2 })
      | _, _ => some (0, E)

/-- `ApexEngine::execute`. -/
def execute : Option (Word × LegacyEngine) :=
  if E.exprLogic = [] then E.executeLegacy PF data rowCount
  else (ApexEngine.execute PF E.toApexEngine data rowCount).map fun r =>
    (r.1, { E with toApexEngine := r.2 })

/-- `ApexEngine::execute_parallel`. -/
def executeParallel (numThreads : ℤ) (bufs : ℕ → ℕ → ColumnBuffer) : Option Word :=
  if E.exprLogic = [] then (E.execute PF data rowCount).map (·.1)
  else ApexEngine.executeParallel PF E.toApexEngine data rowCount numThreads bufs

end Execute

end LegacyEngine

/-! ### What the logic counts -/

namespace CompiledLogic

/-- The kernel finds the column of the caller. -/
theorem entry_mem (A : Abi) (planes : ColumnBuffer) {b : ℕ} (hb : b < 64) :
    (entry A planes).mem (wordAt ((entry A planes).read (.x 0)) b) = planes b := by
  have hpos : 1 ≤ A.layout.numFields := by have := A.fields; omega
  have h := (A.args (fun i => if i = 0 then some planes else none) (fun _ => 0) 1 hpos
    (by simp)).planes 0 Nat.zero_lt_one b hb
  rw [entry, Machine.mem_write, Machine.read_write_x, if_pos rfl]
  exact h

/-- The mask of a chunk. -/
theorem invoke_mask {L : CompiledLogic} {rt : List Instr → Bool} {threshold : Word}
    {code : List Instr} (hcode : compileComparison rt threshold = some code)
    (hL : L.kernel = some code) (A : Abi) {planes : ColumnBuffer} {v : ℕ → Word}
    (hv : Planes planes v) :
    ∃ mask, L.invoke A planes = some mask ∧ Mask mask fun r => decide (threshold < v r) := by
  obtain ⟨m, hcall, hmask⟩ := Jit.comparison_call hcode hv (m := entry A planes)
    fun b hb => entry_mem A planes hb
  exact ⟨m.read (.x 0), by simp [invoke, hL, hcall], hmask⟩

/-- **The count of a chunk.**  The lanes above the last row hold zeros, which are above no
threshold, so a mask of the rows is not needed. -/
theorem count_chunk {data : ℕ → BitVec 8} {base rowStride rows : ℕ} {field : FieldDescriptor}
    {buf : ColumnBuffer} {threshold mask : Word} (hrows : rows ≤ 64)
    (hmask : Mask mask fun r =>
      decide (threshold < gatherField data base field rowStride rows buf r)) :
    mask.cpop = ∑ r ∈ Finset.range rows,
      bit (decide (threshold < load64 data (base + r * rowStride + field.offset))) := by
  have hmasked : mask &&& rowsMask rows = mask := by
    refine BitVec.eq_of_getLsbD_eq fun r hr => ?_
    rw [BitVec.getLsbD_and, hmask r hr, rowsMask_below hrows r hr]
    simp only [gatherField_apply _ _ _ _ _ _ hr]
    by_cases h : r < rows <;> simp [h]
  rw [← hmasked, hmask.cpop_and (rowsMask_below hrows) hrows]
  refine Finset.sum_congr rfl fun r hr => ?_
  have hr' := Finset.mem_range.1 hr
  rw [gatherField_apply _ _ _ _ _ _ (by omega), if_pos hr']

/-- **The chunks of the logic** add up the rows above the threshold. -/
theorem legacyChunks_total (PF : Platform) {L : CompiledLogic} {rt : List Instr → Bool}
    {threshold : Word} {code : List Instr} (hcode : compileComparison rt threshold = some code)
    (hL : L.kernel = some code) (data : ℕ → BitVec 8) (rowStride rowCount : ℕ) (buf : ColumnBuffer) :
    ∃ buf', L.legacyChunks PF data rowStride rowCount (List.range ((rowCount + 63) / 64)) 0 buf =
      some (∑ r ∈ Finset.range rowCount,
        bit (decide (threshold < load64 data (r * rowStride + L.field.offset))), buf') := by
  set v : ℕ → Word := fun r => bit (decide (threshold < load64 data (r * rowStride + L.field.offset)))
  have hrun : ∀ n c buf, c + n = (rowCount + 63) / 64 → ∃ buf',
      L.legacyChunks PF data rowStride rowCount (List.range' c n)
        (∑ r ∈ Finset.range (min rowCount (c * 64)), v r) buf =
          some (∑ r ∈ Finset.range rowCount, v r, buf') := by
    intro n
    induction n with
    | zero =>
      intro c buf hc
      exact ⟨buf, by rw [Nat.min_eq_left (by omega)]; rfl⟩
    | succ n ih =>
      intro c buf hc
      obtain ⟨mask, hinv, hmask⟩ := invoke_mask hcode hL PF.abi (sliceN_planes PF.hwy
        (gatherField data (c * 64 * rowStride) L.field rowStride (min 64 (rowCount - c * 64)) buf))
      obtain ⟨buf', hrest⟩ := ih (c + 1) (L.planes PF data rowStride rowCount c buf) (by omega)
      refine ⟨buf', ?_⟩
      have hcount : mask.cpop = ∑ r ∈ Finset.range (min 64 (rowCount - c * 64)), v (c * 64 + r) := by
        rw [count_chunk (Nat.min_le_left ..) hmask]
        exact Finset.sum_congr rfl fun r _ => by rw [← Nat.add_mul]
      rw [sum_next_chunk v (by omega), ← hcount] at hrest
      rw [List.range'_succ, legacyChunks]
      simp only [planes] at hrest ⊢
      simp only [hinv, Option.bind_eq_bind, Option.bind_some]
      exact hrest
  obtain ⟨buf', h⟩ := hrun ((rowCount + 63) / 64) 0 buf (by omega)
  refine ⟨buf', ?_⟩
  rw [← List.range_eq_range'] at h
  simpa using h

end CompiledLogic

end Engine
end AarchGate
