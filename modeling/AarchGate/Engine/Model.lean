/-
# The engine

`include/apex/engine.hpp` and `src/api/engine.cpp`: `ApexEngine::register_schema`,
`set_expression`, `gather_field`, `process_chunk_expr` and `execute`.

`set_expression` compiles an expression and keeps, with the kernel, the fields it
reads and the weights of a `SUM` root.  `execute` cuts the rows into chunks of 64,
gathers the fields of a chunk into columns, slices them into bit-planes, calls
the kernel and adds up what it returns.

Row counts, strides and offsets (`size_t`) are natural numbers, the totals
(`int64_t`) are words, so that they wrap.  The data is a function from byte
offsets to bytes, and the scratchpad is allocated.  The engine here holds expressions
only, and without one `execute` returns 0; the logics on a single field (`set_logic`)
are in `Engine.Legacy`.  The platform is not the one with a GPU: in the
`GPU_THROUGHPUT` mode `execute` returns 0 here, and what it does on the other one is in
`Gpu.Execute`.
-/

import AarchGate.Compute.BitSlicer
import AarchGate.Core.Registry
import AarchGate.Gpu.Msl
import AarchGate.Jit.Abi
import AarchGate.Jit.Scalar

namespace AarchGate
namespace Engine

open A64 Ir AarchGate.Core Compute
open Jit (Abi Columns Fault deref)

/-- What the engine runs on: the calling convention, `JitRuntime::add`, the
Highway target, and the key `unordered_map::begin` yields. -/
structure Platform where
  abi : Abi
  rt : List Instr → Bool
  hwy : Highway
  firstKey : List Name → Option Name
  firstKey_mem : ∀ ks, ks ≠ [] → ∃ k ∈ ks, firstKey ks = some k

/-- The standard machine, on which every kernel is accepted. -/
def Platform.standard : Platform where
  abi := .standard
  rt _ := true
  hwy := .neon
  firstKey := List.head?
  firstKey_mem ks hks := ⟨ks.head hks, List.head_mem hks, List.head?_eq_some_head hks⟩

/-- `ExecutionMode`. -/
inductive ExecutionMode where
  | BIT_SLICED | SCALAR | GPU_THROUGHPUT
  deriving DecidableEq, Repr

/-- `ApexEngine::SchemaMetadata`. -/
structure SchemaMetadata where
  rowStride : ℕ
  fields : List FieldDescriptor

/-- `ApexEngine::ExprCompiledLogic`. -/
structure ExprCompiledLogic where
  kernel : List Instr
  fields : List (Option FieldDescriptor)
  mode : ExecutionMode
  resultKind : ResultKind
  baseSum : Word
  deltaWeights : List Word
  masksToPopcount : List ℤ
  activeBits : ℤ
  mslSource : Option Gpu.MslSource

/-- `ApexEngine`. -/
structure ApexEngine where
  registry : SchemaRegistry
  schemaMetadata : Map Name SchemaMetadata
  exprLogic : List (Name × ExprCompiledLogic)
  fieldBuffers : ℕ → ColumnBuffer
  numThreads : ℤ := 4

namespace ApexEngine

/-- A new engine. -/
def init : ApexEngine where
  registry := .empty
  schemaMetadata := .empty
  exprLogic := []
  fieldBuffers := fun _ _ => 0

/-- `ApexEngine::register_schema`. -/
def registerSchema (E : ApexEngine) (schemaName : Name) (fields : List FieldDescriptor)
    (totalRowStride : ℕ) : ApexEngine :=
  { E with
    registry := E.registry.registerSchema schemaName fields
    schemaMetadata := E.schemaMetadata.assign schemaName ⟨totalRowStride, fields⟩ }

/-! ### Installing an expression -/

section SetExpression

variable (g : ℕ → Node)

/-- `node->skip_jit = b`. -/
def setSkip (b : Bool) (a : ℕ → Annot) (n : ℕ) : ℕ → Annot :=
  Jit.setAnnot a n fun x => { x with skipJit := b }

/-- Step 1.5 for `BIT_SLICED`: the nodes the engine handles itself. -/
def markSkip (root : ℕ) (a : ℕ → Annot) : Except Fault (ℕ → Annot) := do
  let plus ← isSumPlusConst g root
  let a₁ ← if plus then do
      let r ← deref (g root).right
      .ok (setSkip true (setSkip true a root) r)
    else .ok a
  let eff ← effectiveRoot g root
  if (g eff).kind = .SUM then
    .ok ((g eff).operands.foldl
      (fun a op => if (g op).kind = .SELECT then setSkip true a op else a) (setSkip true a₁ eff))
  else .ok a₁

/-- `reset_skip_jit`, for `GPU_THROUGHPUT`. -/
def resetSkipJit : ℕ → ℕ → (ℕ → Annot) → (ℕ → Annot)
  | 0, _, a => a
  | fuel + 1, n, a => (g n).children.foldl (fun a c => resetSkipJit fuel c a) (setSkip false a n)

/-- `collect_fields` at one node: the descriptor of a `LOAD`, at its `field_idx`. -/
def collectField (a : ℕ → Annot) (getField : Name → Option FieldDescriptor) (n : ℕ)
    (fs : ℕ → Option FieldDescriptor) : ℕ → Option FieldDescriptor :=
  let idx := (a n).fieldIdx
  if (g n).kind = .LOAD ∧ 0 ≤ idx ∧ idx < 128 then
    match getField (g n).fieldName with
    | some d => Function.update fs idx.toNat (some d)
    | none => fs
  else fs

/-- `collect_fields`: the node, then the nodes below it. -/
def collectFields (a : ℕ → Annot) (getField : Name → Option FieldDescriptor) :
    ℕ → ℕ → (ℕ → Option FieldDescriptor) → (ℕ → Option FieldDescriptor)
  | 0, _, fs => fs
  | fuel + 1, n, fs => (g n).children.foldl (fun fs c => collectFields a getField fuel c fs)
      (collectField g a getField n fs)

/-- `fields.resize(max_idx)`: the table up to the last field. -/
def resizeFields (fs : ℕ → Option FieldDescriptor) : List (Option FieldDescriptor) :=
  let maxIdx := (List.range 128).foldl (fun m i => if (fs i).isSome then i + 1 else m) 0
  (List.range maxIdx).map fs

end SetExpression

/-- `map[k] = v` in a map that is iterated over. -/
def assignLogic {ν : Type} (m : List (Name × ν)) (k : Name) (v : ν) : List (Name × ν) :=
  if m.any (·.1 = k) then m.map fun p => if p.1 = k then (k, v) else p else m ++ [(k, v)]

/-- Step 1.5: `skip_jit`, by the mode. -/
def markMode (g : ℕ → Node) (mode : ExecutionMode) (root : ℕ) (a : ℕ → Annot) :
    Except Fault (ℕ → Annot) :=
  match mode with
  | .BIT_SLICED => markSkip g root a
  | .GPU_THROUGHPUT => .ok (resetSkipJit g (NodePool.maxNodes + 1) root a)
  | .SCALAR => .ok a

/-- Step 2: the compiler of the mode. -/
def compileMode (PF : Platform) (g : ℕ → Node) (mode : ExecutionMode) (a : ℕ → Annot) (root : ℕ) :
    (ℕ → Annot) × Except Fault (List Instr) :=
  if mode = .SCALAR then Jit.compileScalarExpression PF.rt g a root
  else Jit.compileExpression PF.rt g a root 64

/-- The shader source, for `GPU_THROUGHPUT`.  A schema that is not registered counts as
one without fields. -/
def generateMode (E : ApexEngine) (schemaName : Name) (g : ℕ → Node) (mode : ExecutionMode)
    (a : ℕ → Annot) (root : ℕ) : Except Fault ((ℕ → Annot) × Option Gpu.MslSource) :=
  if mode = .GPU_THROUGHPUT then
    (Gpu.generateMslSource g a ((E.schemaMetadata schemaName).elim 0 (·.fields.length)) root).map
      fun r => (r.1, some r.2)
  else .ok (a, none)

/-- `ApexEngine::set_expression`: the metadata left in the nodes, and the engine.
The analysis of the constants has no effect, `active_bits` is always 64. -/
def setExpression (PF : Platform) (E : ApexEngine) (schemaName : Name) (g : ℕ → Node)
    (a : ℕ → Annot) (exprRoot : Option ℕ) (mode : ExecutionMode) :
    Except Fault ((ℕ → Annot) × ApexEngine) :=
  match exprRoot with
  | none => .ok (a, E)
  | some root => do
      let a₁ ← markMode g mode root a
      match compileMode PF g mode a₁ root with
      | (_, .error .undefined) => .error .undefined
      | (a₂, .error .nullptr) => .ok (a₂, E)
      | (a₂, .ok kernel) => do
          let fs := collectFields g a₂ (E.registry.getField schemaName) (NodePool.maxNodes + 1) root
            fun _ => none
          let (baseSum, deltaWeights, masksToPopcount) ← sumMeta g a₂ root
          let (a₃, mslSource) ← generateMode E schemaName g mode a₂ root
          let logic : ExprCompiledLogic :=
            { kernel, fields := resizeFields fs, mode, resultKind := (a₃ root).resultKind, baseSum,
              deltaWeights, masksToPopcount, activeBits := 64, mslSource }
          .ok (a₃, { E with exprLogic := assignLogic E.exprLogic schemaName logic })

/-! ### Reading the rows -/

/-- `memcpy(&v, ptr, 8)`: the little-endian word at byte `p`. -/
def load64 (data : ℕ → BitVec 8) (p : ℕ) : Word :=
  data (p + 7) ++ data (p + 6) ++ data (p + 5) ++ data (p + 4) ++ data (p + 3) ++ data (p + 2) ++
    data (p + 1) ++ data p

/-- `ApexEngine::gather_field`: four rows at a time, the remaining rows, and zeros up
to 64. -/
def gatherField (data : ℕ → BitVec 8) (base : ℕ) (field : FieldDescriptor)
    (rowStride rowCount : ℕ) (out : ColumnBuffer) : ColumnBuffer :=
  let v := fun i => load64 data (base + i * rowStride + field.offset)
  let rowsToGather := min rowCount 64
  let quads := rowsToGather / 4
  let out₁ := (List.range quads).foldl (fun out q =>
    let i := 4 * q
    Function.update (Function.update (Function.update (Function.update out i (v i)) (i + 1)
      (v (i + 1))) (i + 2) (v (i + 2))) (i + 3) (v (i + 3))) out
  let out₂ := (List.range' (4 * quads) (rowsToGather - 4 * quads)).foldl
    (fun out i => Function.update out i (v i)) out₁
  (List.range' rowsToGather (64 - rowsToGather)).foldl (fun out i => Function.update out i 0) out₂

section Chunk

variable (PF : Platform) (L : ExprCompiledLogic) (data : ℕ → BitVec 8)
  (base rowStride rowCount : ℕ)

/-- `use_simd_5`: the first five fields are the first five words of a row. -/
def useSimd5 : Bool :=
  (L.fields.take 5).map (Option.map (·.offset)) = [some 0, some 8, some 16, some 24, some 32]

/-- A filled buffer is sliced in the `BIT_SLICED` mode. -/
def sliceColumn (b : ColumnBuffer) : ColumnBuffer :=
  if L.mode = .BIT_SLICED then sliceN PF.hwy b L.activeBits else b

/-- The vector loads and stores of one row. -/
def simdRow (bufs : ℕ → ColumnBuffer) (r : ℕ) : ℕ → ColumnBuffer := fun i =>
  if i < 5 then Function.update (bufs i) r (load64 data (base + r * rowStride + 8 * i)) else bufs i

/-- The generic path for field `i`. -/
def fillField (bufs : ℕ → ColumnBuffer) (i : ℕ) : ℕ → ColumnBuffer :=
  match L.fields[i]? with
  | some (some d) => Function.update bufs i
      (sliceColumn PF L (gatherField data base d rowStride rowCount (bufs i)))
  | _ => bufs

/-- The gather of `process_chunk_expr`. -/
def fillColumns (bufs : ℕ → ColumnBuffer) : ℕ → ColumnBuffer :=
  let size := min L.fields.length 128
  if useSimd5 L then
    let bufs₁ := (List.range rowCount).foldl (simdRow data base rowStride) bufs
    let bufs₂ := (List.range 5).foldl
      (fun bufs i => Function.update bufs i (sliceColumn PF L (bufs i))) bufs₁
    (List.range' 5 (size - 5)).foldl (fillField PF L data base rowStride rowCount) bufs₂
  else (List.range size).foldl (fillField PF L data base rowStride rowCount) bufs

/-- `field_planes_array_`: the buffers of the fields there are. -/
def fieldPlanesArray (bufs : ℕ → ColumnBuffer) : Columns := fun i =>
  match L.fields[i]? with
  | some (some _) => if i < 128 then some (bufs i) else none
  | _ => none

/-- `ApexEngine::process_chunk_expr`: what the kernel returns, the scratchpad after
it and the buffers. -/
def processChunkExpr (scratchpad : ℕ → Word) (bufs : ℕ → ColumnBuffer) :
    Option (Word × (ℕ → Word) × (ℕ → ColumnBuffer)) :=
  let bufs' := fillColumns PF L data base rowStride rowCount bufs
  (PF.abi.invoke L.kernel (fieldPlanesArray L bufs') scratchpad).map fun r => (r.1, r.2, bufs')

end Chunk

/-! ### Execution -/

/-- `rows_mask`. -/
def rowsMask (rows : ℕ) : Word := if rows = 64 then ~~~0 else ((1 : Word) <<< rows) - 1

/-- The hybrid aggregator: the masks of a `SUM`, each with its weight. -/
def weightedSum (scratchpad : ℕ → Word) (mask : Word) : List (Word × ℤ) → Option Word
  | [] => some 0
  | (w, slot) :: rest =>
      -- a negative index is outside the array
      if slot < 0 then none
      else (weightedSum scratchpad mask rest).map
        ((scratchpad slot.toNat &&& mask).cpop * w + ·)

/-- What a chunk adds to the total. -/
def chunkTotal (L : ExprCompiledLogic) (rows : ℕ) (result : Word) (scratchpad : ℕ → Word) :
    Option Word :=
  if L.resultKind = .BITMASK then some (result &&& rowsMask rows).cpop
  else if L.deltaWeights ≠ [] then
    (weightedSum scratchpad (rowsMask rows) (L.deltaWeights.zip L.masksToPopcount)).map
      (L.baseSum * BitVec.ofNat 64 rows + ·)
  else some ((List.range 64).map fun i => (scratchpad i &&& rowsMask rows).cpop <<< i).sum

/-- The loops over the chunks: `process` is `process_chunk_expr` with the members of the engine that
it writes, from a row on, and `take` makes something of its result. -/
def chunkLoop {σ ρ : Type} (process : ℕ → ℕ → σ → Option (Word × (ℕ → Word) × σ))
    (take : ℕ → ℕ → Word → (ℕ → Word) → ρ → Option ρ) (rowCount : ℕ) :
    List ℕ → ρ → σ → Option (ρ × σ)
  | [], acc, s => some (acc, s)
  | chunk :: rest, acc, s => do
      let rows := min 64 (rowCount - chunk * 64)
      let (result, scratchpad, s') ← process (chunk * 64) rows s
      let acc' ← take (chunk * 64) rows result scratchpad acc
      chunkLoop process take rowCount rest acc' s'

/-- What `execute` makes of a chunk. -/
def takeTotal (L : ExprCompiledLogic) (_startIdx rows : ℕ) (result : Word) (scratchpad : ℕ → Word)
    (total : Word) : Option Word :=
  (chunkTotal L rows result scratchpad).map (total + ·)

/-- The loop of `execute`. -/
def executeChunks (PF : Platform) (L : ExprCompiledLogic) (data : ℕ → BitVec 8)
    (rowStride rowCount : ℕ) :
    List ℕ → Word → (ℕ → ColumnBuffer) → Option (Word × (ℕ → ColumnBuffer)) :=
  chunkLoop (fun start rows => processChunkExpr PF L data (start * rowStride) rowStride rows fun _ => 0)
    (takeTotal L) rowCount

/-- The first logic of the map and the layout of its rows, which `execute` and `execute_vector`
run. -/
def firstLogic (PF : Platform) (E : ApexEngine) : Option (ExprCompiledLogic × SchemaMetadata) :=
  (PF.firstKey (E.exprLogic.map (·.1))).bind fun schemaName =>
    (E.exprLogic.lookup schemaName).bind fun L => (E.schemaMetadata schemaName).map (L, ·)

/-- An engine with one logic runs it. -/
theorem firstLogic_single {PF : Platform} {E : ApexEngine} {schemaName : Name}
    {L : ExprCompiledLogic} {md : SchemaMetadata} (hL : E.exprLogic = [(schemaName, L)])
    (hmd : E.schemaMetadata schemaName = some md) : E.firstLogic PF = some (L, md) := by
  obtain ⟨k, hk, hfirst⟩ := PF.firstKey_mem [schemaName] (by simp)
  obtain rfl := List.mem_singleton.1 hk
  simp only [firstLogic, hL, List.map_cons, List.map_nil, hfirst, hmd, List.lookup_cons_self,
    Option.bind_some, Option.map_some]

/-- `ApexEngine::execute`: the total, and the engine after the call.  There is no
result when a kernel does not return. -/
def execute (PF : Platform) (E : ApexEngine) (data : ℕ → BitVec 8) (rowCount : ℕ) :
    Option (Word × ApexEngine) :=
  match E.firstLogic PF with
  | none => some (0, E)
  | some (L, md) =>
    if L.mode = .GPU_THROUGHPUT then some (0, E)
    else (executeChunks PF L data md.rowStride rowCount (List.range ((rowCount + 63) / 64)) 0
      E.fieldBuffers).map fun r => (r.1, { E with fieldBuffers := r.2 })

end ApexEngine
end Engine
end AarchGate
