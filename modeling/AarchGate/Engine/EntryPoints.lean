/-
# Which expressions every entry point handles

`compile_expression` accepts up to 128 fields, and each entry point has a table of its
own for them: `execute` one of 128, `execute_parallel` one of 32, `execute_native` and
`execute_native_parallel` one of 8.  The early exits differ as well: a task without
fields counts nothing, although an expression of constants has a value on every row, and
without a positive number of threads `execute_native_parallel` starts none.  And `execute`
clears the scratchpad for every chunk, the others once for all their blocks: what is left in
words that no instruction writes is carried from block to block.

`handles_iff` says for which expressions, rows and threads all of them stay within their
tables and return what `execute` returns: at most eight fields, at least one of them,
at least one thread, and nothing carried.  The exceptions are those where nothing is to be
done or where the totals agree anyway.
-/

import AarchGate.Engine.Native

namespace AarchGate
namespace Engine
namespace ApexEngine

open A64 Ir AarchGate.Core Compute BitPlane
open Jit (tableEntries)
open ParallelRunner (rowRanges)

/-- The field tables of the entry points are indexed within their bounds: by the loop
that fills `kernel_ptrs`, and by the kernel. -/
structure TablesInBounds (L : ExprCompiledLogic) : Prop where
  fieldPlanesArray : ∀ i ∈ tableEntries L.kernel, i < 128
  fieldPlanes : ∀ i ∈ tableEntries L.kernel, i < 32
  kernelPtrs : L.fields.length ≤ 8 ∧ ∀ i ∈ tableEntries L.kernel, i < 8

/-- All entry points handle the logic of the schema on some blocks: they stay within
their tables, if there is a block, and return the same value. -/
def Handles (PF : Platform) (E : ApexEngine) (schemaName : Name) (data : ℕ → BitVec 8)
    (bitPlanes : ℕ → Word) (numBlocks : ℕ) (numThreads : ℤ) (taskBufs : ℕ → ℕ → ColumnBuffer) :
    Prop :=
  (numBlocks ≠ 0 → ∀ L, E.exprLogic.lookup schemaName = some L → TablesInBounds L) ∧
    ∃ total E', execute PF E data (64 * numBlocks) = some (total, E') ∧
      executeParallel PF E data (64 * numBlocks) numThreads taskBufs = some total ∧
      executeNative PF E schemaName bitPlanes numBlocks = some total ∧
      executeNativeParallel PF E schemaName bitPlanes numBlocks numThreads = some total

section Parallel

variable {PF : Platform} {E : ApexEngine} {schemaName : Name} {L : ExprCompiledLogic}
  {md : SchemaMetadata} (hL : E.exprLogic = [(schemaName, L)])
  (hmd : E.schemaMetadata schemaName = some md)

include hL hmd

/-- Without threads no block is counted. -/
theorem executeNativeParallel_no_threads {numThreads : ℤ}
    (h : (if numThreads ≤ 0 then E.numThreads else numThreads) = 0) (bitPlanes : ℕ → Word)
    (numBlocks : ℕ) :
    executeNativeParallel PF E schemaName bitPlanes numBlocks numThreads = some 0 := by
  simp only [executeNativeParallel, hL, hmd, List.lookup_cons_self, h]
  rfl

theorem executeNativeParallel_negative {numThreads : ℤ}
    (h : (if numThreads ≤ 0 then E.numThreads else numThreads) < 0) (bitPlanes : ℕ → Word)
    (numBlocks : ℕ) :
    executeNativeParallel PF E schemaName bitPlanes numBlocks numThreads = none := by
  simp only [executeNativeParallel, hL, hmd, List.lookup_cons_self, if_pos h]

end Parallel

/-- **The rows that share a scratchpad add up as they do on their own**: in the tasks of
`execute_parallel`, in `execute_native`, and in the threads of `execute_native_parallel`. -/
structure CarryAddsUp (w : Word → ℕ → (Name → Word) → Word) (rows : ℕ → Name → Word)
    (names : List Name) (numBlocks : ℕ) (n : ℤ) : Prop where
  tasks : names ≠ [] → carriedTotal w rows (rowRanges (64 * numBlocks) n) =
    ∑ i ∈ Finset.range (64 * numBlocks), w 0 (i % 64) (rows i)
  blocks : ∑ i ∈ Finset.range (64 * numBlocks), carriedRow w rows 0 i =
    ∑ i ∈ Finset.range (64 * numBlocks), w 0 (i % 64) (rows i)
  threads : 0 < n → carriedTotal w rows ((blockRanges numBlocks n.toNat).map fun x =>
      (64 * x.1, 64 * x.2)) =
    ∑ i ∈ Finset.range (64 * numBlocks), w 0 (i % 64) (rows i)

/-- So they do where each row has its own value. -/
theorem carryAddsUp_of_rows {w : Word → ℕ → (Name → Word) → Word} {rows : ℕ → Name → Word}
    {numBlocks : ℕ} (h : ∀ start, ∀ i < 64 * numBlocks,
      carriedRow w rows start i = w 0 (i % 64) (rows i)) (names : List Name) (n : ℤ) :
    CarryAddsUp w rows names numBlocks n := by
  have hranges : ∀ {ranges}, Ranges.Follow 0 (64 * numBlocks) ranges →
      carriedTotal w rows ranges = ∑ i ∈ Finset.range (64 * numBlocks), w 0 (i % 64) (rows i) := by
    intro ranges hf
    rw [carriedTotal_eq hf fun x hx i hi => h x.1 i ?_, Finset.range_eq_Ico]
    exact Nat.lt_of_lt_of_le (Finset.mem_Ico.1 hi).2 (hf.stop_le x hx)
  refine ⟨fun _ => hranges (ParallelRunner.rowRanges_follow _ _).1,
    Finset.sum_congr rfl fun i hi => h 0 i (Finset.mem_range.1 hi), fun hn => hranges ?_⟩
  exact (blockRanges_follow numBlocks (show 0 < n.toNat by omega)).map_mul 64

section Values

variable {PF : Platform} {E : ApexEngine} {L : ExprCompiledLogic} {schemaName : Name}
  {fields : List FieldDescriptor} {rowStride : ℕ} {names : List Name}
  (hI : Installed E L (fun f => fields.find? fun d => d.name = f) rowStride names)
  (hL : E.exprLogic = [(schemaName, L)]) (hmd : E.schemaMetadata schemaName = some ⟨rowStride, fields⟩)
  (hmode : L.mode = .BIT_SLICED) (hbits : L.activeBits = 64) {data : ℕ → BitVec 8} {numBlocks : ℕ}
  {bitPlanes : ℕ → Word} (hlay : NativeLayout fields rowStride data numBlocks bitPlanes)
  {w : Word → ℕ → (Name → Word) → Word} (hw : 0 < numBlocks → CarriedTotals PF L names w)
  (hdep : ∀ c, DependsOn names (w c)) (h8 : 0 < numBlocks → names.length ≤ 8)

/-- What the entry points return, from the values the kernel adds up. -/
structure EntryValues (PF : Platform) (E : ApexEngine) (schemaName : Name)
    (fields : List FieldDescriptor) (rowStride : ℕ) (names : List Name) (data : ℕ → BitVec 8)
    (bitPlanes : ℕ → Word) (numBlocks : ℕ) (w : Word → ℕ → (Name → Word) → Word) : Prop where
  execute : ∃ E', ApexEngine.execute PF E data (64 * numBlocks) = some (∑ i ∈ Finset.range (64 * numBlocks),
    w 0 (i % 64) (rowOf fields data rowStride i), E')
  parallel : names ≠ [] → ∀ numThreads taskBufs,
    executeParallel PF E data (64 * numBlocks) numThreads taskBufs =
      some (carriedTotal w (rowOf fields data rowStride) (rowRanges (64 * numBlocks)
        (if numThreads ≤ 0 then E.numThreads else numThreads)))
  native : executeNative PF E schemaName bitPlanes numBlocks =
    some (∑ i ∈ Finset.range (64 * numBlocks), carriedRow w (rowOf fields data rowStride) 0 i)
  nativeParallel : ∀ numThreads, 0 < (if numThreads ≤ 0 then E.numThreads else numThreads) →
    executeNativeParallel PF E schemaName bitPlanes numBlocks numThreads =
      some (carriedTotal w (rowOf fields data rowStride)
        ((blockRanges numBlocks (if numThreads ≤ 0 then E.numThreads else numThreads).toNat).map
          fun x => (64 * x.1, 64 * x.2)))

include hI hL hmd hmode hbits hlay hw hdep h8

/-- **The values of the entry points**; without blocks no kernel is called. -/
theorem entryValues :
    EntryValues PF E schemaName fields rowStride names data bitPlanes numBlocks w := by
  have h8' : 0 < numBlocks → L.fields.length ≤ 8 := fun h => by rw [hI.fields_length]; exact h8 h
  refine ⟨?_, fun hne numThreads taskBufs => ?_, ?_, fun numThreads hn => ?_⟩
  · rcases Nat.eq_zero_or_pos numBlocks with rfl | hpos
    · rw [execute_single hL hmd (by rw [hmode]; decide)]
      exact ⟨_, rfl⟩
    · obtain ⟨J, h0, hcall⟩ := hw hpos
      refine hI.execute_chunks (by rw [hmode]; decide) (fun chunk R cols _ hR _ hcols => ?_) E.fieldBuffers
      obtain ⟨m, hm, -, htotal⟩ := hcall R cols _ _ h0 (hcols.holdsPlanes hmode hbits)
      refine ⟨m, hm, (htotal _ (Nat.min_le_left ..)).trans (congrArg some ?_)⟩
      exact sum_lanes (hdep 0) (Dvd.intro_left chunk rfl) (Nat.min_le_left ..) hR
  · rcases Nat.eq_zero_or_pos numBlocks with rfl | hpos
    · rw [executeParallel_eq_zero hL hmd (Or.inr rfl), Nat.mul_zero, rowRanges, if_pos rfl]
      rfl
    · have := h8 hpos
      exact hI.executeParallel_carried hmode hbits (hw hpos) hdep hne (by omega) data _ numThreads taskBufs
  · have hloop := nativeLoop_total hI.table h8' hlay hw 0 (Nat.le_refl numBlocks)
    rw [← List.range_eq_range', Nat.mul_zero, ← Finset.range_eq_Ico] at hloop
    simp only [executeNative, hL, hmd, List.lookup_cons_self, hmode, reduceCtorEq, if_false]
    exact hloop
  · have hpos : 0 < (if numThreads ≤ 0 then E.numThreads else numThreads).toNat := by omega
    have hthreads := blockRanges_total hI.table h8' hlay hw hpos
    rw [Option.map_eq_bind] at hthreads
    simp only [executeNativeParallel, hL, hmd, List.lookup_cons_self, if_neg (not_lt.2 hn.le)]
    exact hthreads

end Values

/-- The pool of `GT(Const(10), Const(5))`. -/
def constPool : NodePool := (Expr.cmp .gt (.const 10) (.const 5)).pool

theorem constPool_pristine : Pristine constPool := Expr.pool_pristine _ (by decide)

theorem constPool_represents : Represents constPool.storage (.cmp .gt (.const 10) (.const 5)) 2 :=
  (Expr.pool_stands _ (by decide) (by decide)).represents

theorem constPool_no_load {n : ℕ} (hn : Reach constPool.storage 2 n) :
    (constPool.storage n).kind ≠ .LOAD := by
  have hlt : n < 3 := constPool_pristine.built.reach_lt (by decide) hn
  interval_cases n <;> decide

end ApexEngine
end Engine
end AarchGate
