/-
# The parallel runner

`src/compute/parallel_runner.cpp` and `ApexEngine::execute_parallel`.  `run` cuts the
rows into ranges, one for each task, and adds up what the tasks count.  A task
(`worker_thread`) has its own columns and its own scratchpad: it takes its range in
chunks of 64 rows, gathers and slices the fields of a chunk, calls the kernel and adds
up what it leaves behind.

Here the three loops are translated that make up for the cores and the vector unit:
the gather of four rows at a time, the sum of eight weights at a time, and the ranges
with their rounding to 64 rows.  The tasks share nothing, so they are run one after the
other; what the columns of a task hold before its first chunk is arbitrary.  The
scratchpad is allocated.
-/

import AarchGate.Engine.Lanes
import AarchGate.Ranges.Follow

namespace AarchGate
namespace Engine

open A64 Ir AarchGate.Core Compute
open Jit (Columns)

/-- `ParallelRunner::TaskConfig`. -/
structure TaskConfig extends ExprCompiledLogic where
  rowStride : ℕ

namespace ParallelRunner

open ApexEngine (load64 useSimd5 sliceColumn simdRow rowsMask weightedSum chunkTotal execute)

/-! ### The columns of a chunk -/

section Gather

variable (PF : Platform) (C : TaskConfig) (data : ℕ → BitVec 8) (base rows : ℕ)

/-- The rows of one field, and zeros up to 64. -/
def gatherRows (offset : ℕ) (out : ColumnBuffer) : ColumnBuffer :=
  (List.range' rows (64 - rows)).foldl (fun out r => Function.update out r 0)
    ((List.range rows).foldl (fun out r =>
      Function.update out r (load64 data (base + r * C.rowStride + offset))) out)

/-- The generic path for field `f`, whose descriptor is dereferenced. -/
def workerField (bufs : ℕ → ColumnBuffer) (f : ℕ) : Option (ℕ → ColumnBuffer) :=
  match C.fields[f]? with
  | some (some d) => some (Function.update bufs f
      (sliceColumn PF C.toExprCompiledLogic (gatherRows C data base rows d.offset (bufs f))))
  | _ => none

/-- Four rows of the vector loop. -/
def simdQuad (bufs : ℕ → ColumnBuffer) (q : ℕ) : ℕ → ColumnBuffer :=
  [4 * q, 4 * q + 1, 4 * q + 2, 4 * q + 3].foldl (simdRow data base C.rowStride) bufs

/-- The zeros above the rows in the first five columns. -/
def zeroFive (bufs : ℕ → ColumnBuffer) : ℕ → ColumnBuffer :=
  (List.range' rows (64 - rows)).foldl
    (fun bufs r i => if i < 5 then Function.update (bufs i) r 0 else bufs i) bufs

/-- The gather of a chunk. -/
def workerColumns (bufs : ℕ → ColumnBuffer) : Option (ℕ → ColumnBuffer) :=
  let size := min C.fields.length 32
  if useSimd5 C.toExprCompiledLogic then
    let bufs₁ := if rows = 64 then (List.range 16).foldl (simdQuad C data base) bufs
      else (List.range rows).foldl (simdRow data base C.rowStride) bufs
    let bufs₂ := (List.range 5).foldl (fun bufs f =>
      Function.update bufs f (sliceColumn PF C.toExprCompiledLogic (bufs f))) (zeroFive rows bufs₁)
    (List.range' 5 (size - 5)).foldlM (workerField PF C data base rows) bufs₂
  else (List.range size).foldlM (workerField PF C data base rows) bufs

/-- `field_planes`, a table of 32. -/
def workerPlanes (bufs : ℕ → ColumnBuffer) : Columns := fun f =>
  if f < min C.fields.length 32 then some (bufs f) else none

end Gather

/-! ### The sum of the weights -/

/-- `scratchpad[slot] & rows_mask`; a negative index is outside the array. -/
def maskedSlot (scratchpad : ℕ → Word) (mask : Word) (slot : ℤ) : Option Word :=
  if slot < 0 then none else some (scratchpad slot.toNat &&& mask)

section Weights

variable (word : ℤ → Option Word)

/-- One pass of the unrolled loop: the words are loaded, then counted and weighted. -/
def weightBlock (total : Word) (ws : List (Word × ℤ)) : Option Word := do
  let words ← ws.mapM fun w => word w.2
  some ((ws.zip words).foldl (fun total x => total + x.2.cpop * x.1.1) total)

/-- The loop over the weights, `k` at a time, and its tail. -/
def unrolledSum (k : ℕ) (total : Word) (ws : List (Word × ℤ)) : Option Word := do
  let blocks := ws.length / k
  let total ← (List.range blocks).foldlM
    (fun total i => weightBlock word total ((ws.drop (k * i)).take k)) total
  (ws.drop (k * blocks)).foldlM (fun total w => weightBlock word total [w]) total

end Weights

/-! ### Tasks -/

/-- What a chunk adds to the count of a task. -/
def workerTotal (C : TaskConfig) (rows : ℕ) (result : Word) (scratchpad : ℕ → Word) : Option Word :=
  if C.resultKind = .BITMASK then some (result &&& rowsMask rows).cpop
  else if C.deltaWeights ≠ [] then
    unrolledSum (maskedSlot scratchpad (rowsMask rows)) 8 (C.baseSum * BitVec.ofNat 64 rows)
      (C.deltaWeights.zip C.masksToPopcount)
  else some ((List.range 64).map fun i => (scratchpad i &&& rowsMask rows).cpop <<< i).sum

/-- The loop over the chunks, which start at the given rows. -/
def workerLoop (PF : Platform) (C : TaskConfig) (data : ℕ → BitVec 8) (endRow : ℕ) :
    List ℕ → (ℕ → Word) → (ℕ → ColumnBuffer) → Word → Option Word
  | [], _, _, total => some total
  | row :: rest, scratchpad, bufs, total => do
      let rows := min 64 (endRow - row)
      let bufs' ← workerColumns PF C data (row * C.rowStride) rows bufs
      let (result, scratchpad') ← PF.abi.invoke C.kernel (workerPlanes C bufs') scratchpad
      let sum ← workerTotal C rows result scratchpad'
      workerLoop PF C data endRow rest scratchpad' bufs' (total + sum)

/-- `worker_thread`: the count of the rows from `startRow` to `endRow`. -/
def workerThread (PF : Platform) (C : TaskConfig) (data : ℕ → BitVec 8) (startRow endRow : ℕ)
    (bufs : ℕ → ColumnBuffer) : Option Word :=
  if C.fields.length = 0 then some 0
  else workerLoop PF C data endRow
    ((List.range ((endRow - startRow + 63) / 64)).map fun i => startRow + 64 * i) (fun _ => 0) bufs 0

/-! ### Ranges -/

/-- `rows_per_thread`. -/
def rowsPerThread (totalRows numThreads : ℕ) : ℕ :=
  if totalRows / numThreads / 64 * 64 = 0 then 64 else totalRows / numThreads / 64 * 64

/-- The loop of `run` with `k` threads to go: the ranges it enqueues. -/
def enqueue (totalRows numThreads : ℕ) : ℕ → List (ℕ × ℕ)
  | 0 => []
  | k + 1 =>
      let t := numThreads - (k + 1)
      let start := t * rowsPerThread totalRows numThreads
      let stop := start + rowsPerThread totalRows numThreads
      if start ≥ totalRows then []
      else (start, if stop > totalRows ∨ t = numThreads - 1 then totalRows else stop) ::
        enqueue totalRows numThreads k

/-- The number of threads of a call: at least one. -/
def threads (numThreads : ℤ) : ℕ := if numThreads ≤ 0 then 1 else numThreads.toNat

/-- The ranges of a call. -/
def rowRanges (totalRows : ℕ) (numThreads : ℤ) : List (ℕ × ℕ) :=
  if totalRows = 0 then [] else enqueue totalRows (threads numThreads) (threads numThreads)

/-- `ParallelRunner::run`; `bufs t` is what stands in the columns of task `t`. -/
def run (PF : Platform) (C : TaskConfig) (data : ℕ → BitVec 8) (totalRows : ℕ) (numThreads : ℤ)
    (bufs : ℕ → ℕ → ColumnBuffer) : Option Word := do
  let counts ← (rowRanges totalRows numThreads).zipIdx.mapM fun x =>
    workerThread PF C data x.1.1 x.1.2 (bufs x.2)
  some counts.sum

end ParallelRunner

/-- `ApexEngine::execute_parallel`. -/
def ApexEngine.executeParallel (PF : Platform) (E : ApexEngine) (data : ℕ → BitVec 8)
    (rowCount : ℕ) (numThreads : ℤ) (bufs : ℕ → ℕ → ColumnBuffer) : Option Word :=
  let numThreads := if numThreads ≤ 0 then E.numThreads else numThreads
  match PF.firstKey (E.exprLogic.map (·.1)) with
  | none => (execute PF E data rowCount).map (·.1)
  | some schemaName =>
    match E.exprLogic.lookup schemaName, E.schemaMetadata schemaName with
    | some L, some md =>
      ParallelRunner.run PF { L with rowStride := md.rowStride } data rowCount numThreads bufs
    | _, _ => some 0

namespace ParallelRunner

open ApexEngine (weightedSum chunkTotal rowsMask)

/-! ### The ranges are a partition -/

/-- A thread has rows. -/
theorem rowsPerThread_pos (totalRows numThreads : ℕ) : 0 < rowsPerThread totalRows numThreads := by
  unfold rowsPerThread
  split_ifs <;> omega

/-- In whole blocks. -/
theorem dvd_rowsPerThread (totalRows numThreads : ℕ) : 64 ∣ rowsPerThread totalRows numThreads := by
  unfold rowsPerThread
  split_ifs
  · exact Nat.dvd_refl _
  · exact Nat.dvd_mul_left ..

/-- The last task takes what is left, so the ranges reach the end. -/
theorem enqueue_follow (totalRows numThreads : ℕ) :
    ∀ k < numThreads, (numThreads - (k + 1)) * rowsPerThread totalRows numThreads ≤ totalRows →
      Ranges.Follow ((numThreads - (k + 1)) * rowsPerThread totalRows numThreads) totalRows
        (enqueue totalRows numThreads (k + 1)) := by
  intro k
  have hpos := rowsPerThread_pos totalRows numThreads
  induction k with
  | zero =>
    intro _ hle
    simp only [enqueue]
    split_ifs with h1 h2
    · exact Nat.le_antisymm hle h1
    · exact ⟨rfl, hle, rfl⟩
    · exact absurd (Or.inr trivial) h2
  | succ k ih =>
    intro hk hle
    have hnext : (numThreads - (k + 1)) * rowsPerThread totalRows numThreads =
        (numThreads - (k + 1 + 1)) * rowsPerThread totalRows numThreads +
          rowsPerThread totalRows numThreads := by
      rw [show numThreads - (k + 1) = numThreads - (k + 1 + 1) + 1 by omega, Nat.add_mul, Nat.one_mul]
    rw [enqueue]
    split_ifs with h1 h2
    · exact Nat.le_antisymm hle h1
    · -- the next start is beyond the last row
      refine ⟨rfl, hle, ?_⟩
      rw [enqueue]
      simp only [hnext]
      rw [if_pos (by omega)]
      rfl
    · refine ⟨rfl, Nat.le_add_right .., ?_⟩
      rw [← hnext]
      exact ih (by omega) (by omega)

/-- So a task starts at a block. -/
theorem dvd_of_mem_enqueue {totalRows numThreads : ℕ} :
    ∀ {k : ℕ} {x : ℕ × ℕ}, x ∈ enqueue totalRows numThreads k → 64 ∣ x.1 := by
  intro k
  induction k with
  | zero => exact fun h => absurd h List.not_mem_nil
  | succ k ih =>
    intro x hx
    simp only [enqueue] at hx
    split_ifs at hx with h1
    · exact absurd hx List.not_mem_nil
    all_goals
      rcases List.mem_cons.1 hx with rfl | hx
      · exact Dvd.dvd.mul_left (dvd_rowsPerThread _ _) _
      · exact ih hx

/-- **The ranges follow one another from the first row to the last**, and start at
multiples of 64. -/
theorem rowRanges_follow (totalRows : ℕ) (numThreads : ℤ) :
    Ranges.Follow 0 totalRows (rowRanges totalRows numThreads) ∧
      ∀ x ∈ rowRanges totalRows numThreads, 64 ∣ x.1 := by
  unfold rowRanges
  split_ifs with h
  · exact ⟨h.symm, fun x hx => absurd hx List.not_mem_nil⟩
  · refine ⟨?_, fun x hx => dvd_of_mem_enqueue hx⟩
    obtain ⟨k, hk⟩ : ∃ k, threads numThreads = k + 1 := by
      refine Nat.exists_eq_succ_of_ne_zero ?_
      unfold threads
      split_ifs <;> omega
    have := enqueue_follow totalRows (threads numThreads) k (by omega) (by rw [hk]; simp)
    rw [hk, Nat.sub_self, Nat.zero_mul] at this
    rw [hk]
    exact this

/-! ### The unrolled loop -/

section Weights

variable {scratchpad : ℕ → Word} {mask : Word}

/-- A block adds its weighted counts. -/
theorem weightBlock_eq (total : Word) (ws : List (Word × ℤ)) :
    weightBlock (maskedSlot scratchpad mask) total ws = (weightedSum scratchpad mask ws).map (total + ·) := by
  induction ws generalizing total with
  | nil => simp [weightBlock, weightedSum]
  | cons w ws ih =>
    obtain ⟨w, slot⟩ := w
    have ih' := fun total => ih total
    simp only [weightBlock] at ih' ⊢
    rw [List.mapM_cons, weightedSum, maskedSlot]
    by_cases hslot : slot < 0
    · rw [if_pos hslot, if_pos hslot]
      rfl
    · rw [if_neg hslot, if_neg hslot]
      have h := ih' (total + (scratchpad slot.toNat &&& mask).cpop * w)
      cases hm : ws.mapM fun w => maskedSlot scratchpad mask w.2 with
      | none =>
        rw [hm] at h
        cases hw : weightedSum scratchpad mask ws with
        | none => rfl
        | some v => rw [hw] at h; cases h
      | some words =>
        rw [hm] at h
        cases hw : weightedSum scratchpad mask ws with
        | none => rw [hw] at h; cases h
        | some v =>
          rw [hw] at h
          refine h.trans ?_
          simp [add_assoc]

/-- The sum of both parts. -/
theorem weightedSum_append (xs ys : List (Word × ℤ)) :
    weightedSum scratchpad mask (xs ++ ys) = (weightedSum scratchpad mask xs).bind fun v =>
      (weightedSum scratchpad mask ys).map (v + ·) := by
  induction xs with
  | nil => simp [weightedSum]
  | cons x xs ih =>
    obtain ⟨w, slot⟩ := x
    rw [List.cons_append, weightedSum, weightedSum, ih]
    by_cases hslot : slot < 0
    · rw [if_pos hslot, if_pos hslot]
      rfl
    · rw [if_neg hslot, if_neg hslot]
      cases weightedSum scratchpad mask xs with
      | none => rfl
      | some v => cases weightedSum scratchpad mask ys <;> simp [add_assoc]

/-- Two blocks, one after the other. -/
theorem weightBlock_append (total : Word) (xs ys : List (Word × ℤ)) :
    weightBlock (maskedSlot scratchpad mask) total (xs ++ ys) =
      (weightBlock (maskedSlot scratchpad mask) total xs).bind fun t =>
        weightBlock (maskedSlot scratchpad mask) t ys := by
  simp only [weightBlock_eq, weightedSum_append]
  cases weightedSum scratchpad mask xs with
  | none => rfl
  | some v => cases weightedSum scratchpad mask ys <;> simp [add_assoc]

/-- **Unrolling does not change the sum**, for any number of weights at a time. -/
theorem unrolledSum_eq (k : ℕ) (total : Word) (ws : List (Word × ℤ)) :
    unrolledSum (maskedSlot scratchpad mask) k total ws =
      (weightedSum scratchpad mask ws).map (total + ·) := by
  -- the blocks
  have hblocks : ∀ n, n * k ≤ ws.length → (List.range n).foldlM
      (fun total i => weightBlock (maskedSlot scratchpad mask) total ((ws.drop (k * i)).take k)) total =
        weightBlock (maskedSlot scratchpad mask) total (ws.take (k * n)) := by
    intro n
    induction n with
    | zero => intro _; simp [weightBlock]
    | succ n ih =>
      intro hn
      rw [List.range_succ, List.foldlM_append, ih (by rw [Nat.add_mul] at hn; omega),
        Nat.mul_succ, List.take_add, weightBlock_append]
      cases weightBlock (maskedSlot scratchpad mask) total (ws.take (k * n)) <;> simp
  -- the tail
  have htail : ∀ (xs : List (Word × ℤ)) (total : Word), xs.foldlM
      (fun total w => weightBlock (maskedSlot scratchpad mask) total [w]) total =
        weightBlock (maskedSlot scratchpad mask) total xs := by
    intro xs
    induction xs with
    | nil => intro total; simp [weightBlock]
    | cons x xs ih =>
      intro total
      rw [List.foldlM_cons, show x :: xs = [x] ++ xs from rfl, weightBlock_append]
      exact congrArg _ (funext ih)
  rw [unrolledSum, ← weightBlock_eq]
  simp only [hblocks _ (Nat.div_mul_le_self ws.length k), htail]
  conv_rhs => rw [← List.take_append_drop (k * (ws.length / k)) ws, weightBlock_append]
  rfl

/-- A task counts a chunk as `execute` does. -/
theorem workerTotal_eq (C : TaskConfig) (rows : ℕ) (result : Word) (scratchpad : ℕ → Word) :
    workerTotal C rows result scratchpad =
      chunkTotal C.toExprCompiledLogic rows result scratchpad := by
  rw [workerTotal, chunkTotal, unrolledSum_eq]

end Weights

end ParallelRunner
end Engine
end AarchGate
