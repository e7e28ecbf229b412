/-
# The CPU entry points in the GPU mode

For the `GPU_THROUGHPUT` mode `set_expression` compiles the bit-sliced kernel as well, and
`execute_parallel` and `execute_vector` run it.  But both slice the columns in the
`BIT_SLICED` mode only.  In the GPU mode the kernel takes the 64 values of a column for
its 64 planes: it computes on the transpose of the matrix of bits that the rows of a
chunk make up (`transposedRow`).

The rows of the last chunk are followed by zeros in that matrix, and in `execute_vector`
the path for five words leaves there what the buffers held (`heldRow`).  The results are
those of the `BIT_SLICED` mode exactly if the expression has the same values on the
transpose (`cpu_results_iff`).
-/

import AarchGate.Engine.Vector
import AarchGate.Gpu.Layout

namespace AarchGate
namespace Gpu

open A64 Ir AarchGate.Core Compute BitPlane Engine Engine.ApexEngine
open Jit (Columns pad encode subLane tableEntries fieldOrder)

/-- Row `r` of the transposed chunks: bit `b` is bit `r` of row `b`, both counted within the
chunk. -/
def transposedRow (rows : ℕ → Name → Word) (r : ℕ) (f : Name) : Word :=
  laneOf 64 (fun b => rows (64 * (r / 64) + b) f) (r % 64)

/-- Row `k` of the columns of `execute_vector` that are not sliced, from the buffers `bufs`. -/
def heldRow (L : ExprCompiledLogic) (names : List Name) (bufs : ℕ → ColumnBuffer)
    (getField : Name → Option FieldDescriptor) (data : ℕ → BitVec 8) (rowStride rowCount k : ℕ)
    (f : Name) : Word :=
  if k < rowCount then recordAt getField data (k * rowStride) f
  else if useSimd5 L = true ∧ names.idxOf f < 5 then
    -- the row of the chunk before, or what was there before the call
    if k < 64 then bufs (names.idxOf f) k else recordAt getField data ((k - 64) * rowStride) f
  else 0

/-! ### Columns that are not sliced -/

section Unsliced

variable {PF : Platform} {E : ApexEngine} {L : ExprCompiledLogic}
  {getField : Name → Option FieldDescriptor} {rowStride : ℕ} {names : List Name}
  {w : ℕ → (Name → Word) → Word} {R : ℕ → Name → Word} {cols : Columns}

/-- The kernel finds the transpose of the rows. -/
theorem holdsPlanes_unsliced (h : HoldsRows PF L names R cols) (hmode : L.mode ≠ .BIT_SLICED) :
    HoldsPlanes names (fun r f => laneOf 64 (fun b => R b f) r) cols := by
  intro i f hf
  refine ⟨_, h i f hf, ?_⟩
  rw [sliceColumn, if_neg hmode]
  exact planes_laneOf _

/-- The lanes of a chunk whose columns hold the rows from `row` on. -/
theorem lane_transposed (hdep : DependsOn names w) {rows : ℕ → Name → Word} {row : ℕ}
    (hrow : 64 ∣ row) (hR : ∀ b < 64, ∀ f ∈ names, R b f = rows (row + b) f) {r : ℕ} (hr : r < 64) :
    w r (fun f => laneOf 64 (fun b => R b f) r) = w ((row + r) % 64) (transposedRow rows (row + r)) := by
  rw [show (row + r) % 64 = r by omega]
  refine hdep r _ _ fun f hf => ?_
  rw [transposedRow, show (row + r) % 64 = r by omega, show 64 * ((row + r) / 64) = row by omega]
  exact (planes_laneOf _).lane_unique ((planes_laneOf _).congr fun b hb => hR b hb f hf) hr

/-- In a full chunk nothing is left over. -/
theorem transposedRow_held {data : ℕ → BitVec 8} {bufs : ℕ → ColumnBuffer} {rowCount r : ℕ}
    (h : 64 * (r / 64) + 64 ≤ rowCount) :
    transposedRow (heldRow L names bufs getField data rowStride rowCount) r =
      transposedRow (paddedRow getField data rowStride rowCount) r := by
  funext f
  refine (planes_laneOf _).lane_unique ((planes_laneOf _).congr fun b hb => ?_) (Nat.mod_lt r (by decide))
  rw [heldRow, if_pos (by omega), paddedRow, if_pos (by omega)]

/-- **`execute_parallel` without slicing.** -/
theorem executeParallel_unsliced (h : Installed E L getField rowStride names)
    (hmode : L.mode ≠ .BIT_SLICED) (hw : LaneTotals PF L names w) (hdep : DependsOn names w)
    (hne : names ≠ []) (h32 : names.length ≤ 32) (data : ℕ → BitVec 8) (rowCount : ℕ)
    (numThreads : ℤ) (bufs : ℕ → ℕ → ColumnBuffer) :
    executeParallel PF E data rowCount numThreads bufs =
      some (∑ r ∈ Finset.range rowCount,
        w (r % 64) (transposedRow (paddedRow getField data rowStride rowCount) r)) := by
  obtain ⟨schemaName, fields, hL, hmd⟩ := h.logic
  obtain ⟨J, h0, hcall⟩ := hw
  rw [executeParallel_single hL hmd]
  refine ParallelRunner.run_total (fun x hx bufs => ?_) bufs
  obtain ⟨hfollow, hstart⟩ := ParallelRunner.rowRanges_follow rowCount
    (if numThreads ≤ 0 then E.numThreads else numThreads)
  -- a range ends with the rows, or between two chunks
  have hstop : x.2 = rowCount ∨ 64 ∣ x.2 ∧ x.2 ≤ rowCount := by
    rcases hfollow.stop x hx with he | ⟨y, hy, he⟩
    · exact Or.inl he
    · exact Or.inr ⟨he ▸ hstart y hy, hfollow.stop_le x hx⟩
  refine ParallelRunner.workerThread_total h.nodup h.table h.fields_length h32
    (J := fun _ => J) (fun row R cols p hrow hlt hp hR hcols => ?_) hne h0 (hstart x hx) bufs
  obtain ⟨m, hm, hJ, htotal⟩ := hcall _ cols p hp (holdsPlanes_unsliced hcols hmode)
  refine ⟨m, hm, hJ, (htotal _ (Nat.min_le_left ..)).trans (congrArg some ?_)⟩
  refine Finset.sum_congr rfl fun r hr => ?_
  have hr := Finset.mem_range.1 hr
  refine lane_transposed hdep hrow (fun b hb f hf => ?_) (by omega)
  rw [hR b hb f hf, paddedRow, Nat.add_mul]
  refine if_congr ?_ rfl rfl
  omega

/-- **`execute_vector` without slicing.** -/
theorem executeVector_unsliced {D : Doubles} {precisionMultiplier : D.carrier}
    (h : Installed E L getField rowStride names) (hmode : L.mode ≠ .BIT_SLICED)
    (hw : LaneResults PF L names w) (hdep : DependsOn names w) (bufs : ℕ → ColumnBuffer)
    (data : ℕ → BitVec 8) (rowCount : ℕ) :
    ∃ E', executeVector PF D precisionMultiplier { E with fieldBuffers := bufs } data rowCount =
      some ((List.range rowCount).map fun r => D.entry L.resultKind precisionMultiplier
        (w (r % 64) (transposedRow (heldRow L names bufs getField data rowStride rowCount) r)), E') := by
  -- before a chunk the buffers of the path for five words hold the chunk before it
  refine h.executeVector_chunks hw (J := fun chunk bufs' => chunk * 64 < rowCount →
      ∀ f ∈ names, ∀ r < 64, bufs' (names.idxOf f) r = if chunk = 0 then bufs (names.idxOf f) r
        else recordAt getField data ((chunk * 64 + r - 64) * rowStride) f)
    (fun chunk bufs₁ R hlt hJ hR habove bufs' hcols => ?_) fun _ f _ r _ => by rw [if_pos rfl]
  have hheld : ∀ b < 64, ∀ f ∈ names,
      R b f = heldRow L names bufs getField data rowStride rowCount (chunk * 64 + b) f := by
    intro b hb f hf
    rw [heldRow]
    by_cases hlast : chunk * 64 + b < rowCount
    · rw [if_pos hlast, hR b (by omega) f hf]
    · rw [if_neg hlast, habove b hb (by omega) f hf, leftover]
      refine ite_congr rfl (fun _ => ?_) fun _ => rfl
      rw [hJ hlt f hf b hb]
      rcases Nat.eq_zero_or_pos chunk with rfl | hpos
      · rw [if_pos rfl, if_pos (by omega), Nat.zero_mul, Nat.zero_add]
      · rw [if_neg (by omega), if_neg (by omega)]
  refine ⟨fun hnext f hf r hr => ?_, _, holdsPlanes_unsliced hcols hmode, fun r hr => ?_⟩
  · have hi := List.idxOf_lt_length_of_mem hf
    obtain ⟨d, -, hd⟩ := h.table _ f (List.getElem?_idxOf hf)
    have hcol := hcols _ f (List.getElem?_idxOf hf)
    have hlen := h.length_le
    simp only [fieldPlanesArray, hd, if_pos (show names.idxOf f < 128 by omega), sliceColumn,
      if_neg hmode, Option.some.injEq] at hcol
    rw [hcol, if_neg (by omega)]
    refine (hR r (by omega) f hf).trans ?_
    congr 2
    omega
  · exact lane_transposed hdep (Dvd.intro_left chunk rfl) hheld (by omega)

end Unsliced

/-! ### Both modes -/

/-- The `double` of a value. -/
def ofValue (D : Doubles) (precisionMultiplier : D.carrier) : {t : Ty} → t.Value → D.carrier
  | .bool, b => if b = true then D.one else D.zero
  | .num, v => D.div (D.ofInt64 v) precisionMultiplier

/-- An entry is its value. -/
theorem entry_encode (D : Doubles) (precisionMultiplier : D.carrier) {t : Ty} (v : t.Value) :
    D.entry (if t = .bool then .BITMASK else .BITPLANE) precisionMultiplier (encode v) =
      ofValue D precisionMultiplier v := by
  cases t with
  | num => rfl
  | bool => cases v <;> rfl

/-- What both modes make of a well-typed operation. -/
structure TypedLogic (PF : Platform) {t : Ty} (e : Expr t) (names : List Name) (L : ExprCompiledLogic) :
    Prop where
  totals : LaneTotals PF L names fun r row => encode (e.evalWith (subLane r) row)
  results : LaneResults PF L names fun r row => encode (e.evalWith (subLane r) row)
  kind : L.resultKind = if t = .bool then .BITMASK else .BITPLANE
  entries : ∀ i, i ∈ tableEntries L.kernel ↔ i < names.length

section Typed

variable {PF : Platform} {P : NodePool} (hP : Built P) {t : Ty} {e : Expr t} {root : ℕ}
  (he : Represents P.storage e root) (hc : e.compound = true)

include hP he hc

theorem typedLogic_of_compile {a₀ a : ℕ → Annot}
    (heq : ∀ n, (P.storage n).kind.isComparison = false → (a₀ n).eqSlotId = -1)
    (hskip : ∀ n, Reach P.storage root n → (a₀ n).skipJit = false) {L : ExprCompiledLogic}
    (hcomp : Jit.compileExpression PF.rt P.storage a₀ root 64 = (a, .ok L.kernel))
    (hsum : sumMeta P.storage a root = .ok (L.baseSum, L.deltaWeights, L.masksToPopcount))
    (hkind : L.resultKind = (a root).resultKind) {names : List Name}
    (hN : Numbered P.storage a root names) (hlen : names.length ≤ 128) :
    TypedLogic PF e names L := by
  rw [sumMeta_typed he, Except.ok.injEq, Prod.mk.injEq, Prod.mk.injEq] at hsum
  refine ⟨bitSliced_laneTotals hP he hc heq hskip hcomp hsum.2.1.symm hkind hN hlen,
    bitSliced_laneResults hP he hc heq hskip hcomp hsum.2.1.symm hkind hN hlen,
    hkind.trans (compile_resultKind hP he hc hcomp), fun i => ⟨fun hi => ?_, fun hi => ?_⟩⟩
  · obtain ⟨n, hn, hk, rfl⟩ := Jit.compile_tableEntries hP (he.lt_nextIdx hP hc) hcomp hi
    exact hN.toNat_lt hn hk
  · obtain ⟨n, hn, hk, hname⟩ := (hN.mem names[i]).1 (List.getElem_mem hi)
    have hidx := hN.idx n hn hk
    rw [hname, hN.nodup.idxOf_getElem] at hidx
    have := Jit.compile_loads hP (by decide) he hc hcomp hskip hn hk
    rwa [hidx, Int.toNat_natCast] at this

variable {E₀ : ApexEngine} {schemaName : Name} {fields : List FieldDescriptor} {rowStride : ℕ}
  (hnew : E₀.registry.schemas schemaName = none) (honly : E₀.exprLogic = [])
  (hreg : ∀ n, Reach P.storage root n → (P.storage n).kind = .LOAD →
    ∃ d ∈ fields, d.name = (P.storage n).fieldName) {a : ℕ → Annot} {E : ApexEngine}

include hnew honly hreg

/-- The logic on the CPU. -/
theorem bitSliced_typedLogic (hfresh : Fresh P root)
    (hset : setExpression PF (E₀.registerSchema schemaName fields rowStride) schemaName P.storage
      P.annot (some root) .BIT_SLICED = .ok (a, E)) (hacc : E.exprLogic ≠ []) :
    ∃ L, TypedLogic PF e (fieldOrder P.storage root) L ∧ L.mode = .BIT_SLICED ∧ L.activeBits = 64 ∧
      Installed E L (fun f => fields.find? fun d => d.name = f) rowStride
        (fieldOrder P.storage root) := by
  have hlt := he.lt_nextIdx hP hc
  obtain ⟨a₁, L, hmark, hcomp, hsum, hmode, hkind, hbits, hinst⟩ :=
    setExpression_installed hP hlt (by decide) hnew honly hset hacc
  rw [markMode, markSkip_typed he] at hmark
  obtain rfl := Except.ok.inj hmark
  rw [compileMode, if_neg (by decide)] at hcomp
  obtain ⟨hlen, hN⟩ := Numbered.ofCompiled hP hlt hcomp
  exact ⟨L, typedLogic_of_compile hP he hc hP.eqSlotId (fun n hn => hfresh.skipJit hn) hcomp hsum hkind
    hN hlen, hmode, hbits, hinst _ hN hlen (hN.forall_names hreg)⟩

/-- And in the mode of the device. -/
theorem gpu_typedLogic
    (hset : setExpression PF (E₀.registerSchema schemaName fields rowStride) schemaName P.storage
      P.annot (some root) .GPU_THROUGHPUT = .ok (a, E)) (hacc : E.exprLogic ≠ []) :
    ∃ L, TypedLogic PF e (fieldOrder P.storage root) L ∧ L.mode = .GPU_THROUGHPUT ∧
      Installed E L (fun f => fields.find? fun d => d.name = f) rowStride
        (fieldOrder P.storage root) := by
  have hlt := he.lt_nextIdx hP hc
  obtain ⟨a₁, a₂, L, K, hskip, honlySkip, hcomp, hsum, hgen, -, hmode, hkind, -, -, hlen, hN, hI⟩ :=
    setExpression_gpu hP hlt hnew honly hreg hset hacc
  refine ⟨L, typedLogic_of_compile hP he hc (fun n hn => ?_) hskip hcomp hsum ?_ hN hlen, hmode, hI⟩
  · have heq := hP.eqSlotId n hn
    rcases honlySkip n with h | h <;> rw [h] <;> exact heq
  · rw [hkind, generateMslSource_others hP hlt hgen]

end Typed

section Compare

variable {PF : Platform} {D : Doubles} {t : Ty} {e : Expr t} {names : List Name}
  {getField : Name → Option FieldDescriptor} {rowStride : ℕ} {E E' : ApexEngine}
  {L L' : ExprCompiledLogic} (hI : Installed E L getField rowStride names)
  (hI' : Installed E' L' getField rowStride names) (hT : TypedLogic PF e names L)
  (hT' : TypedLogic PF e names L') (hmode : L.mode = .BIT_SLICED) (hbits : L.activeBits = 64)
  (hmode' : L'.mode = .GPU_THROUGHPUT)
  (hdep : DependsOn names fun r row => encode (e.evalWith (subLane r) row)) (data : ℕ → BitVec 8)
  (rowCount : ℕ)

include hI hI' hT hT' hmode hbits hmode' hdep

/-- When both totals agree. -/
theorem parallel_iff (h32 : rowCount = 0 ∨ names.length ≤ 32) (numThreads : ℤ)
    (taskBufs taskBufs' : ℕ → ℕ → ColumnBuffer) :
    (∃ total, executeParallel PF E data rowCount numThreads taskBufs = some total ∧
        executeParallel PF E' data rowCount numThreads taskBufs' = some total) ↔
      ∑ r ∈ Finset.range rowCount, encode (e.evalWith (subLane (r % 64))
          (transposedRow (paddedRow getField data rowStride rowCount) r)) =
        ∑ r ∈ Finset.range rowCount,
          encode (e.evalWith (subLane (r % 64)) (recordAt getField data (r * rowStride))) := by
  by_cases hnone : names = [] ∨ rowCount = 0
  · -- no task counts anything, in either mode
    obtain ⟨name, fields, hL, hmd⟩ := hI.logic
    obtain ⟨name', fields', hL', hmd'⟩ := hI'.logic
    rw [executeParallel_eq_zero hL hmd (hnone.imp_left fun h => by rw [hI.fields_length, h]; rfl),
      executeParallel_eq_zero hL' hmd' (hnone.imp_left fun h => by rw [hI'.fields_length, h]; rfl)]
    refine iff_of_true ⟨0, rfl, rfl⟩ (Finset.sum_congr rfl fun r hr => hdep _ _ _ fun f hf => ?_)
    rcases hnone with rfl | rfl
    · exact absurd hf List.not_mem_nil
    · exact absurd (Finset.mem_range.1 hr) (Nat.not_lt_zero r)
  · obtain ⟨hne, hpos⟩ := not_or.1 hnone
    have h32 := h32.resolve_left hpos
    rw [hI.executeParallel_lanes hmode hbits hT.totals hdep hne h32,
      executeParallel_unsliced hI' (by rw [hmode']; decide) hT'.totals hdep hne h32]
    constructor
    · rintro ⟨total, h, h'⟩
      exact (Option.some.inj h').trans (Option.some.inj h).symm
    · exact fun h => ⟨_, rfl, congrArg some h⟩

/-- When both vectors agree. -/
theorem vector_iff (precisionMultiplier : D.carrier) (bufs bufs' : ℕ → ColumnBuffer) :
    (∃ results E₁ E₂,
        executeVector PF D precisionMultiplier { E with fieldBuffers := bufs } data rowCount =
          some (results, E₁) ∧
        executeVector PF D precisionMultiplier { E' with fieldBuffers := bufs' } data rowCount =
          some (results, E₂)) ↔
      ∀ r < rowCount, ofValue D precisionMultiplier (e.evalWith (subLane (r % 64))
          (transposedRow (heldRow L' names bufs' getField data rowStride rowCount) r)) =
        ofValue D precisionMultiplier
          (e.evalWith (subLane (r % 64)) (recordAt getField data (r * rowStride))) := by
  obtain ⟨E₁, hrun⟩ : ∃ E₁, executeVector PF D precisionMultiplier _ data rowCount = some (_, E₁) :=
    hI.executeVector_lanes hmode hbits hT.results hdep bufs data rowCount
  obtain ⟨E₂, hrun'⟩ : ∃ E₂, executeVector PF D precisionMultiplier _ data rowCount = some (_, E₂) :=
    executeVector_unsliced hI' (by rw [hmode']; decide) hT'.results hdep bufs' data rowCount
  simp only [hT.kind, hT'.kind, entry_encode, rowValue] at hrun hrun'
  rw [hrun, hrun']
  simp only [Option.some.injEq, Prod.mk.injEq]
  constructor
  · rintro ⟨results, -, -, ⟨rfl, -⟩, h, -⟩ r hr
    exact List.map_inj_left.1 h r (List.mem_range.2 hr)
  · intro h
    exact ⟨_, E₁, E₂, ⟨rfl, rfl⟩, List.map_inj_left.2 fun r hr => h r (List.mem_range.1 hr), rfl⟩

end Compare

/-- The kernels of an engine stay within the table of `worker_thread`. -/
def WorkerTableInBounds (E : ApexEngine) : Prop :=
  ∀ x ∈ E.exprLogic, ∀ i ∈ tableEntries x.2.kernel, i < 32

/-- Two engines return the same results on some rows, from tables that are long enough. -/
structure SameResults (PF : Platform) (D : Doubles) (precisionMultiplier : D.carrier)
    (E E' : ApexEngine) (data : ℕ → BitVec 8) (rowCount : ℕ) (numThreads : ℤ)
    (taskBufs taskBufs' : ℕ → ℕ → ColumnBuffer) : Prop where
  tables : rowCount ≠ 0 → WorkerTableInBounds E ∧ WorkerTableInBounds E'
  parallel : ∃ total, executeParallel PF E data rowCount numThreads taskBufs = some total ∧
    executeParallel PF E' data rowCount numThreads taskBufs' = some total
  vector : ∃ results E₁ E₂, executeVector PF D precisionMultiplier E data rowCount = some (results, E₁) ∧
    executeVector PF D precisionMultiplier E' data rowCount = some (results, E₂)

/-- **The CPU entry points after `set_expression` in the GPU mode.**  A well-typed operation,
accepted on fresh nodes in the `BIT_SLICED` mode and in the `GPU_THROUGHPUT` mode:
`execute_parallel` and `execute_vector` return the same in both if and only if there are
no rows or at most 32 fields, and the expression adds up to the same over the rows and
over the rows of the transposed chunks, and has the same value as a `double` on each row
and on the row of the transposed chunk. -/
theorem cpu_results_iff (PF : Platform) (D : Doubles) {P : NodePool} (hP : Built P) {t : Ty}
    {e : Expr t} {root : ℕ} (he : Represents P.storage e root) (hc : e.compound = true)
    (hfresh : Fresh P root) {E₀ : ApexEngine} {schemaName : Name} {fields : List FieldDescriptor}
    {rowStride : ℕ} (hnew : E₀.registry.schemas schemaName = none) (honly : E₀.exprLogic = [])
    (hreg : ∀ n, Reach P.storage root n → (P.storage n).kind = .LOAD →
      ∃ d ∈ fields, d.name = (P.storage n).fieldName) {a a' : ℕ → Annot} {E E' : ApexEngine}
    (hset : setExpression PF (E₀.registerSchema schemaName fields rowStride) schemaName P.storage
      P.annot (some root) .BIT_SLICED = .ok (a, E)) (hacc : E.exprLogic ≠ [])
    (hset' : setExpression PF (E₀.registerSchema schemaName fields rowStride) schemaName P.storage
      P.annot (some root) .GPU_THROUGHPUT = .ok (a', E')) (hacc' : E'.exprLogic ≠ []) :
    ∃ L, E'.exprLogic = [(schemaName, L)] ∧
      ∀ (precisionMultiplier : D.carrier) (data : ℕ → BitVec 8) (rowCount : ℕ) (numThreads : ℤ)
        (taskBufs taskBufs' : ℕ → ℕ → ColumnBuffer) (bufs bufs' : ℕ → ColumnBuffer),
        SameResults PF D precisionMultiplier { E with fieldBuffers := bufs }
            { E' with fieldBuffers := bufs' } data rowCount numThreads taskBufs taskBufs' ↔
          (rowCount = 0 ∨ (fieldOrder P.storage root).length ≤ 32) ∧
          ∑ r ∈ Finset.range rowCount, encode (e.evalWith (subLane (r % 64)) (transposedRow
              (paddedRow (fun f => fields.find? fun d => d.name = f) data rowStride rowCount) r)) =
            ∑ r ∈ Finset.range rowCount,
              encode (e.evalWith (subLane (r % 64)) (rowOf fields data rowStride r)) ∧
          ∀ r < rowCount, ofValue D precisionMultiplier (e.evalWith (subLane (r % 64)) (transposedRow
              (heldRow L (fieldOrder P.storage root) bufs' (fun f => fields.find? fun d => d.name = f)
                data rowStride rowCount) r)) =
            ofValue D precisionMultiplier
              (e.evalWith (subLane (r % 64)) (rowOf fields data rowStride r)) := by
  obtain ⟨L, hT, hmode, hbits, hI⟩ := bitSliced_typedLogic hP he hc hnew honly hreg hfresh hset hacc
  obtain ⟨L', hT', hmode', hI'⟩ := gpu_typedLogic hP he hc hnew honly hreg hset' hacc'
  have hL := (hI.logic_eq (setExpression_keys honly hset hacc)).1
  have hL' := (hI'.logic_eq (setExpression_keys honly hset' hacc')).1
  refine ⟨L', hL', fun pm data rowCount numThreads taskBufs taskBufs' bufs bufs' => ?_⟩
  have hdep := (RootValue.typed he hc).dependsOn hP
    ⟨hI.nodup, fun f => Jit.mem_fieldOrder hP (he.lt_nextIdx hP hc) f⟩
  have hpar := fun h32 => parallel_iff (hI.with_buffers bufs) (hI'.with_buffers bufs') hT hT' hmode hbits
    hmode' hdep data rowCount h32 numThreads taskBufs taskBufs'
  have hvec := vector_iff hI hI' hT hT' hmode hbits hmode' hdep data rowCount pm bufs bufs'
  constructor
  · intro h
    have h32 : rowCount = 0 ∨ (fieldOrder P.storage root).length ≤ 32 := by
      by_contra hnot
      obtain ⟨hpos, hlen⟩ := not_or.1 hnot
      have := (h.tables hpos).1 _ (hL ▸ List.mem_singleton_self _) 32 ((hT.entries 32).2 (by omega))
      omega
    exact ⟨h32, (hpar h32).1 h.parallel, hvec.1 h.vector⟩
  · rintro ⟨h32, hsum, hrows⟩
    refine ⟨fun hpos => ⟨fun x hx i hi => ?_, fun x hx i hi => ?_⟩, (hpar h32).2 hsum, hvec.2 hrows⟩
    · obtain rfl := List.mem_singleton.1 (hL ▸ hx)
      exact Nat.lt_of_lt_of_le ((hT.entries i).1 hi) (h32.resolve_left hpos)
    · obtain rfl := List.mem_singleton.1 (hL' ▸ hx)
      exact Nat.lt_of_lt_of_le ((hT'.entries i).1 hi) (h32.resolve_left hpos)

/-- Numbers without rounding. -/
def exactDoubles : Doubles where
  carrier := ℚ
  zero := 0
  one := 1
  ofInt64 w := w.toInt
  div := (· / ·)
  one_ne_zero := by decide

/-- Rows of ones are their own transpose. -/
theorem transposedRow_ones {rows : ℕ → Name → Word} {r : ℕ} {f : Name}
    (h : ∀ b < 64, rows (64 * (r / 64) + b) f = BitVec.allOnes 64) :
    transposedRow rows r f = BitVec.allOnes 64 := by
  have hones : Planes (fun b => rows (64 * (r / 64) + b) f) fun _ => BitVec.allOnes 64 := by
    intro b hb k hk
    rw [show (fun b => rows (64 * (r / 64) + b) f) b = BitVec.allOnes 64 from h b hb,
      BitVec.getLsbD_allOnes, BitVec.getLsbD_allOnes, decide_eq_true hk, decide_eq_true hb]
  exact (planes_laneOf _).lane_unique hones (Nat.mod_lt r (by decide))

/-- `a > 5` on 64 rows of ones, which are their own transpose. -/
theorem cpu_results_iff_ones :
    ∃ a E a' E', setExpression .standard oneFieldEngine ['t']
        Jit.gtPool.storage Jit.gtPool.annot (some 2) .BIT_SLICED = .ok (a, E) ∧
      setExpression .standard oneFieldEngine ['t'] Jit.gtPool.storage
        Jit.gtPool.annot (some 2) .GPU_THROUGHPUT = .ok (a', E') ∧
      SameResults .standard exactDoubles exactDoubles.one E E' (fun _ => 0xFF) 64 2 (fun _ _ _ => 0)
        fun _ _ _ => 0 := by
  obtain ⟨a, E, hset, hacc⟩ := gtPool_accepted .BIT_SLICED
  obtain ⟨a', E', hset', hacc'⟩ := gtPool_accepted .GPU_THROUGHPUT
  obtain ⟨L, -, hiff⟩ := cpu_results_iff .standard exactDoubles Jit.gtPool_built Jit.gtPool_represents rfl
    Jit.gtPool_fresh rfl rfl (gtPool_registered ⟨_, List.mem_singleton_self _, rfl⟩) hset hacc hset' hacc'
  have hones : ∀ r < 64, (Expr.evalWith (subLane (r % 64)) (transposedRow (paddedRow (fun f =>
      oneField.find? fun d => d.name = f) (fun _ => 0xFF) 8 64) r)
        (.cmp .gt (.load ['a']) (.const 5)) : Bool) =
      Expr.evalWith (subLane (r % 64)) (rowOf oneField (fun _ => 0xFF) 8 r)
        (.cmp .gt (.load ['a']) (.const 5)) := by
    intro r hr
    refine Expr.evalWith_congr _ fun f hf => ?_
    obtain rfl : f = ['a'] := List.mem_singleton.1 hf
    have hword : ∀ p, load64 (fun _ => 0xFF) p = BitVec.allOnes 64 := fun p => by rw [load64]; decide
    refine (transposedRow_ones fun b hb => ?_).trans (hword (r * 8 + 0)).symm
    rw [paddedRow, if_pos (by omega)]
    exact hword ((64 * (r / 64) + b) * 8 + 0)
  refine ⟨a, E, a', E', hset, hset', (hiff exactDoubles.one (fun _ => 0xFF) 64 2 (fun _ _ _ => 0)
    (fun _ _ _ => 0) E.fieldBuffers E'.fieldBuffers).2 ⟨Or.inr (by decide),
      Finset.sum_congr rfl fun r hr => congrArg encode (hones r (Finset.mem_range.1 hr)),
      fun r hr => ?_⟩⟩
  rw [transposedRow_held (by omega)]
  exact congrArg (ofValue exactDoubles exactDoubles.one) (hones r hr)

/-- `a > 5` on one row with `a = 10`: it counts in the `BIT_SLICED` mode and not in the
`GPU_THROUGHPUT` mode. -/
theorem gpu_mode_transposes :
    ∃ a E a' E' E₁ E₂, setExpression .standard oneFieldEngine ['t']
        Jit.gtPool.storage Jit.gtPool.annot (some 2) .BIT_SLICED = .ok (a, E) ∧
      setExpression .standard oneFieldEngine ['t'] Jit.gtPool.storage
        Jit.gtPool.annot (some 2) .GPU_THROUGHPUT = .ok (a', E') ∧
      executeParallel .standard E tens 1 1 (fun _ _ _ => 0) = some 1 ∧
      executeParallel .standard E' tens 1 1 (fun _ _ _ => 0) = some 0 ∧
      executeVector .standard exactDoubles exactDoubles.one E tens 1 =
        some ([exactDoubles.one], E₁) ∧
      executeVector .standard exactDoubles exactDoubles.one E' tens 1 =
        some ([exactDoubles.zero], E₂) := by
  obtain ⟨a, E, hset, hacc⟩ := gtPool_accepted .BIT_SLICED
  obtain ⟨a', E', hset', hacc'⟩ := gtPool_accepted .GPU_THROUGHPUT
  have hfield : ∃ d ∈ oneField, d.name = ['a'] := ⟨_, List.mem_singleton_self _, rfl⟩
  obtain ⟨L, hT, hmode, hbits, hI⟩ := bitSliced_typedLogic Jit.gtPool_built Jit.gtPool_represents rfl
    rfl rfl (gtPool_registered hfield) Jit.gtPool_fresh hset hacc
  obtain ⟨L', hT', hmode', hI'⟩ := gpu_typedLogic Jit.gtPool_built Jit.gtPool_represents rfl rfl rfl
    (gtPool_registered hfield) hset' hacc'
  have hcpu : L'.mode ≠ .BIT_SLICED := by rw [hmode']; decide
  have hdep := (RootValue.typed Jit.gtPool_represents rfl).dependsOn Jit.gtPool_built
    ⟨hI.nodup, fun f => Jit.mem_fieldOrder Jit.gtPool_built (by decide) f⟩
  have hne : fieldOrder Jit.gtPool.storage 2 ≠ [] := by decide
  have h32 : (fieldOrder Jit.gtPool.storage 2).length ≤ 32 := by decide
  obtain ⟨E₁, hvec⟩ : ∃ E₁, executeVector .standard exactDoubles exactDoubles.one _ tens 1 =
      some (_, E₁) := hI.executeVector_lanes hmode hbits hT.results hdep E.fieldBuffers tens 1
  obtain ⟨E₂, hvec'⟩ : ∃ E₂, executeVector .standard exactDoubles exactDoubles.one _ tens 1 =
      some (_, E₂) := executeVector_unsliced hI' hcpu hT'.results hdep E'.fieldBuffers tens 1
  -- one field is no case for the path for five words
  have hsimd : ¬useSimd5 L' = true := fun h => by
    have h5 := useSimd5_length L' h
    rw [hI'.fields_length, gtPool_order] at h5
    exact absurd h5 (by decide)
  have hheld : heldRow L' (fieldOrder Jit.gtPool.storage 2) E'.fieldBuffers
      (fun f => oneField.find? fun d => d.name = f) tens 8 1 =
        paddedRow (fun f => oneField.find? fun d => d.name = f) tens 8 1 := by
    funext k f
    simp [heldRow, paddedRow, hsimd]
  refine ⟨a, E, a', E', E₁, E₂, hset, hset', ?_, ?_, hvec.trans ?_, hvec'.trans ?_⟩
  · rw [hI.executeParallel_lanes hmode hbits hT.totals hdep hne h32]
    decide
  · rw [executeParallel_unsliced hI' hcpu hT'.totals hdep hne h32]
    decide +kernel
  · have hrow : rowValue (fun f => oneField.find? fun d => d.name = f) 8 tens (fun r row => encode
        (Expr.evalWith (subLane r) row (.cmp .gt (.load ['a']) (.const 5)))) 0 = 1 := by
      decide
    rw [show L.resultKind = .BITMASK from hT.kind, List.range_one, List.map_singleton, hrow]
    rfl
  · have hrow : encode (Expr.evalWith (subLane (0 % 64)) (transposedRow (paddedRow (fun f =>
        oneField.find? fun d => d.name = f) tens 8 1) 0) (.cmp .gt (.load ['a']) (.const 5))) =
          0 := by
      decide +kernel
    rw [show L'.resultKind = .BITMASK from hT'.kind, hheld, List.range_one, List.map_singleton,
      hrow]
    rfl

end Gpu
end AarchGate
