/-
# Parallel execution is independent of the thread count

The three paths of the gather put the rows of a chunk into its columns and zeros above
them (`workerColumns_filled`), so a task adds up the values of its rows
(`workerThread_total`), also from the scratchpad the chunk before has left behind.
The ranges of the tasks are a partition of the rows, and `execute_parallel` returns
what `execute` returns, for any number of threads (`executeParallel_eq_execute`).
-/

import AarchGate.Engine.Parallel

namespace AarchGate
namespace Engine
namespace ParallelRunner

open A64 Ir AarchGate.Core Compute BitPlane
open Jit (Columns pad)
open ApexEngine

/-! ### The gather -/

section Gather

variable (PF : Platform) (C : TaskConfig) (data : ℕ → BitVec 8) (base rows : ℕ)

/-- The column holds the rows of field `d`, and zeros above them. -/
def Filled (d : FieldDescriptor) (col : ColumnBuffer) : Prop :=
  ∀ r < 64, col r = if r < rows then load64 data (base + r * C.rowStride + d.offset) else 0

/-- The rows of one field. -/
theorem gatherRows_filled (d : FieldDescriptor) (out : ColumnBuffer) :
    Filled C data base rows d (gatherRows C data base rows d.offset out) := by
  intro r hr
  rw [gatherRows, foldl_update_apply (fun _ => 0),
    foldl_update_apply fun r => load64 data (base + r * C.rowStride + d.offset)]
  simp only [List.mem_range'_1, List.mem_range]
  by_cases h : r < rows
  · rw [if_neg (by omega), if_pos h, if_pos h]
  · rw [if_pos (by omega), if_neg h]

/-- The loop over the fields, from field `i` on, fills their buffers and no others. -/
theorem foldlM_workerField {k : ℕ}
    (hfields : ∀ j < k, ∃ d, C.fields[j]? = some (some d)) :
    ∀ (n i : ℕ) (bufs : ℕ → ColumnBuffer), i + n = k →
      ∃ bufs', (List.range' i n).foldlM (workerField PF C data base rows) bufs = some bufs' ∧
        (∀ j < i, bufs' j = bufs j) ∧
        ∀ j d, i ≤ j → j < k → C.fields[j]? = some (some d) →
          ∃ col, bufs' j = sliceColumn PF C.toExprCompiledLogic col ∧
            Filled C data base rows d col := by
  intro n
  induction n with
  | zero => exact fun i bufs hi => ⟨bufs, rfl, fun _ _ => rfl, fun j d h1 h2 => by omega⟩
  | succ n ih =>
    intro i bufs hi
    obtain ⟨d, hd⟩ := hfields i (by omega)
    obtain ⟨bufs', hrun, hframe, hfill⟩ := ih (i + 1) (Function.update bufs i
      (sliceColumn PF C.toExprCompiledLogic (gatherRows C data base rows d.offset (bufs i)))) (by omega)
    refine ⟨bufs', ?_, fun j hj => ?_, fun j d' h1 h2 hd' => ?_⟩
    · rw [List.range'_succ, List.foldlM_cons, workerField, hd]
      exact hrun
    · rw [hframe j (by omega), Function.update_of_ne (by omega)]
    · rcases Nat.lt_or_ge i j with hij | hij
      · exact hfill j d' hij h2 hd'
      · obtain rfl : i = j := by omega
        rw [hd] at hd'
        obtain rfl := Option.some.inj (Option.some.inj hd')
        refine ⟨_, ?_, gatherRows_filled C data base rows d (bufs i)⟩
        rw [hframe i (by omega), Function.update_self]

/-- Four rows at a time are rows one after the other. -/
theorem foldl_simdQuad (q : ℕ) (bufs : ℕ → ColumnBuffer) :
    (List.range q).foldl (simdQuad C data base) bufs =
      (List.range (4 * q)).foldl (simdRow data base C.rowStride) bufs := by
  induction q with
  | zero => rfl
  | succ q ih =>
    rw [List.range_succ, List.foldl_append, ih, Nat.mul_succ, List.range_succ, List.range_succ,
      List.range_succ, List.range_succ]
    simp [simdQuad, List.foldl_append]

theorem zeroFive_apply (bufs : ℕ → ColumnBuffer) {i : ℕ} (hi : i < 5) (r : ℕ) :
    zeroFive rows bufs i r = if rows ≤ r ∧ r < 64 then 0 else bufs i r := by
  have hlist : ∀ (l : List ℕ) (bufs : ℕ → ColumnBuffer), l.foldl
      (fun bufs r i => if i < 5 then Function.update (bufs i) r 0 else bufs i) bufs i r =
        if r ∈ l then 0 else bufs i r := by
    intro l
    induction l with
    | nil => intro bufs; simp
    | cons x l ih =>
      intro bufs
      rw [List.foldl_cons, ih, if_pos hi, Function.update_apply]
      simp only [List.mem_cons]
      split_ifs <;> simp_all
  rw [zeroFive, hlist]
  refine if_congr (List.mem_range'_1.trans ?_) rfl rfl
  omega

/-- The vector path: the first five columns before they are sliced. -/
theorem simd_filled (hs : useSimd5 C.toExprCompiledLogic = true)
    (bufs : ℕ → ColumnBuffer) {i : ℕ} (hi : i < 5) {d : FieldDescriptor}
    (hd : C.fields[i]? = some (some d)) :
    Filled C data base rows d (zeroFive rows (if rows = 64 then
      (List.range 16).foldl (simdQuad C data base) bufs
      else (List.range rows).foldl (simdRow data base C.rowStride) bufs) i) := by
  have hpath : (if rows = 64 then (List.range 16).foldl (simdQuad C data base) bufs
      else (List.range rows).foldl (simdRow data base C.rowStride) bufs) =
      (List.range rows).foldl (simdRow data base C.rowStride) bufs := by
    split_ifs with h64
    · rw [foldl_simdQuad, h64]
    · rfl
  intro r hr
  rw [hpath, zeroFive_apply rows _ hi]
  by_cases h : r < rows
  · rw [if_neg (by omega), if_pos h, foldl_simdRow data base C.rowStride _ _ hi, if_pos h,
      useSimd5_offset _ hs hi hd]
  · rw [if_pos (by omega), if_neg h]

/-- **The gather of a task** fills the columns of all fields, if none is missing. -/
theorem workerColumns_filled (hfields : ∀ i < min C.fields.length 32, ∃ d, C.fields[i]? = some (some d))
    (bufs : ℕ → ColumnBuffer) :
    ∃ bufs', workerColumns PF C data base rows bufs = some bufs' ∧
      ∀ i d, i < min C.fields.length 32 → C.fields[i]? = some (some d) →
        ∃ col, bufs' i = sliceColumn PF C.toExprCompiledLogic col ∧ Filled C data base rows d col := by
  unfold workerColumns
  cases hs : useSimd5 C.toExprCompiledLogic with
  | false =>
    obtain ⟨bufs', hrun, -, hfill⟩ := foldlM_workerField PF C data base rows hfields
      (min C.fields.length 32) 0 bufs (Nat.zero_add _)
    rw [← List.range_eq_range'] at hrun
    exact ⟨bufs', hrun, fun i d hi hd => hfill i d (Nat.zero_le _) hi hd⟩
  | true =>
    have h5 := useSimd5_length _ hs
    simp only [if_true]
    obtain ⟨bufs', hrun, hframe, hfill⟩ := foldlM_workerField PF C data base rows hfields
      (min C.fields.length 32 - 5) 5 _ (by omega)
    refine ⟨bufs', hrun, fun i d hi hd => ?_⟩
    rcases Nat.lt_or_ge i 5 with hi5 | hi5
    · refine ⟨_, ?_, simd_filled C data base rows hs bufs hi5 hd⟩
      rw [hframe i hi5, foldl_sliceColumn PF _ _ hi5]
    · exact hfill i d hi5 hi hd

end Gather

/-! ### A task -/

section Task

variable {PF : Platform} {L : ExprCompiledLogic} {rowStride : ℕ}
  {getField : Name → Option FieldDescriptor} {names : List Name}

/-- The lanes of a chunk of `rows` rows at byte `base`. -/
def ChunkLanes (getField : Name → Option FieldDescriptor) (names : List Name) (rowStride : ℕ)
    (data : ℕ → BitVec 8) (base rows : ℕ) (R : ℕ → Name → Word) : Prop :=
  ∀ r < 64, ∀ f ∈ names, R r f =
    if r < rows then recordAt getField data (base + r * rowStride) f else 0

/-- **The columns of a chunk hold its rows.** -/
theorem worker_rows (PF : Platform) (hnd : names.Nodup) (hT : FieldTable getField names L.fields)
    (hlen : L.fields.length = names.length) (h32 : names.length ≤ 32) (data : ℕ → BitVec 8)
    (base rows : ℕ) (bufs : ℕ → ColumnBuffer) :
    ∃ bufs' R, workerColumns PF ⟨L, rowStride⟩ data base rows bufs = some bufs' ∧
      ChunkLanes getField names rowStride data base rows R ∧
      HoldsRows PF L names R (workerPlanes ⟨L, rowStride⟩ bufs') := by
  have hfield : ∀ i < names.length, ∃ d, L.fields[i]? = some (some d) := fun i hi => by
    obtain ⟨d, -, hd⟩ := hT i _ (List.getElem?_eq_getElem hi)
    exact ⟨d, hd⟩
  have hmin : min L.fields.length 32 = names.length := by omega
  obtain ⟨bufs', hrun, hfill⟩ := workerColumns_filled PF ⟨L, rowStride⟩ data base rows
    (fun i hi => hfield i (by rwa [hmin] at hi)) bufs
  have hcol : ∀ f ∈ names, ∃ col, bufs' (names.idxOf f) = sliceColumn PF L col ∧ ∀ r < 64,
      col r = if r < rows then recordAt getField data (base + r * rowStride) f else 0 := by
    intro f hf
    have hlt := List.idxOf_lt_length_of_mem hf
    obtain ⟨d, hd, hfd⟩ := hT (names.idxOf f) f (List.getElem?_idxOf hf)
    obtain ⟨col, hcol, hgath⟩ := hfill _ d (by rw [hmin]; exact hlt) hfd
    refine ⟨col, hcol, fun r hr => ?_⟩
    rw [hgath r hr, recordAt, hd]
  choose! col hcol using hcol
  refine ⟨bufs', fun r f => col f r, hrun, fun r hr f hf => (hcol f hf).2 r hr, fun i f hf => ?_⟩
  obtain ⟨hi, hget⟩ := List.getElem?_eq_some_iff.1 hf
  have hidx : names.idxOf f = i := by rw [← hget, hnd.idxOf_getElem]
  have hf' := (hcol f (List.mem_of_getElem? hf)).1
  rw [hidx] at hf'
  rw [workerPlanes, if_pos (by show i < min L.fields.length 32; omega), hf']

variable (hnd : names.Nodup) (hT : FieldTable getField names L.fields)
  (hlen : L.fields.length = names.length) (h32 : names.length ≤ 32) {data : ℕ → BitVec 8}
  {J : ℕ → (ℕ → Word) → Prop} {v : ℕ → Word} {endRow : ℕ}
  (hchunk : ∀ row R cols p, 64 ∣ row → row < endRow → J row p →
    ChunkLanes getField names rowStride data (row * rowStride) (min 64 (endRow - row)) R →
    HoldsRows PF L names R cols → ∃ m, call L.kernel (PF.abi.enter cols p) = some m ∧
      J (row + 64) (pad PF.abi.layout m) ∧
      chunkTotal L (min 64 (endRow - row)) (m.read (.x 0)) (pad PF.abi.layout m) =
        some (∑ r ∈ Finset.range (min 64 (endRow - row)), v (row + r)))

include hnd hT hlen h32 hchunk

/-- The loop over the chunks, from scratchpads that meet `J` at their rows. -/
theorem workerLoop_total : ∀ (n row : ℕ) (p : ℕ → Word) (bufs : ℕ → ColumnBuffer) (total : Word),
    n = (endRow - row + 63) / 64 → 64 ∣ row → J row p →
      workerLoop PF ⟨L, rowStride⟩ data endRow ((List.range n).map fun i => row + 64 * i) p bufs total =
        some (total + ∑ r ∈ Finset.Ico row endRow, v r) := by
  intro n
  induction n with
  | zero =>
    intro row p bufs total hn _ _
    rw [Finset.Ico_eq_empty (by omega)]
    simp [workerLoop]
  | succ n ih =>
    intro row p bufs total hn hrow hp
    obtain ⟨bufs', R, hcols, hR, hholds⟩ := worker_rows PF hnd hT hlen h32 data (row * rowStride)
      (min 64 (endRow - row)) bufs
    obtain ⟨m, hcall, hm, htotal⟩ := hchunk row R _ p hrow (by omega) hp hR hholds
    have hrest : (List.range (n + 1)).map (fun i => row + 64 * i) =
        row :: (List.range n).map fun i => row + 64 + 64 * i := by
      rw [List.range_succ_eq_map, List.map_cons, List.map_map]
      refine congrArg₂ _ (by omega) (List.map_congr_left fun i _ => ?_)
      simp only [Function.comp_apply]
      omega
    rw [hrest, workerLoop]
    simp only [hcols, Jit.Abi.invoke, hcall, workerTotal_eq, htotal, Option.map_some,
      bind, Option.bind_some]
    rw [ih (row + 64) _ bufs' _ (by omega) (by omega) hm, Ranges.sum_Ico_chunk v row endRow 64, add_assoc]

/-- **A task adds up the values of its rows.** -/
theorem workerThread_total (hne : names ≠ []) {startRow : ℕ} (h0 : J startRow fun _ => 0)
    (hstart : 64 ∣ startRow) (bufs : ℕ → ColumnBuffer) :
    workerThread PF ⟨L, rowStride⟩ data startRow endRow bufs =
      some (∑ r ∈ Finset.Ico startRow endRow, v r) := by
  have hpos := List.length_pos_iff.2 hne
  rw [workerThread, if_neg (show L.fields.length ≠ 0 by omega),
    workerLoop_total hnd hT hlen h32 hchunk _ startRow _ bufs 0 rfl hstart h0, zero_add]

end Task

/-- **The tasks add up the totals of their ranges.** -/
theorem run_totals {PF : Platform} {C : TaskConfig} {data : ℕ → BitVec 8} {totalRows : ℕ}
    {numThreads : ℤ} {t : ℕ × ℕ → Word}
    (hworker : ∀ x ∈ rowRanges totalRows numThreads, ∀ bufs,
      workerThread PF C data x.1 x.2 bufs = some (t x)) (bufs : ℕ → ℕ → ColumnBuffer) :
    run PF C data totalRows numThreads bufs = some ((rowRanges totalRows numThreads).map t).sum := by
  have hmap : (rowRanges totalRows numThreads).zipIdx.mapM (fun x =>
      workerThread PF C data x.1.1 x.1.2 (bufs x.2)) =
      some ((rowRanges totalRows numThreads).zipIdx.map fun x => t x.1) :=
    mapM_some fun x hx => hworker x.1 (List.fst_mem_of_mem_zipIdx hx) _
  have hfst : (rowRanges totalRows numThreads).zipIdx.map (fun x => t x.1) =
      (rowRanges totalRows numThreads).map t := by
    conv_rhs => rw [← List.zipIdx_map_fst 0 (rowRanges totalRows numThreads), List.map_map]
    rfl
  rw [run, hmap, hfst]
  rfl

/-- … and so the values of all rows, if each range has those of its rows. -/
theorem run_total {PF : Platform} {C : TaskConfig} {data : ℕ → BitVec 8} {totalRows : ℕ}
    {numThreads : ℤ} {v : ℕ → Word}
    (hworker : ∀ x ∈ rowRanges totalRows numThreads, ∀ bufs,
      workerThread PF C data x.1 x.2 bufs = some (∑ r ∈ Finset.Ico x.1 x.2, v r))
    (bufs : ℕ → ℕ → ColumnBuffer) :
    run PF C data totalRows numThreads bufs = some (∑ r ∈ Finset.range totalRows, v r) := by
  rw [run_totals hworker, (rowRanges_follow totalRows numThreads).1.sum v, Finset.range_eq_Ico]

end ParallelRunner

namespace ApexEngine

open A64 Ir AarchGate.Core Compute BitPlane
open Jit (Columns pad)
open ParallelRunner (rowRanges ChunkLanes)

/-! ### `execute_parallel` -/

/-- An engine with one logic runs it. -/
theorem executeParallel_single {PF : Platform} {E : ApexEngine} {schemaName : Name}
    {L : ExprCompiledLogic} {md : SchemaMetadata} (hL : E.exprLogic = [(schemaName, L)])
    (hmd : E.schemaMetadata schemaName = some md) (data : ℕ → BitVec 8) (rowCount : ℕ)
    (numThreads : ℤ) (bufs : ℕ → ℕ → ColumnBuffer) :
    executeParallel PF E data rowCount numThreads bufs =
      ParallelRunner.run PF ⟨L, md.rowStride⟩ data rowCount
        (if numThreads ≤ 0 then E.numThreads else numThreads) bufs := by
  obtain ⟨k, hk, hfirst⟩ := PF.firstKey_mem [schemaName] (by simp)
  obtain rfl := List.mem_singleton.1 hk
  simp only [executeParallel, hL, List.map_cons, List.map_nil, hfirst, hmd, List.lookup_cons_self]

/-- Tasks without fields count nothing, and neither do tasks without rows. -/
theorem executeParallel_eq_zero {PF : Platform} {E : ApexEngine} {schemaName : Name}
    {L : ExprCompiledLogic} {md : SchemaMetadata} (hL : E.exprLogic = [(schemaName, L)])
    (hmd : E.schemaMetadata schemaName = some md) {rowCount : ℕ}
    (h : L.fields.length = 0 ∨ rowCount = 0)
    (data : ℕ → BitVec 8) (numThreads : ℤ) (bufs : ℕ → ℕ → ColumnBuffer) :
    executeParallel PF E data rowCount numThreads bufs = some 0 := by
  rw [executeParallel_single hL hmd, ParallelRunner.run_total (v := fun _ => 0)]
  · simp
  · intro x hx bufs
    rcases h with h | rfl
    · rw [ParallelRunner.workerThread, if_pos h]
      simp
    · rw [ParallelRunner.rowRanges, if_pos rfl] at hx
      exact absurd hx List.not_mem_nil

section Lanes

variable {PF : Platform} {E : ApexEngine} {L : ExprCompiledLogic}
  {getField : Name → Option FieldDescriptor} {rowStride : ℕ} {names : List Name}
  (h : Installed E L getField rowStride names) (hmode : L.mode = .BIT_SLICED)
  (hbits : L.activeBits = 64)

include h hmode hbits

/-- **`execute_parallel` adds up the values of the rows**, and carries them on from chunk to chunk
of a task. -/
theorem Installed.executeParallel_carried {w : Word → ℕ → (Name → Word) → Word}
    (hw : CarriedTotals PF L names w) (hdep : ∀ c, DependsOn names (w c)) (hne : names ≠ [])
    (h32 : names.length ≤ 32) (data : ℕ → BitVec 8) (rowCount : ℕ) (numThreads : ℤ)
    (bufs : ℕ → ℕ → ColumnBuffer) :
    executeParallel PF E data rowCount numThreads bufs =
      some (carriedTotal w (fun i => recordAt getField data (i * rowStride))
        (rowRanges rowCount (if numThreads ≤ 0 then E.numThreads else numThreads))) := by
  obtain ⟨schemaName, fields, hL, hmd⟩ := h.logic
  obtain ⟨J, h0, hcall⟩ := hw
  rw [executeParallel_single hL hmd]
  refine ParallelRunner.run_totals (fun x hx bufs => ?_) bufs
  have hstart := (ParallelRunner.rowRanges_follow _ _).2 x hx
  -- as long as there are rows left, the chunk before was a full one
  refine ParallelRunner.workerThread_total h.nodup h.table h.fields_length h32
    (J := fun row p => x.1 ≤ row ∧ (row < x.2 → ∃ c, J p c ∧
      CarriedTo w (fun i => recordAt getField data (i * rowStride)) x.1 row c))
    (fun row R cols p hrow hlt hp hR hcols => ?_) hne
    ⟨Nat.le_refl _, fun _ => ⟨_, h0, carriedTo_start _ _ _⟩⟩ hstart bufs
  obtain ⟨hle, hp⟩ := hp
  obtain ⟨c, hJ, hc⟩ := hp hlt
  obtain ⟨m, hm, hJ', htotal⟩ := hcall R cols p c hJ (hcols.holdsPlanes hmode hbits)
  have hlane : ∀ r < min 64 (x.2 - row), w (c r) r (R r) =
      w (c r) r (recordAt getField data ((row + r) * rowStride)) := fun r hr =>
    hdep _ _ _ _ fun f hf => by rw [hR r (by omega) f hf, if_pos hr, Nat.add_mul]
  refine ⟨m, hm, ⟨by omega, fun hlt' => ⟨_, hJ', fun r hr => ?_⟩⟩,
    (htotal _ (Nat.min_le_left ..)).trans (congrArg some (Finset.sum_congr rfl fun r hr => ?_))⟩
  · rw [hlane r (by omega)]
    exact hc.next hstart hrow hle r hr
  · have hr := Finset.mem_range.1 hr
    rw [hlane r hr, hc.row_eq hstart hrow hle (by omega)]

/-- … each row on its own, where nothing is carried. -/
theorem Installed.executeParallel_lanes {w : ℕ → (Name → Word) → Word} (hw : LaneTotals PF L names w)
    (hdep : DependsOn names w) (hne : names ≠ []) (h32 : names.length ≤ 32) (data : ℕ → BitVec 8)
    (rowCount : ℕ) (numThreads : ℤ) (bufs : ℕ → ℕ → ColumnBuffer) :
    executeParallel PF E data rowCount numThreads bufs =
      some (∑ r ∈ Finset.range rowCount, rowValue getField rowStride data w r) := by
  rw [h.executeParallel_carried hmode hbits hw.carried (fun _ => hdep) hne h32,
    carriedTotal_eq (ParallelRunner.rowRanges_follow _ _).1
      fun x _ i _ => carriedRow_eq (fun _ _ _ => rfl) _ x.1 i, Finset.range_eq_Ico]
  rfl

end Lanes

/-- **Parallel execution is independent of the thread count.**  For every root that is
added up over rows, `SUB` included, accepted as the only logic of the engine and with
between one and 32 registered fields, for all data, all numbers of rows and of threads:
the ranges of the tasks are a partition of the rows, each starts at a multiple of 64,
and `execute_parallel` returns what `execute` returns, whatever stands in the columns
of the engine and of the tasks. -/
theorem executeParallel_eq_execute (PF : Platform) {P : NodePool} (hP : Built P) {root : ℕ}
    (hlt : root < P.nextIdx) (hroot : RowRoot P.storage root) (hfresh : Fresh P root)
    (E₀ : ApexEngine) (schemaName : Name) (fields : List FieldDescriptor) (rowStride : ℕ)
    (hnew : E₀.registry.schemas schemaName = none) (honly : E₀.exprLogic = [])
    (hreg : ∀ n, Reach P.storage root n → (P.storage n).kind = .LOAD →
      ∃ d ∈ fields, d.name = (P.storage n).fieldName) {a : ℕ → Annot} {E : ApexEngine}
    (hset : setExpression PF (E₀.registerSchema schemaName fields rowStride) schemaName P.storage
      P.annot (some root) .BIT_SLICED = .ok (a, E)) (hacc : E.exprLogic ≠ []) {names : List Name}
    (hnames : References P.storage root names) (hpos : 1 ≤ names.length) (h32 : names.length ≤ 32)
    (bufs : ℕ → ColumnBuffer) (data : ℕ → BitVec 8) (rowCount : ℕ) (numThreads : ℤ)
    (taskBufs : ℕ → ℕ → ColumnBuffer) :
    (Ranges.Partition (rowRanges rowCount (if numThreads ≤ 0 then E.numThreads else numThreads))
        0 rowCount ∧
      ∀ x ∈ rowRanges rowCount (if numThreads ≤ 0 then E.numThreads else numThreads), 64 ∣ x.1) ∧
      ∃ total E', execute PF { E with fieldBuffers := bufs } data rowCount = some (total, E') ∧
        executeParallel PF { E with fieldBuffers := bufs } data rowCount numThreads taskBufs =
          some total := by
  obtain ⟨w, hvalue⟩ := hroot.value
  obtain ⟨L, names', hI, hmode, hbits, hrefs, hw⟩ :=
    setExpression_laneTotals hP hlt hvalue hfresh hnew honly hreg hset hacc
  have hdep := hvalue.dependsOn hP hrefs
  have hlen := hrefs.length_eq hnames
  obtain ⟨hfollow, hstart⟩ := ParallelRunner.rowRanges_follow rowCount
    (if numThreads ≤ 0 then E.numThreads else numThreads)
  obtain ⟨E', hexec⟩ := hI.execute_lanes hmode hbits hw hdep bufs data rowCount
  refine ⟨⟨hfollow.partition, hstart⟩, _, E', hexec, ?_⟩
  exact (hI.with_buffers bufs).executeParallel_lanes hmode hbits hw hdep
    (List.ne_nil_of_length_pos (by omega)) (by omega) data rowCount numThreads taskBufs

/-- The field of `a > 5`. -/
theorem gtPool_references : References Jit.gtPool.storage 2 [['a']] where
  nodup := by decide
  mem f := by
    rw [List.mem_singleton]
    constructor
    · rintro rfl
      exact ⟨0, (Reach.refl _ 2).child (by decide), rfl, rfl⟩
    · rintro ⟨n, hn, hk, rfl⟩
      have hlt : n < 3 := Jit.gtPool_built.reach_lt (by decide) hn
      interval_cases n
      · rfl
      · exact absurd hk (by decide)
      · exact absurd hk (by decide)

/-- `a > 5` on 130 rows with two threads. -/
theorem executeParallel_eq_execute_gt :
    ∃ a E, setExpression .standard oneFieldEngine ['t'] Jit.gtPool.storage
        Jit.gtPool.annot (some 2) .BIT_SLICED = .ok (a, E) ∧ E.exprLogic ≠ [] ∧
      rowRanges 130 2 = [(0, 64), (64, 130)] ∧
      ∃ total E', execute .standard E tens 130 = some (total, E') ∧
        executeParallel .standard E tens 130 2 (fun _ _ _ => 0) =
          some total := by
  obtain ⟨a, E, hset, hacc⟩ := gtPool_accepted .BIT_SLICED
  obtain ⟨-, htotal⟩ := executeParallel_eq_execute .standard Jit.gtPool_built (by decide)
    (.typed Jit.gtPool_represents rfl) Jit.gtPool_fresh init ['t'] oneField 8 rfl rfl
    (fun n hn hk => ⟨_, List.mem_singleton_self _, (List.mem_singleton.1
      ((gtPool_references.mem _).2 ⟨n, hn, hk, rfl⟩)).symm⟩) hset hacc gtPool_references (by decide)
    (by decide) E.fieldBuffers tens 130 2 fun _ _ _ => 0
  exact ⟨a, E, hset, hacc, by decide, htotal⟩

end ApexEngine
end Engine
end AarchGate
