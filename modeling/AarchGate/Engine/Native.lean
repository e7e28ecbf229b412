/-
# Pre-sliced execution

`ApexEngine::execute_native` and `execute_native_parallel`: the caller has sliced the
columns, block by block and in the order of the schema (`NativeLayout`), and the kernel
runs on them in place.  The kernel numbers its fields in the order of their first use, so
the table of a call is filled through an index map that goes by the names
(`schemaIndex`).

The table has eight entries; with more fields the loop that fills it writes beyond its
end.  Within the eight, both functions return what `execute` returns on the rows of the
blocks (`executeNative_eq_execute`), although all blocks of a thread share a scratchpad
that is cleared once.
-/

import AarchGate.Engine.ParallelCorrect

namespace AarchGate
namespace Engine
namespace ApexEngine

open A64 Ir AarchGate.Core Compute BitPlane
open Jit (Columns pad)
open ParallelRunner (maskedSlot unrolledSum unrolledSum_eq)

/-! ### The model -/

/-- `dynamic_to_schema_index`: the first field of the schema with the name. -/
def schemaIndex (schemaFields : List FieldDescriptor) (field : Option FieldDescriptor) : ℕ :=
  match field with
  | some d => (schemaFields.findIdx? fun s => s.name = d.name).getD 0
  | none => 0

/-- `kernel_ptrs`, a table of 8, for block `b`. -/
def kernelPtrs (L : ExprCompiledLogic) (schemaFields : List FieldDescriptor) (bitPlanes : ℕ → Word)
    (b : ℕ) : Option Columns :=
  if L.fields.length ≤ 8 then
    some fun i => L.fields[i]?.map fun field k =>
      bitPlanes (b * schemaFields.length * 64 + schemaIndex schemaFields field * 64 + k)
  else none

/-- What a block adds to the total: all 64 rows, 16 weights at a time. -/
def nativeTotal (L : ExprCompiledLogic) (result : Word) (scratchpad : ℕ → Word) : Option Word :=
  if L.resultKind = .BITMASK then some result.cpop
  else if L.deltaWeights ≠ [] then
    unrolledSum (fun slot => if slot < 0 then none else some (scratchpad slot.toNat)) 16
      (L.baseSum * 64) (L.deltaWeights.zip L.masksToPopcount)
  else some ((List.range 64).map fun i => (scratchpad i).cpop <<< i).sum

/-- The loop over the blocks. -/
def nativeLoop (PF : Platform) (L : ExprCompiledLogic) (schemaFields : List FieldDescriptor)
    (bitPlanes : ℕ → Word) : List ℕ → (ℕ → Word) → Word → Option Word
  | [], _, total => some total
  | b :: rest, scratchpad, total => do
      let ptrs ← kernelPtrs L schemaFields bitPlanes b
      let (result, scratchpad') ← PF.abi.invoke L.kernel ptrs scratchpad
      let sum ← nativeTotal L result scratchpad'
      nativeLoop PF L schemaFields bitPlanes rest scratchpad' (total + sum)

/-- `ApexEngine::execute_native`. -/
def executeNative (PF : Platform) (E : ApexEngine) (schemaName : Name) (bitPlanes : ℕ → Word)
    (numBlocks : ℕ) : Option Word :=
  match E.exprLogic.lookup schemaName with
  | none => some 0
  | some L =>
    if L.mode = .GPU_THROUGHPUT then some 0
    else match E.schemaMetadata schemaName with
      | none => some 0
      | some md => nativeLoop PF L md.fields bitPlanes (List.range numBlocks) (fun _ => 0) 0

/-- The blocks of the threads. -/
def blockRanges (numBlocks numThreads : ℕ) : List (ℕ × ℕ) :=
  (List.range numThreads).map fun t => (numBlocks / numThreads * t,
    if t = numThreads - 1 then numBlocks else numBlocks / numThreads * t + numBlocks / numThreads)

/-- `ApexEngine::execute_native_parallel`.  The vector of the results has a negative
length if the engine has a negative number of threads: the call does not return. -/
def executeNativeParallel (PF : Platform) (E : ApexEngine) (schemaName : Name)
    (bitPlanes : ℕ → Word) (numBlocks : ℕ) (numThreads : ℤ) : Option Word :=
  let numThreads := if numThreads ≤ 0 then E.numThreads else numThreads
  match E.exprLogic.lookup schemaName, E.schemaMetadata schemaName with
  | some L, some md =>
    if numThreads < 0 then none
    else do
      let results ← (blockRanges numBlocks numThreads.toNat).mapM fun x =>
        nativeLoop PF L md.fields bitPlanes (List.range' x.1 (x.2 - x.1)) (fun _ => 0) 0
      some results.sum
  | _, _ => some 0

/-! ### The layout of the planes -/

/-- `bit_planes` holds the columns of the rows of `data`: field `f` of block `b` at word
`(b * number of schema fields + f) * 64`. -/
def NativeLayout (fields : List FieldDescriptor) (rowStride : ℕ) (data : ℕ → BitVec 8)
    (numBlocks : ℕ) (bitPlanes : ℕ → Word) : Prop :=
  ∀ b < numBlocks, ∀ (f : ℕ) (d : FieldDescriptor), fields[f]? = some d →
    Planes (fun i => bitPlanes ((b * fields.length + f) * 64 + i))
      fun r => load64 data ((64 * b + r) * rowStride + d.offset)

/-- The index of a field is the place of its descriptor. -/
theorem schemaIndex_find {fields : List FieldDescriptor} {f : Name} {d : FieldDescriptor}
    (h : (fields.find? fun s => s.name = f) = some d) :
    fields[schemaIndex fields (some d)]? = some d := by
  have hname : d.name = f := by simpa using List.find?_some h
  subst hname
  have hfind := List.find?_eq_some_iff_getElem.1 h
  obtain ⟨-, i, hi, hget, hfirst⟩ := hfind
  have hidx : (fields.findIdx? fun s => s.name = d.name) = some i :=
    List.findIdx?_eq_some_iff_getElem.2 ⟨hi, by simp [hget], fun j hj => by simpa using hfirst j hj⟩
  simp only [schemaIndex, hidx, Option.getD_some]
  rw [List.getElem?_eq_getElem hi, hget]

/-- **The table of a block leads to its rows.** -/
theorem kernelPtrs_planes {L : ExprCompiledLogic} {fields : List FieldDescriptor} {names : List Name}
    (hT : FieldTable (fun f => fields.find? fun d => d.name = f) names L.fields)
    (h8 : L.fields.length ≤ 8) {rowStride : ℕ} {data : ℕ → BitVec 8} {numBlocks : ℕ}
    {bitPlanes : ℕ → Word} (hlay : NativeLayout fields rowStride data numBlocks bitPlanes) {b : ℕ}
    (hb : b < numBlocks) :
    ∃ ptrs, kernelPtrs L fields bitPlanes b = some ptrs ∧
      HoldsPlanes names (fun r => rowOf fields data rowStride (64 * b + r)) ptrs := by
  refine ⟨_, if_pos h8, fun i f hf => ?_⟩
  obtain ⟨d, hd, hfd⟩ := hT i f hf
  have hplanes := hlay b hb _ d (schemaIndex_find hd)
  refine ⟨_, by rw [hfd, Option.map_some], ?_⟩
  refine (hplanes.congr fun k _ => ?_).lanes fun r _ => ?_
  · rw [Nat.add_mul]
  · have hfind : (fields.find? fun s => s.name = f) = some d := hd
    show recordAt _ data _ f = _
    rw [recordAt, hfind]

/-! ### The loop over the blocks -/

/-- A block is counted as a chunk of 64 rows. -/
theorem nativeTotal_eq (L : ExprCompiledLogic) (result : Word) (scratchpad : ℕ → Word) :
    nativeTotal L result scratchpad = chunkTotal L 64 result scratchpad := by
  have hmask : ∀ w : Word, w &&& rowsMask 64 = w := fun w => BitVec.and_allOnes
  have hslot : (fun slot : ℤ => if slot < 0 then none else some (scratchpad slot.toNat)) =
      maskedSlot scratchpad (rowsMask 64) := funext fun slot => by rw [maskedSlot, hmask]
  rw [nativeTotal, chunkTotal, hslot, unrolledSum_eq]
  simp only [hmask]
  rfl

/-- The blocks of the threads follow one another. -/
theorem blockRanges_follow (numBlocks : ℕ) {numThreads : ℕ} (hpos : 0 < numThreads) :
    Ranges.Follow 0 numBlocks (blockRanges numBlocks numThreads) := by
  let bound (t : ℕ) : ℕ := if t = numThreads then numBlocks else numBlocks / numThreads * t
  have hle : ∀ t < numThreads, bound t ≤ bound (t + 1) := by
    intro t ht
    simp only [bound, if_neg (show t ≠ numThreads by omega)]
    split_ifs
    · exact Nat.le_trans (Nat.mul_le_mul_left _ (by omega)) (Nat.div_mul_le_self numBlocks numThreads)
    · exact Nat.mul_le_mul_left _ (Nat.le_succ t)
  have h := Ranges.follow_bounds bound numThreads 0 fun t _ ht => hle t (by omega)
  rw [← List.range_eq_range', Nat.zero_add] at h
  simp only [bound, if_true, Nat.mul_zero, if_neg (show 0 ≠ numThreads by omega)] at h
  rw [blockRanges]
  convert h using 1
  refine List.map_congr_left fun t ht => ?_
  have ht := List.mem_range.1 ht
  rw [if_neg (show t ≠ numThreads by omega)]
  by_cases hlast : t = numThreads - 1
  · rw [if_pos hlast, if_pos (by omega)]
  · rw [if_neg hlast, if_neg (by omega), Nat.mul_succ]

section Blocks

variable {PF : Platform} {L : ExprCompiledLogic} {fields : List FieldDescriptor} {names : List Name}
  (hT : FieldTable (fun f => fields.find? fun d => d.name = f) names L.fields)
  {rowStride : ℕ} {data : ℕ → BitVec 8} {numBlocks : ℕ}
  (h8 : 0 < numBlocks → L.fields.length ≤ 8)
  {bitPlanes : ℕ → Word} (hlay : NativeLayout fields rowStride data numBlocks bitPlanes)
  {w : Word → ℕ → (Name → Word) → Word} (hw : 0 < numBlocks → CarriedTotals PF L names w)

include hT h8 hlay hw

/-- **A thread adds up the values of its rows**, and carries them on from block to block. -/
theorem nativeLoop_total (start : ℕ) {stop : ℕ} (hstop : stop ≤ numBlocks) :
    nativeLoop PF L fields bitPlanes (List.range' start (stop - start)) (fun _ => 0) 0 =
      some (∑ i ∈ Finset.Ico (64 * start) (64 * stop),
        carriedRow w (rowOf fields data rowStride) (64 * start) i) := by
  rcases Nat.eq_zero_or_pos (stop - start) with hzero | hpos
  · rw [Finset.Ico_eq_empty (by omega), hzero]
    rfl
  obtain ⟨J, h0, hcall⟩ := hw (by omega)
  -- the scratchpad of the block before holds its values
  have hloop : ∀ n b (p c : ℕ → Word) (total : Word), J p c →
      CarriedTo w (rowOf fields data rowStride) (64 * start) (64 * b) c → start ≤ b →
      b + n ≤ numBlocks → nativeLoop PF L fields bitPlanes (List.range' b n) p total =
        some (total + ∑ i ∈ Finset.Ico (64 * b) (64 * (b + n)),
          carriedRow w (rowOf fields data rowStride) (64 * start) i) := by
    intro n
    induction n with
    | zero => intro b p c total _ _ _ _; simp [nativeLoop]
    | succ n ih =>
      intro b p c total hJ hc hle hb
      obtain ⟨ptrs, hptrs, hplanes⟩ := kernelPtrs_planes hT (h8 (by omega)) hlay (show b < numBlocks by omega)
      obtain ⟨m, hm, hJ', htotal⟩ := hcall _ ptrs p c hJ hplanes
      have hblock : ∑ r ∈ Finset.range 64, w (c r) r (rowOf fields data rowStride (64 * b + r)) =
          ∑ r ∈ Finset.range 64, carriedRow w (rowOf fields data rowStride) (64 * start) (64 * b + r) :=
        Finset.sum_congr rfl fun r hr => (hc.row_eq (Dvd.intro start rfl) (Dvd.intro b rfl) (by omega)
          (Finset.mem_range.1 hr)).symm
      rw [List.range'_succ, nativeLoop]
      simp only [hptrs, Jit.Abi.invoke, hm, nativeTotal_eq, htotal 64 (Nat.le_refl _), hblock,
        Option.map_some, bind, Option.bind_some]
      rw [ih (b + 1) _ _ _ hJ' (hc.next (Dvd.intro start rfl) (Dvd.intro b rfl) (by omega)) (by omega)
        (by omega), Ranges.sum_Ico_chunk _ (64 * b) _ 64, add_assoc,
        Nat.min_eq_left (show 64 ≤ 64 * (b + (n + 1)) - 64 * b by omega),
        show 64 * b + 64 = 64 * (b + 1) by omega, show b + 1 + n = b + (n + 1) by omega]
  rw [hloop _ start _ _ 0 h0 (carriedTo_start _ _ _) (Nat.le_refl _) (by omega), zero_add,
    show start + (stop - start) = stop by omega]

/-- **The threads add up the values of all blocks.** -/
theorem blockRanges_total {numThreads : ℕ} (hpos : 0 < numThreads) :
    ((blockRanges numBlocks numThreads).mapM fun x =>
      nativeLoop PF L fields bitPlanes (List.range' x.1 (x.2 - x.1)) (fun _ => 0) 0).map List.sum =
      some (carriedTotal w (rowOf fields data rowStride)
        ((blockRanges numBlocks numThreads).map fun x => (64 * x.1, 64 * x.2))) := by
  have hfollow := blockRanges_follow numBlocks hpos
  rw [mapM_some fun x hx => nativeLoop_total hT h8 hlay hw x.1 (hfollow.stop_le x hx),
    Option.map_some, carriedTotal, List.map_map]
  rfl

end Blocks

/-! ### Agreement with `execute` -/

/-- **Pre-sliced execution agrees with row execution.**  For every root that is added up
over rows, `SUB` included, accepted as the only logic of the engine for a schema
registered once and with at most eight fields: on planes in the layout of the schema
both functions return what `execute` returns on the rows of the blocks, for all data,
all numbers of blocks and of threads. -/
theorem executeNative_eq_execute (PF : Platform) {P : NodePool} (hP : Built P) {root : ℕ}
    (hlt : root < P.nextIdx) (hroot : RowRoot P.storage root) (hfresh : Fresh P root)
    (E₀ : ApexEngine) (schemaName : Name) (fields : List FieldDescriptor) (rowStride : ℕ)
    (hnew : E₀.registry.schemas schemaName = none) (honly : E₀.exprLogic = [])
    (hreg : ∀ n, Reach P.storage root n → (P.storage n).kind = .LOAD →
      ∃ d ∈ fields, d.name = (P.storage n).fieldName) {a : ℕ → Annot} {E : ApexEngine}
    (hset : setExpression PF (E₀.registerSchema schemaName fields rowStride) schemaName P.storage
      P.annot (some root) .BIT_SLICED = .ok (a, E)) (hacc : E.exprLogic ≠ []) {names : List Name}
    (hnames : References P.storage root names) (h8 : names.length ≤ 8) (bufs : ℕ → ColumnBuffer)
    (data : ℕ → BitVec 8) (numBlocks : ℕ) {bitPlanes : ℕ → Word}
    (hlay : NativeLayout fields rowStride data numBlocks bitPlanes) {numThreads : ℤ}
    (hthreads : 1 ≤ numThreads) :
    ∃ total E', execute PF { E with fieldBuffers := bufs } data (64 * numBlocks) = some (total, E') ∧
      executeNative PF { E with fieldBuffers := bufs } schemaName bitPlanes numBlocks = some total ∧
      executeNativeParallel PF { E with fieldBuffers := bufs } schemaName bitPlanes numBlocks
        numThreads = some total := by
  obtain ⟨w, hvalue⟩ := hroot.value
  obtain ⟨L, names', hI, hmode, hbits, hrefs, hw⟩ :=
    setExpression_laneTotals hP hlt hvalue hfresh hnew honly hreg hset hacc
  have hdep := hvalue.dependsOn hP hrefs
  have h8' : L.fields.length ≤ 8 := by rw [hI.fields_length, hrefs.length_eq hnames]; exact h8
  obtain ⟨hL, hmd⟩ := hI.logic_eq (setExpression_keys honly hset hacc)
  obtain ⟨E', hexec⟩ := hI.execute_lanes hmode hbits hw hdep bufs data (64 * numBlocks)
  have hrows : ∀ start i, carriedRow (fun _ => w) (rowOf fields data rowStride) start i =
      w (i % 64) (rowOf fields data rowStride i) := carriedRow_eq (fun _ _ _ => rfl) _
  refine ⟨_, E', hexec, ?_, ?_⟩
  · have hloop := nativeLoop_total hI.table (fun _ => h8') hlay (fun _ => hw.carried) 0
      (Nat.le_refl numBlocks)
    rw [← List.range_eq_range', Nat.mul_zero, ← Finset.range_eq_Ico] at hloop
    simp only [hrows] at hloop
    simp only [executeNative, hL, hmd, List.lookup_cons_self, hmode, reduceCtorEq, if_false]
    exact hloop
  · have hpos : 0 < numThreads.toNat := by omega
    have hblocks := blockRanges_total hI.table (fun _ => h8') hlay (fun _ => hw.carried) hpos
    rw [carriedTotal_eq ((blockRanges_follow numBlocks hpos).map_mul 64) fun x _ i _ => hrows x.1 i,
      Nat.mul_zero, ← Finset.range_eq_Ico, Option.map_eq_bind] at hblocks
    simp only [executeNativeParallel, hL, hmd, List.lookup_cons_self,
      if_neg (show ¬numThreads ≤ 0 by omega), if_neg (show ¬numThreads < 0 by omega)]
    exact hblocks

/-- The planes of one block with `a = 10` in all rows. -/
theorem constColumns_layout : NativeLayout oneField 8 tens 1 (Jit.constColumns 10 0) := by
  intro b hb f d hd
  obtain rfl : b = 0 := by omega
  obtain ⟨hf, rfl⟩ := List.getElem?_eq_some_iff.1 hd
  obtain rfl : f = 0 := by simpa using hf
  refine ((Jit.planes_constColumns 10 0).congr fun i _ => by simp).lanes fun r _ => ?_
  simp only [List.getElem_cons_zero, load64, tens, Nat.add_zero]
  have hmod : ∀ k < 8, ((64 * 0 + r) * 8 + k) % 8 = k := fun k hk => by omega
  have hmod0 : (64 * 0 + r) * 8 % 8 = 0 := hmod 0 (by omega)
  simp only [hmod0, hmod 1 (by omega), hmod 2 (by omega), hmod 3 (by omega), hmod 4 (by omega),
    hmod 5 (by omega), hmod 6 (by omega), hmod 7 (by omega)]
  decide

/-- One block of `a > 5` with `a = 10` in all rows, on two threads. -/
theorem executeNative_eq_execute_gt :
    ∃ a E, setExpression .standard oneFieldEngine ['t'] Jit.gtPool.storage
        Jit.gtPool.annot (some 2) .BIT_SLICED = .ok (a, E) ∧ E.exprLogic ≠ [] ∧
      ∃ total E', execute .standard E tens (64 * 1) =
          some (total, E') ∧
        executeNative .standard E ['t'] (Jit.constColumns 10 0) 1 = some total ∧
        executeNativeParallel .standard E ['t'] (Jit.constColumns 10 0) 1 2 = some total := by
  obtain ⟨a, E, hset, hacc⟩ := gtPool_accepted .BIT_SLICED
  exact ⟨a, E, hset, hacc, executeNative_eq_execute .standard Jit.gtPool_built (by decide)
    (.typed Jit.gtPool_represents rfl) Jit.gtPool_fresh init ['t'] oneField 8 rfl rfl
    (fun n hn hk => ⟨_, List.mem_singleton_self _, (List.mem_singleton.1
      ((gtPool_references.mem _).2 ⟨n, hn, hk, rfl⟩)).symm⟩) hset hacc gtPool_references (by decide)
    E.fieldBuffers _ 1 constColumns_layout (by decide)⟩

end ApexEngine
end Engine
end AarchGate
