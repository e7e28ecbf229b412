/-
# One result for every row

`ApexEngine::execute_vector`: the chunks of `execute`, but the result of the kernel is
taken apart again into its lanes, and row `r` gets a `double` of its own.

A row has an integer result first (`rowResult`): its bit of the mask of a boolean root,
the weights of the masks it is in for a `SUM`, and the number in its lane of the planes
otherwise.  What becomes of it as a `double` is `Doubles.entry`; of floating point
nothing is used but that 1 is not 0.
-/

import AarchGate.Engine.Lanes

namespace AarchGate
namespace Engine

open A64 Ir AarchGate.Core Compute BitPlane
open Jit (Columns pad encode subLane)

/-- `double`: the two constants, the conversion of an `int64_t`, and division. -/
structure Doubles where
  carrier : Type
  zero : carrier
  one : carrier
  ofInt64 : Word → carrier
  div : carrier → carrier → carrier
  one_ne_zero : one ≠ zero

/-- What is stored for an integer result. -/
def Doubles.entry (D : Doubles) (kind : ResultKind) (precisionMultiplier : D.carrier) (w : Word) :
    D.carrier :=
  if kind = .BITMASK then if w ≠ 0 then D.one else D.zero
  else D.div (D.ofInt64 w) precisionMultiplier

namespace ApexEngine

/-! ### The model -/

/-- The result of row `r` of a chunk. -/
def rowResult (L : ExprCompiledLogic) (result : Word) (scratchpad : ℕ → Word) (r : ℕ) :
    Option Word :=
  if L.resultKind = .BITMASK then some ((result >>> r) &&& 1)
  else if L.deltaWeights ≠ [] then
    (L.deltaWeights.zip L.masksToPopcount).foldlM (fun rowSum w =>
      -- a negative index is outside the array
      if w.2 < 0 then none
      else some (if (scratchpad w.2.toNat >>> r) &&& 1 ≠ 0 then rowSum + w.1 else rowSum)) L.baseSum
  else some ((List.range 64).foldl (fun rowSum b =>
    if (scratchpad b >>> r) &&& 1 ≠ 0 then rowSum ||| ((1 : Word) <<< b) else rowSum) 0)

section Vector

variable (PF : Platform) (D : Doubles) (L : ExprCompiledLogic) (precisionMultiplier : D.carrier)

/-- The results of a chunk, from `startIdx` on. -/
def vectorRows (result : Word) (scratchpad : ℕ → Word) (startIdx rows : ℕ) (results : ℕ → D.carrier) :
    Option (ℕ → D.carrier) :=
  (List.range rows).foldlM (fun results r => (rowResult L result scratchpad r).map fun w =>
    Function.update results (startIdx + r) (D.entry L.resultKind precisionMultiplier w)) results

/-- What `execute_vector` makes of a chunk. -/
def takeRows (startIdx rows : ℕ) (result : Word) (scratchpad : ℕ → Word) (results : ℕ → D.carrier) :
    Option (ℕ → D.carrier) :=
  vectorRows D L precisionMultiplier result scratchpad startIdx rows results

/-- The loop of `execute_vector`. -/
def vectorChunks (data : ℕ → BitVec 8) (rowStride rowCount : ℕ) :
    List ℕ → (ℕ → D.carrier) → (ℕ → ColumnBuffer) →
      Option ((ℕ → D.carrier) × (ℕ → ColumnBuffer)) :=
  chunkLoop (fun start rows => processChunkExpr PF L data (start * rowStride) rowStride rows fun _ => 0)
    (takeRows D L precisionMultiplier) rowCount

/-- `ApexEngine::execute_vector`: the results, and the engine after the call. -/
def executeVector (E : ApexEngine) (data : ℕ → BitVec 8) (rowCount : ℕ) :
    Option (List D.carrier × ApexEngine) :=
  match E.firstLogic PF with
  | none => some (List.replicate rowCount D.zero, E)
  | some (L, md) =>
    (vectorChunks PF D L precisionMultiplier data md.rowStride rowCount
      (List.range ((rowCount + 63) / 64)) (fun _ => D.zero) E.fieldBuffers).map fun r =>
        ((List.range rowCount).map r.1, { E with fieldBuffers := r.2 })

end Vector

/-! ### The result of a row -/

/-- A boolean root. -/
theorem rowResult_mask {L : ExprCompiledLogic} (hL : L.resultKind = .BITMASK) {result : Word}
    {p : ℕ → Bool} (h : Mask result p) (scratchpad : ℕ → Word) {r : ℕ} (hr : r < 64) :
    rowResult L result scratchpad r = some (bit (p r)) := by
  rw [rowResult, if_pos hL, shiftRight_and_one, h r hr]

/-- The bits of a lane, put together one after the other. -/
theorem foldl_lane (P : ℕ → Word) (r : ℕ) (n : ℕ) {j : ℕ} (hj : j < 64) :
    ((List.range n).foldl (fun rowSum b =>
      if (P b >>> r) &&& 1 ≠ 0 then rowSum ||| ((1 : Word) <<< b) else rowSum) 0).getLsbD j =
        (decide (j < n) && (P j).getLsbD r) := by
  simp only [shiftRight_and_one, bit_ne_zero]
  induction n with
  | zero => simp
  | succ n ih =>
    have hone : ((1 : Word) <<< n).getLsbD j = decide (j = n) := by
      show ((1#64 : Word) <<< n).getLsbD j = _
      rw [BitVec.getLsbD_shiftLeft, BitVec.getLsbD_one]
      rcases Nat.lt_trichotomy j n with h | rfl | h
      · simp [h, Nat.ne_of_lt h]
      · simp [hj]
      · simp [show j - n ≠ 0 by omega, Nat.ne_of_gt h]
    rw [List.range_succ, List.foldl_append, List.foldl_cons, List.foldl_nil]
    split_ifs with hb
    · rw [BitVec.getLsbD_or, ih, hone]
      by_cases h : j = n
      · simp [h, hb]
      · simp [h, show j < n + 1 ↔ j < n by omega]
    · rw [ih]
      by_cases h : j = n
      · simp [h, hb]
      · simp [show j < n + 1 ↔ j < n by omega]

/-- An arithmetic root. -/
theorem rowResult_planes {L : ExprCompiledLogic} (hL : L.resultKind = .BITPLANE)
    (hw : L.deltaWeights = []) (result : Word) {scratchpad : ℕ → Word} {v : ℕ → Word}
    (h : Planes scratchpad v) {r : ℕ} (hr : r < 64) :
    rowResult L result scratchpad r = some (v r) := by
  rw [rowResult, if_neg (by rw [hL]; decide), if_neg (by simp [hw])]
  refine congrArg some (BitVec.eq_of_getLsbD_eq fun j hj => ?_)
  rw [foldl_lane _ _ _ hj, h j hj r hr, decide_eq_true hj, Bool.true_and]

/-- A row of a forest adds the weights of the masks it is in. -/
theorem foldlM_masks {scratchpad : ℕ → Word} {slot : ℕ → ℤ} {d : ℕ → Word} {p : ℕ → ℕ → Bool}
    {r : ℕ} (hr : r < 64) (ops : List ℕ)
    (hmask : ∀ op ∈ ops, 0 ≤ slot op ∧ Mask (scratchpad (slot op).toNat) (p op)) (base : Word) :
    (ops.map fun op => (d op, slot op)).foldlM (fun rowSum w =>
      if w.2 < 0 then none
      else some (if (scratchpad w.2.toNat >>> r) &&& 1 ≠ 0 then rowSum + w.1 else rowSum)) base =
        some (base + (ops.map fun op => if p op r then d op else 0).sum) := by
  induction ops generalizing base with
  | nil => simp
  | cons op ops ih =>
    obtain ⟨h0, hop⟩ := hmask op (List.mem_cons_self ..)
    rw [List.map_cons, List.foldlM_cons, if_neg (not_lt.2 h0), Option.bind_eq_bind,
      Option.bind_some, ih fun x hx => hmask x (List.mem_cons_of_mem _ hx), List.map_cons,
      List.sum_cons, shiftRight_and_one, hop r hr]
    cases p op r <;> simp [bit, add_assoc]

/-- The base sum and the weights of a row select one value for each operand. -/
theorem base_add_deltas (k : Word) (t e : ℕ → Word) (p : ℕ → Bool) (ops : List ℕ) :
    k + (ops.map e).sum + (ops.map fun op => if p op then t op - e op else 0).sum =
      k + (ops.map fun op => if p op then t op else e op).sum := by
  induction ops with
  | nil => simp
  | cons op ops ih =>
    have hop : e op + (if p op then t op - e op else 0) = if p op then t op else e op := by
      cases p op <;> simp
    simp only [List.map_cons, List.sum_cons]
    linear_combination ih + hop

/-! ### The loop over the chunks -/

section Loop

variable {PF : Platform} {D : Doubles} {L : ExprCompiledLogic} {precisionMultiplier : D.carrier}

/-- The rows of a chunk and no others get their results. -/
theorem vectorRows_eq {result : Word} {scratchpad : ℕ → Word} {startIdx : ℕ} {v : ℕ → Word} :
    ∀ {rows : ℕ}, (∀ r < rows, rowResult L result scratchpad r = some (v (startIdx + r))) →
      ∀ results, vectorRows D L precisionMultiplier result scratchpad startIdx rows results =
        some fun k => if startIdx ≤ k ∧ k < startIdx + rows then
          D.entry L.resultKind precisionMultiplier (v k) else results k := by
  intro rows
  induction rows with
  | zero =>
    intro _ results
    refine congrArg some (funext fun k => ?_)
    rw [if_neg (by omega)]
  | succ rows ih =>
    intro h results
    have hrest := ih (fun r hr => h r (by omega)) results
    rw [vectorRows] at hrest
    rw [vectorRows, List.range_succ, List.foldlM_append, hrest]
    simp only [List.foldlM_cons, List.foldlM_nil, bind, Option.bind_some, h rows (by omega),
      Option.map_some, pure]
    refine congrArg some (funext fun k => ?_)
    rw [Function.update_apply]
    by_cases hk : k = startIdx + rows
    · rw [if_pos hk, if_pos (by omega), hk]
    · rw [if_neg hk]
      exact if_congr (by omega) rfl rfl

/-- **The chunks fill the results**: if every chunk gives its rows the results `v`, from
buffers that meet `J`, the rows of the data have them in the end. -/
theorem vectorChunks_results {data : ℕ → BitVec 8} {rowStride rowCount : ℕ} {v : ℕ → Word}
    {J : ℕ → (ℕ → ColumnBuffer) → Prop}
    (hchunk : ∀ chunk bufs, chunk * 64 < rowCount → J chunk bufs → ∃ result scratchpad bufs',
      processChunkExpr PF L data (chunk * 64 * rowStride) rowStride (min 64 (rowCount - chunk * 64))
        (fun _ => 0) bufs = some (result, scratchpad, bufs') ∧ J (chunk + 1) bufs' ∧
      ∀ r < min 64 (rowCount - chunk * 64),
        rowResult L result scratchpad r = some (v (chunk * 64 + r)))
    {bufs : ℕ → ColumnBuffer} (h0 : J 0 bufs) (results : ℕ → D.carrier) :
    ∃ results' bufs', vectorChunks PF D L precisionMultiplier data rowStride rowCount
        (List.range ((rowCount + 63) / 64)) results bufs = some (results', bufs') ∧
      ∀ k < rowCount, results' k = D.entry L.resultKind precisionMultiplier (v k) := by
  have hrun : ∀ n c bufs results, c + n = (rowCount + 63) / 64 → J c bufs →
      (∀ k < min rowCount (c * 64), results k = D.entry L.resultKind precisionMultiplier (v k)) →
      ∃ results' bufs', vectorChunks PF D L precisionMultiplier data rowStride rowCount
          (List.range' c n) results bufs = some (results', bufs') ∧
        ∀ k < rowCount, results' k = D.entry L.resultKind precisionMultiplier (v k) := by
    intro n
    induction n with
    | zero => exact fun c bufs results hc _ hres => ⟨results, bufs, rfl, fun k hk => hres k (by omega)⟩
    | succ n ih =>
      intro c bufs results hc hJ hres
      obtain ⟨result, scratchpad, bufs', hproc, hJ', hrows⟩ := hchunk c bufs (by omega) hJ
      rw [List.range'_succ, vectorChunks, chunkLoop]
      simp only [hproc, takeRows, vectorRows_eq hrows, Option.bind_eq_bind, Option.bind_some]
      refine ih (c + 1) bufs' _ (by omega) hJ' fun k hk => ?_
      split_ifs with h
      · rfl
      · exact hres k (by omega)
  obtain ⟨results', bufs', h, hres⟩ := hrun ((rowCount + 63) / 64) 0 bufs results (by omega) h0
    fun k hk => by omega
  rw [← List.range_eq_range'] at h
  exact ⟨results', bufs', h, hres⟩

/-- An engine with one logic runs it. -/
theorem executeVector_single {E : ApexEngine} {schemaName : Name} {md : SchemaMetadata}
    (hL : E.exprLogic = [(schemaName, L)]) (hmd : E.schemaMetadata schemaName = some md)
    (data : ℕ → BitVec 8) (rowCount : ℕ) :
    executeVector PF D precisionMultiplier E data rowCount =
      (vectorChunks PF D L precisionMultiplier data md.rowStride rowCount
        (List.range ((rowCount + 63) / 64)) (fun _ => D.zero) E.fieldBuffers).map fun r =>
          ((List.range rowCount).map r.1, { E with fieldBuffers := r.2 }) := by
  simp only [executeVector, firstLogic_single hL hmd]

end Loop

/-! ### Kernels -/

/-- The kernel leaves `w` in the lanes of a chunk, from a scratchpad of zeros. -/
def LaneResults (PF : Platform) (L : ExprCompiledLogic) (names : List Name)
    (w : ℕ → (Name → Word) → Word) : Prop :=
  ∀ R cols, HoldsPlanes names R cols → ∃ m, call L.kernel (PF.abi.enter cols fun _ => 0) = some m ∧
    ∀ r < 64, rowResult L (m.read (.x 0)) (pad PF.abi.layout m) r = some (w r (R r))

/-- **A bit-sliced kernel leaves the values of its expression.** -/
theorem bitSliced_laneResults {PF : Platform} {P : NodePool} (hP : Built P) {t : Ty} {e : Expr t}
    {root : ℕ} (he : Represents P.storage e root) (hc : e.compound = true) {a₀ a : ℕ → Annot}
    (heq : ∀ n, (P.storage n).kind.isComparison = false → (a₀ n).eqSlotId = -1)
    (hskip : ∀ n, Reach P.storage root n → (a₀ n).skipJit = false) {L : ExprCompiledLogic}
    (hcomp : Jit.compileExpression PF.rt P.storage a₀ root 64 = (a, .ok L.kernel))
    (hweights : L.deltaWeights = []) (hkind : L.resultKind = (a root).resultKind)
    {names : List Name} (hN : Numbered P.storage a root names) (hlen : names.length ≤ 128) :
    LaneResults PF L names fun r row => encode (e.evalWith (subLane r) row) := by
  intro R cols hcols
  obtain ⟨m, hcall, hdel⟩ := Jit.compile_delivers hP he hc hcomp heq hskip
    (hcols.fieldPlanes PF hN hlen) (hcols.args PF hlen fun _ => 0)
  refine ⟨m, hcall, fun r hr => ?_⟩
  rw [compile_resultKind hP he hc hcomp] at hkind
  cases t with
  | bool => exact rowResult_mask hkind hdel _ hr
  | num => exact rowResult_planes hkind hweights _ hdel hr

/-- **The kernel of every root leaves what the root is worth in the lanes**, if no bare leaf is
added up. -/
theorem root_laneResults {PF : Platform} {P : NodePool} (hP : Built P) {root : ℕ}
    (hlt : root < P.nextIdx) (htyped : Jit.WellTyped P.storage root) {a₁ a : ℕ → Annot}
    {L : ExprCompiledLogic}
    (hcomp : Jit.compileExpression PF.rt P.storage a₁ root 64 = (a, .ok L.kernel))
    (hkind : L.resultKind = (a root).resultKind)
    (hsum : sumMeta P.storage a root = .ok (L.baseSum, L.deltaWeights, L.masksToPopcount))
    (hmarks : RootMarks P.storage a₁ root) (hleaf : (P.storage root).kind.isLeaf = false)
    (hops : ¬AddsLeaf P.storage root) {names : List Name}
    (hN : Numbered P.storage a root names) (hlen : names.length ≤ 128) :
    LaneResults PF L names (rootValue P.storage a₁ root 0) := by
  obtain ⟨J, h0, hcall⟩ := root_delivers hP hlt htyped hmarks hcomp hN hlen hleaf
  intro R cols hcols
  obtain ⟨m, hm, -, hdel⟩ := hcall R cols _ _ h0 hcols
  refine ⟨m, hm, fun r hr => ?_⟩
  rw [root_resultKind hP hlt hcomp] at hkind
  cases hs : engineSum P.storage root with
  | none =>
    simp only [rootValue, hs]
    cases hmask : (P.storage root).kind.isMask with
    | true =>
      rw [hmask] at hkind
      rw [rowResult_mask hkind (hdel.mask hs hmask) _ hr,
        (words_rootWord hP a₁ root 0 r (R r)).bit_truth hmask (hmarks.unhandled hs)]
    | false =>
      rw [hmask] at hkind
      rw [sumMeta_plain hs (htyped root (Reach.refl _ _)), Except.ok.injEq, Prod.mk.injEq,
        Prod.mk.injEq] at hsum
      exact rowResult_planes hkind hsum.2.1.symm _ (hdel.planes ⟨hs, hmask⟩) hr
  | some s =>
    obtain ⟨hbase, hzip, hnil⟩ := engineSum_weights htyped hsum hs
    rw [show (P.storage root).kind.isMask = false from
      Handled.not_mask ⟨s, hs, Or.inl rfl⟩] at hkind
    simp only [rootValue, hs, sumValue]
    by_cases hne : (P.storage s).operands = []
    · rw [if_pos hne]
      refine rowResult_planes hkind (hnil.2 hne) (v := fun _ => 0) _ (fun b hb r _ => ?_) hr
      rw [hdel.empty s hs hne b hb]
      simp
    · rw [if_neg hne, rowResult, if_neg (by rw [hkind]; decide), if_pos (mt hnil.1 hne), hzip,
        foldlM_masks hr _ fun op hop => hdel.masks s hs op hop (not_leaf_of_adds hops hs hop), hbase,
        base_add_deltas]

theorem RootValue.laneResults {PF : Platform} {P : NodePool} (hP : Built P) {root : ℕ}
    (hlt : root < P.nextIdx) {w : ℕ → (Name → Word) → Word} (hroot : RootValue P root w)
    (hfresh : Fresh P root) {a₁ a : ℕ → Annot} (hmark : markSkip P.storage root P.annot = .ok a₁)
    {L : ExprCompiledLogic}
    (hcomp : Jit.compileExpression PF.rt P.storage a₁ root 64 = (a, .ok L.kernel))
    (hsum : sumMeta P.storage a root = .ok (L.baseSum, L.deltaWeights, L.masksToPopcount))
    (hkind : L.resultKind = (a root).resultKind) {names : List Name}
    (hN : Numbered P.storage a root names) (hlen : names.length ≤ 128) :
    LaneResults PF L names w := by
  have h := root_laneResults hP hlt hroot.wellTyped hcomp hkind hsum
    ((Usable.of_fresh hP hfresh).rootMarks hmark) hroot.not_leaf
    hroot.not_addsLeaf hN hlen
  rwa [show rootValue P.storage a₁ root 0 = w from
    funext fun r => funext fun row => hroot.rootValue_eq hP hfresh hmark 0 r row] at h

section Installed

variable {PF : Platform} {D : Doubles} {precisionMultiplier : D.carrier} {E : ApexEngine}
  {L : ExprCompiledLogic} {getField : Name → Option FieldDescriptor} {rowStride : ℕ}
  {names : List Name} {w : ℕ → (Name → Word) → Word}

/-- **The rows of the data reach the kernel**: if the columns of every chunk, filled over
buffers that meet `J`, are the planes of lanes with the values `v`, then `execute_vector`
returns those. -/
theorem Installed.executeVector_chunks (h : Installed E L getField rowStride names)
    (hw : LaneResults PF L names w) {data : ℕ → BitVec 8} {rowCount : ℕ} {v : ℕ → Word}
    {J : ℕ → (ℕ → ColumnBuffer) → Prop}
    (hchunk : ∀ chunk bufs R, chunk * 64 < rowCount → J chunk bufs →
      (∀ r < min 64 (rowCount - chunk * 64), ∀ f ∈ names,
        R r f = recordAt getField data ((chunk * 64 + r) * rowStride) f) →
      (∀ r < 64, min 64 (rowCount - chunk * 64) ≤ r → ∀ f ∈ names,
        R r f = leftover L bufs (names.idxOf f) r) →
      ∀ bufs', HoldsRows PF L names R (fieldPlanesArray L bufs') → J (chunk + 1) bufs' ∧
        ∃ R', HoldsPlanes names R' (fieldPlanesArray L bufs') ∧
          ∀ r < min 64 (rowCount - chunk * 64), w r (R' r) = v (chunk * 64 + r))
    {bufs : ℕ → ColumnBuffer} (h0 : J 0 bufs) :
    ∃ E', executeVector PF D precisionMultiplier { E with fieldBuffers := bufs } data rowCount =
      some ((List.range rowCount).map fun r => D.entry L.resultKind precisionMultiplier (v r), E') := by
  obtain ⟨schemaName, fields, hL, hmd⟩ := h.logic
  have hresults : ∃ results bufs', vectorChunks PF D L precisionMultiplier data rowStride rowCount
      (List.range ((rowCount + 63) / 64)) (fun _ => D.zero) bufs = some (results, bufs') ∧
        ∀ k < rowCount, results k = D.entry L.resultKind precisionMultiplier (v k) := by
    refine vectorChunks_results (J := J) (fun chunk bufs hlt hJ => ?_) h0 _
    obtain ⟨R, hR, habove, hcols⟩ := chunk_rows PF data (chunk * 64 * rowStride) rowStride h.nodup
      h.length_le h.table (Nat.min_le_left 64 (rowCount - chunk * 64)) bufs
    obtain ⟨hJ', R', hplanes, hv⟩ := hchunk chunk bufs R hlt hJ
      (fun r hr f hf => by rw [hR r hr f hf, Nat.add_mul]) habove _ hcols
    obtain ⟨m, hcall, hlane⟩ := hw R' _ hplanes
    refine ⟨m.read (.x 0), pad PF.abi.layout m, _, ?_, hJ', fun r hr => ?_⟩
    · rw [processChunkExpr, Jit.Abi.invoke, hcall]
      rfl
    · rw [hlane r (by omega), hv r hr]
  obtain ⟨results, bufs', hrun, hres⟩ := hresults
  refine ⟨{ E with fieldBuffers := bufs' }, ?_⟩
  rw [executeVector_single (show ({ E with fieldBuffers := bufs } : ApexEngine).exprLogic = _ from hL)
    hmd, hrun]
  refine congrArg some (Prod.ext (List.map_congr_left fun r hr => ?_) rfl)
  exact hres r (List.mem_range.1 hr)

/-- **`execute_vector` returns the values of the rows**, for sliced columns. -/
theorem Installed.executeVector_lanes (h : Installed E L getField rowStride names)
    (hmode : L.mode = .BIT_SLICED) (hbits : L.activeBits = 64) (hw : LaneResults PF L names w)
    (hdep : DependsOn names w) (bufs : ℕ → ColumnBuffer) (data : ℕ → BitVec 8) (rowCount : ℕ) :
    ∃ E', executeVector PF D precisionMultiplier { E with fieldBuffers := bufs } data rowCount =
      some ((List.range rowCount).map fun r => D.entry L.resultKind precisionMultiplier
        (rowValue getField rowStride data w r), E') := by
  refine h.executeVector_chunks (J := fun _ _ => True) hw
    (fun chunk bufs R _ _ hR _ bufs' hcols => ⟨trivial, R, hcols.holdsPlanes hmode hbits, ?_⟩) trivial
  intro r hr
  rw [rowValue, show (chunk * 64 + r) % 64 = r by omega]
  exact hdep r _ _ fun f hf => hR r hr f hf

end Installed

end ApexEngine
end Engine
end AarchGate
