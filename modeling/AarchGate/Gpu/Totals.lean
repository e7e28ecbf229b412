/-
# What the GPU returns

The totals of the kernels of a forest and of a well-typed root, against what `execute`
returns for the same root in the `BIT_SLICED` mode.

* The aggregator of the shader adds up all 64 lanes of every block.  On a forest that
  gives the sum over the rows and over the lanes that pad the last block, which hold
  rows of zeros: the totals agree exactly when the padding adds up to zero.  The index
  into the columns is 32 bits wide, so on a buffer of more than `2^32` words the kernel
  adds up the rows it finds from the beginning of the buffer on (`gpu_forest_total_iff`).
* On a full block the reduction over the two SIMD groups is what the aggregator of `execute`
  adds up for the same masks and weights (`reduction_eq_aggregator`).
* The shader aggregates the weights of a `SUM` and nothing else.  A root without a `SUM`
  has none, so its total is zero whatever the rows are, and the totals agree exactly
  when the CPU returns zero (`gpu_typed_total_iff`).
-/

import AarchGate.Engine.Forest
import AarchGate.Gpu.Execute

namespace AarchGate
namespace Gpu

open A64 Ir AarchGate.Core Compute BitPlane Engine Engine.ApexEngine
open Jit (encode fieldOrder)

/-! ### The aggregator -/

/-- A row adds its leaves. -/
theorem rowSum_eq (pad : ℤ → Word) (i : ℕ) (base : Word) (leaves : List (ℤ × Word)) :
    rowSum pad i base leaves =
      base + (leaves.map fun l => if (pad l.1).getLsbD i then l.2 else 0).sum := by
  induction leaves generalizing base with
  | nil => simp [rowSum]
  | cons l leaves ih =>
    rw [rowSum, List.foldl_cons, ← rowSum, ih, List.map_cons, List.sum_cons]
    simp only [shiftRight_and_one, bit_ne_zero]
    by_cases h : (pad l.1).getLsbD i = true
    · simp only [if_pos h, add_assoc]
    · simp only [if_neg h, zero_add]

/-- A weight for every row of a mask. -/
theorem sum_mask_weight (mask w : Word) :
    ∑ i ∈ Finset.range 64, (if mask.getLsbD i then w else 0) = mask.cpop * w := by
  rw [cpop_eq_sum, Finset.sum_mul]
  refine Finset.sum_congr rfl fun i _ => ?_
  cases mask.getLsbD i <;> simp

/-- The rows of one thread after the other, or the masks one after the other. -/
theorem sum_rows_masks (xs : List (Word × Word)) :
    ∑ i ∈ Finset.range 64, (xs.map fun x => if x.1.getLsbD i then x.2 else 0).sum =
      (xs.map fun x => x.1.cpop * x.2).sum := by
  induction xs with
  | nil => simp
  | cons x xs ih => simp only [List.map_cons, List.sum_cons, Finset.sum_add_distrib, ih, sum_mask_weight]

/-- The hybrid aggregator of `execute` on a full chunk. -/
theorem weightedSum_full {scratchpad : ℕ → Word} {slots : List ℤ} (h : ∀ slot ∈ slots, 0 ≤ slot)
    (weights : List Word) :
    weightedSum scratchpad (rowsMask 64) (weights.zip slots) =
      some (((slots.map fun slot => scratchpad slot.toNat).zip weights).map fun x =>
        x.1.cpop * x.2).sum := by
  induction slots generalizing weights with
  | nil => simp [weightedSum]
  | cons slot slots ih =>
    cases weights with
    | nil => rfl
    | cons w weights =>
      have h0 : ¬slot < 0 := Int.not_lt.2 (h slot (List.mem_cons_self ..))
      rw [List.zip_cons_cons, weightedSum, if_neg h0, ih fun s hs => h s (List.mem_cons_of_mem _ hs),
        show rowsMask 64 = BitVec.allOnes 64 from rfl, BitVec.and_allOnes]
      rfl

/-- **The reduction of the shader and the aggregator of `execute` agree on a full block.**
For a base sum and weights with masks that all threads hold, in any slots: the sums of the
rows, reduced over the two SIMD groups, add up to the base sum for each of the 64 rows and
every weight for each row of its mask.  It is what `execute` adds up for a full chunk, from
the same masks in its own slots. -/
theorem reduction_eq_aggregator (S : Simd) (base : Word) (weights masks : List Word)
    {slots : List ℤ} {G : Group} (hG : ∀ i < 64, slots.map (G.scratchpad i) = masks) :
    blockSum S (fun i => rowSum (G.scratchpad i) i base (slots.zip weights)) =
        base * 64 + ((masks.zip weights).map fun x => x.1.cpop * x.2).sum ∧
      ∀ (L : ExprCompiledLogic) (result : Word) (scratchpad : ℕ → Word), L.baseSum = base →
        L.deltaWeights = weights → weights ≠ [] → L.resultKind ≠ .BITMASK →
        (∀ slot ∈ L.masksToPopcount, 0 ≤ slot) →
        (L.masksToPopcount.map fun slot => scratchpad slot.toNat) = masks →
          chunkTotal L 64 result scratchpad =
            some (blockSum S fun i => rowSum (G.scratchpad i) i base (slots.zip weights)) := by
  have hsum : blockSum S (fun i => rowSum (G.scratchpad i) i base (slots.zip weights)) =
      base * 64 + ((masks.zip weights).map fun x => x.1.cpop * x.2).sum := by
    have hrow : ∀ i ∈ Finset.range 64, rowSum (G.scratchpad i) i base (slots.zip weights) =
        base + ((masks.zip weights).map fun x => if x.1.getLsbD i then x.2 else 0).sum := by
      intro i hi
      rw [rowSum_eq, ← hG i (Finset.mem_range.1 hi), List.zip_map_left, List.map_map]
      rfl
    rw [blockSum_eq, Finset.sum_congr rfl hrow, Finset.sum_add_distrib, sum_rows_masks, Finset.sum_const,
      Finset.card_range, nsmul_eq_mul, mul_comm]
    rfl
  refine ⟨hsum, ?_⟩
  rintro L result scratchpad rfl rfl hne hkind hslots rfl
  rw [chunkTotal, if_neg hkind, if_pos hne, weightedSum_full hslots, hsum]
  rfl

/-- A base sum of 10, the weight 3 for the rows 0 to 3 and the weight -1 for all rows. -/
def twoWeights : ExprCompiledLogic where
  kernel := []
  fields := []
  mode := .BIT_SLICED
  resultKind := .BITPLANE
  baseSum := 10
  deltaWeights := [3, -1]
  masksToPopcount := [0, 64]
  activeBits := 64
  mslSource := none

theorem reduction_eq_aggregator_two :
    blockSum .standard (fun i => rowSum (fun slot => if slot = 0 then 0xF else BitVec.allOnes 64) i 10
        [(0, 3), (5, -1)]) = 10 * 64 + (4 * 3 + 64 * -1) ∧
      chunkTotal twoWeights 64 0 (fun k => if k = 0 then 0xF else BitVec.allOnes 64) =
        some (10 * 64 + (4 * 3 + 64 * -1)) := by
  obtain ⟨hsum, htotal⟩ := reduction_eq_aggregator .standard 10 [3, -1] [0xF, BitVec.allOnes 64]
    (G := ⟨fun _ slot => if slot = 0 then 0xF else BitVec.allOnes 64, fun _ => 0, fun _ => 0, 0⟩)
    (fun i _ => show [0, 5].map _ = _ from rfl)
  have hvalue := hsum.trans (show _ = (10 * 64 + (4 * 3 + 64 * -1) : Word) by decide)
  refine ⟨hvalue, ?_⟩
  rw [htotal twoWeights 0 _ rfl rfl (by decide) (by decide) (by decide) rfl]
  exact congrArg some hvalue

/-- Weights on top of the values where no condition holds. -/
theorem sum_weights (t e : ℕ → Word) (p : ℕ → Bool) (ops : List ℕ) :
    (ops.map e).sum + (ops.map fun op => if p op then t op - e op else 0).sum =
      (ops.map fun op => if p op then t op else e op).sum := by
  induction ops with
  | nil => simp
  | cons op ops ih =>
    simp only [List.map_cons, List.sum_cons, ← ih]
    cases p op
    · simp only [Bool.false_eq_true, if_false, zero_add]
      ring
    · simp only [if_true]
      ring

/-- The blocks add up. -/
theorem MslSource.total_eq {K : MslSource} {S : Simd} {columns : ℕ → Word} {G : ℕ → Group}
    {numBlocks : ℕ} {v : ℕ → Word} (h : ∀ b < numBlocks, K.run S columns b (G b) = some (v b)) :
    K.total S columns G numBlocks = some (∑ b ∈ Finset.range numBlocks, v b) := by
  rw [MslSource.total, mapM_some fun b hb => h b (List.mem_range.1 hb)]
  refine congrArg some ?_
  clear h
  induction numBlocks with
  | zero => rfl
  | succ n ih => rw [List.range_succ, List.map_append, List.sum_append, ih, Finset.sum_range_succ]; simp

/-- **The total of a kernel** that adds up `v` over the lanes: the rows, and a row of zeros
for every lane beyond them. -/
theorem total_padded {K : MslSource} {S : Simd} {columns : ℕ → Word} {G : ℕ → Group}
    {getField : Name → Option FieldDescriptor} {data : ℕ → BitVec 8} {rowStride rowCount : ℕ}
    {v : (Name → Word) → Word}
    (h : ∀ b < (rowCount + 63) / 64, K.run S columns b (G b) = some (∑ r ∈ Finset.range 64,
      v (paddedRow getField data rowStride rowCount (64 * b + r)))) :
    K.total S columns G ((rowCount + 63) / 64) =
      some (∑ r ∈ Finset.range rowCount, v (recordAt getField data (r * rowStride)) +
        BitVec.ofNat 64 (64 * ((rowCount + 63) / 64) - rowCount) * v fun _ => 0) := by
  rw [MslSource.total_eq h, ← Ranges.sum_range_blocks
    (fun r => v (paddedRow getField data rowStride rowCount r)) 64]
  refine congrArg some ?_
  have hsplit : 64 * ((rowCount + 63) / 64) =
      rowCount + (64 * ((rowCount + 63) / 64) - rowCount) := by omega
  rw [hsplit, Finset.sum_range_add, Nat.add_sub_cancel_left]
  congr 1
  · refine Finset.sum_congr rfl fun r hr => congrArg v (funext fun f => ?_)
    rw [paddedRow, if_pos (Finset.mem_range.1 hr)]
  · have hzero : ∀ r, paddedRow getField data rowStride rowCount (rowCount + r) = fun _ => 0 := fun r =>
      funext fun f => by rw [paddedRow, if_neg (by omega)]
    simp only [hzero, Finset.sum_const, Finset.card_range, nsmul_eq_mul, BitVec.natCast_eq_ofNat]

/-! ### Forests -/

section Forest

variable {P : NodePool} (hP : Built P) {sum root : ℕ} {ops : List ℕ} {k : Word}
  (hroot : ForestRoot P.storage sum ops root k) {s : ℕ → Summand}
  (hs : ∀ op ∈ ops, IsSummand P.storage (s op) op)

include hroot hs in
/-- The nodes of a forest have their text; the `SUM` needs none. -/
theorem ForestRoot.emits {n : ℕ} (hn : Reach P.storage root n) : Emits P.storage n := by
  have hsum : Emits P.storage sum := fun a numFields => by
    rw [emitNode]
    split_ifs
    · exact ⟨[], rfl⟩
    · rw [hroot.isSum.kind]; exact ⟨[], rfl⟩
  rcases hroot.reach hn with rfl | rfl | ⟨v, hv⟩ | ⟨op, hop, hopn⟩
  · cases hroot with
    | sum => exact hsum
    | plus _ hb =>
      intro a numFields
      rw [emitNode]
      split_ifs
      · exact ⟨[], rfl⟩
      · rw [hb.kind]
        simp only [emitBinary, hb.left, hb.right]
        exact ⟨_, rfl⟩
  · exact hsum
  · exact emits_represents hv
  · obtain ⟨t, e, he, -⟩ := (hs op hop).typed
    obtain ⟨u, d, hd, -⟩ := he.reach hopn
    exact emits_represents hd

include hP hroot hs in
/-- **The kernel of a forest** writes the sum over the 64 lanes of what is counted for the
operands. -/
theorem run_forest (hlt : root < P.nextIdx) (hsub : ∀ op ∈ ops, (s op).cond.subFree = true)
    {a : ℕ → Annot} (hskip : ∀ n, Reach P.storage root n → (a n).skipJit = false) (numFields : ℕ) :
    ∃ a' K, generateMslSource P.storage a numFields root = .ok (a', K) ∧
      ∀ (S : Simd) (columns : ℕ → Word) (block : ℕ) (rows : ℕ → Name → Word) (G : Group),
        ReadsRows P.storage a root numFields columns block rows →
          K.run S columns block G = some (∑ r ∈ Finset.range 64,
            (k + (ops.map fun op => (s op).counted (rows r)).sum)) := by
  obtain ⟨a', K, hgen, hbase, hleaves, -, hrange, hrun⟩ := generateMslSource_run hP hlt hskip
    (fun n hn => ForestRoot.emits hroot hs hn) numFields (sumMeta_forest hroot hs)
  refine ⟨a', K, hgen, fun S columns block rows G hcols => ?_⟩
  obtain ⟨G', hbody, hholds⟩ := hrun S columns block rows G hcols
  rw [List.zip_map'] at hleaves
  have hreach : ∀ op ∈ ops, Reach P.storage root (maskNode P.storage op) := fun op hop =>
    Relation.ReflTransGen.trans (hroot.reach_op hop) (hs op hop).reach
  rw [MslSource.run, hbody, Option.bind_some, if_pos, blockSum_eq]
  · refine congrArg some (Finset.sum_congr rfl fun r hr => ?_)
    -- thread `r` has the conditions of row `r` in bit `r` of the masks
    have hr := Finset.mem_range.1 hr
    rw [rowSum_eq, hbase, hleaves, List.map_map, add_assoc, add_right_inj]
    refine Eq.trans (congrArg _ (congrArg List.sum (List.map_congr_left fun op hop => ?_)))
      (sum_weights (fun op => (s op).thenVal) (fun op => (s op).elseVal)
        (fun op => (s op).cond.eval (rows r)) ops)
    rw [Function.comp_apply, hholds _ (hreach op hop) _ (hs op hop).cond (hsub op hop) r hr r hr]
  · intro l hl
    rw [hleaves] at hl
    obtain ⟨op, hop, rfl⟩ := List.mem_map.1 hl
    exact hrange _ (hreach op hop)

end Forest

/-- The kinds of the nodes of a condition: comparisons of sums of fields and constants,
and logic. -/
def condKind (k : NodeKind) : Bool := k != .SUB && k != .SELECT

/-- A condition subtracts nothing. -/
theorem subFree_of_condKind {t : Ty} {c : Expr t} (h : c.all condKind = true) : c.subFree = true := by
  unfold Expr.subFree
  induction c with
  | load | const => rfl
  | sub x y => simp [Expr.all, condKind] at h
  | select c x y => simp [Expr.all, condKind] at h
  | add x y ihx ihy | and x y ihx ihy | or x y ihx ihy =>
    simp only [Expr.all, Bool.and_eq_true] at h ⊢
    exact ⟨⟨rfl, ihx h.1.2⟩, ihy h.2⟩
  | cmp op x y ihx ihy =>
    simp only [Expr.all, Bool.and_eq_true] at h ⊢
    exact ⟨⟨by cases op <;> rfl, ihx h.1.2⟩, ihy h.2⟩
  | not x ihx =>
    simp only [Expr.all, Bool.and_eq_true] at h ⊢
    exact ⟨rfl, ihx h.2⟩

/-- Conditions without `SELECT` contain none of those that are added up. -/
theorem opsApart_of_condKind {g : ℕ → Node} {ops : List ℕ} {s : ℕ → Summand}
    (hs : ∀ op ∈ ops, IsSummand g (s op) op) (hcond : ∀ op ∈ ops, (s op).cond.all condKind = true) :
    OpsApart g ops := by
  intro op hop x _ hk hx
  obtain ⟨t, d, hd, hpart⟩ := (hs op hop).cond.reach hx
  have := hd.all_kind (hpart.all _ (hcond op hop))
  rw [hk] at this
  exact absurd this (by decide)

/-- Nor does a flat summand. -/
theorem subFree_of_flat {s : Summand} (hflat : s.flat = true) (hcond : s.cond.all condKind = true) :
    s.subFree = true := by
  cases s with
  | mask c w => exact subFree_of_condKind hcond
  | select c x y w =>
    simp only [Summand.flat, Bool.and_eq_true, Option.isSome_iff_exists] at hflat
    obtain ⟨⟨u, hu⟩, v, hv⟩ := hflat
    have hconst : ∀ {x : Expr .num} {u : Word}, constVal x = some u → x.subFree = true := by
      intro x u hu
      cases x <;> first | rfl | simp [constVal] at hu
    have hc := subFree_of_condKind hcond
    have hx := hconst hu
    have hy := hconst hv
    unfold Expr.subFree at hc hx hy
    simp only [Summand.subFree, Expr.subFree, Expr.all, Bool.and_eq_true]
    exact ⟨⟨⟨rfl, hc⟩, hx⟩, hy⟩

/-- Row `r` of a block as the kernel finds it, for a schema of the fields `fields`. -/
def wrappedOf (fields : List FieldDescriptor) (data : ℕ → BitVec 8) (rowStride rowCount b r : ℕ) :
    Name → Word :=
  wrappedRow (fields.map (·.name)) (fun f => fields.find? fun d => d.name = f) data rowStride
    rowCount b r

/-- **The lanes of the GPU add up to the rows**: in a buffer of at most `2^32` words the rows of
zeros in the padding add up to zero; in a larger one the rows at the places where the kernel
reads, padding included, add up to those of the data. -/
def LanesAddUp (fields : List FieldDescriptor) (data : ℕ → BitVec 8) (rowStride rowCount : ℕ)
    (v : (Name → Word) → Word) : Prop :=
  (rowCount + 63) / 64 * fields.length * 64 ≤ 2 ^ 32 ∧
      BitVec.ofNat 64 (64 * ((rowCount + 63) / 64) - rowCount) * v (fun _ => 0) = 0 ∨
    2 ^ 32 < (rowCount + 63) / 64 * fields.length * 64 ∧
      ∑ b ∈ Finset.range ((rowCount + 63) / 64), ∑ r ∈ Finset.range 64,
          v (wrappedOf fields data rowStride rowCount b r) =
        ∑ r ∈ Finset.range rowCount, v (rowOf fields data rowStride r)

section Totals

variable {PF : Platform} {P : NodePool} (hP : Built P) {root : ℕ} {E₀ : ApexEngine}
  {schemaName : Name} {fields : List FieldDescriptor} {rowStride : ℕ}
  (hnew : E₀.registry.schemas schemaName = none) (honly : E₀.exprLogic = [])
  (horder : fieldOrder P.storage root = fields.map (·.name)) {a₀ a : ℕ → Annot} {E : ApexEngine}
  (hset : setExpression PF (E₀.registerSchema schemaName fields rowStride) schemaName P.storage a₀
    (some root) .GPU_THROUGHPUT = .ok (a, E)) (hacc : E.exprLogic ≠ [])

include hP horder in
/-- The fields of the order of use are registered. -/
theorem registered (hlt : root < P.nextIdx) {n : ℕ} (hn : Reach P.storage root n)
    (hk : (P.storage n).kind = .LOAD) : ∃ d ∈ fields, d.name = (P.storage n).fieldName := by
  have hmem := (Jit.mem_fieldOrder hP hlt _).2 ⟨n, hn, hk, rfl⟩
  rwa [horder, List.mem_map] at hmem

include hP hnew honly horder hset hacc

/-- **The GPU on a forest**: the sum over the lanes of what the kernel finds in them; in a
buffer of at most `2^32` words, the sum over the rows, and over the rows of zeros in the
padding of the last block. -/
theorem gpu_forest_total {sum : ℕ} {ops : List ℕ} {k : Word}
    (hroot : ForestRoot P.storage sum ops root k) (hne : ops ≠ []) {s : ℕ → Summand}
    (hs : ∀ op ∈ ops, IsSummand P.storage (s op) op)
    (hcond : ∀ op ∈ ops, (s op).cond.all condKind = true) :
    ∃ L K, E.exprLogic = [(schemaName, L)] ∧ L.mslSource = some K ∧
      ∀ (S : Simd) (data : ℕ → BitVec 8) (rowCount : ℕ) (tempBuf : ColumnBuffer) (G : ℕ → Group),
        K.total S (packBlocks PF L.fields data rowStride rowCount tempBuf) G ((rowCount + 63) / 64) =
            some (∑ b ∈ Finset.range ((rowCount + 63) / 64), ∑ r ∈ Finset.range 64, (k +
              (ops.map fun op => (s op).counted
                (wrappedOf fields data rowStride rowCount b r)).sum)) ∧
        ((rowCount + 63) / 64 * fields.length * 64 ≤ 2 ^ 32 →
          K.total S (packBlocks PF L.fields data rowStride rowCount tempBuf) G ((rowCount + 63) / 64) =
            some (∑ r ∈ Finset.range rowCount,
                (k + (ops.map fun op => (s op).counted (rowOf fields data rowStride r)).sum) +
              BitVec.ofNat 64 (64 * ((rowCount + 63) / 64) - rowCount) *
                (k + (ops.map fun op => (s op).counted fun _ => 0).sum))) := by
  have hlt := hroot.lt_nextIdx hP hne
  obtain ⟨a₁, a₂, L, K, -, -, -, -, hgen, hK, -, -, -, hskip, -, hN, hI⟩ :=
    setExpression_gpu hP hlt hnew honly (fun n hn hk => registered hP horder hlt hn hk) hset hacc
  refine ⟨L, K, (hI.logic_eq (setExpression_keys honly hset hacc)).1, hK,
    fun S data rowCount tempBuf G => ?_⟩
  obtain ⟨a', K', hgen', hrun⟩ := run_forest hP hroot hs hlt
    (fun op hop => subFree_of_condKind (hcond op hop)) hskip fields.length
  rw [hgen, Except.ok.injEq, Prod.mk.injEq] at hgen'
  obtain ⟨-, rfl⟩ := hgen'
  have hlen : (fieldOrder P.storage root).length = fields.length := by rw [horder, List.length_map]
  constructor
  · refine MslSource.total_eq fun b hb =>
      hrun S _ b (wrappedOf fields data rowStride rowCount b) (G b) ?_
    have hreads := packed_readsWrapped PF data rowStride tempBuf hI.table hI.fields_length hN hb
    rwa [hlen, horder] at hreads
  · intro hfit
    refine total_padded (v := fun row => k + (ops.map fun op => (s op).counted row).sum) fun b hb =>
      hrun S _ b _ (G b) ?_
    rw [← hlen]
    exact packed_readsRows hI.table hI.fields_length hN (by rw [hlen]; exact hfit) hb

/-- **The GPU on a root without a `SUM`** returns zero, whatever is in the columns. -/
theorem gpu_typed_total {t : Ty} {e : Expr t} (he : Represents P.storage e root)
    (hc : e.compound = true) :
    ∃ L K, E.exprLogic = [(schemaName, L)] ∧ L.mslSource = some K ∧
      ∀ (S : Simd) (columns : ℕ → Word) (numBlocks : ℕ) (G : ℕ → Group),
        K.total S columns G numBlocks = some 0 := by
  have hlt := he.lt_nextIdx hP hc
  obtain ⟨a₁, a₂, L, K, -, -, -, -, hgen, hK, -, -, -, hskip, -, hN, hI⟩ :=
    setExpression_gpu hP hlt hnew honly (fun n hn hk => registered hP horder hlt hn hk) hset hacc
  refine ⟨L, K, (hI.logic_eq (setExpression_keys honly hset hacc)).1, hK,
    fun S columns numBlocks G => ?_⟩
  obtain ⟨a', K', hgen', hbase, hleaves, -, -, hrun⟩ := generateMslSource_run hP hlt hskip
    (fun n hn => by
      obtain ⟨u, d, hd, -⟩ := he.reach hn
      exact emits_represents hd) fields.length (fun a' => sumMeta_typed he a')
  rw [hgen, Except.ok.injEq, Prod.mk.injEq] at hgen'
  obtain ⟨-, rfl⟩ := hgen'
  rw [MslSource.total_eq (v := fun _ => 0) fun b _ => ?_]
  · simp
  · obtain ⟨G', hbody, -⟩ := hrun S columns b _ (G b) (readsRows_of_numbered hN fields.length columns b)
    rw [MslSource.run, hbody, Option.bind_some, hleaves, hbase, if_pos (by simp), blockSum_eq]
    simp [rowSum]

end Totals

/-- **GPU forest sums and the rows.**  A forest of `SELECT`s of two constants and of conditions
with weights, over all fields of a schema in their order, accepted on fresh nodes in the
`BIT_SLICED` mode and in the `GPU_THROUGHPUT` mode: for all data and every number of rows the
total over the blocks is what `execute` returns on the CPU if and only if the lanes add up
to the rows: in a buffer of at most `2^32` words, if the rows of zeros that pad the last block
add up to zero. -/
theorem gpu_forest_total_iff (PF : Platform) (S : Simd) {P : NodePool} (hP : Built P) {sum root : ℕ}
    {ops : List ℕ} {k : Word} (hroot : ForestRoot P.storage sum ops root k) (hne : ops ≠ [])
    {s : ℕ → Summand} (hs : ∀ op ∈ ops, IsSummand P.storage (s op) op)
    (hflat : ∀ op ∈ ops, (s op).flat = true) (hcond : ∀ op ∈ ops, (s op).cond.all condKind = true)
    (hfresh : Fresh P root) {E₀ : ApexEngine} {schemaName : Name} {fields : List FieldDescriptor}
    {rowStride : ℕ} (hnew : E₀.registry.schemas schemaName = none) (honly : E₀.exprLogic = [])
    (horder : fieldOrder P.storage root = fields.map (·.name)) {a a₀ aG : ℕ → Annot}
    {E EG : ApexEngine}
    (hset : setExpression PF (E₀.registerSchema schemaName fields rowStride) schemaName P.storage
      P.annot (some root) .BIT_SLICED = .ok (a, E)) (hacc : E.exprLogic ≠ [])
    (hsetG : setExpression PF (E₀.registerSchema schemaName fields rowStride) schemaName P.storage a₀
      (some root) .GPU_THROUGHPUT = .ok (aG, EG)) (haccG : EG.exprLogic ≠ []) :
    ∃ L K, EG.exprLogic = [(schemaName, L)] ∧ L.mslSource = some K ∧
      ∀ (data : ℕ → BitVec 8) (rowCount : ℕ) (tempBuf : ColumnBuffer) (G : ℕ → Group)
        (bufs : ℕ → ColumnBuffer),
        (∃ total E', K.total S (packBlocks PF L.fields data rowStride rowCount tempBuf) G
              ((rowCount + 63) / 64) = some total ∧
            execute PF { E with fieldBuffers := bufs } data rowCount = some (total, E')) ↔
          LanesAddUp fields data rowStride rowCount fun row =>
            k + (ops.map fun op => (s op).value row).sum := by
  obtain ⟨L, K, hL, hK, htotal⟩ := gpu_forest_total hP hnew honly horder hsetG haccG hroot hne hs hcond
  refine ⟨L, K, hL, hK, fun data rowCount tempBuf G bufs => ?_⟩
  obtain ⟨E', hrun⟩ := forest_execute hP hroot hs hne
    (fun op hop => subFree_of_flat (hflat op hop) (hcond op hop)) (opsApart_of_condKind hs hcond)
    hfresh hnew honly (fun op hop f hf => by
      obtain ⟨t, e, he, hfields, -⟩ := (hs op hop).typed
      obtain ⟨n, hn, hk, rfl⟩ := he.exists_load (hfields ▸ hf)
      exact registered hP horder (hroot.lt_nextIdx hP hne)
        (Relation.ReflTransGen.trans (hroot.reach_op hop) hn) hk) hset hacc bufs data rowCount
  have hvalue : (fun row => k + (ops.map fun op => (s op).value row).sum) =
      fun row => k + (ops.map fun op => (s op).counted row).sum :=
    funext fun row => congrArg _ (congrArg List.sum (List.map_congr_left fun op hop =>
      ((s op).counted_eq_value (hflat op hop) row).symm))
  obtain ⟨hwrapped, hpadded⟩ := htotal S data rowCount tempBuf G
  rw [hvalue, hrun, LanesAddUp]
  by_cases hfit : (rowCount + 63) / 64 * fields.length * 64 ≤ 2 ^ 32
  · rw [hpadded hfit]
    simp only [Option.some.injEq, Prod.mk.injEq, hfit, true_and, Nat.not_lt.2 hfit, false_and,
      or_false]
    constructor
    · rintro ⟨total, E'', rfl, h, -⟩
      exact left_eq_add.1 h
    · intro h
      exact ⟨_, E', rfl, by rw [h, add_zero], rfl⟩
  · rw [hwrapped]
    simp only [Option.some.injEq, Prod.mk.injEq, hfit, false_and, Nat.not_le.1 hfit, true_and,
      false_or]
    constructor
    · rintro ⟨total, E'', rfl, h, -⟩
      exact h.symm
    · intro h
      exact ⟨_, E', rfl, h.symm, rfl⟩

/-- `Select(a > 5, 7, 2)`. -/
abbrev selectExpr : Expr .num := .select Jit.gtFive (.const 7) (.const 2)

/-- The pool of `Sum({Select(GT(Load("a"), 5), 7, 2)})`. -/
def selectPool : NodePool :=
  ((do Builder.Sum (← selectExpr.build).toList : StateM NodePool (Option ℕ)) .empty).2

/-- The operand of the sum. -/
def selectSummand (_ : ℕ) : Summand :=
  .select (.cmp .gt (.load ['a']) (.const 5)) (.const 7) (.const 2) 0

theorem selectPool_pristine : Pristine selectPool :=
  (selectExpr.pool_pristine (by decide)).emplace { kind := .SUM, operands := [5] } .BITPLANE (by decide)

theorem selectPool_forest : ForestRoot selectPool.storage 6 [5] 6 0 := .sum ⟨rfl, rfl, rfl, rfl, rfl⟩

theorem selectPool_summand : ∀ op ∈ [5], IsSummand selectPool.storage (selectSummand op) op := by
  intro op hop
  obtain rfl := List.mem_singleton.1 hop
  exact ⟨((selectExpr.pool_stands (by decide) (by decide)).emplace
    (selectExpr.pool_pristine (by decide)).built _ _ (by decide)).represents, rfl⟩

theorem selectPool_order : fieldOrder selectPool.storage 6 = oneField.map (·.name) := by decide

theorem selectPool_accepted (mode : ExecutionMode) (hmode : mode ≠ .SCALAR) :
    ∃ a E, setExpression .standard oneFieldEngine ['t'] selectPool.storage
      selectPool.annot (some 6) mode = .ok (a, E) ∧ E.exprLogic ≠ [] := by
  refine accepted_iff.1 ?_
  cases mode with
  | BIT_SLICED => decide +kernel
  | SCALAR => exact absurd rfl hmode
  | GPU_THROUGHPUT => decide +kernel

/-- 64 rows with `a = 10`: the totals agree, there is no padding. -/
theorem gpu_forest_total_iff_full :
    ∃ a E aG EG L K total E', setExpression .standard oneFieldEngine ['t']
        selectPool.storage selectPool.annot (some 6) .BIT_SLICED = .ok (a, E) ∧
      setExpression .standard oneFieldEngine ['t'] selectPool.storage
        selectPool.annot (some 6) .GPU_THROUGHPUT = .ok (aG, EG) ∧
      EG.exprLogic = [(['t'], L)] ∧ L.mslSource = some K ∧
      K.total .standard (packBlocks .standard L.fields tens 8 64 fun _ => 0)
        (fun _ => ⟨fun _ _ => 0, fun _ => 0, fun _ => 0, 0⟩) 1 = some total ∧
      execute .standard E tens 64 = some (total, E') := by
  obtain ⟨a, E, hset, hacc⟩ := selectPool_accepted .BIT_SLICED (by decide)
  obtain ⟨aG, EG, hsetG, haccG⟩ := selectPool_accepted .GPU_THROUGHPUT (by decide)
  obtain ⟨L, K, hL, hK, hiff⟩ := gpu_forest_total_iff .standard .standard selectPool_pristine.built
    selectPool_forest (by decide) selectPool_summand (by decide) (by decide) (selectPool_pristine.fresh 6) rfl rfl
    selectPool_order hset hacc hsetG haccG
  obtain ⟨total, E', htotal, hrun⟩ := (hiff tens 64 (fun _ => 0)
    (fun _ => ⟨fun _ _ => 0, fun _ => 0, fun _ => 0, 0⟩) E.fieldBuffers).2 (.inl (by decide))
  exact ⟨a, E, aG, EG, L, K, total, E', hset, hsetG, hL, hK, htotal, hrun⟩

/-- One row with `a = 10`: the CPU returns 7, the GPU `7 + 63 * 2`. -/
theorem gpu_forest_counts_padding :
    ∃ a E aG EG L K E', setExpression .standard oneFieldEngine ['t']
        selectPool.storage selectPool.annot (some 6) .BIT_SLICED = .ok (a, E) ∧
      setExpression .standard oneFieldEngine ['t'] selectPool.storage
        selectPool.annot (some 6) .GPU_THROUGHPUT = .ok (aG, EG) ∧
      EG.exprLogic = [(['t'], L)] ∧ L.mslSource = some K ∧
      K.total .standard (packBlocks .standard L.fields tens 8 1 fun _ => 0)
        (fun _ => ⟨fun _ _ => 0, fun _ => 0, fun _ => 0, 0⟩) 1 = some 133 ∧
      execute .standard E tens 1 = some (7, E') := by
  obtain ⟨a, E, hset, hacc⟩ := selectPool_accepted .BIT_SLICED (by decide)
  obtain ⟨aG, EG, hsetG, haccG⟩ := selectPool_accepted .GPU_THROUGHPUT (by decide)
  obtain ⟨L, K, hL, hK, htotal⟩ := gpu_forest_total selectPool_pristine.built rfl rfl selectPool_order hsetG haccG
    selectPool_forest (by decide) selectPool_summand (by decide)
  obtain ⟨E', hrun⟩ := forest_execute selectPool_pristine.built selectPool_forest selectPool_summand (by decide)
    (by decide) (opsApart_of_condKind selectPool_summand (by decide)) (selectPool_pristine.fresh 6) rfl rfl
    (by decide) hset hacc E.fieldBuffers tens 1
  refine ⟨a, E, aG, EG, L, K, E', hset, hsetG, hL, hK, ?_, hrun.trans ?_⟩
  · refine ((htotal .standard tens 1 (fun _ => 0) _).2 (by decide)).trans (congrArg some ?_)
    decide
  · have hsum : ∑ r ∈ Finset.range 1, ((0 : Word) + ([5].map fun op => (selectSummand op).counted
        (rowOf oneField tens 8 r)).sum) = 7 := by decide
    rw [hsum]

/-- **Roots without a `SUM` on the GPU.**  A well-typed operation without `SUB`, over all fields
of a schema in their order, accepted on fresh nodes in both modes: on any number of whole
blocks the total of the GPU is what `execute` returns on the CPU if and only if that is
zero, no row matching or the values adding up to zero. -/
theorem gpu_typed_total_iff (PF : Platform) (S : Simd) {P : NodePool} (hP : Built P) {t : Ty}
    {e : Expr t} {root : ℕ} (he : Represents P.storage e root) (hc : e.compound = true)
    (hsub : e.subFree = true) (hfresh : Fresh P root) {E₀ : ApexEngine} {schemaName : Name}
    {fields : List FieldDescriptor} {rowStride : ℕ} (hnew : E₀.registry.schemas schemaName = none)
    (honly : E₀.exprLogic = []) (horder : fieldOrder P.storage root = fields.map (·.name))
    {a a₀ aG : ℕ → Annot} {E EG : ApexEngine}
    (hset : setExpression PF (E₀.registerSchema schemaName fields rowStride) schemaName P.storage
      P.annot (some root) .BIT_SLICED = .ok (a, E)) (hacc : E.exprLogic ≠ [])
    (hsetG : setExpression PF (E₀.registerSchema schemaName fields rowStride) schemaName P.storage a₀
      (some root) .GPU_THROUGHPUT = .ok (aG, EG)) (haccG : EG.exprLogic ≠ []) :
    ∃ L K, EG.exprLogic = [(schemaName, L)] ∧ L.mslSource = some K ∧
      ∀ (data : ℕ → BitVec 8) (numBlocks : ℕ) (tempBuf : ColumnBuffer) (G : ℕ → Group)
        (bufs : ℕ → ColumnBuffer),
          ((∃ total E', K.total S (packBlocks PF L.fields data rowStride (64 * numBlocks) tempBuf) G
                numBlocks = some total ∧
              execute PF { E with fieldBuffers := bufs } data (64 * numBlocks) = some (total, E')) ↔
            rowTotal (fun r => e.eval (rowOf fields data rowStride r)) (64 * numBlocks) = 0) := by
  obtain ⟨L, K, hL, hK, htotal⟩ := gpu_typed_total hP hnew honly horder hsetG haccG he hc
  refine ⟨L, K, hL, hK, fun data numBlocks tempBuf G bufs => ?_⟩
  have hlt := he.lt_nextIdx hP hc
  obtain ⟨-, hcpu⟩ := bitSliced_execute hP he hc hsub hfresh hnew honly (fun f hf => by
    obtain ⟨n, hn, hk, rfl⟩ := he.exists_load hf
    exact registered hP horder hlt hn hk) hset hacc
  obtain ⟨E', hrun⟩ := hcpu bufs data (64 * numBlocks)
  rw [htotal, hrun]
  simp only [Option.some.injEq, Prod.mk.injEq]
  constructor
  · rintro ⟨total, E'', rfl, h, -⟩
    exact h
  · intro h
    exact ⟨_, E', rfl, h, rfl⟩

theorem gtPool_order : fieldOrder Jit.gtPool.storage 2 = oneField.map (·.name) := by decide

/-- Rows with `a = 3`, so that none matches `a > 5`. -/
def threes (p : ℕ) : BitVec 8 := if p % 8 = 0 then 3 else 0

/-- 64 rows with `a = 3`: the CPU counts none, and the totals agree. -/
theorem gpu_typed_total_iff_threes :
    ∃ a E aG EG L K total E', setExpression .standard oneFieldEngine ['t']
        Jit.gtPool.storage Jit.gtPool.annot (some 2) .BIT_SLICED = .ok (a, E) ∧
      setExpression .standard oneFieldEngine ['t'] Jit.gtPool.storage
        Jit.gtPool.annot (some 2) .GPU_THROUGHPUT = .ok (aG, EG) ∧
      EG.exprLogic = [(['t'], L)] ∧ L.mslSource = some K ∧
      K.total .standard (packBlocks .standard L.fields threes 8 64 fun _ => 0)
        (fun _ => ⟨fun _ _ => 0, fun _ => 0, fun _ => 0, 0⟩) 1 = some total ∧
      execute .standard E threes 64 = some (total, E') := by
  obtain ⟨a, E, hset, hacc⟩ := gtPool_accepted .BIT_SLICED
  obtain ⟨aG, EG, hsetG, haccG⟩ := gtPool_accepted .GPU_THROUGHPUT
  obtain ⟨L, K, hL, hK, hiff⟩ := gpu_typed_total_iff .standard .standard Jit.gtPool_built
    Jit.gtPool_represents rfl rfl Jit.gtPool_fresh rfl rfl gtPool_order hset hacc hsetG haccG
  obtain ⟨total, E', htotal, hrun⟩ := (hiff threes 1 (fun _ => 0)
    (fun _ => ⟨fun _ _ => 0, fun _ => 0, fun _ => 0, 0⟩) E.fieldBuffers).2 (by decide)
  exact ⟨a, E, aG, EG, L, K, total, E', hset, hsetG, hL, hK, htotal, hrun⟩

/-- `a > 5` on 64 rows with `a = 10`: the CPU counts all rows, the GPU returns 0. -/
theorem gpu_drops_boolean_root :
    ∃ a E aG EG L K E', setExpression .standard oneFieldEngine ['t']
        Jit.gtPool.storage Jit.gtPool.annot (some 2) .BIT_SLICED = .ok (a, E) ∧
      setExpression .standard oneFieldEngine ['t'] Jit.gtPool.storage
        Jit.gtPool.annot (some 2) .GPU_THROUGHPUT = .ok (aG, EG) ∧
      EG.exprLogic = [(['t'], L)] ∧ L.mslSource = some K ∧
      K.total .standard (packBlocks .standard L.fields tens 8 64 fun _ => 0)
        (fun _ => ⟨fun _ _ => 0, fun _ => 0, fun _ => 0, 0⟩) 1 = some 0 ∧
      execute .standard E tens 64 = some (64, E') := by
  obtain ⟨a, E, hset, hacc⟩ := gtPool_accepted .BIT_SLICED
  obtain ⟨aG, EG, hsetG, haccG⟩ := gtPool_accepted .GPU_THROUGHPUT
  obtain ⟨L, K, hL, hK, htotal⟩ := gpu_typed_total Jit.gtPool_built rfl rfl gtPool_order hsetG haccG
    Jit.gtPool_represents rfl
  obtain ⟨-, hcpu⟩ := bitSliced_execute Jit.gtPool_built Jit.gtPool_represents rfl rfl
    Jit.gtPool_fresh rfl rfl (by decide) hset hacc
  obtain ⟨E', hrun⟩ := hcpu E.fieldBuffers tens 64
  refine ⟨a, E, aG, EG, L, K, E', hset, hsetG, hL, hK, htotal .standard _ 1 _, hrun.trans ?_⟩
  have hsum : rowTotal (fun r => Expr.eval (rowOf oneField tens 8 r)
      (.cmp .gt (.load ['a']) (.const 5))) 64 = 64 := by decide
  rw [hsum]

end Gpu
end AarchGate
