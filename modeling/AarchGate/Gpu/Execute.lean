/-
# Execution on the GPU

The `GPU_THROUGHPUT` branch of `ApexEngine::execute` in `src/api/engine.cpp`, up to the
dispatch: the rows are cut into blocks of 64, up to four workers gather and slice the
fields of their blocks into one buffer, `packBlocks`, and the kernel runs once for every
block; the results are added up, `MslSource.total`.

The workers write disjoint parts of the buffer, so they are taken one after the other.
`temp_buf` is not initialised.

* The planes of field number `f` of block `b` stand at word `(b * n + f) * 64` of the
  buffer, where `n` is the number of fields the expression references
  (`packBlocks_plane`).  Lanes beyond the last row are zero, so the kernel finds rows of
  zeros there (`packed_readsRows`).
* `setExpression_gpu`: what `set_expression` leaves in the engine in this mode.
-/

import AarchGate.Engine.Correct
import AarchGate.Gpu.Transpile
import AarchGate.Ranges.Follow

namespace AarchGate
namespace Gpu

open A64 Ir AarchGate.Core Compute BitPlane Engine Engine.ApexEngine
open Jit (Fault bind_ok compileExpression prepare_spec fieldOrder setAnnot setAnnot_self setAnnot_ne)

/-- The blocks of the workers: `start_block` and `end_block`. -/
def workerRanges (numBlocks : ℕ) : List (ℕ × ℕ) :=
  let numWorkers := if numBlocks < 4 then numBlocks else 4
  (List.range numWorkers).map fun w => (numBlocks * w / numWorkers, numBlocks * (w + 1) / numWorkers)

/-- The 64 words from `dest` on. -/
def writePlanes (planes : ℕ → Word) (dest : ℕ) (col : ColumnBuffer) : ℕ → Word :=
  fun k => if dest ≤ k ∧ k < dest + 64 then col (k - dest) else planes k

section Pack

variable (PF : Platform) (fields : List (Option FieldDescriptor)) (data : ℕ → BitVec 8)
  (rowStride rowCount : ℕ) (tempBuf : ColumnBuffer)

/-- The column of a field in a block, sliced. -/
def blockColumn (block : ℕ) (d : FieldDescriptor) : ColumnBuffer :=
  sliceN PF.hwy (gatherField data (block * 64 * rowStride) d rowStride
    (min 64 (rowCount - block * 64)) tempBuf) 64

/-- One field of a block. -/
def packField (block : ℕ) (planes : ℕ → Word) (f : ℕ) : ℕ → Word :=
  match fields[f]? with
  | some (some d) => writePlanes planes (block * fields.length * 64 + f * 64)
      (blockColumn PF data rowStride rowCount tempBuf block d)
  | _ => planes

/-- One block. -/
def packBlock (planes : ℕ → Word) (block : ℕ) : ℕ → Word :=
  (List.range fields.length).foldl (packField PF fields data rowStride rowCount tempBuf block) planes

/-- `bit_planes`. -/
def packBlocks : ℕ → Word :=
  (workerRanges ((rowCount + 63) / 64)).foldl (fun planes x =>
    (List.range' x.1 (x.2 - x.1)).foldl (packBlock PF fields data rowStride rowCount tempBuf) planes)
    fun _ => 0

end Pack

/-- The sum of what the kernel writes for the blocks; `G` is what the threadgroups find in
their memory. -/
def MslSource.total (K : MslSource) (S : Simd) (columns : ℕ → Word) (G : ℕ → Group)
    (numBlocks : ℕ) : Option Word :=
  ((List.range numBlocks).mapM fun block => K.run S columns block (G block)).map List.sum

/-! ### The packed buffer -/

section Writes

variable {α κ β : Type*} {step : (κ → β) → α → κ → β} {k : κ} {v : β} {p : α → Prop}

/-- A sequence of writes that does not touch `k`. -/
theorem foldl_miss (hmiss : ∀ f x, ¬p x → step f x k = f k) {l : List α} (h : ∀ x ∈ l, ¬p x)
    (f : κ → β) : l.foldl step f k = f k := by
  induction l generalizing f with
  | nil => rfl
  | cons x l ih =>
    rw [List.foldl_cons, ih fun y hy => h y (List.mem_cons_of_mem _ hy),
      hmiss f x (h x (List.mem_cons_self ..))]

/-- A sequence of writes of which some, all of one value, are to `k`. -/
theorem foldl_hit (hhit : ∀ f x, p x → step f x k = v) (hmiss : ∀ f x, ¬p x → step f x k = f k)
    {l : List α} {f : κ → β} (h : (∃ x ∈ l, p x) ∨ f k = v) : l.foldl step f k = v := by
  induction l generalizing f with
  | nil => exact h.resolve_left fun ⟨x, hx, _⟩ => absurd hx List.not_mem_nil
  | cons x l ih =>
    rw [List.foldl_cons]
    refine ih ?_
    by_cases hx : p x
    · exact Or.inr (hhit f x hx)
    · rw [hmiss f x hx]
      refine h.imp_left ?_
      rintro ⟨y, hy, hpy⟩
      rcases List.mem_cons.1 hy with rfl | hy
      · exact absurd hpy hx
      · exact ⟨y, hy, hpy⟩

end Writes

/-- The words of field `f` of block `b`, in blocks of `n` fields. -/
theorem word_unique {n b f i b' f' : ℕ} (hf : f < n) (hf' : f' < n) (hi : i < 64) :
    b' * n * 64 + f' * 64 ≤ b * n * 64 + f * 64 + i ∧
      b * n * 64 + f * 64 + i < b' * n * 64 + f' * 64 + 64 ↔ b' = b ∧ f' = f := by
  constructor
  · intro h
    have heq : f' + n * b' = f + n * b := by
      rw [Nat.mul_comm n, Nat.mul_comm n]
      omega
    have hb := congrArg (· / n) heq
    have hm := congrArg (· % n) heq
    simp only [Nat.add_mul_div_left _ _ (Nat.zero_lt_of_lt hf), Nat.div_eq_of_lt hf,
      Nat.div_eq_of_lt hf', Nat.zero_add, Nat.add_mul_mod_self_left, Nat.mod_eq_of_lt hf,
      Nat.mod_eq_of_lt hf'] at hb hm
    exact ⟨hb, hm⟩
  · rintro ⟨rfl, rfl⟩
    omega

theorem workerRanges_follow (numBlocks : ℕ) :
    Ranges.Follow 0 numBlocks (workerRanges numBlocks) := by
  rw [workerRanges]
  generalize hw : (if numBlocks < 4 then numBlocks else 4) = numWorkers
  have h := Ranges.follow_bounds (fun w => numBlocks * w / numWorkers) numWorkers 0 fun t _ _ =>
    Nat.div_le_div_right (Nat.mul_le_mul_left _ (Nat.le_succ t))
  rw [← List.range_eq_range', Nat.zero_add] at h
  simp only [Nat.mul_zero, Nat.zero_div] at h
  rcases Nat.eq_zero_or_pos numWorkers with h0 | hpos
  · -- no workers, no blocks
    have : numBlocks = 0 := by
      rw [h0] at hw
      split_ifs at hw
      exact hw
    subst h0 this
    exact rfl
  · rwa [Nat.mul_div_cancel _ hpos] at h

section Packed

variable {PF : Platform} {fields : List (Option FieldDescriptor)} {data : ℕ → BitVec 8}
  {rowStride rowCount : ℕ} {tempBuf : ColumnBuffer}

/-- **The planes of a field** stand in the buffer where its number says. -/
theorem packBlocks_plane {block f : ℕ} {d : FieldDescriptor} (hblock : block < (rowCount + 63) / 64)
    (hd : fields[f]? = some (some d)) {i : ℕ} (hi : i < 64) :
    packBlocks PF fields data rowStride rowCount tempBuf (block * fields.length * 64 + f * 64 + i) =
      blockColumn PF data rowStride rowCount tempBuf block d i := by
  have hf : f < fields.length := (List.getElem?_eq_some_iff.1 hd).1
  generalize hk : block * fields.length * 64 + f * 64 + i = k
  -- a field of a block: only field `f` of this block touches the word
  have hfield : ∀ b planes f', ¬(b = block ∧ f' = f) →
      packField PF fields data rowStride rowCount tempBuf b planes f' k = planes k := by
    intro b planes f' hne
    rcases hd' : fields[f']? with _ | _ | d'
    · simp only [packField, hd']
    · simp only [packField, hd']
    · simp only [packField, hd', writePlanes]
      rw [if_neg]
      rw [← hk, word_unique hf (List.getElem?_eq_some_iff.1 hd').1 hi]
      exact hne
  have hself : ∀ planes, packField PF fields data rowStride rowCount tempBuf block planes f k =
      blockColumn PF data rowStride rowCount tempBuf block d i := by
    intro planes
    rw [packField, hd]
    simp only
    rw [writePlanes, ← hk, if_pos ((word_unique hf hf hi).2 ⟨rfl, rfl⟩), Nat.add_sub_cancel_left]
  -- a block, and the blocks of a worker
  have hmiss : ∀ planes b, b ≠ block →
      packBlock PF fields data rowStride rowCount tempBuf planes b k = planes k := fun planes b hb =>
    foldl_miss (p := fun _ => False) (fun planes f' _ => hfield b planes f' fun h => hb h.1)
      (fun _ _ => id) planes
  have hhit : ∀ planes b, b = block →
      packBlock PF fields data rowStride rowCount tempBuf planes b k =
        blockColumn PF data rowStride rowCount tempBuf block d i := by
    rintro planes b rfl
    refine foldl_hit (p := (· = f)) (fun planes f' hf' => hf' ▸ hself planes)
      (fun planes f' hf' => hfield b planes f' fun h => hf' h.2) (Or.inl ⟨f, ?_, rfl⟩)
    exact List.mem_range.2 hf
  refine foldl_hit (p := fun x : ℕ × ℕ => x.1 ≤ block ∧ block < x.2) (fun planes x hx => ?_)
    (fun planes x hx => ?_) (Or.inl ?_)
  · refine foldl_hit (p := (· = block)) hhit hmiss (Or.inl ⟨block, ?_, rfl⟩)
    exact List.mem_range'_1.2 ⟨hx.1, by omega⟩
  · refine foldl_miss (p := (· = block)) hmiss (fun b hb hbb => hx ?_) planes
    have := List.mem_range'_1.1 hb
    omega
  · exact ((workerRanges_follow _).partition.covers block).2 ⟨Nat.zero_le _, hblock⟩

/-- Row `r` of the data, or a row of zeros beyond the last. -/
def paddedRow (getField : Name → Option FieldDescriptor) (data : ℕ → BitVec 8)
    (rowStride rowCount r : ℕ) (f : Name) : Word :=
  if r < rowCount then recordAt getField data (r * rowStride) f else 0

variable (PF data rowStride rowCount tempBuf) in
theorem blockColumn_planes (block : ℕ) (d : FieldDescriptor) :
    Planes (blockColumn PF data rowStride rowCount tempBuf block d) fun r =>
      if 64 * block + r < rowCount then load64 data ((64 * block + r) * rowStride + d.offset) else 0 := by
  refine (sliceN_planes PF.hwy _).lanes fun r hr => ?_
  rw [gatherField_apply _ _ _ _ _ _ hr, Nat.add_mul, Nat.mul_comm 64 block]
  refine if_congr ?_ rfl rfl
  rw [Nat.lt_min]
  omega

/-- Whatever is in the columns, it is the planes of some rows. -/
theorem readsRows_of_numbered {g : ℕ → Node} {a : ℕ → Annot} {root : ℕ} {names : List Name}
    (hN : Numbered g a root names) (numFields : ℕ) (columns : ℕ → Word) (block : ℕ) :
    ReadsRows g a root numFields columns block fun r f =>
      laneOf 64 (fun i => columns (columnIndex numFields (names.idxOf f : ℕ) block i)) r := by
  intro n hn hk
  rw [hN.idx n hn hk]
  exact planes_laneOf _

/-- Within `2^32` words the index is that of the layout. -/
theorem columnIndex_eq {numFields f block i : ℕ}
    (h : block * numFields * 64 + f * 64 + i < 2 ^ 32) :
    columnIndex numFields f block i = block * numFields * 64 + f * 64 + i := by
  rw [columnIndex, ← Nat.cast_mul, ← Int.toNat_natCast (block * numFields * 64 + f * 64 + i)]
  congr 1
  rw [Int.emod_eq_of_lt (by omega) (by push_cast; omega)]
  push_cast
  ring

/-- The index counts the planes of `2^26` columns, and begins again. -/
theorem columnIndex_eq_mod (numFields f block : ℕ) {i : ℕ} (hi : i < 64) :
    columnIndex numFields f block i = (block * numFields + f) % 2 ^ 26 * 64 + i := by
  have hcast : ((block : ℤ) * numFields * 64 + (f : ℤ) * 64 + i) % 2 ^ 32 =
      ((block * numFields * 64 + f * 64 + i) % 2 ^ 32 : ℕ) := by push_cast; rfl
  rw [columnIndex, hcast, Int.toNat_natCast]
  generalize block * numFields = z
  omega

/-- Row `r` of a block as the kernel reads it from the packed buffer: the column of field `f`
is number `block * n + f` of the buffer, modulo `2^26`. -/
def wrappedRow (names : List Name) (getField : Name → Option FieldDescriptor) (data : ℕ → BitVec 8)
    (rowStride rowCount block r : ℕ) (f : Name) : Word :=
  let column := (block * names.length + names.idxOf f) % 2 ^ 26
  match names[column % names.length]? with
  | some f' => paddedRow getField data rowStride rowCount (64 * (column / names.length) + r) f'
  | none => 0

/-- Within `2^32` words it is the row of the data. -/
theorem wrappedRow_eq {names : List Name} {getField : Name → Option FieldDescriptor} {block : ℕ}
    (hfit : (rowCount + 63) / 64 * names.length * 64 ≤ 2 ^ 32)
    (hblock : block < (rowCount + 63) / 64) {f : Name} (hf : f ∈ names) (r : ℕ) :
    wrappedRow names getField data rowStride rowCount block r f =
      paddedRow getField data rowStride rowCount (64 * block + r) f := by
  have hlt := List.idxOf_lt_length_of_mem hf
  have hle : (block + 1) * names.length ≤ (rowCount + 63) / 64 * names.length :=
    Nat.mul_le_mul_right _ hblock
  rw [Nat.add_one_mul] at hle
  have hcolumn : (block * names.length + names.idxOf f) % 2 ^ 26 =
      names.length * block + names.idxOf f := by
    rw [Nat.mod_eq_of_lt (by omega), Nat.mul_comm]
  simp only [wrappedRow, hcolumn, Nat.mul_add_mod_self_left, Nat.mod_eq_of_lt hlt, List.getElem?_idxOf hf,
    Nat.mul_add_div (Nat.zero_lt_of_lt hlt), Nat.div_eq_of_lt hlt, Nat.add_zero]

variable (PF data rowStride tempBuf) in
/-- **What the kernel finds in the buffer**, when the schema has no other fields than those
that were packed. -/
theorem packed_readsWrapped {getField : Name → Option FieldDescriptor} {names : List Name}
    (hT : FieldTable getField names fields) (hlen : fields.length = names.length) {g : ℕ → Node}
    {a : ℕ → Annot} {root : ℕ} (hN : Numbered g a root names) {block : ℕ}
    (hblock : block < (rowCount + 63) / 64) :
    ReadsRows g a root names.length (packBlocks PF fields data rowStride rowCount tempBuf) block
      fun r => wrappedRow names getField data rowStride rowCount block r := by
  intro n hn hk
  have hlt := List.idxOf_lt_length_of_mem (hN.name_mem hn hk)
  have hle : (block + 1) * names.length ≤ (rowCount + 63) / 64 * names.length :=
    Nat.mul_le_mul_right _ hblock
  rw [Nat.add_one_mul] at hle
  -- the column that is read, its field and its block
  have hcol : (block * names.length + names.idxOf (g n).fieldName) % 2 ^ 26 <
      (rowCount + 63) / 64 * names.length := (Nat.mod_le _ _).trans_lt (by omega)
  simp only [wrappedRow, hN.idx n hn hk]
  refine Planes.congr ?_ fun i hi => congrArg _ (columnIndex_eq_mod _ _ _ hi)
  generalize (block * names.length + names.idxOf (g n).fieldName) % 2 ^ 26 = column at hcol ⊢
  have hpos := Nat.zero_lt_of_lt hlt
  have hfield : names[column % names.length]? = some (names.get ⟨_, Nat.mod_lt column hpos⟩) :=
    List.getElem?_eq_getElem _
  obtain ⟨d, hd, hfd⟩ := hT _ _ hfield
  have hcolumn := blockColumn_planes PF data rowStride rowCount tempBuf (column / names.length) d
  rw [hfield]
  refine (hcolumn.congr fun i hi => ?_).lanes fun r _ => ?_
  · have hsplit : column * 64 + i =
        column / names.length * fields.length * 64 + column % names.length * 64 + i := by
      conv_lhs => rw [← Nat.div_add_mod column names.length]
      rw [hlen]
      ring
    rw [hsplit, packBlocks_plane ((Nat.div_lt_iff_lt_mul hpos).2 hcol) hfd hi]
  · simp only [paddedRow, recordAt, hd]

/-- **The kernel finds the rows in the buffer** if it has at most `2^32` words. -/
theorem packed_readsRows {getField : Name → Option FieldDescriptor} {names : List Name}
    (hT : FieldTable getField names fields) (hlen : fields.length = names.length) {g : ℕ → Node}
    {a : ℕ → Annot} {root : ℕ} (hN : Numbered g a root names)
    (hfit : (rowCount + 63) / 64 * names.length * 64 ≤ 2 ^ 32) {block : ℕ}
    (hblock : block < (rowCount + 63) / 64) :
    ReadsRows g a root names.length (packBlocks PF fields data rowStride rowCount tempBuf) block
      fun r => paddedRow getField data rowStride rowCount (64 * block + r) :=
  fun n hn hk => (packed_readsWrapped PF data rowStride tempBuf hT hlen hN hblock n hn hk).lanes fun r _ =>
    (wrappedRow_eq hfit hblock (hN.name_mem hn hk) r).symm

end Packed

/-! ### Installing an expression -/

/-- The loop over the operands in `reset_skip_jit`. -/
theorem resetSkipJit_spec {P : NodePool} (hP : Built P) (fuel : ℕ) :
    ∀ n < fuel, ∀ a : ℕ → Annot,
      (∀ x, Reach P.storage n x → (resetSkipJit P.storage fuel n a x).skipJit = false) ∧
      ∀ x, resetSkipJit P.storage fuel n a x = a x ∨
        resetSkipJit P.storage fuel n a x = { a x with skipJit := false } := by
  induction fuel with
  | zero => intro n hn; omega
  | succ fuel ih =>
    intro n hn a
    rw [resetSkipJit]
    have hchildren : ∀ (cs : List ℕ), (∀ c ∈ cs, c ∈ (P.storage n).children) → ∀ a : ℕ → Annot,
        (∀ x, (∃ c ∈ cs, Reach P.storage c x) ∨ (a x).skipJit = false →
          (cs.foldl (fun a c => resetSkipJit P.storage fuel c a) a x).skipJit = false) ∧
        ∀ x, cs.foldl (fun a c => resetSkipJit P.storage fuel c a) a x = a x ∨
          cs.foldl (fun a c => resetSkipJit P.storage fuel c a) a x = { a x with skipJit := false } := by
      intro cs
      induction cs with
      | nil =>
        refine fun _ a => ⟨fun x hx => ?_, fun x => Or.inl rfl⟩
        exact hx.resolve_left fun ⟨c, hc, _⟩ => absurd hc List.not_mem_nil
      | cons c cs ihc =>
        intro hcs a
        have hc := (hP.ordered.2 n c (hcs c (List.mem_cons_self ..))).1
        obtain ⟨h₁, h₂⟩ := ih c (by omega) a
        obtain ⟨h₃, h₄⟩ := ihc (fun x hx => hcs x (List.mem_cons_of_mem _ hx))
          (resetSkipJit P.storage fuel c a)
        rw [List.foldl_cons]
        refine ⟨fun x hx => h₃ x ?_, fun x => ?_⟩
        · rcases hx with ⟨y, hy, hyx⟩ | hx
          · rcases List.mem_cons.1 hy with rfl | hy
            · exact Or.inr (h₁ x hyx)
            · exact Or.inl ⟨y, hy, hyx⟩
          · refine Or.inr ?_
            rcases h₂ x with h | h
            · rw [h]; exact hx
            · rw [h]
        · rcases h₂ x with h | h <;> rcases h₄ x with h' | h' <;> simp [h, h']
    obtain ⟨h₁, h₂⟩ := hchildren (P.storage n).children (fun _ h => h) (setSkip false a n)
    refine ⟨fun x hx => h₁ x ?_, fun x => ?_⟩
    · rcases hx.cases_head with rfl | hx
      · exact Or.inr (by rw [setSkip, setAnnot_self])
      · exact Or.inl hx
    · have hset : setSkip false a n x = a x ∨ setSkip false a n x = { a x with skipJit := false } := by
        by_cases hxn : x = n
        · subst hxn
          exact Or.inr (by rw [setSkip, setAnnot_self])
        · exact Or.inl (by rw [setSkip, setAnnot_ne _ _ hxn])
      rcases hset with h | h <;> rcases h₂ x with h' | h' <;> simp [h, h']

/-- **An expression that was accepted for the GPU**: its compilation succeeded with no node
skipped, the shader was generated from the metadata it left, and both are in the engine. -/
theorem setExpression_gpu {PF : Platform} {P : NodePool} (hP : Built P) {root : ℕ}
    (hroot : root < P.nextIdx) {E₀ E : ApexEngine} {schemaName : Name}
    {fields : List FieldDescriptor} {rowStride : ℕ} {a₀ a : ℕ → Annot}
    (hnew : E₀.registry.schemas schemaName = none) (honly : E₀.exprLogic = [])
    (hreg : ∀ n, Reach P.storage root n → (P.storage n).kind = .LOAD →
      ∃ d ∈ fields, d.name = (P.storage n).fieldName)
    (hset : setExpression PF (E₀.registerSchema schemaName fields rowStride) schemaName P.storage a₀
      (some root) .GPU_THROUGHPUT = .ok (a, E)) (hacc : E.exprLogic ≠ []) :
    ∃ a₁ a₂ L K, (∀ n, Reach P.storage root n → (a₁ n).skipJit = false) ∧
      (∀ n, a₁ n = a₀ n ∨ a₁ n = { a₀ n with skipJit := false }) ∧
      compileExpression PF.rt P.storage a₁ root 64 = (a₂, .ok L.kernel) ∧
      sumMeta P.storage a₂ root = .ok (L.baseSum, L.deltaWeights, L.masksToPopcount) ∧
      generateMslSource P.storage a₂ fields.length root = .ok (a, K) ∧ L.mslSource = some K ∧
      L.mode = .GPU_THROUGHPUT ∧ L.resultKind = (a root).resultKind ∧ L.activeBits = 64 ∧
      (∀ n, Reach P.storage root n → (a₂ n).skipJit = false) ∧
      (fieldOrder P.storage root).length ≤ 128 ∧
      Numbered P.storage a₂ root (fieldOrder P.storage root) ∧
      Installed E L (fun f => fields.find? fun d => d.name = f) rowStride
        (fieldOrder P.storage root) := by
  obtain ⟨a₁, a₂, L, hmark, hcomp, hsum, hmsl, hfs, hmode, hkind, hbits, hL, hmd⟩ :=
    setExpression_logic honly hset hacc
  rw [markMode, Except.ok.injEq] at hmark
  rw [compileMode, if_neg (by decide)] at hcomp
  obtain ⟨hskip, honlySkip⟩ := resetSkipJit_spec hP (NodePool.maxNodes + 1) root
    (by have := hP.ordered.1; omega) a₀
  rw [hmark] at hskip honlySkip
  obtain ⟨nodes, body, hprep, -, -⟩ := Jit.compileExpression_ok hcomp
  have hp := prepare_spec hP hroot hprep
  obtain ⟨hlen, hN⟩ := Numbered.ofPrepared hp
  obtain ⟨htable, hlength⟩ := registered_table hP hroot hN hlen hnew (hN.forall_names hreg) hfs
  have hnum : ((E₀.registerSchema schemaName fields rowStride).schemaMetadata schemaName).elim 0
      (·.fields.length) = fields.length := by simp [registerSchema, Map.assign]
  rw [generateMode, if_pos rfl, hnum] at hmsl
  cases hgen : generateMslSource P.storage a₂ fields.length root with
  | error f => rw [hgen] at hmsl; cases hmsl
  | ok r =>
    obtain ⟨a', K⟩ := r
    rw [hgen, Except.map, Except.ok.injEq, Prod.mk.injEq] at hmsl
    obtain ⟨rfl, hK⟩ := hmsl
    exact ⟨a₁, a₂, L, K, hskip, honlySkip, hcomp, hsum, hgen, hK.symm, hmode, hkind, hbits,
      fun n hn => (hp.skipJit n).trans (hskip n hn), hlen, hN,
      ⟨schemaName, fields, hL, hmd⟩, hN.nodup, hlen, htable, hlength⟩

end Gpu
end AarchGate
