/-
# One chunk of rows

What the gather leaves in the columns: both paths, the generic one and the one
for five leading words, put the value of row `r` into lane `r` of the column of
its field (`fillColumns_lane`); the lanes above the last row hold zeros, except that
the path for five words leaves its columns there as they were (`leftover`).
-/

import AarchGate.BitPlane.Popcount
import AarchGate.Engine.Model

namespace AarchGate
namespace Engine
namespace ApexEngine

open A64 Ir AarchGate.Core Compute BitPlane
open Jit (Columns)

/-! ### Loops -/

theorem mapM_congr {m : Type → Type} [Monad m] [LawfulMonad m] {α β : Type} {f g : α → m β}
    {l : List α} (h : ∀ x ∈ l, f x = g x) : l.mapM f = l.mapM g := by
  induction l with
  | nil => rw [List.mapM_nil, List.mapM_nil]
  | cons x l ih =>
    rw [List.mapM_cons, List.mapM_cons, h x (List.mem_cons_self ..),
      ih fun y hy => h y (List.mem_cons_of_mem _ hy)]

theorem mapM_some {α β : Type} {f : α → Option β} {v : α → β} {l : List α}
    (h : ∀ x ∈ l, f x = some (v x)) : l.mapM f = some (l.map v) :=
  (mapM_congr h).trans List.mapM_pure

/-- A loop that stores `v i` at every `i` of a list. -/
theorem foldl_update_apply {α : Type} (v : ℕ → α) (l : List ℕ) (out : ℕ → α) (j : ℕ) :
    l.foldl (fun out i => Function.update out i (v i)) out j = if j ∈ l then v j else out j := by
  induction l generalizing out with
  | nil => rfl
  | cons i l ih =>
    rw [List.foldl_cons, ih]
    by_cases hj : j ∈ l
    · simp [hj]
    · by_cases hi : j = i
      · simp [hi]
      · simp [hj, hi]

/-- **`gather_field`** stores the rows and zeros above them. -/
theorem gatherField_apply (data : ℕ → BitVec 8) (base : ℕ) (field : FieldDescriptor)
    (rowStride rowCount : ℕ) (out : ColumnBuffer) {j : ℕ} (hj : j < 64) :
    gatherField data base field rowStride rowCount out j =
      if j < rowCount then load64 data (base + j * rowStride + field.offset) else 0 := by
  set v := fun i => load64 data (base + i * rowStride + field.offset) with hv
  -- the loop of four rows at a time
  have hquads : ∀ q (out : ColumnBuffer), (List.range q).foldl (fun out q =>
      Function.update (Function.update (Function.update (Function.update out (4 * q) (v (4 * q)))
        (4 * q + 1) (v (4 * q + 1))) (4 * q + 2) (v (4 * q + 2))) (4 * q + 3) (v (4 * q + 3))) out j =
        if j < 4 * q then v j else out j := by
    intro q out
    induction q with
    | zero => simp
    | succ q ih =>
      rw [List.range_succ, List.foldl_append, List.foldl_cons, List.foldl_nil]
      simp only [Function.update_apply, ih]
      split_ifs <;> first | omega | simp_all
  unfold gatherField
  simp only
  rw [foldl_update_apply (fun _ => 0), foldl_update_apply v, hquads]
  simp only [List.mem_range'_1]
  by_cases h : j < rowCount
  · rw [if_pos h, if_neg (by omega)]
    by_cases h4 : j < 4 * (min rowCount 64 / 4)
    · rw [if_neg (by omega), if_pos h4]
    · rw [if_pos (by omega)]
  · rw [if_neg h, if_pos (by omega)]

section Fill

variable (PF : Platform) (L : ExprCompiledLogic) (data : ℕ → BitVec 8)
  (base rowStride rowCount : ℕ)

/-- The rows of field `d` are in the first lanes of the column. -/
def Gathered (d : FieldDescriptor) (col : ColumnBuffer) : Prop :=
  ∀ r < rowCount, col r = load64 data (base + r * rowStride + d.offset)

/-- What is in column `i` above the rows, if the buffers held `bufs`. -/
def leftover (bufs : ℕ → ColumnBuffer) (i r : ℕ) : Word :=
  if useSimd5 L = true ∧ i < 5 then bufs i r else 0

/-- The loop over the fields, from field `i` on, fills their buffers and no others. -/
theorem foldl_fillField {k : ℕ} (hrows : rowCount ≤ 64) :
    ∀ (n i : ℕ) (bufs : ℕ → ColumnBuffer), i + n = k →
      (∀ j, j < i ∨ k ≤ j → (List.range' i n).foldl (fillField PF L data base rowStride rowCount)
        bufs j = bufs j) ∧
      ∀ j d, i ≤ j → j < k → L.fields[j]? = some (some d) →
        ∃ col, (List.range' i n).foldl (fillField PF L data base rowStride rowCount) bufs j =
          sliceColumn PF L col ∧ Gathered data base rowStride rowCount d col ∧
            ∀ r < 64, rowCount ≤ r → col r = 0 := by
  intro n
  induction n with
  | zero => exact fun i bufs hi => ⟨fun _ _ => rfl, fun j d h1 h2 => by omega⟩
  | succ n ih =>
    intro i bufs hi
    rw [List.range'_succ, List.foldl_cons]
    obtain ⟨hframe, hfill⟩ := ih (i + 1) (fillField PF L data base rowStride rowCount bufs i) (by omega)
    have hself : ∀ d, L.fields[i]? = some (some d) →
        fillField PF L data base rowStride rowCount bufs i i =
          sliceColumn PF L (gatherField data base d rowStride rowCount (bufs i)) := by
      intro d hd
      rw [fillField, hd]
      exact Function.update_self ..
    have hother : ∀ j, j ≠ i → fillField PF L data base rowStride rowCount bufs i j = bufs j := by
      intro j hj
      cases hf : L.fields[i]? with
      | none => simp only [fillField, hf]
      | some o =>
        cases o with
        | none => simp only [fillField, hf]
        | some d => simp only [fillField, hf, Function.update_of_ne hj]
    refine ⟨fun j hj => ?_, fun j d h1 h2 hd => ?_⟩
    · rw [hframe j (by omega), hother j (by omega)]
    · rcases Nat.lt_or_ge i j with hij | hij
      · exact hfill j d hij h2 hd
      · obtain rfl : i = j := by omega
        refine ⟨_, (hframe i (by omega)).trans (hself d hd), fun r hr => ?_, fun r hr hrow => ?_⟩
        · rw [gatherField_apply _ _ _ _ _ _ (by omega), if_pos hr]
        · rw [gatherField_apply _ _ _ _ _ _ hr, if_neg (by omega)]

/-- The vector loop stores the rows of the first five words. -/
theorem foldl_simdRow (n : ℕ) (bufs : ℕ → ColumnBuffer) {i : ℕ} (hi : i < 5) (r : ℕ) :
    (List.range n).foldl (simdRow data base rowStride) bufs i r =
      if r < n then load64 data (base + r * rowStride + 8 * i) else bufs i r := by
  induction n with
  | zero => rfl
  | succ n ih =>
    rw [List.range_succ, List.foldl_append, List.foldl_cons, List.foldl_nil, simdRow, if_pos hi,
      Function.update_apply, ih]
    by_cases h : r = n
    · rw [if_pos h, if_pos (by omega), h]
    · rw [if_neg h]
      exact if_congr (by omega) rfl rfl

/-- In the fast path field `i < 5` lies at byte `8 * i`. -/
theorem useSimd5_offset (h : useSimd5 L = true) {i : ℕ} (hi : i < 5) {d : FieldDescriptor}
    (hd : L.fields[i]? = some (some d)) : d.offset = 8 * i := by
  rw [useSimd5, decide_eq_true_eq] at h
  have hget : ((L.fields.take 5).map (Option.map (·.offset)))[i]? = some (some d.offset) := by
    rw [List.getElem?_map, List.getElem?_take_of_lt hi, hd]
    rfl
  rw [h] at hget
  interval_cases i <;> simpa using hget.symm

/-- The first five buffers are sliced. -/
theorem foldl_sliceColumn (bufs : ℕ → ColumnBuffer) {i : ℕ} (hi : i < 5) :
    (List.range 5).foldl (fun bufs i => Function.update bufs i (sliceColumn PF L (bufs i))) bufs i =
      sliceColumn PF L (bufs i) := by
  interval_cases i <;> simp [List.range_succ]

/-- In the fast path there are five fields. -/
theorem useSimd5_length (h : useSimd5 L = true) : 5 ≤ L.fields.length := by
  rw [useSimd5, decide_eq_true_eq] at h
  have := congrArg List.length h
  simp at this
  omega

/-- **The gather fills the columns**: in each column the lanes of the rows hold the
values of the field, and those above them what is left over. -/
theorem fillColumns_lane (hrows : rowCount ≤ 64) (bufs : ℕ → ColumnBuffer) {i : ℕ} (hi : i < 128)
    {d : FieldDescriptor} (hd : L.fields[i]? = some (some d)) :
    ∃ col, fillColumns PF L data base rowStride rowCount bufs i = sliceColumn PF L col ∧
      Gathered data base rowStride rowCount d col ∧
      ∀ r < 64, rowCount ≤ r → col r = leftover L bufs i r := by
  have hlen : i < L.fields.length := by
    obtain ⟨h, -⟩ := List.getElem?_eq_some_iff.1 hd
    exact h
  unfold fillColumns
  simp only
  split_ifs with hs
  · generalize hb₁ : (List.range rowCount).foldl (simdRow data base rowStride) bufs = bufs₁
    generalize hb₂ : (List.range 5).foldl
      (fun bufs i => Function.update bufs i (sliceColumn PF L (bufs i))) bufs₁ = bufs₂
    have hlen5 := useSimd5_length L hs
    obtain ⟨hframe, hfill⟩ := foldl_fillField PF L data base rowStride rowCount hrows
      (min L.fields.length 128 - 5) 5 bufs₂ rfl
    rcases Nat.lt_or_ge i 5 with h5 | h5
    · refine ⟨bufs₁ i, ?_, fun r hr => ?_, fun r _ hrow => ?_⟩
      · rw [hframe i (Or.inl h5), ← hb₂, foldl_sliceColumn PF L bufs₁ h5]
      · rw [← hb₁, foldl_simdRow data base rowStride _ _ h5, if_pos hr, useSimd5_offset L hs h5 hd]
      · rw [← hb₁, foldl_simdRow data base rowStride _ _ h5, if_neg (by omega), leftover,
          if_pos ⟨hs, h5⟩]
    · obtain ⟨col, hcol, hgath, hzero⟩ := hfill i d h5 (by omega) hd
      refine ⟨col, hcol, hgath, fun r hr hrow => ?_⟩
      rw [hzero r hr hrow, leftover, if_neg (by omega)]
  · obtain ⟨-, hfill⟩ := foldl_fillField PF L data base rowStride rowCount hrows
      (min L.fields.length 128) 0 bufs rfl
    rw [← List.range_eq_range'] at hfill
    obtain ⟨col, hcol, hgath, hzero⟩ := hfill i d (Nat.zero_le _) (by omega) hd
    refine ⟨col, hcol, hgath, fun r hr hrow => ?_⟩
    rw [hzero r hr hrow, leftover, if_neg fun h => hs h.1]

end Fill

/-! ### Adding up a chunk -/

/-- `rows_mask` selects the rows of the chunk. -/
theorem rowsMask_below {rows : ℕ} (h : rows ≤ 64) : Below (rowsMask rows) rows := by
  intro r hr
  unfold rowsMask
  split_ifs with h64
  · rw [BitVec.getLsbD_not]
    simp [hr, h64]
  · have hlt : (2 : ℕ) ^ rows < 2 ^ 64 := Nat.pow_lt_pow_right (by decide) (by omega)
    have hpos := Nat.two_pow_pos rows
    have hone : ((1 : Word) <<< rows).toNat = 2 ^ rows := by
      rw [BitVec.toNat_shiftLeft, Nat.shiftLeft_eq]
      exact (Nat.mod_eq_of_lt (by simpa using hlt)).trans (by simp)
    have hnat : ((1 : Word) <<< rows - 1).toNat = 2 ^ rows - 1 := by
      rw [BitVec.toNat_sub, hone]
      show (2 ^ 64 - 1 + 2 ^ rows) % 2 ^ 64 = _
      rw [show 2 ^ 64 - 1 + 2 ^ rows = 2 ^ rows - 1 + 2 ^ 64 by omega, Nat.add_mod_right,
        Nat.mod_eq_of_lt (by omega)]
    rw [BitVec.getLsbD, hnat, Nat.testBit_two_pow_sub_one]

/-- A boolean root: the rows on which the mask holds. -/
theorem chunkTotal_mask {L : ExprCompiledLogic} (hL : L.resultKind = .BITMASK) {rows : ℕ}
    (hrows : rows ≤ 64) {result : Word} {p : ℕ → Bool} (h : Mask result p) (scratchpad : ℕ → Word) :
    chunkTotal L rows result scratchpad = some (∑ r ∈ Finset.range rows, bit (p r)) := by
  rw [chunkTotal, if_pos hL, h.cpop_and (rowsMask_below hrows) hrows]

/-- An arithmetic root: the sum of the values in the first 64 words. -/
theorem chunkTotal_planes {L : ExprCompiledLogic} (hL : L.resultKind = .BITPLANE)
    (hw : L.deltaWeights = []) {rows : ℕ} (hrows : rows ≤ 64) (result : Word)
    {scratchpad : ℕ → Word} {v : ℕ → Word} (h : Planes scratchpad v) :
    chunkTotal L rows result scratchpad = some (∑ r ∈ Finset.range rows, v r) := by
  have hne : L.resultKind ≠ .BITMASK := by rw [hL]; decide
  rw [chunkTotal, if_neg hne, if_neg (by simp [hw]), ← h.sum_cpop (rowsMask_below hrows) hrows]
  rfl

/-! ### The loop over the chunks -/

/-- The rows up to the next chunk. -/
theorem sum_next_chunk (v : ℕ → Word) {rowCount c : ℕ} (hc : c * 64 < rowCount) :
    ∑ r ∈ Finset.range (min rowCount ((c + 1) * 64)), v r =
      ∑ r ∈ Finset.range (min rowCount (c * 64)), v r +
        ∑ r ∈ Finset.range (min 64 (rowCount - c * 64)), v (c * 64 + r) := by
  rw [show min rowCount (c * 64) = c * 64 by omega, ← Finset.sum_range_add]
  congr 2
  omega

/-- **The chunks add up**: if every chunk adds the values of its rows, the total is
the sum over all rows. -/
theorem executeChunks_total {PF : Platform} {L : ExprCompiledLogic} {data : ℕ → BitVec 8}
    {rowStride rowCount : ℕ} {v : ℕ → Word}
    (hchunk : ∀ chunk bufs, chunk * 64 < rowCount → ∃ result scratchpad bufs',
      processChunkExpr PF L data (chunk * 64 * rowStride) rowStride (min 64 (rowCount - chunk * 64))
        (fun _ => 0) bufs = some (result, scratchpad, bufs') ∧
      chunkTotal L (min 64 (rowCount - chunk * 64)) result scratchpad =
        some (∑ r ∈ Finset.range (min 64 (rowCount - chunk * 64)), v (chunk * 64 + r)))
    (bufs : ℕ → ColumnBuffer) :
    ∃ bufs', executeChunks PF L data rowStride rowCount (List.range ((rowCount + 63) / 64)) 0 bufs =
      some (∑ r ∈ Finset.range rowCount, v r, bufs') := by
  have hrun : ∀ n c bufs, c + n = (rowCount + 63) / 64 → ∃ bufs',
      executeChunks PF L data rowStride rowCount (List.range' c n)
        (∑ r ∈ Finset.range (min rowCount (c * 64)), v r) bufs =
          some (∑ r ∈ Finset.range rowCount, v r, bufs') := by
    intro n
    induction n with
    | zero =>
      intro c bufs hc
      exact ⟨bufs, by rw [Nat.min_eq_left (by omega)]; rfl⟩
    | succ n ih =>
      intro c bufs hc
      obtain ⟨result, scratchpad, bufs', hproc, htot⟩ := hchunk c bufs (by omega)
      obtain ⟨bufs'', hrest⟩ := ih (c + 1) bufs' (by omega)
      refine ⟨bufs'', ?_⟩
      rw [sum_next_chunk v (by omega)] at hrest
      rw [List.range'_succ, executeChunks, chunkLoop]
      simp only [hproc, takeTotal, htot, Option.bind_eq_bind, Option.bind_some, Option.map_some]
      exact hrest
  obtain ⟨bufs', h⟩ := hrun ((rowCount + 63) / 64) 0 bufs (by omega)
  refine ⟨bufs', ?_⟩
  rw [← List.range_eq_range'] at h
  simpa using h

end ApexEngine
end Engine
end AarchGate
