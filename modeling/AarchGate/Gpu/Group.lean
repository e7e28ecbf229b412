/-
# A threadgroup of the GPU

The meaning of the kernel `generate_msl_source` writes (`src/api/engine.cpp`) on one
block: 64 threads in two SIMD groups of 32, thread `i` holding plane `i` of every
node in its own scratchpad.  The threads go through the statements of a node
together, so that everything before a barrier is done before anything behind it.

* `simd_shuffle_up` by `d` gives lane `j ≥ d` the value of lane `j - d` of its SIMD
  group, `simd_shuffle_down` by `d` gives lane `j` that of lane `j + d` if there is one.
  What they give the other lanes is left open (`Simd`).
* `shared_A`, `shared_B` and `shared_carry` are not initialised; the scratchpads are.
* `block_idx` and `bit_idx` are `uint`s, so the index into `columns` is computed modulo
  `2^32`.
* A slot outside the scratchpad is undefined behaviour.

The file ends with what the parts of the kernel compute: the shuffles move whole words
(`shuffleUp64_eq`), `kogge_stone_scan` is the scan of the carries of each SIMD group
(`koggeStoneScan_eq`), the loops over the planes are the comparator, and the reduction
adds up the 64 threads (`blockSum_eq`).
-/

import AarchGate.BitPlane.Carry
import AarchGate.Gpu.Msl
import Mathlib.Data.BitVec

namespace AarchGate
namespace Gpu

open A64 Ir BitPlane

/-- The shuffles of a SIMD group of 32 lanes. -/
structure Simd where
  shuffleUp : ℕ → (ℕ → BitVec 32) → ℕ → BitVec 32
  shuffleDown : ℕ → (ℕ → BitVec 32) → ℕ → BitVec 32
  up_eq : ∀ d v j, d ≤ j → j < 32 → shuffleUp d v j = v (j - d)
  down_eq : ∀ d v j, j + d < 32 → shuffleDown d v j = v (j + d)

/-- Lanes without a partner keep their value. -/
def Simd.standard : Simd where
  shuffleUp d v j := if d ≤ j then v (j - d) else v j
  shuffleDown d v j := if j + d < 32 then v (j + d) else v j
  up_eq _ _ _ hj _ := if_pos hj
  down_eq _ _ _ hj := if_pos hj

/-- `simdgroup_index_in_threadgroup`. -/
def simdId (i : ℕ) : ℕ := i / 32

/-- `thread_index_in_simdgroup`. -/
def laneId (i : ℕ) : ℕ := i % 32

section Helpers

variable (S : Simd)

/-- The two halves of a word, moved by a shuffle. -/
def shuffle64 (shuffle : ℕ → (ℕ → BitVec 32) → ℕ → BitVec 32) (val : ℕ → Word) (delta i : ℕ) :
    Word :=
  let lane := fun j => val (32 * simdId i + j)
  shuffle delta (fun j => (lane j).extractLsb' 32 32) (laneId i) ++
    shuffle delta (fun j => (lane j).extractLsb' 0 32) (laneId i)

/-- `shuffle_up_64`, in every thread. -/
def shuffleUp64 (val : ℕ → Word) (delta i : ℕ) : Word := shuffle64 S.shuffleUp val delta i

/-- `shuffle_down_64`, in every thread. -/
def shuffleDown64 (val : ℕ → Word) (delta i : ℕ) : Word := shuffle64 S.shuffleDown val delta i

/-- The part of `kogge_stone_scan` for one distance. -/
def scanStep (cur : (ℕ → Word) × (ℕ → Word)) (delta : ℕ) : (ℕ → Word) × (ℕ → Word) :=
  let gPrev := shuffleUp64 S cur.1 delta
  let pPrev := shuffleUp64 S cur.2 delta
  (fun i => if delta ≤ laneId i then cur.1 i ||| (cur.2 i &&& gPrev i) else cur.1 i,
    fun i => if delta ≤ laneId i then cur.2 i &&& pPrev i else cur.2 i)

/-- `kogge_stone_scan`: `cur_g` and `cur_p` of every thread. -/
def koggeStoneScan (g p : ℕ → Word) : (ℕ → Word) × (ℕ → Word) :=
  [1, 2, 4, 8, 16].foldl (scanStep S) (g, p)

/-- The loop of a comparison, over the planes from 63 down: the mask and `mask_eq`. -/
def maskLoop (hit : Word → Word → Word → Word) (A B : ℕ → Word) : Word × Word :=
  (List.range 64).foldl (fun m k =>
    let a := A (63 - k)
    let b := B (63 - k)
    (m.1 ||| hit m.2 a b, m.2 &&& ~~~(a ^^^ b))) (0, ~~~0)

/-- The result of a comparison. -/
def compareMask (op : Cmp) (A B : ℕ → Word) : Word :=
  let gt := maskLoop (fun eq a b => eq &&& a &&& ~~~b) A B
  let lt := maskLoop (fun eq a b => eq &&& ~~~a &&& b) A B
  match op with
  | .gt => gt.1
  | .ge => gt.1 ||| gt.2
  | .lt => lt.1
  | .le => lt.1 ||| lt.2
  | .eq => (List.range 64).foldl (fun eq k => eq &&& ~~~(A (63 - k) ^^^ B (63 - k))) (~~~0)

end Helpers

/-- The memory of a threadgroup: the scratchpad of every thread, and what they share. -/
structure Group where
  scratchpad : ℕ → ℤ → Word
  sharedA : ℕ → Word
  sharedB : ℕ → Word
  sharedCarry : Word

/-- Thread `i` writes `w i` to its slot `dst`. -/
def Group.setAll (G : Group) (dst : ℤ) (w : ℕ → Word) : Group :=
  { G with scratchpad := fun i => Function.update (G.scratchpad i) dst (w i) }

/-- The index into `columns` of thread `bit` of block `block`. -/
def columnIndex (numFields : ℕ) (fieldIdx : ℤ) (block bit : ℕ) : ℕ :=
  ((block * numFields * 64 + fieldIdx * 64 + bit : ℤ) % 2 ^ 32).toNat

section Run

variable (S : Simd) (columns : ℕ → Word) (block : ℕ)

/-- `ADD` and `SUB` behind their `g` and `p`: the scan, the carry from the first SIMD
group to the second, and the sum of `x`, `y` and the carries.  `low` is the carry
into plane 0. -/
def addCarries (G : Group) (dst : ℤ) (g p x y : ℕ → Word) (low : Word) : Group :=
  let cur := koggeStoneScan S g p
  let G₁ := { G with sharedCarry := cur.1 31 }
  let curG := fun i =>
    if simdId i = 1 then cur.1 i ||| (G₁.sharedCarry &&& cur.2 i) else cur.1 i
  let carryIn := fun i =>
    if laneId i = 0 then if simdId i = 0 then low else G₁.sharedCarry else shuffleUp64 S curG 1 i
  G₁.setAll dst fun i => x i ^^^ y i ^^^ carryIn i

/-- What the threads do in the text of one node. -/
def Stmt.exec (G : Group) : Stmt → Group
  | load dst numFields fieldIdx =>
      G.setAll dst fun i => columns (columnIndex numFields fieldIdx block i)
  | const dst value =>
      G.setAll dst fun i => if (value >>> i) &&& 1 ≠ 0 then 0xFFFFFFFFFFFFFFFF else 0
  | and dst l r => G.setAll dst fun i => G.scratchpad i l &&& G.scratchpad i r
  | or dst l r => G.setAll dst fun i => G.scratchpad i l ||| G.scratchpad i r
  | not dst l => G.setAll dst fun i => ~~~G.scratchpad i l
  | select dst c l r => G.setAll dst fun i =>
      (G.scratchpad i c &&& G.scratchpad i l) ||| (~~~G.scratchpad i c &&& G.scratchpad i r)
  | compare op dst l r =>
      let G₁ := { G with sharedA := fun i => G.scratchpad i l, sharedB := fun i => G.scratchpad i r }
      G₁.setAll dst fun _ => compareMask op G₁.sharedA G₁.sharedB
  | add dst l r =>
      let x := fun i => G.scratchpad i l
      let y := fun i => G.scratchpad i r
      addCarries S G dst (fun i => x i &&& y i) (fun i => x i ^^^ y i) x y 0
  | sub dst l r =>
      let x := fun i => G.scratchpad i l
      let y := fun i => ~~~G.scratchpad i r
      let p := fun i => x i ^^^ y i
      addCarries S G dst
        (fun i => if laneId i = 0 ∧ simdId i = 0 then (x i &&& y i) ||| p i else x i &&& y i) p x y 1

/-- A statement, in a scratchpad of `size` slots. -/
def Stmt.run (size : ℕ) (s : Stmt) (G : Group) : Option Group :=
  if ∀ slot ∈ s.slots, 0 ≤ slot ∧ slot < size then some (s.exec S columns block G) else none

/-- The statements of a kernel, one after the other. -/
def runStmts (size : ℕ) : List Stmt → Group → Option Group
  | [], G => some G
  | s :: ss, G => (s.run S columns block size G).bind (runStmts size ss)

/-- The statements of the kernel, from scratchpads of zeros. -/
def MslSource.runBody (K : MslSource) (G : Group) : Option Group :=
  runStmts S columns block K.scratchpadSize K.body { G with scratchpad := fun _ _ => 0 }

/-- `row_sum` of thread `i`. -/
def rowSum (pad : ℤ → Word) (i : ℕ) (base : Word) (leaves : List (ℤ × Word)) : Word :=
  leaves.foldl (fun sum l => if (pad l.1 >>> i) &&& 1 ≠ 0 then sum + l.2 else sum) base

/-- `local_sum += shuffle_down_64(local_sum, delta)`. -/
def reduceStep (localSum : ℕ → Word) (delta i : ℕ) : Word :=
  localSum i + shuffleDown64 S localSum delta i

/-- The two stages of the reduction: `block_sum`. -/
def blockSum (rows : ℕ → Word) : Word :=
  let localSum := [16, 8, 4, 2, 1].foldl (reduceStep S) rows
  localSum 0 + localSum 32

/-- **The kernel on one block**: what it writes to `output_masks[block_idx]`. -/
def MslSource.run (K : MslSource) (G : Group) : Option Word :=
  (K.runBody S columns block G).bind fun G' =>
    if ∀ l ∈ K.leaves, 0 ≤ l.1 ∧ l.1 < K.scratchpadSize then
      some (blockSum S fun i => rowSum (G'.scratchpad i) i K.baseSum K.leaves)
    else none

end Run

/-! ### The shuffles -/

section Lemmas

variable (S : Simd)

/-- A lane of 32. -/
theorem laneId_lt (i : ℕ) : laneId i < 32 := Nat.mod_lt _ (by decide)

/-- A thread is group and lane. -/
theorem thread_eq (i : ℕ) : 32 * simdId i + laneId i = i := Nat.div_add_mod i 32

/-- A word is its halves. -/
theorem extract_append (w : Word) : w.extractLsb' 32 32 ++ w.extractLsb' 0 32 = w := by
  ext b hb
  rw [BitVec.getElem_append]
  by_cases h : b < 32
  · simp [h, BitVec.getLsbD_eq_getElem hb]
  · simp [h, show 32 + (b - 32) = b by omega, BitVec.getLsbD_eq_getElem hb]

/-- A lane with a partner gets its whole word. -/
theorem shuffleUp64_eq (val : ℕ → Word) {delta i : ℕ} (h : delta ≤ laneId i) :
    shuffleUp64 S val delta i = val (32 * simdId i + (laneId i - delta)) := by
  rw [shuffleUp64, shuffle64]
  simp only [S.up_eq _ _ _ h (laneId_lt i), extract_append]

/-- The lane further down. -/
theorem shuffleDown64_eq (val : ℕ → Word) {delta i : ℕ} (h : laneId i + delta < 32) :
    shuffleDown64 S val delta i = val (i + delta) := by
  rw [shuffleDown64, shuffle64]
  simp only [S.down_eq _ _ _ h, extract_append]
  rw [← Nat.add_assoc, thread_eq]

/-! ### The scan -/

/-- The carries of the lanes of SIMD group `m`. -/
def groupCarry (g p : ℕ → Word) (m j : ℕ) : Carry 64 := ⟨g (32 * m + j), p (32 * m + j)⟩

/-- The threads hold `v`, lane by lane. -/
def HoldsLanes (cur : (ℕ → Word) × (ℕ → Word)) (v : ℕ → ℕ → Carry 64) : Prop :=
  ∀ i, (⟨cur.1 i, cur.2 i⟩ : Carry 64) = v (simdId i) (laneId i)

/-- A step of the scan. -/
theorem HoldsLanes.scanStep {cur : (ℕ → Word) × (ℕ → Word)} {v : ℕ → ℕ → Carry 64}
    (h : HoldsLanes cur v) (delta : ℕ) :
    HoldsLanes (scanStep S cur delta) fun m => Scan.step delta (v m) := by
  intro i
  simp only [Gpu.scanStep, Scan.step]
  by_cases hd : delta ≤ laneId i
  · -- the partner is the lane `delta` below, in the same SIMD group
    have hlt : laneId i - delta < 32 := Nat.lt_of_le_of_lt (Nat.sub_le ..) (laneId_lt i)
    have hprev := h (32 * simdId i + (laneId i - delta))
    rw [show simdId (32 * simdId i + (laneId i - delta)) = simdId i by
        rw [simdId, Nat.mul_add_div (by decide), Nat.div_eq_of_lt hlt, Nat.add_zero],
      show laneId (32 * simdId i + (laneId i - delta)) = laneId i - delta by
        rw [laneId, Nat.mul_add_mod, Nat.mod_eq_of_lt hlt]] at hprev
    simp only [if_pos hd, shuffleUp64_eq S _ hd, ← h i, ← hprev, Carry.mul_def]
  · simp only [if_neg hd, h i]

/-- **`kogge_stone_scan`** leaves in every lane the carries of all lanes up to it. -/
theorem koggeStoneScan_eq (g p : ℕ → Word) (i : ℕ) :
    (⟨(koggeStoneScan S g p).1 i, (koggeStoneScan S g p).2 i⟩ : Carry 64) =
      Scan.span (groupCarry g p (simdId i)) 0 (laneId i + 1) := by
  have h₀ : HoldsLanes (g, p) (groupCarry g p) := fun i => by rw [groupCarry, thread_eq]
  have h := ((((h₀.scanStep S 1).scanStep S 2).scanStep S 4).scanStep S 8).scanStep S 16
  rw [← Scan.scan_eq_span (k := 5) (groupCarry g p (simdId i)) (laneId_lt i)]
  exact h i

/-- The carries of the threads. -/
def threadCarry (g p : ℕ → Word) (i : ℕ) : Carry 64 := ⟨g i, p i⟩

/-- **The carry between the SIMD groups** makes the two scans one: every thread has the
carry that all threads up to it generate. -/
theorem stitched_eq (g p : ℕ → Word) {i : ℕ} (hi : i < 64) :
    (if simdId i = 1 then (koggeStoneScan S g p).1 i |||
        ((koggeStoneScan S g p).1 31 &&& (koggeStoneScan S g p).2 i)
      else (koggeStoneScan S g p).1 i) = Scan.span (threadCarry g p) 0 (i + 1) • (0 : Word) := by
  have hcur := koggeStoneScan_eq S g p
  -- the lanes of the first SIMD group
  have hlow : ∀ j < 32, (koggeStoneScan S g p).1 j = Scan.span (threadCarry g p) 0 (j + 1) • (0 : Word) := by
    intro j hj
    have h := hcur j
    rw [simdId, laneId, Nat.div_eq_of_lt hj, Nat.mod_eq_of_lt hj] at h
    rw [Carry.smul_zero_eq, ← show groupCarry g p 0 = threadCarry g p by
      funext k; simp [groupCarry, threadCarry], ← h]
  by_cases hm : simdId i = 1
  · have h := hcur i
    have hi' : 32 + (laneId i + 1) = i + 1 := by
      have := thread_eq i
      omega
    rw [hm, show groupCarry g p 1 = fun k => threadCarry g p (32 + k) from rfl, Scan.span_shift] at h
    rw [if_pos hm, hlow 31 (by decide), ← hi', Scan.span_add _ 0 32, mul_smul, Nat.zero_add, ← h]
    exact congrArg _ (BitVec.and_comm ..)
  · rw [if_neg hm]
    refine hlow i ?_
    rw [simdId] at hm
    omega

/-- **Addition over the two SIMD groups**, when the first thread generates the carry into
plane 1. -/
theorem addCarries_eq (G : Group) (dst : ℤ) {g p x y : ℕ → Word} {c low : Word}
    (h0 : g 0 = carryInto x y c 1)
    (h : ∀ i, 0 < i → i < 64 → g i = x i &&& y i ∧ p i = x i ^^^ y i) {i : ℕ} (hi : i < 64) :
    (addCarries S G dst g p x y low).scratchpad i dst =
      x i ^^^ y i ^^^ if i = 0 then low else carryInto x y c i := by
  have hspan : ∀ k < 64, Scan.span (threadCarry g p) 0 (k + 1) • (0 : Word) = carryInto x y c (k + 1) :=
    fun k hk => span_smul_zero h0 fun b hb hbk => by
      obtain ⟨hg, hp⟩ := h b hb (by omega)
      rw [threadCarry, planeCarry, hg, hp]
  have hlane := thread_eq i
  simp only [addCarries, Group.setAll, Function.update_self]
  refine congrArg (x i ^^^ y i ^^^ ·) ?_
  by_cases hl : laneId i = 0
  · rw [if_pos hl]
    by_cases hm : simdId i = 0
    · rw [if_pos hm, if_pos (by omega)]
    · -- thread 32: the carry comes from thread 31
      have hi32 : i = 32 := by
        rw [simdId] at hm
        rw [laneId] at hl
        omega
      have h31 := stitched_eq S g p (show 31 < 64 by decide)
      rw [if_neg (by decide), hspan 31 (by decide)] at h31
      rw [if_neg hm, if_neg (by omega), h31, hi32]
  · have hi0 : i ≠ 0 := by
      rintro rfl
      exact hl rfl
    rw [if_neg hl, if_neg hi0, shuffleUp64_eq S _ (by omega),
      show 32 * simdId i + (laneId i - 1) = i - 1 by omega, stitched_eq S g p (by omega),
      hspan _ (by omega), Nat.sub_add_cancel (by omega)]

/-! ### The comparator -/

theorem maskLoop_gt (A B : ℕ → Word) :
    maskLoop (fun eq a b => eq &&& a &&& ~~~b) A B =
      compareUpTo A B 64 0 (BitVec.allOnes 64) 64 := by
  have h : ∀ k, (List.range k).foldl (fun (m : Word × Word) k =>
      (m.1 ||| (m.2 &&& A (63 - k) &&& ~~~B (63 - k)), m.2 &&& ~~~(A (63 - k) ^^^ B (63 - k))))
      (0, ~~~0) = compareUpTo A B 64 0 (BitVec.allOnes 64) k := by
    intro k
    induction k with
    | zero => rfl
    | succ k ih =>
      rw [List.range_succ, List.foldl_append, ih, List.foldl_cons, List.foldl_nil, compareUpTo,
        BitVec.and_assoc, BitVec.and_comm (compareUpTo A B 64 0 (BitVec.allOnes 64) k).2 (_ &&& _)]
  exact h 64

theorem maskLoop_lt (A B : ℕ → Word) :
    maskLoop (fun eq a b => eq &&& ~~~a &&& b) A B =
      maskLoop (fun eq a b => eq &&& a &&& ~~~b) B A := by
  unfold maskLoop
  congr 1
  funext m k
  simp only [BitVec.and_assoc, BitVec.and_comm (~~~A (63 - k)), BitVec.xor_comm (A (63 - k))]

theorem foldl_snd (hit : Word → Word → Word → Word) (A B : ℕ → Word) :
    (List.range 64).foldl (fun eq k => eq &&& ~~~(A (63 - k) ^^^ B (63 - k))) (~~~0) =
      (maskLoop hit A B).2 := by
  have h : ∀ (l : List ℕ) (m : Word × Word),
      l.foldl (fun eq k => eq &&& ~~~(A (63 - k) ^^^ B (63 - k))) m.2 =
        (l.foldl (fun m k => (m.1 ||| hit m.2 (A (63 - k)) (B (63 - k)),
          m.2 &&& ~~~(A (63 - k) ^^^ B (63 - k)))) m).2 := by
    intro l
    induction l with
    | nil => exact fun _ => rfl
    | cons k l ih => exact fun m => ih (_, _)
  exact h _ (0, ~~~0)

/-- **The comparisons** decide their relation in every row. -/
theorem compareMask_holds (op : Cmp) {A B : ℕ → Word} {a b : ℕ → Word} (hA : Planes A a)
    (hB : Planes B b) : Mask (compareMask op A B) fun r => op.holds (a r) (b r) := by
  have hgt := compareUpTo_gt hA hB
  have heq := compareUpTo_eq hA hB
  have hlt := compareUpTo_gt hB hA
  have heq' := compareUpTo_eq hB hA
  rw [← maskLoop_gt] at hgt heq
  rw [← maskLoop_gt, ← maskLoop_lt] at hlt heq'
  cases op with
  | gt => exact hgt
  | lt => exact hlt
  | eq => rw [compareMask, foldl_snd]; exact heq
  | ge =>
    refine (hgt.or heq).congr fun r _ => ?_
    rw [Cmp.holds, decide_le_eq_or, decide_eq_decide.2 (eq_comm (a := b r))]
  | le =>
    refine (hlt.or heq').congr fun r _ => ?_
    rw [Cmp.holds, decide_le_eq_or, decide_eq_decide.2 (eq_comm (a := a r))]

/-! ### The reduction -/

/-- One shuffle of the first stage folds a SIMD group in two. -/
theorem sum_reduceStep (v : ℕ → Word) (m d : ℕ) (hd : d + d ≤ 32) :
    ∑ j ∈ Finset.range d, reduceStep S v d (32 * m + j) =
      ∑ j ∈ Finset.range (d + d), v (32 * m + j) := by
  refine Scan.sum_fold (v := fun j => v (32 * m + j)) fun j hj => ?_
  rw [reduceStep,
    shuffleDown64_eq S v (by rw [laneId, Nat.mul_add_mod, Nat.mod_eq_of_lt (by omega)]; omega),
    Nat.add_assoc]

/-- **The reduction adds up the 64 threads.** -/
theorem blockSum_eq (rows : ℕ → Word) : blockSum S rows = ∑ i ∈ Finset.range 64, rows i := by
  -- lane 0 of a SIMD group ends with the sum of its 32 lanes
  have hgroup : ∀ m, [16, 8, 4, 2, 1].foldl (reduceStep S) rows (32 * m + 0) =
      ∑ j ∈ Finset.range 32, rows (32 * m + j) := by
    intro m
    rw [← Finset.sum_range_one fun j => [16, 8, 4, 2, 1].foldl (reduceStep S) rows (32 * m + j)]
    simp only [List.foldl_cons, List.foldl_nil]
    rw [sum_reduceStep S _ m 1 (by decide), sum_reduceStep S _ m 2 (by decide),
      sum_reduceStep S _ m 4 (by decide), sum_reduceStep S _ m 8 (by decide),
      sum_reduceStep S _ m 16 (by decide)]
  have h0 := hgroup 0
  have h1 := hgroup 1
  simp only [Nat.mul_zero, Nat.zero_add, Nat.mul_one, Nat.add_zero] at h0 h1
  rw [blockSum, h0, h1, Finset.sum_range_add _ 32 32]

end Lemmas

end Gpu
end AarchGate
