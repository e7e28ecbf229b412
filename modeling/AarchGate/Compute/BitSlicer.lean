/-
# The bit slicer

`src/compute/bit_slicer.cpp` and `src/compute/bit_slicer_fast.cpp`: the
in-place transpose of a 64×64 bit matrix, in six stages of vector operations.
The vectors are those of the Highway library; `Highway.lanes` is the number of
64-bit lanes of the capped tag of a stage, a power of two up to the cap, and the
operations act lane by lane.

`slice_planes`: the transposed words are the bit-planes of the 64 values.  The functions of the
class take two buffers, which may be the same one, and copy first if they are not; that makes
no difference (`sliceBuffers_transposes`).
-/

import AarchGate.A64.Machine
import AarchGate.BitPlane.Lanes
import AarchGate.BitPlane.Transpose

namespace AarchGate
namespace Compute

open A64 (Word)
open BitPlane

/-- The lane counts of the Highway target: `Lanes(CappedTag<uint64_t, cap>)`. -/
structure Highway where
  lanes : ℕ → ℕ
  dvd : ∀ s, lanes (2 ^ s) ∣ 2 ^ s

/-- A target with 128-bit vectors: two lanes, unless the tag is capped below. -/
def Highway.neon : Highway where
  lanes cap := min cap 2
  dvd s := by
    cases s with
    | zero => exact Nat.dvd_refl 1
    | succ s =>
      have : 2 ≤ 2 ^ (s + 1) := by rw [Nat.pow_succ]; have := Nat.two_pow_pos s; omega
      rw [Nat.min_eq_right this, Nat.pow_succ]
      exact Nat.dvd_mul_left ..

/-- `ColumnBuffer::data`. -/
abbrev ColumnBuffer := ℕ → Word

/-- One iteration of the vector loop of a stage: the lanes `k … k + N - 1` and
their partners `stride` words above. -/
def stageVec (stride : ℕ) (vmask : Word) (N k : ℕ) (A : ColumnBuffer) : ColumnBuffer :=
  let vt := fun i => ((A i >>> stride) ^^^ A (i + stride)) &&& vmask
  fun j =>
    if k ≤ j ∧ j < k + N then A j ^^^ (vt j <<< stride)
    else if k + stride ≤ j ∧ j < k + stride + N then A j ^^^ vt (j - stride)
    else A j

/-- The vector loop over one block. -/
def stageBlock (stride : ℕ) (vmask : Word) (N block : ℕ) (A : ColumnBuffer) : ColumnBuffer :=
  (List.range ((stride + N - 1) / N)).foldl (fun A i => stageVec stride vmask N (block + i * N) A) A

/-- A stage: the blocks of `2 * stride` words. -/
def stage (stride : ℕ) (vmask : Word) (N : ℕ) (A : ColumnBuffer) : ColumnBuffer :=
  (List.range (64 / (2 * stride))).foldl (fun A b => stageBlock stride vmask N (b * (2 * stride)) A) A

section Transpose

variable (H : Highway)

/-- `Stage5`. -/
def stage5 := stage 32 0x00000000FFFFFFFF (H.lanes 32)

/-- `Stage4`. -/
def stage4 := stage 16 0x0000FFFF0000FFFF (H.lanes 16)

/-- `Stage3`. -/
def stage3 := stage 8 0x00FF00FF00FF00FF (H.lanes 8)

/-- `Stage2`. -/
def stage2 := stage 4 0x0F0F0F0F0F0F0F0F (H.lanes 4)

/-- `Stage1`. -/
def stage1 := stage 2 0x3333333333333333 (H.lanes 2)

/-- `Stage0`, which is not vectorized. -/
def stage0 := stage 1 0x5555555555555555 1

/-- `Transpose64x64`. -/
def transpose64x64 (A : ColumnBuffer) : ColumnBuffer :=
  stage0 (stage1 H (stage2 H (stage3 H (stage4 H (stage5 H A)))))

/-- `BitSlicer::slice`. -/
def slice (data : ColumnBuffer) : ColumnBuffer := transpose64x64 H data

/-- `BitSlicer::slice_n`: the planes from `n` on are cleared. -/
def sliceN (data : ColumnBuffer) (n : ℤ) : ColumnBuffer := fun b =>
  if n ≤ b ∧ b < 64 then 0 else slice H data b

section Buffers

variable {β : Type} [DecidableEq β] (bufs : β → ColumnBuffer)

/-- `memcpy` of a whole buffer. -/
def copyBuffer (src dst : β) : β → ColumnBuffer :=
  Function.update bufs dst fun j => if j < 64 then bufs src j else bufs dst j

/-- `Slice_impl`: `slice(in, out)` on the buffers of the program. -/
def sliceBuffers (src dst : β) : β → ColumnBuffer :=
  let bufs := if src ≠ dst then copyBuffer bufs src dst else bufs
  Function.update bufs dst (transpose64x64 H (bufs dst))

/-- `slice_n(data, count, out_planes, n)`; the count is not used. -/
def sliceNBuffers (data outPlanes : β) (n : ℤ) : β → ColumnBuffer :=
  let bufs := if data ≠ outPlanes then copyBuffer bufs data outPlanes else bufs
  let bufs := sliceBuffers H bufs outPlanes outPlanes
  Function.update bufs outPlanes fun b => if n ≤ b ∧ b < 64 then 0 else bufs outPlanes b

end Buffers

end Transpose

/-! ### The stages are butterflies -/

/-- The lower of the two rows of a pair. -/
def lowerRow (s j : ℕ) : ℕ := if j.testBit s then j - 2 ^ s else j

/-- The rows when the pairs below `f` are done. -/
def butterflyUpTo (s : ℕ) (vmask : Word) (A : ColumnBuffer) (f j : ℕ) : Word :=
  if lowerRow s j < f then butterfly s vmask A j else A j

theorem testBit_lower {s b y : ℕ} (hy : y < 2 ^ s) : (b * (2 * 2 ^ s) + y).testBit s = false := by
  rw [Nat.testBit_eq_decide_div_mod_eq, ← Nat.mul_assoc, Nat.add_comm,
    Nat.add_mul_div_right _ _ (Nat.two_pow_pos s), Nat.div_eq_of_lt hy]
  simp

theorem testBit_upper {s b y : ℕ} (hy : y < 2 ^ s) :
    (b * (2 * 2 ^ s) + y + 2 ^ s).testBit s = true := by
  rw [Nat.add_comm, Nat.testBit_two_pow_add_eq, testBit_lower hy]
  rfl

/-- **One vector iteration** moves the frontier by the number of lanes. -/
theorem stageVec_upTo {s : ℕ} (vmask : Word) {N b i : ℕ} (hN : i * N + N ≤ 2 ^ s)
    (A : ColumnBuffer) :
    stageVec (2 ^ s) vmask N (b * (2 * 2 ^ s) + i * N)
        (butterflyUpTo s vmask A (b * (2 * 2 ^ s) + i * N)) =
      butterflyUpTo s vmask A (b * (2 * 2 ^ s) + i * N + N) := by
  set k := b * (2 * 2 ^ s) + i * N with hk
  have hlow : ∀ j, k ≤ j → j < k + N → j.testBit s = false ∧ (j + 2 ^ s).testBit s = true := by
    intro j h1 h2
    obtain ⟨y, rfl⟩ : ∃ y, j = b * (2 * 2 ^ s) + y := ⟨j - b * (2 * 2 ^ s), by omega⟩
    exact ⟨testBit_lower (by omega), testBit_upper (by omega)⟩
  -- a pair of the iteration has not been touched
  have hold : ∀ j, k ≤ j → j < k + N → butterflyUpTo s vmask A k j = A j ∧
      butterflyUpTo s vmask A k (j + 2 ^ s) = A (j + 2 ^ s) := by
    intro j h1 h2
    obtain ⟨hl, hu⟩ := hlow j h1 h2
    constructor
    · rw [butterflyUpTo, lowerRow, hl, if_neg (by simp; omega)]
    · rw [butterflyUpTo, lowerRow, hu, if_neg (by simp; omega)]
  funext j
  unfold stageVec
  simp only
  split_ifs with h1 h2
  · obtain ⟨hl, -⟩ := hlow j h1.1 h1.2
    obtain ⟨e1, e2⟩ := hold j h1.1 h1.2
    rw [e1, e2, butterflyUpTo, lowerRow, hl, if_pos (by simpa using h1.2), butterfly, hl]
    rfl
  · obtain ⟨x, rfl⟩ : ∃ x, j = x + 2 ^ s := ⟨j - 2 ^ s, by omega⟩
    obtain ⟨hl, hu⟩ := hlow x (by omega) (by omega)
    obtain ⟨e1, e2⟩ := hold x (by omega) (by omega)
    rw [Nat.add_sub_cancel, e1, e2, butterflyUpTo, lowerRow, hu, if_pos (by simp; omega), butterfly,
      hu, if_pos rfl, delta, Nat.add_sub_cancel]
  · have hiff : lowerRow s j < k ↔ lowerRow s j < k + N := by
      refine ⟨fun h => by omega, fun h => ?_⟩
      by_contra hge
      unfold lowerRow at h hge
      split_ifs at h hge with hj
      · have := Nat.ge_two_pow_of_testBit hj
        omega
      · omega
    rw [butterflyUpTo, butterflyUpTo]
    simp only [hiff]

/-- It is a lower row. -/
theorem testBit_lowerRow (s j : ℕ) : (lowerRow s j).testBit s = false := by
  unfold lowerRow
  split_ifs with hj
  · rw [sub_two_pow_eq_xor hj]
    simp [Nat.testBit_xor, hj]
  · simpa using hj

/-- One block. -/
theorem stageBlock_upTo {s : ℕ} (vmask : Word) {N : ℕ} (hN : N ∣ 2 ^ s) (b : ℕ) (A : ColumnBuffer) :
    stageBlock (2 ^ s) vmask N (b * (2 * 2 ^ s)) (butterflyUpTo s vmask A (b * (2 * 2 ^ s))) =
      butterflyUpTo s vmask A ((b + 1) * (2 * 2 ^ s)) := by
  have hpos : 0 < N := Nat.pos_of_dvd_of_pos hN (Nat.two_pow_pos s)
  obtain ⟨q, hq⟩ := hN
  have hcount : (2 ^ s + N - 1) / N = q := by
    rw [Nat.mul_comm] at hq
    exact Nat.div_eq_of_lt_le (by omega) (by rw [Nat.add_mul, ← hq]; omega)
  have hrun : ∀ i ≤ q, (List.range i).foldl (fun A i =>
      stageVec (2 ^ s) vmask N (b * (2 * 2 ^ s) + i * N) A)
      (butterflyUpTo s vmask A (b * (2 * 2 ^ s))) =
        butterflyUpTo s vmask A (b * (2 * 2 ^ s) + i * N) := by
    intro i hi
    induction i with
    | zero => simp
    | succ i ih =>
      have hfit : i * N + N ≤ 2 ^ s := by
        rw [hq, Nat.mul_comm N, ← Nat.succ_mul]
        exact Nat.mul_le_mul_right N hi
      rw [List.range_succ, List.foldl_append, ih (by omega), List.foldl_cons, List.foldl_nil,
        stageVec_upTo vmask hfit, Nat.add_assoc, ← Nat.succ_mul]
  rw [stageBlock, hcount, hrun q (Nat.le_refl _), Nat.mul_comm q, ← hq]
  -- the upper half of the block has no lower rows
  funext j
  have hiff : lowerRow s j < b * (2 * 2 ^ s) + 2 ^ s ↔ lowerRow s j < (b + 1) * (2 * 2 ^ s) := by
    have hexp : (b + 1) * (2 * 2 ^ s) = b * (2 * 2 ^ s) + 2 ^ s + 2 ^ s := by
      rw [Nat.add_mul]; omega
    refine ⟨fun h => by omega, fun h => ?_⟩
    by_contra hge
    obtain ⟨y, hy⟩ : ∃ y, lowerRow s j = b * (2 * 2 ^ s) + y + 2 ^ s :=
      ⟨lowerRow s j - 2 ^ s - b * (2 * 2 ^ s), by omega⟩
    have hup := testBit_upper (b := b) (show y < 2 ^ s by omega)
    rw [← hy, testBit_lowerRow] at hup
    exact Bool.false_ne_true hup
  simp only [butterflyUpTo, hiff]

/-- **A stage is a butterfly** on the 64 rows. -/
theorem stage_eq {s : ℕ} (hs : s < 6) (vmask : Word) {N : ℕ} (hN : N ∣ 2 ^ s) (A : ColumnBuffer)
    {j : ℕ} (hj : j < 64) : stage (2 ^ s) vmask N A j = butterfly s vmask A j := by
  have hstart : A = butterflyUpTo s vmask A (0 * (2 * 2 ^ s)) := by
    funext j
    simp [butterflyUpTo]
  have hrun : ∀ n, (List.range n).foldl (fun A b => stageBlock (2 ^ s) vmask N (b * (2 * 2 ^ s)) A) A =
      butterflyUpTo s vmask A (n * (2 * 2 ^ s)) := by
    intro n
    induction n with
    | zero => exact hstart
    | succ n ih =>
      rw [List.range_succ, List.foldl_append, ih, List.foldl_cons, List.foldl_nil,
        stageBlock_upTo vmask hN]
  have hall : 64 / (2 * 2 ^ s) * (2 * 2 ^ s) = 64 := by
    have : ∀ s : Fin 6, 64 / (2 * 2 ^ s.val) * (2 * 2 ^ s.val) = 64 := by decide
    exact this ⟨s, hs⟩
  have hlow : lowerRow s j < 64 := by
    unfold lowerRow
    split_ifs
    · exact Nat.lt_of_le_of_lt (Nat.sub_le ..) hj
    · exact hj
  rw [stage, hrun, hall, butterflyUpTo, if_pos hlow]

/-- A stage exchanges one bit of the row and column numbers. -/
theorem stage_exchanged {s : ℕ} (hs : s < 6) {vmask : Word}
    (hmask : ∀ c : Fin 64, vmask.getLsbD c = !c.val.testBit s) {N : ℕ} (hN : N ∣ 2 ^ s)
    (A : ColumnBuffer) : Exchanged (2 ^ s) A (stage (2 ^ s) vmask N A) := by
  intro r hr c hc
  rw [stage_eq hs vmask hN A hr]
  exact butterfly_exchanged (fun c hc => hmask ⟨c, hc⟩) A r hr c hc

/-- **`slice` transposes**: its words are the bit-planes of the 64 values. -/
theorem slice_planes (H : Highway) (data : ColumnBuffer) : Planes (slice H data) data := by
  have h5 : Exchanged 32 data (stage5 H data) :=
    stage_exchanged (s := 5) (by decide) (by decide) (H.dvd 5) data
  have h4 : Exchanged 16 _ (stage4 H (stage5 H data)) :=
    stage_exchanged (s := 4) (by decide) (by decide) (H.dvd 4) _
  have h3 : Exchanged 8 _ (stage3 H (stage4 H (stage5 H data))) :=
    stage_exchanged (s := 3) (by decide) (by decide) (H.dvd 3) _
  have h2 : Exchanged 4 _ (stage2 H (stage3 H (stage4 H (stage5 H data)))) :=
    stage_exchanged (s := 2) (by decide) (by decide) (H.dvd 2) _
  have h1 : Exchanged 2 _ (stage1 H (stage2 H (stage3 H (stage4 H (stage5 H data))))) :=
    stage_exchanged (s := 1) (by decide) (by decide) (H.dvd 1) _
  have h0 : Exchanged 1 _ (transpose64x64 H data) :=
    stage_exchanged (s := 0) (by decide) (by decide) (Nat.dvd_refl 1) _
  have hw : (64 : ℕ) = 2 ^ 6 := rfl
  have hall : Exchanged (2 ^ 6 - 1) data (transpose64x64 H data) :=
    ((((h5.trans hw h4).trans hw h3).trans hw h2).trans hw h1).trans hw h0
  exact fun b hb r hr => hall.transpose hw hb hr

/-- With all 64 bits active nothing is cleared. -/
theorem sliceN_planes (H : Highway) (data : ColumnBuffer) : Planes (sliceN H data 64) data :=
  (slice_planes H data).congr fun b hb => by
    rw [sliceN, if_neg (by omega)]

/-! ### Two buffers -/

section Buffers

variable (H : Highway) {β : Type} [DecidableEq β] (bufs : β → ColumnBuffer)

/-- The input is in the output buffer before the stages run, whether it had to be copied or not. -/
theorem copied_dst (src dst : β) {j : ℕ} (hj : j < 64) :
    (if src ≠ dst then copyBuffer bufs src dst else bufs) dst j = bufs src j := by
  split_ifs with h
  · simp [copyBuffer, hj]
  · rw [not_not.1 h]

/-- **The planes of a buffer.** -/
theorem sliceBuffers_planes (src dst : β) : Planes (sliceBuffers H bufs src dst dst) (bufs src) := by
  intro b hb r hr
  rw [sliceBuffers, Function.update_self, ← copied_dst bufs src dst hr]
  exact slice_planes H _ b hb r hr

/-- **The transpose of a block of 64 words**, for any number of lanes and in place or not: bit `r`
of word `b` of the output is bit `b` of word `r` of the input, slicing the output gives the
input back, and `slice_n` gives the first `n` planes and clears the others. -/
theorem sliceBuffers_transposes (src dst : β) :
    (∀ b < 64, ∀ r < 64,
      (sliceBuffers H bufs src dst dst b).getLsbD r = (bufs src r).getLsbD b) ∧
    (∀ dst', ∀ r < 64,
      sliceBuffers H (sliceBuffers H bufs src dst) dst dst' dst' r = bufs src r) ∧
    ∀ n : ℤ, 0 ≤ n → n ≤ 64 → ∀ b < 64, sliceNBuffers H bufs src dst n dst b =
      if (b : ℤ) < n then sliceBuffers H bufs src dst dst b else 0 := by
  have hplanes := sliceBuffers_planes H bufs src dst
  refine ⟨hplanes, fun dst' r hr => ?_, fun n _ _ b hb => ?_⟩
  · -- the planes of the planes are the words
    exact (sliceBuffers_planes H _ dst dst').symm.lane_unique hplanes hr
  · have hcopied : sliceBuffers H (if src ≠ dst then copyBuffer bufs src dst else bufs) dst dst =
        sliceBuffers H bufs src dst := by
      simp only [sliceBuffers, ne_eq, not_true_eq_false, if_false]
    rw [sliceNBuffers, Function.update_self, hcopied]
    split_ifs with h1 h2 h2
    · omega
    · rfl
    · rfl
    · omega

/-- The block whose word `r` is `r`, from buffer 0 to buffer 1: a bit of its planes, what comes
back in buffer 2, and the planes that are cleared when six are asked for. -/
theorem sliceBuffers_transposes_rows :
    let bufs : ℕ → ColumnBuffer := fun _ r => BitVec.ofNat 64 r
    (sliceBuffers .neon bufs 0 1 1 3).getLsbD 40 = true ∧
      sliceBuffers .neon (sliceBuffers .neon bufs 0 1) 1 2 2 7 = 7 ∧
        sliceNBuffers .neon bufs 0 1 6 1 6 = 0 := by
  intro bufs
  obtain ⟨hbits, hback, hcleared⟩ := sliceBuffers_transposes .neon bufs 0 1
  refine ⟨?_, hback 2 7 (by decide), hcleared 6 (by decide) (by decide) 6 (by decide)⟩
  rw [hbits 3 (by decide) 40 (by decide)]
  decide

end Buffers

end Compute
end AarchGate
