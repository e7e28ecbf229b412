/-
# Population counts of masks and planes

The number of set bits of a word, as a sum over its bits in the ring of words.
Masked to the first `n` lanes, the population count of a mask counts the lanes on
which it holds (`Mask.cpop_and`), and the population counts of the planes,
weighted with the powers of two, add up to the sum of the lanes
(`Planes.sum_cpop`).
-/

import AarchGate.BitPlane.Lanes
import Mathlib.Algebra.BigOperators.Group.Finset.Sigma
import Mathlib.Algebra.BigOperators.Ring.Finset
import Mathlib.Data.BitVec

namespace AarchGate
namespace BitPlane

variable {w : ℕ}

/-- A truth value as a natural number. -/
theorem bit_eq_natCast (b : Bool) : (bit b : BitVec w) = (b.toNat : BitVec w) := by
  cases b <;> simp [Bool.toNat]

/-- The count is the sum of the bits. -/
theorem cpopNatRec_add_sum (x : BitVec w) (n acc : ℕ) :
    x.cpopNatRec n acc = acc + ∑ r ∈ Finset.range n, (x.getLsbD r).toNat := by
  induction n generalizing acc with
  | zero => simp [BitVec.cpopNatRec]
  | succ n ih =>
    rw [BitVec.cpopNatRec, ih, Finset.sum_range_succ]
    omega

/-- **The population count is the sum of the bits.** -/
theorem cpop_eq_sum (x : BitVec w) : x.cpop = ∑ r ∈ Finset.range w, bit (x.getLsbD r) := by
  rw [BitVec.cpop, cpopNatRec_add_sum, Nat.zero_add, ← BitVec.natCast_eq_ofNat, Nat.cast_sum]
  exact Finset.sum_congr rfl fun r _ => (bit_eq_natCast _).symm

/-- A power of two as a natural number. -/
theorem twoPow_eq_natCast (i : ℕ) : BitVec.twoPow w i = ((2 ^ i : ℕ) : BitVec w) := by
  refine BitVec.eq_of_toNat_eq ?_
  rw [BitVec.toNat_twoPow, BitVec.natCast_eq_ofNat, BitVec.toNat_ofNat]

/-- A word is the sum of its bits, each with its power of two. -/
theorem eq_sum_bits (x : BitVec w) :
    x = ∑ i ∈ Finset.range w, bit (x.getLsbD i) * BitVec.twoPow w i := by
  have hnat : ∀ n, x.toNat % 2 ^ n = ∑ i ∈ Finset.range n, (x.getLsbD i).toNat * 2 ^ i := by
    intro n
    induction n with
    | zero => simp [Nat.mod_one]
    | succ n ih =>
      rw [Nat.mod_pow_succ, ih, Finset.sum_range_succ, ← Nat.toNat_testBit, Nat.mul_comm (2 ^ n)]
      rfl
  have hx := hnat w
  rw [Nat.mod_eq_of_lt x.isLt] at hx
  calc x = (x.toNat : BitVec w) := by
        rw [BitVec.natCast_eq_ofNat, BitVec.ofNat_toNat, BitVec.setWidth_eq]
    _ = ∑ i ∈ Finset.range w, bit (x.getLsbD i) * BitVec.twoPow w i := by
        rw [hx, Nat.cast_sum]
        refine Finset.sum_congr rfl fun i _ => ?_
        rw [Nat.cast_mul, bit_eq_natCast, twoPow_eq_natCast]

/-- The lanes below `n`. -/
def Below (m : BitVec w) (n : ℕ) : Prop := Mask m (fun r => decide (r < n))

/-- **The population count of a mask counts the lanes on which it holds.** -/
theorem Mask.cpop_and {m b : BitVec w} {p : ℕ → Bool} {n : ℕ} (h : Mask m p) (hb : Below b n)
    (hn : n ≤ w) : (m &&& b).cpop = ∑ r ∈ Finset.range n, bit (p r) := by
  rw [cpop_eq_sum]
  have hbit : ∀ r ∈ Finset.range w, bit ((m &&& b).getLsbD r) =
      if r < n then (bit (p r) : BitVec w) else 0 := by
    intro r hr
    rw [Finset.mem_range] at hr
    rw [BitVec.getLsbD_and, h r hr, hb r hr]
    by_cases hrn : r < n <;> simp [hrn]
  rw [Finset.sum_congr rfl hbit, ← Finset.sum_filter]
  refine Finset.sum_congr ?_ fun _ _ => rfl
  ext r
  simp only [Finset.mem_filter, Finset.mem_range]
  omega

/-- **The weighted population counts of the planes add up to the sum of the
lanes.** -/
theorem Planes.sum_cpop {P : ℕ → BitVec w} {v : ℕ → BitVec w} {b : BitVec w} {n : ℕ}
    (h : Planes P v) (hb : Below b n) (hn : n ≤ w) :
    ∑ i ∈ Finset.range w, (P i &&& b).cpop <<< i = ∑ r ∈ Finset.range n, v r := by
  have hplane : ∀ i ∈ Finset.range w, (P i &&& b).cpop <<< i =
      ∑ r ∈ Finset.range n, bit ((v r).getLsbD i) * BitVec.twoPow w i := by
    intro i hi
    have hmask : Mask (P i) fun r => (v r).getLsbD i := fun r hr => h i (Finset.mem_range.1 hi) r hr
    rw [BitVec.shiftLeft_eq_mul_twoPow, hmask.cpop_and hb hn, Finset.sum_mul]
  rw [Finset.sum_congr rfl hplane, Finset.sum_comm]
  exact Finset.sum_congr rfl fun r _ => (eq_sum_bits (v r)).symm

end BitPlane
end AarchGate
