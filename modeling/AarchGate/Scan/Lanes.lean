/-
# Scans and reductions over lanes

What parallel threads compute by exchanging values over fixed distances.

*Prefix scan.*  In step `k` of the Kogge–Stone scan every lane multiplies its value by
that of the lane `2^k` below it, if there is one.  After `k` steps lane `j` holds the
product of the `2^k` values up to its own (`scan_eq`), hence of all values from lane 0
once `2^k` reaches beyond `j` (`scan_eq_span`).  The order of the factors matters, their
bracketing does not: any monoid will do.

*Reduction.*  If every lane `j < d` adds the value of lane `j + d`, the sum over the
lanes below `d` is the sum that was spread over `2 * d` lanes (`sum_fold`); what the
lanes from `d` on hold afterwards does not matter.
-/

import Mathlib.Algebra.BigOperators.Intervals

namespace AarchGate
namespace Scan

section Prefix

variable {M : Type*} [Monoid M]

/-- The product of `n` values from `lo` on, the later ones to the left. -/
def span (v : ℕ → M) (lo : ℕ) : ℕ → M
  | 0 => 1
  | n + 1 => v (lo + n) * span v lo n

/-- Two spans that meet are one span. -/
theorem span_add (v : ℕ → M) (lo m n : ℕ) :
    span v lo (m + n) = span v (lo + m) n * span v lo m := by
  induction n with
  | zero => exact (one_mul _).symm
  | succ n ih => rw [Nat.add_succ, span, span, ih, mul_assoc, Nat.add_assoc]

/-- A stretch of shifted lanes. -/
theorem span_shift (v : ℕ → M) (lo n : ℕ) : span (fun j => v (lo + j)) 0 n = span v lo n := by
  induction n with
  | zero => rfl
  | succ n ih => rw [span, span, ih, Nat.zero_add]

/-- One step of the scan, over the distance `d`. -/
def step (d : ℕ) (v : ℕ → M) (j : ℕ) : M := if d ≤ j then v j * v (j - d) else v j

/-- The first `k` steps of the scan, over the distances `1, 2, 4, …`. -/
def scan (v : ℕ → M) : ℕ → ℕ → M
  | 0 => v
  | k + 1 => step (2 ^ k) (scan v k)

/-- **After `k` steps** lane `j` holds the product of the last `2^k` values. -/
theorem scan_eq (v : ℕ → M) (k j : ℕ) :
    scan v k j = span v (j + 1 - 2 ^ k) (min (2 ^ k) (j + 1)) := by
  induction k generalizing j with
  | zero => simp [scan, span]
  | succ k ih =>
    have hpos := Nat.two_pow_pos k
    rw [scan, step, pow_succ]
    by_cases hj : 2 ^ k ≤ j
    · -- the span of the lane itself and the one that ends where it begins
      rw [if_pos hj, ih, ih, show j - 2 ^ k + 1 = j + 1 - 2 ^ k by omega,
        show min (2 ^ k) (j + 1) = 2 ^ k by omega,
        show min (2 ^ k * 2) (j + 1) = min (2 ^ k) (j + 1 - 2 ^ k) + 2 ^ k by omega, span_add,
        show j + 1 - 2 ^ k * 2 = j + 1 - 2 ^ k - 2 ^ k by omega,
        show j + 1 - 2 ^ k - 2 ^ k + min (2 ^ k) (j + 1 - 2 ^ k) = j + 1 - 2 ^ k by omega]
    · rw [if_neg hj, ih, show j + 1 - 2 ^ k = 0 by omega, show j + 1 - 2 ^ k * 2 = 0 by omega,
        show min (2 ^ k) (j + 1) = j + 1 by omega, show min (2 ^ k * 2) (j + 1) = j + 1 by omega]

/-- **The scan is complete** in the lanes it has reached. -/
theorem scan_eq_span (v : ℕ → M) {k j : ℕ} (hj : j < 2 ^ k) : scan v k j = span v 0 (j + 1) := by
  rw [scan_eq, show j + 1 - 2 ^ k = 0 by omega, show min (2 ^ k) (j + 1) = j + 1 by omega]

end Prefix

/-- **Folding the upper half of the lanes onto the lower half** keeps the sum. -/
theorem sum_fold {A : Type*} [AddCommMonoid A] {v w : ℕ → A} {d : ℕ}
    (h : ∀ j < d, w j = v j + v (j + d)) :
    ∑ j ∈ Finset.range d, w j = ∑ j ∈ Finset.range (d + d), v j := by
  rw [Finset.sum_range_add, ← Finset.sum_add_distrib]
  refine Finset.sum_congr rfl fun j hj => ?_
  rw [h j (Finset.mem_range.1 hj), Nat.add_comm j d]

end Scan
end AarchGate
