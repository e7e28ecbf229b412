/-
# Ranges that follow one another

Work on the numbers from `a` to `b` is handed out in half-open ranges `(start, stop)`.
If each range starts where the one before it stops (`Follow`), no number is handed
out twice and none is left out (`Follow.partition`), and sums over the ranges add up
to the sum over all numbers (`Follow.sum`).
-/

import Mathlib.Algebra.BigOperators.Intervals

namespace AarchGate
namespace Ranges

/-- The first range starts at `a`, each of the others where the one before it stops,
and the last stops at `b`. -/
def Follow : ℕ → ℕ → List (ℕ × ℕ) → Prop
  | a, b, [] => a = b
  | a, b, x :: l => x.1 = a ∧ x.1 ≤ x.2 ∧ Follow x.2 b l

/-- Every number from `a` to `b` is in one range. -/
structure Partition (l : List (ℕ × ℕ)) (a b : ℕ) : Prop where
  covers : ∀ r, (∃ x ∈ l, x.1 ≤ r ∧ r < x.2) ↔ a ≤ r ∧ r < b
  disjoint : l.Pairwise fun x y => x.2 ≤ y.1

variable {a b : ℕ} {l : List (ℕ × ℕ)}

/-- They start where they should, or later. -/
theorem Follow.le (h : Follow a b l) : a ≤ b ∧ ∀ x ∈ l, a ≤ x.1 := by
  induction l generalizing a with
  | nil => exact ⟨Nat.le_of_eq h, fun x hx => absurd hx List.not_mem_nil⟩
  | cons x l ih =>
    obtain ⟨rfl, hle, hl⟩ := h
    obtain ⟨hb, hmem⟩ := ih hl
    refine ⟨Nat.le_trans hle hb, fun y hy => ?_⟩
    rcases List.mem_cons.1 hy with rfl | hy
    · exact Nat.le_refl _
    · exact Nat.le_trans hle (hmem y hy)

/-- They stop where they should, or before. -/
theorem Follow.stop_le (h : Follow a b l) : ∀ x ∈ l, x.2 ≤ b := by
  induction l generalizing a with
  | nil => exact fun x hx => absurd hx List.not_mem_nil
  | cons x l ih =>
    obtain ⟨rfl, -, hl⟩ := h
    intro y hy
    rcases List.mem_cons.1 hy with rfl | hy
    · exact hl.le.1
    · exact ih hl y hy

/-- A range stops at the end, or where another one starts. -/
theorem Follow.stop (h : Follow a b l) : ∀ x ∈ l, x.2 = b ∨ ∃ y ∈ l, y.1 = x.2 := by
  induction l generalizing a with
  | nil => exact fun x hx => absurd hx List.not_mem_nil
  | cons x l ih =>
    obtain ⟨rfl, -, hl⟩ := h
    intro y hy
    rcases List.mem_cons.1 hy with rfl | hy
    · cases l with
      | nil => exact Or.inl hl
      | cons z l => exact Or.inr ⟨z, List.mem_cons_of_mem _ (List.mem_cons_self ..), hl.1⟩
    · exact (ih hl y hy).imp_right fun ⟨z, hz, he⟩ => ⟨z, List.mem_cons_of_mem _ hz, he⟩

/-- **Ranges that follow each other are a partition.** -/
theorem Follow.partition (h : Follow a b l) : Partition l a b := by
  induction l generalizing a with
  | nil =>
    obtain rfl : a = b := h
    refine ⟨fun r => ?_, List.Pairwise.nil⟩
    simp only [List.not_mem_nil, false_and, exists_false, false_iff]
    omega
  | cons x l ih =>
    obtain ⟨rfl, hle, hl⟩ := h
    obtain ⟨hcov, hdis⟩ := ih hl
    have hb := hl.le.1
    refine ⟨fun r => ?_, List.pairwise_cons.2 ⟨fun y hy => hl.le.2 y hy, hdis⟩⟩
    simp only [List.mem_cons, exists_eq_or_imp, hcov]
    omega

/-- **The sums over the ranges add up.** -/
theorem Follow.sum {M : Type*} [AddCommMonoid M] (f : ℕ → M) (h : Follow a b l) :
    (l.map fun x => ∑ r ∈ Finset.Ico x.1 x.2, f r).sum = ∑ r ∈ Finset.Ico a b, f r := by
  induction l generalizing a with
  | nil =>
    obtain rfl : a = b := h
    simp
  | cons x l ih =>
    obtain ⟨rfl, hle, hl⟩ := h
    rw [List.map_cons, List.sum_cons, ih hl, Finset.sum_Ico_consecutive _ hle hl.le.1]

/-- Ranges of blocks of `k` numbers. -/
theorem Follow.map_mul (k : ℕ) (h : Follow a b l) :
    Follow (k * a) (k * b) (l.map fun x => (k * x.1, k * x.2)) := by
  induction l generalizing a with
  | nil => exact congrArg (k * ·) h
  | cons x l ih =>
    obtain ⟨rfl, hle, hl⟩ := h
    exact ⟨rfl, Nat.mul_le_mul_left k hle, ih hl⟩

/-- The first `k` numbers of a range, and the rest of it. -/
theorem sum_Ico_chunk {M : Type*} [AddCommMonoid M] (f : ℕ → M) (s e k : ℕ) :
    ∑ r ∈ Finset.Ico s e, f r =
      ∑ r ∈ Finset.range (min k (e - s)), f (s + r) + ∑ r ∈ Finset.Ico (s + k) e, f r := by
  rcases Nat.lt_or_ge e (s + k) with hlt | hge
  · rw [Finset.Ico_eq_empty (by omega : ¬s + k < e), Finset.sum_empty, add_zero,
      Finset.sum_Ico_eq_sum_range, Nat.min_eq_right (by omega)]
  · rw [← Finset.sum_Ico_consecutive f (Nat.le_add_right s k) hge, Finset.sum_Ico_eq_sum_range,
      Nat.add_sub_cancel_left, Nat.min_eq_left (by omega)]

/-- The numbers below `k * n`, in blocks of `k`. -/
theorem sum_range_blocks {M : Type*} [AddCommMonoid M] (f : ℕ → M) (k n : ℕ) :
    ∑ r ∈ Finset.range (k * n), f r =
      ∑ b ∈ Finset.range n, ∑ r ∈ Finset.range k, f (k * b + r) := by
  induction n with
  | zero => simp
  | succ n ih => rw [Nat.mul_succ, Finset.sum_range_add, ih, Finset.sum_range_succ]

/-- Ranges between bounds that do not go down. -/
theorem follow_bounds (bound : ℕ → ℕ) :
    ∀ n i, (∀ t, i ≤ t → t < i + n → bound t ≤ bound (t + 1)) →
      Follow (bound i) (bound (i + n)) ((List.range' i n).map fun t => (bound t, bound (t + 1))) := by
  intro n
  induction n with
  | zero => exact fun i _ => rfl
  | succ n ih =>
    intro i h
    refine ⟨rfl, h i (Nat.le_refl _) (by omega), ?_⟩
    have := ih (i + 1) fun t h1 h2 => h t (by omega) (by omega)
    rwa [show i + 1 + n = i + (n + 1) by omega] at this

end Ranges
end AarchGate
