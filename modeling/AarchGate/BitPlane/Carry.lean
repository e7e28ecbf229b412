/-
# Carries as a monoid

A stretch of an adder is summarised by two words: the lanes in which it *generates* a
carry and the lanes in which it *propagates* one.  Stretches compose (`Carry` is a
monoid) and turn the carry into them into the carry out of them (it acts on the carry
words).  The carry into a plane is what the planes below it generate together
(`span_smul_zero`), so a prefix scan over the planes computes all carries at once.
-/

import AarchGate.BitPlane.Lanes
import AarchGate.Scan.Lanes
import Mathlib.Algebra.Group.Action.Defs

namespace AarchGate
namespace BitPlane

variable {n : ℕ}

/-- The lanes in which a stretch generates and propagates a carry. -/
@[ext] structure Carry (n : ℕ) where
  g : BitVec n
  p : BitVec n

namespace Carry

instance : One (Carry n) := ⟨⟨0, BitVec.allOnes n⟩⟩

/-- The stretch `a` after the stretch `b`. -/
instance : Mul (Carry n) := ⟨fun a b => ⟨a.g ||| (a.p &&& b.g), a.p &&& b.p⟩⟩

/-- The carry out of a stretch. -/
instance : SMul (Carry n) (BitVec n) := ⟨fun a c => a.g ||| (a.p &&& c)⟩

/-- Two stretches in a row. -/
theorem mul_def (a b : Carry n) : a * b = ⟨a.g ||| (a.p &&& b.g), a.p &&& b.p⟩ := rfl

/-- The carry out, by the carry in. -/
theorem smul_def (a : Carry n) (c : BitVec n) : a • c = a.g ||| (a.p &&& c) := rfl

/-- The empty stretch. -/
theorem one_def : (1 : Carry n) = ⟨0, BitVec.allOnes n⟩ := rfl

instance : Monoid (Carry n) where
  mul_assoc a b c := by
    simp only [mul_def, mk.injEq, BitVec.and_assoc, and_true]
    ext i
    simp only [BitVec.getElem_or, BitVec.getElem_and]
    cases a.g[i] <;> cases a.p[i] <;> rfl
  one_mul a := by simp [mul_def, one_def]
  mul_one a := by simp [mul_def, one_def]

instance : MulAction (Carry n) (BitVec n) where
  one_smul c := by simp [smul_def, one_def]
  mul_smul a b c := by
    simp only [smul_def, mul_def]
    ext i
    simp only [BitVec.getElem_or, BitVec.getElem_and]
    cases a.g[i] <;> cases a.p[i] <;> rfl

/-- The carry that a stretch generates. -/
theorem smul_zero_eq (a : Carry n) : a • (0 : BitVec n) = a.g := by simp [smul_def]

end Carry

/-- One plane of the addition of `A` and `B`. -/
def planeCarry (A B : ℕ → BitVec n) (b : ℕ) : Carry n := ⟨A b &&& B b, A b ^^^ B b⟩

/-- **The planes up to `k`** make the carry into plane `k + 1`, when the first of them
generates the carry into plane 1. -/
theorem span_smul_zero {v : ℕ → Carry n} {A B : ℕ → BitVec n} {c : BitVec n}
    (h0 : (v 0).g = carryInto A B c 1) {k : ℕ} (h : ∀ b, 0 < b → b ≤ k → v b = planeCarry A B b) :
    Scan.span v 0 (k + 1) • (0 : BitVec n) = carryInto A B c (k + 1) := by
  induction k with
  | zero => rw [Scan.span, Scan.span, mul_one, Carry.smul_zero_eq, h0]
  | succ k ih =>
    rw [Scan.span, mul_smul, ih fun b hb hk => h b hb (Nat.le_succ_of_le hk), Nat.zero_add,
      h (k + 1) (Nat.succ_pos k) (Nat.le_refl _)]
    rfl

end BitPlane
end AarchGate
