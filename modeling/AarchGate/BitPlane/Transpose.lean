/-
# Transposing a bit matrix by stages

A square bit matrix with `2^k` rows, a row being one word, is transposed in `k`
stages.  Stage `s` exchanges bit `s` of the row number with bit `s` of the column
number: it swaps the two off-diagonal blocks of size `2^s` inside every block of
size `2^(s+1)` (`butterfly_exchanged`).  Stages compose by the exclusive or of
the bits they exchange (`Exchanged.trans`), and once all bits are exchanged the
matrix is transposed (`Exchanged.transpose`).
-/

import Mathlib.Algebra.Group.Nat.Defs
import Mathlib.Data.Nat.Init
import Mathlib.Tactic.SplitIfs

namespace AarchGate
namespace BitPlane

/-! ### Single bits of numbers -/

/-- To add a bit that is not there is to flip it. -/
theorem add_two_pow_eq_xor {x s : ℕ} (h : x.testBit s = false) : x + 2 ^ s = x ^^^ 2 ^ s := by
  refine Nat.eq_of_testBit_eq fun i => ?_
  rw [Nat.testBit_xor, Nat.testBit_two_pow]
  rcases Nat.lt_trichotomy i s with hi | rfl | hi
  · rw [Nat.add_comm, Nat.testBit_two_pow_add_gt hi]
    simp [Nat.ne_of_gt hi]
  · rw [Nat.add_comm, Nat.testBit_two_pow_add_eq, h]
    simp
  · -- no carry leaves bit `s`
    obtain ⟨d, rfl⟩ : ∃ d, i = d + (s + 1) := ⟨i - (s + 1), by omega⟩
    have heven : x / 2 ^ s % 2 = 0 := by
      have : ¬(x / 2 ^ s % 2 = 1) := by simpa [Nat.testBit_eq_decide_div_mod_eq] using h
      omega
    have hdiv : (x + 2 ^ s) / 2 ^ (s + 1) = x / 2 ^ (s + 1) := by
      rw [Nat.pow_succ, ← Nat.div_div_eq_div_mul, ← Nat.div_div_eq_div_mul,
        Nat.add_div_right _ (Nat.two_pow_pos s)]
      omega
    rw [Nat.testBit_add, Nat.testBit_add x, hdiv]
    simp [show ¬s = d + (s + 1) by omega]

/-- So is to take away one that is there. -/
theorem sub_two_pow_eq_xor {x s : ℕ} (h : x.testBit s = true) : x - 2 ^ s = x ^^^ 2 ^ s := by
  have hy : (x ^^^ 2 ^ s).testBit s = false := by simp [Nat.testBit_xor, h]
  have := add_two_pow_eq_xor hy
  rw [Nat.xor_assoc, Nat.xor_self, Nat.xor_zero] at this
  omega

/-- A number that lacks the bit has it when it is taken away. -/
theorem testBit_sub_two_pow {x s : ℕ} (h : x.testBit s = false) (hs : 2 ^ s ≤ x) :
    (x - 2 ^ s).testBit s = true := by
  have := Nat.testBit_two_pow_add_eq (x - 2 ^ s) s
  rw [Nat.add_sub_cancel' hs, h] at this
  simpa using this.symm

/-! ### Exchanging coordinates -/

/-- `r` with the bits in `m` taken from `c`. -/
def mix (m r c : ℕ) : ℕ := r ^^^ ((r ^^^ c) &&& m)

/-- A bit of the mixture is from one side. -/
theorem testBit_mix (m r c i : ℕ) :
    (mix m r c).testBit i = if m.testBit i then c.testBit i else r.testBit i := by
  simp only [mix, Nat.testBit_xor, Nat.testBit_and]
  cases m.testBit i <;> cases r.testBit i <;> cases c.testBit i <;> rfl

/-- Two exchanges are one, of the bits in which they differ. -/
theorem mix_mix (m₁ m₂ r c : ℕ) :
    mix m₁ (mix m₂ r c) (mix m₂ c r) = mix (m₁ ^^^ m₂) r c := by
  refine Nat.eq_of_testBit_eq fun i => ?_
  simp only [testBit_mix, Nat.testBit_xor]
  cases m₁.testBit i <;> cases m₂.testBit i <;> rfl

/-- A mixture is no longer than its sides. -/
theorem mix_lt {k m r c : ℕ} (hr : r < 2 ^ k) (hc : c < 2 ^ k) : mix m r c < 2 ^ k :=
  Nat.xor_lt_two_pow hr (Nat.lt_of_le_of_lt Nat.and_le_left (Nat.xor_lt_two_pow hr hc))

/-- The exchange of all bits. -/
theorem mix_all {k r c : ℕ} (hr : r < 2 ^ k) (hc : c < 2 ^ k) : mix (2 ^ k - 1) r c = c := by
  refine Nat.eq_of_testBit_eq fun i => ?_
  rw [testBit_mix, Nat.testBit_two_pow_sub_one]
  by_cases hi : i < k
  · simp [hi]
  · have hle : 2 ^ k ≤ 2 ^ i := Nat.pow_le_pow_right (by decide) (by omega)
    simp [hi, Nat.testBit_lt_two_pow (Nat.lt_of_lt_of_le hr hle),
      Nat.testBit_lt_two_pow (Nat.lt_of_lt_of_le hc hle)]

/-- One bit is exchanged. -/
theorem mix_two_pow (s r c : ℕ) :
    mix (2 ^ s) r c = if r.testBit s = c.testBit s then r
      else if r.testBit s then r - 2 ^ s else r + 2 ^ s := by
  have hbit : ∀ i, (mix (2 ^ s) r c).testBit i = if s = i then c.testBit i else r.testBit i := by
    intro i
    rw [testBit_mix, Nat.testBit_two_pow]
    simp
  have hflip : r.testBit s ≠ c.testBit s → mix (2 ^ s) r c = r ^^^ 2 ^ s := by
    intro hne
    refine Nat.eq_of_testBit_eq fun i => ?_
    rw [hbit, Nat.testBit_xor, Nat.testBit_two_pow]
    split_ifs with hi
    · subst hi
      cases hc : c.testBit s <;> simp_all
    · simp [hi]
  split_ifs with heq hr
  · refine Nat.eq_of_testBit_eq fun i => ?_
    rw [hbit]
    split_ifs with hi
    · rw [← hi, heq]
    · rfl
  · rw [sub_two_pow_eq_xor hr, hflip heq]
  · rw [add_two_pow_eq_xor (by simpa using hr), hflip heq]

variable {w : ℕ}

/-- `A'` is the matrix `A` with row and column numbers exchanged in the bits `m`. -/
def Exchanged (m : ℕ) (A A' : ℕ → BitVec w) : Prop :=
  ∀ r < w, ∀ c < w, (A' r).getLsbD c = (A (mix m r c)).getLsbD (mix m c r)

/-- **Stages compose.** -/
theorem Exchanged.trans {k m₁ m₂ : ℕ} (hw : w = 2 ^ k) {A A₁ A₂ : ℕ → BitVec w}
    (h₁ : Exchanged m₁ A A₁) (h₂ : Exchanged m₂ A₁ A₂) : Exchanged (m₁ ^^^ m₂) A A₂ := by
  subst hw
  intro r hr c hc
  rw [h₂ r hr c hc, h₁ _ (mix_lt hr hc) _ (mix_lt hc hr), mix_mix, mix_mix]

/-- **The transpose**: all bits are exchanged. -/
theorem Exchanged.transpose {k : ℕ} (hw : w = 2 ^ k) {A A' : ℕ → BitVec w}
    (h : Exchanged (2 ^ k - 1) A A') {r c : ℕ} (hr : r < w) (hc : c < w) :
    (A' r).getLsbD c = (A c).getLsbD r := by
  subst hw
  rw [h r hr c hc, mix_all hr hc, mix_all hc hr]

/-! ### One stage -/

/-- What a stage exchanges between the rows `r` and `r + 2^s`. -/
def delta (s : ℕ) (mask : BitVec w) (A : ℕ → BitVec w) (r : ℕ) : BitVec w :=
  ((A r >>> 2 ^ s) ^^^ A (r + 2 ^ s)) &&& mask

/-- The rows after stage `s`. -/
def butterfly (s : ℕ) (mask : BitVec w) (A : ℕ → BitVec w) (r : ℕ) : BitVec w :=
  if r.testBit s then A r ^^^ delta s mask A (r - 2 ^ s) else A r ^^^ (delta s mask A r <<< 2 ^ s)

/-- **A stage exchanges one bit of the row and column numbers**, if its mask
selects the columns in which that bit is 0. -/
theorem butterfly_exchanged {s : ℕ} {mask : BitVec w}
    (hmask : ∀ c < w, mask.getLsbD c = !c.testBit s) (A : ℕ → BitVec w) :
    Exchanged (2 ^ s) A (butterfly s mask A) := by
  intro r _ c hc
  rw [mix_two_pow, mix_two_pow, butterfly]
  cases hrs : r.testBit s with
  | true =>
    have hge := Nat.ge_two_pow_of_testBit hrs
    simp only [if_true, BitVec.getLsbD_xor, delta, BitVec.getLsbD_and, BitVec.getLsbD_ushiftRight,
      hmask c hc, Nat.sub_add_cancel hge]
    cases hcs : c.testBit s with
    | true => simp
    | false =>
      simp only [Bool.true_eq_false, if_false, Bool.not_false, Bool.and_true, Bool.false_eq_true]
      rw [Nat.add_comm (2 ^ s) c, Bool.xor_comm ((A (r - 2 ^ s)).getLsbD _), ← Bool.xor_assoc,
        Bool.xor_self, Bool.false_xor]
  | false =>
    simp only [Bool.false_eq_true, if_false, BitVec.getLsbD_xor, BitVec.getLsbD_shiftLeft, delta,
      BitVec.getLsbD_and, BitVec.getLsbD_ushiftRight, hc, decide_true, Bool.true_and]
    cases hcs : c.testBit s with
    | true =>
      have hge := Nat.ge_two_pow_of_testBit hcs
      have hsub : (c - 2 ^ s).testBit s = false := by
        rw [sub_two_pow_eq_xor hcs]
        simp [Nat.testBit_xor, hcs]
      rw [hmask _ (Nat.lt_of_le_of_lt (Nat.sub_le ..) hc), hsub, Nat.add_sub_cancel' hge]
      simp only [decide_eq_false (Nat.not_lt.2 hge), Bool.not_false, Bool.true_and, Bool.and_true,
        Bool.false_eq_true, Bool.true_eq_false, if_false, if_true]
      rw [← Bool.xor_assoc, Bool.xor_self, Bool.false_xor]
    | false =>
      by_cases hge : 2 ^ s ≤ c
      · rw [hmask _ (Nat.lt_of_le_of_lt (Nat.sub_le ..) hc), testBit_sub_two_pow hcs hge]
        simp
      · simp [Nat.not_le.1 hge]

end BitPlane
end AarchGate
