/-
# Arithmetic on bit-planes

A block of `n` values of `w` bits can be stored by rows, one value after the
other, or by *planes*: plane `b` is the `n`-bit word whose bit `r` is bit `b` of
value `r`.  One logical instruction on planes then works on all `n` values at
once, and arithmetic becomes a circuit over the planes.

`Planes P v` relates the two views.  The ripple-carry adder is addition with a
carry-in of its own in every lane (`Planes.add`), the complement of the planes
is the complement of the values (`Planes.not`), the most-significant-first
comparator decides `<` and `=` (`compareUpTo_lane`), and the multiplexer chooses per
lane (`Planes.mux`).  Every statement is about one lane: bit `r` of a result
depends on bit `r` of the operands only.
-/

import Mathlib.Data.Nat.Bits
import Mathlib.Tactic.Ring

namespace AarchGate
namespace BitPlane

variable {n w : ℕ}

/-- A truth value as a number. -/
def bit (b : Bool) : BitVec w := if b then 1 else 0

@[simp] theorem bit_true : (bit true : BitVec w) = 1 := rfl

@[simp] theorem bit_false : (bit false : BitVec w) = 0 := rfl

/-- A bit as it is isolated by a shift. -/
theorem shiftRight_and_one (x : BitVec 64) (i : ℕ) : (x >>> i) &&& 1 = bit (x.getLsbD i) := by
  show (x >>> i) &&& 1#64 = _
  rw [BitVec.and_one_eq_setWidth_ofBool_getLsbD, BitVec.getLsbD_ushiftRight, Nat.add_zero]
  cases x.getLsbD i <;> rfl

/-- The number is not zero for true. -/
theorem bit_ne_zero (b : Bool) : (bit b : BitVec 64) ≠ 0 ↔ b = true := by cases b <;> simp

/-- `P` holds the bit-planes of the lanes `v`: bit `r` of plane `b` is bit `b`
of lane `r`. -/
def Planes (P : ℕ → BitVec n) (v : ℕ → BitVec w) : Prop :=
  ∀ b < w, ∀ r < n, (P b).getLsbD r = (v r).getLsbD b

/-- The word `m` is the mask of the lanes on which `p` is true. -/
def Mask (m : BitVec n) (p : ℕ → Bool) : Prop := ∀ r < n, m.getLsbD r = p r

/-- Other planes with the same words. -/
theorem Planes.congr {P Q : ℕ → BitVec n} {v : ℕ → BitVec w} (h : Planes P v)
    (hQ : ∀ b < w, Q b = P b) : Planes Q v := fun b hb r hr => by
  rw [hQ b hb]; exact h b hb r hr

/-- Only the values of the lanes matter. -/
theorem Planes.lanes {P : ℕ → BitVec n} {v u : ℕ → BitVec w} (h : Planes P v)
    (hu : ∀ r < n, u r = v r) : Planes P u := fun b hb r hr => by
  rw [hu r hr]; exact h b hb r hr

/-- The planes determine the lanes. -/
theorem Planes.lane_unique {P : ℕ → BitVec n} {v u : ℕ → BitVec w} (hv : Planes P v)
    (hu : Planes P u) {r : ℕ} (hr : r < n) : v r = u r :=
  BitVec.eq_of_getLsbD_eq fun b hb => by rw [← hv b hb r hr, hu b hb r hr]

/-- The planes of as many lanes as there are bits are lanes of the same kind. -/
theorem Planes.symm {P v : ℕ → BitVec n} (h : Planes P v) : Planes v P := fun b hb r hr =>
  (h r hr b hb).symm

/-- The lanes of given planes. -/
def laneOf (w : ℕ) (P : ℕ → BitVec n) (r : ℕ) : BitVec w :=
  (BitVec.ofBoolListLE ((List.range w).map fun b => (P b).getLsbD r)).setWidth w

/-- Any planes are the planes of some lanes. -/
theorem planes_laneOf (P : ℕ → BitVec n) : Planes P (laneOf w P) := by
  intro b hb r _
  rw [laneOf, BitVec.getLsbD_setWidth, BitVec.getLsbD_ofBoolListLE]
  simp [hb, List.getD]

/-- Only the lanes of the word matter. -/
theorem Mask.congr {m : BitVec n} {p q : ℕ → Bool} (h : Mask m p) (hq : ∀ r < n, q r = p r) :
    Mask m q := fun r hr => by rw [h r hr, hq r hr]

/-- A mask is determined by its lanes. -/
theorem Mask.eq {m m' : BitVec n} {p : ℕ → Bool} (h : Mask m p) (h' : Mask m' p) : m = m' :=
  BitVec.eq_of_getLsbD_eq fun r hr => by rw [h r hr, h' r hr]

/-- Both masks. -/
theorem Mask.and {m m' : BitVec n} {p q : ℕ → Bool} (h : Mask m p) (h' : Mask m' q) :
    Mask (m &&& m') (fun r => p r && q r) := fun r hr => by
  rw [BitVec.getLsbD_and, h r hr, h' r hr]

/-- One of the masks. -/
theorem Mask.or {m m' : BitVec n} {p q : ℕ → Bool} (h : Mask m p) (h' : Mask m' q) :
    Mask (m ||| m') (fun r => p r || q r) := fun r hr => by
  rw [BitVec.getLsbD_or, h r hr, h' r hr]

/-- The other lanes. -/
theorem Mask.not {m : BitVec n} {p : ℕ → Bool} (h : Mask m p) :
    Mask (~~~m) (fun r => !p r) := fun r hr => by
  rw [BitVec.getLsbD_not, h r hr]; simp [hr]

/-- No lane at all. -/
theorem Mask.zero : Mask (0 : BitVec n) (fun _ => false) := fun r _ => by simp

/-! ### Addition -/

/-- The word of carries into bit `k` of the ripple-carry adder started with the
carry word `c`. -/
def carryInto (A B : ℕ → BitVec n) (c : BitVec n) : ℕ → BitVec n
  | 0 => c
  | k + 1 => (A k &&& B k) ||| ((A k ^^^ B k) &&& carryInto A B c k)

/-- Every lane of the carry word is the carry of that lane's addition. -/
theorem carryInto_lane {A B : ℕ → BitVec n} {a b : ℕ → BitVec w} (hA : Planes A a)
    (hB : Planes B b) (c : BitVec n) {r : ℕ} (hr : r < n) :
    ∀ k ≤ w, (carryInto A B c k).getLsbD r = BitVec.carry k (a r) (b r) (c.getLsbD r) := by
  intro k hk
  induction k with
  | zero => simp [carryInto]
  | succ k ih =>
    rw [BitVec.carry_succ, carryInto, BitVec.getLsbD_or, BitVec.getLsbD_and, BitVec.getLsbD_and,
      BitVec.getLsbD_xor, hA k (by omega) r hr, hB k (by omega) r hr, ih (by omega)]
    cases (a r).getLsbD k <;> cases (b r).getLsbD k <;> simp [Bool.atLeastTwo]

/-- **The ripple-carry adder adds in every lane**, with the carry-in of that
lane. -/
theorem Planes.add {A B : ℕ → BitVec n} {a b : ℕ → BitVec w} (hA : Planes A a) (hB : Planes B b)
    (c : BitVec n) :
    Planes (fun k => A k ^^^ B k ^^^ carryInto A B c k)
      (fun r => a r + b r + BitVec.setWidth w (BitVec.ofBool (c.getLsbD r))) := by
  intro k hk r hr
  rw [BitVec.getLsbD_xor, BitVec.getLsbD_xor, hA k hk r hr, hB k hk r hr,
    carryInto_lane hA hB c hr k (by omega), BitVec.getLsbD_add_add_bool hk, Bool.xor_assoc]

/-- The complement of the planes is the complement of the lanes. -/
theorem Planes.not {B : ℕ → BitVec n} {b : ℕ → BitVec w} (hB : Planes B b) :
    Planes (fun k => ~~~B k) (fun r => ~~~b r) := fun k hk r hr => by
  rw [BitVec.getLsbD_not, BitVec.getLsbD_not, hB k hk r hr, decide_eq_true hk, decide_eq_true hr]

/-- The planes of a constant: all ones where its bit is set, zero elsewhere. -/
theorem planes_const (v : BitVec w) :
    Planes (fun b => if v.getLsbD b then BitVec.allOnes n else 0) (fun _ => v) := by
  intro b _ r hr
  by_cases h : v.getLsbD b
  · simp [h, hr]
  · simp [h]

/-! ### Selection -/

/-- **The multiplexer chooses per lane.** -/
theorem Planes.mux {A B : ℕ → BitVec n} {a b : ℕ → BitVec w} {m : BitVec n} {p : ℕ → Bool}
    (hm : Mask m p) (hA : Planes A a) (hB : Planes B b) :
    Planes (fun k => (m &&& A k) ||| (B k &&& ~~~m)) (fun r => if p r then a r else b r) := by
  intro k hk r hr
  rw [BitVec.getLsbD_or, BitVec.getLsbD_and, BitVec.getLsbD_and, BitVec.getLsbD_not, hm r hr,
    hA k hk r hr, hB k hk r hr, decide_eq_true hr]
  by_cases h : p r
  · simp [h]
  · simp [h]

/-! ### Comparison -/

/-- The greater-than and equal masks after the `k` most significant of `w`
planes. -/
def compareUpTo (A B : ℕ → BitVec n) (w : ℕ) (gt eq : BitVec n) : ℕ → BitVec n × BitVec n
  | 0 => (gt, eq)
  | k + 1 =>
      let s := compareUpTo A B w gt eq k
      let b := w - 1 - k
      (s.1 ||| ((A b &&& ~~~B b) &&& s.2), s.2 &&& ~~~(A b ^^^ B b))

/-- After `k` planes the masks compare the `k` leading bits of every lane. -/
theorem compareUpTo_lane {A B : ℕ → BitVec n} {a b : ℕ → BitVec w} (hA : Planes A a)
    (hB : Planes B b) {r : ℕ} (hr : r < n) :
    ∀ k ≤ w,
      (compareUpTo A B w 0 (BitVec.allOnes n) k).1.getLsbD r =
          decide ((b r).toNat / 2 ^ (w - k) < (a r).toNat / 2 ^ (w - k)) ∧
        (compareUpTo A B w 0 (BitVec.allOnes n) k).2.getLsbD r =
          decide ((a r).toNat / 2 ^ (w - k) = (b r).toNat / 2 ^ (w - k)) := by
  intro k hk
  induction k with
  | zero =>
    have ha : (a r).toNat / 2 ^ w = 0 := Nat.div_eq_of_lt (a r).isLt
    have hb : (b r).toNat / 2 ^ w = 0 := Nat.div_eq_of_lt (b r).isLt
    simp [compareUpTo, ha, hb, hr]
  | succ k ih =>
    obtain ⟨ihg, ihe⟩ := ih (by omega)
    -- one more leading bit: `v / 2^j = 2 * (v / 2^(j+1)) + bit j`
    have hbit : ∀ v : BitVec w, v.getLsbD (w - 1 - k) =
        decide (v.toNat / 2 ^ (w - (k + 1)) % 2 = 1) := by
      intro v
      rw [show w - 1 - k = w - (k + 1) by omega, BitVec.getLsbD, Nat.testBit_eq_decide_div_mod_eq]
    have hdiv : ∀ v : BitVec w, v.toNat / 2 ^ (w - k) = v.toNat / 2 ^ (w - (k + 1)) / 2 := by
      intro v
      rw [Nat.div_div_eq_div_mul, ← pow_succ, show w - (k + 1) + 1 = w - k by omega]
    rw [hdiv, hdiv] at ihg ihe
    have hj : w - 1 - k < w := by omega
    simp only [compareUpTo, BitVec.getLsbD_or, BitVec.getLsbD_and, BitVec.getLsbD_not,
      BitVec.getLsbD_xor, hA _ hj r hr, hB _ hj r hr, ihg, ihe, hbit, hr, decide_true,
      Bool.true_and]
    generalize (a r).toNat / 2 ^ (w - (k + 1)) = x
    generalize (b r).toNat / 2 ^ (w - (k + 1)) = y
    constructor
    · rw [Bool.eq_iff_iff]
      simp only [Bool.or_eq_true, Bool.and_eq_true, decide_eq_true_eq, Bool.not_eq_true',
        decide_eq_false_iff_not]
      omega
    · rw [Bool.eq_iff_iff]
      simp only [Bool.and_eq_true, decide_eq_true_eq, Bool.not_eq_true', bne_eq_false_iff_eq,
        decide_eq_decide]
      omega

/-- **The comparator decides the unsigned order** once every plane is in. -/
theorem compareUpTo_gt {A B : ℕ → BitVec n} {a b : ℕ → BitVec w} (hA : Planes A a)
    (hB : Planes B b) :
    Mask (compareUpTo A B w 0 (BitVec.allOnes n) w).1 (fun r => decide (b r < a r)) := by
  intro r hr
  have h := (compareUpTo_lane hA hB hr w le_rfl).1
  rw [Nat.sub_self, pow_zero, Nat.div_one, Nat.div_one] at h
  exact h.trans (decide_eq_decide.2 BitVec.lt_def.symm)

/-- … and equality. -/
theorem compareUpTo_eq {A B : ℕ → BitVec n} {a b : ℕ → BitVec w} (hA : Planes A a)
    (hB : Planes B b) :
    Mask (compareUpTo A B w 0 (BitVec.allOnes n) w).2 (fun r => decide (a r = b r)) := by
  intro r hr
  have h := (compareUpTo_lane hA hB hr w le_rfl).2
  rw [Nat.sub_self, pow_zero, Nat.div_one, Nat.div_one] at h
  exact h.trans (decide_eq_decide.2 BitVec.toNat_inj)

/-- At most is less or equal. -/
theorem decide_le_eq_or (x y : BitVec w) :
    decide (x ≤ y) = (decide (x < y) || decide (x = y)) := by
  rw [Bool.eq_iff_iff, Bool.or_eq_true, decide_eq_true_iff, decide_eq_true_iff, decide_eq_true_iff,
    BitVec.le_def, BitVec.lt_def, ← BitVec.toNat_inj]
  omega

end BitPlane
end AarchGate
