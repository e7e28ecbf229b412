/-
# Little-endian integers

An integer of `k` bytes as the list of its bytes, the least significant one first
(`leBytes`), and back (`leValue`).  The two are inverse to each other on integers below
`256 ^ k` and on lists of `k` bytes.
-/

import Mathlib.Algebra.GroupWithZero.Nat
import Mathlib.Data.List.Basic

namespace AarchGate
namespace Framing

/-- A byte. -/
abbrev Byte := BitVec 8

/-- The `k` bytes of an integer. -/
def leBytes : ℕ → ℕ → List Byte
  | 0, _ => []
  | k + 1, v => BitVec.ofNat 8 v :: leBytes k (v / 256)

/-- The integer of a list of bytes. -/
def leValue : List Byte → ℕ
  | [] => 0
  | b :: bs => b.toNat + 256 * leValue bs

/-- As many bytes as asked for. -/
@[simp] theorem length_leBytes (k v : ℕ) : (leBytes k v).length = k := by
  induction k generalizing v with
  | zero => rfl
  | succ k ih => rw [leBytes, List.length_cons, ih]

/-- **A number is read back from its bytes**, if it fits. -/
theorem leValue_leBytes {k v : ℕ} (h : v < 256 ^ k) : leValue (leBytes k v) = v := by
  induction k generalizing v with
  | zero =>
    rw [Nat.pow_zero] at h
    rw [leBytes, leValue]
    omega
  | succ k ih =>
    have hdiv : v / 256 < 256 ^ k := Nat.div_lt_of_lt_mul (by rw [Nat.mul_comm, ← Nat.pow_succ]; exact h)
    rw [leBytes, leValue, ih hdiv, BitVec.toNat_ofNat]
    omega

/-- **Bytes are written back from their number.** -/
theorem leBytes_leValue (bs : List Byte) : leBytes bs.length (leValue bs) = bs := by
  induction bs with
  | nil => rfl
  | cons b bs ih =>
    have hb : b.toNat < 256 := b.isLt
    have hdiv : (b.toNat + 256 * leValue bs) / 256 = leValue bs := by omega
    rw [List.length_cons, leValue, leBytes, hdiv, ih]
    congr 1
    refine BitVec.eq_of_toNat_eq ?_
    rw [BitVec.toNat_ofNat]
    omega

/-- A number of so many bytes. -/
theorem leValue_lt (bs : List Byte) : leValue bs < 256 ^ bs.length := by
  induction bs with
  | nil => simp [leValue]
  | cons b bs ih =>
    have hb : b.toNat < 256 := b.isLt
    rw [leValue, List.length_cons, Nat.pow_succ]
    omega

/-- The bytes are determined by their number and their value. -/
theorem leValue_inj {as bs : List Byte} (hlen : as.length = bs.length)
    (h : leValue as = leValue bs) : as = bs := by
  rw [← leBytes_leValue as, ← leBytes_leValue bs, hlen, h]

/-! ### Machine integers -/

/-- The bytes of a machine integer of `k` bytes. -/
def wordBytes {w : ℕ} (k : ℕ) (v : BitVec w) : List Byte := leBytes k v.toNat

/-- The machine integer of a list of bytes. -/
def ofWordBytes (w : ℕ) (bs : List Byte) : BitVec w := BitVec.ofNat w (leValue bs)

/-- As many bytes as asked for. -/
@[simp] theorem length_wordBytes {w : ℕ} (k : ℕ) (v : BitVec w) : (wordBytes k v).length = k :=
  length_leBytes ..

/-- A word is read back from its bytes. -/
theorem ofWordBytes_wordBytes {w k : ℕ} (hw : 2 ^ w = 256 ^ k) (v : BitVec w) :
    ofWordBytes w (wordBytes k v) = v := by
  rw [ofWordBytes, wordBytes, leValue_leBytes (hw ▸ v.isLt), BitVec.ofNat_toNat, BitVec.setWidth_eq]

/-- And bytes from their word. -/
theorem wordBytes_ofWordBytes {w : ℕ} {bs : List Byte} (hw : 2 ^ w = 256 ^ bs.length) :
    wordBytes bs.length (ofWordBytes w bs) = bs := by
  rw [wordBytes, ofWordBytes, BitVec.toNat_ofNat, hw, Nat.mod_eq_of_lt (leValue_lt bs),
    leBytes_leValue]

/-- A machine integer that is wide enough is determined by the value. -/
theorem ofWordBytes_inj {w : ℕ} {as bs : List Byte} (ha : leValue as < 2 ^ w)
    (hb : leValue bs < 2 ^ w) : ofWordBytes w as = ofWordBytes w bs ↔ leValue as = leValue bs := by
  constructor
  · intro h
    have h' := congrArg BitVec.toNat h
    rwa [ofWordBytes, ofWordBytes, BitVec.toNat_ofNat, BitVec.toNat_ofNat, Nat.mod_eq_of_lt ha,
      Nat.mod_eq_of_lt hb] at h'
  · intro h
    rw [ofWordBytes, ofWordBytes, h]

end Framing
end AarchGate
