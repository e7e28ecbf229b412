/-
# Records of a fixed size in a stream

A reader of a stream collects what arrives in a buffer and, as long as the buffer holds
a whole record of `n` elements, takes it off the front.  `drain` is that inner loop.

What has been taken off and what is left are the stream (`drain_flatten`), and less than a
record is left (`drain_rest_lt`); these two determine the result (`drain_eq`).  So it does
not matter in which pieces the stream arrives (`drain_append`), and more of the stream
only adds records (`drain_prefix`).
-/

import Mathlib.Algebra.GroupWithZero.Nat
import Mathlib.Data.List.Basic

namespace AarchGate
namespace Framing

variable {α : Type*}

/-- A record of `n` elements. -/
abbrev Record (α : Type*) (n : ℕ) := { xs : List α // xs.length = n }

/-- A record has its size. -/
@[simp] theorem Record.length_val {n : ℕ} (r : Record α n) : r.val.length = n := r.property

/-- The elements of a list of records. -/
def flatten {n : ℕ} (rs : List (Record α n)) : List α := rs.flatMap Subtype.val

section Flatten

variable {n : ℕ}

@[simp] theorem flatten_nil : flatten ([] : List (Record α n)) = [] := rfl

/-- The first record and the rest. -/
@[simp] theorem flatten_cons (r : Record α n) (rs : List (Record α n)) :
    flatten (r :: rs) = r.val ++ flatten rs := rfl

/-- Records one after the other. -/
@[simp] theorem flatten_append (rs ss : List (Record α n)) :
    flatten (rs ++ ss) = flatten rs ++ flatten ss := List.flatMap_append

/-- The length of a stream. -/
@[simp] theorem length_flatten (rs : List (Record α n)) :
    (flatten rs).length = rs.length * n := by
  induction rs with
  | nil => simp
  | cons r rs ih =>
    rw [flatten_cons, List.length_append, ih, r.property, List.length_cons, Nat.succ_mul,
      Nat.add_comm]

end Flatten

/-- Takes records off the front of the buffer, as long as there is one. -/
def drain (n : ℕ) [NeZero n] (buffer : List α) : List (Record α n) × List α :=
  if h : n ≤ buffer.length then
    let r := drain n (buffer.drop n)
    (⟨buffer.take n, List.length_take_of_le h⟩ :: r.1, r.2)
  else ([], buffer)
termination_by buffer.length
decreasing_by
  have := Nat.pos_of_neZero n
  rw [List.length_drop]
  omega

variable {n : ℕ} [NeZero n]

/-- Nothing comes off a buffer that is too short. -/
theorem drain_of_lt {buffer : List α} (h : buffer.length < n) : drain n buffer = ([], buffer) := by
  rw [drain, dif_neg (by omega)]

/-- A record comes off the front. -/
theorem drain_of_le {buffer : List α} (h : n ≤ buffer.length) :
    drain n buffer = (⟨buffer.take n, List.length_take_of_le h⟩ :: (drain n (buffer.drop n)).1,
      (drain n (buffer.drop n)).2) := by
  rw [drain, dif_pos h]

/-- **Nothing is lost**: the records and the rest are the buffer. -/
theorem drain_flatten (buffer : List α) :
    flatten (drain n buffer).1 ++ (drain n buffer).2 = buffer := by
  fun_induction drain n buffer with
  | case1 buffer h r ih =>
    change buffer.take n ++ flatten r.1 ++ r.2 = buffer
    rw [List.append_assoc, ih, List.take_append_drop]
  | case2 buffer h => rfl

/-- **Less than a record is left.** -/
theorem drain_rest_lt (buffer : List α) : (drain n buffer).2.length < n := by
  fun_induction drain n buffer with
  | case1 buffer h r ih => exact ih
  | case2 buffer h => exact Nat.lt_of_not_le h

/-- **The two determine the result.** -/
theorem drain_eq (rs : List (Record α n)) {rest : List α} (h : rest.length < n) :
    drain n (flatten rs ++ rest) = (rs, rest) := by
  induction rs with
  | nil => exact drain_of_lt h
  | cons r rs ih =>
    have hlen : r.val.length = n := r.property
    rw [flatten_cons, List.append_assoc, drain_of_le (by simp [hlen])]
    simp only [List.drop_left' hlen, List.take_left' hlen, ih]

/-- **The pieces in which the stream arrives do not matter.** -/
theorem drain_append (xs ys : List α) :
    drain n (xs ++ ys) =
      ((drain n xs).1 ++ (drain n ((drain n xs).2 ++ ys)).1, (drain n ((drain n xs).2 ++ ys)).2) := by
  have h := drain_eq ((drain n xs).1 ++ (drain n ((drain n xs).2 ++ ys)).1)
    (drain_rest_lt ((drain n xs).2 ++ ys))
  rwa [flatten_append, List.append_assoc, drain_flatten, ← List.append_assoc, drain_flatten] at h

/-- More of the stream adds records. -/
theorem drain_prefix {xs ys : List α} (h : xs <+: ys) : (drain n xs).1 <+: (drain n ys).1 := by
  obtain ⟨zs, rfl⟩ := h
  rw [drain_append]
  exact List.prefix_append ..

/-- How many records come off. -/
theorem drain_length (buffer : List α) : (drain n buffer).1.length = buffer.length / n := by
  have hlen := congrArg List.length (drain_flatten (n := n) buffer)
  rw [List.length_append, length_flatten] at hlen
  rw [← hlen, Nat.mul_comm, Nat.mul_add_div (Nat.pos_of_neZero n), Nat.div_eq_of_lt (drain_rest_lt buffer),
    Nat.add_zero]

/-- The rest is what lies behind the records. -/
theorem drain_rest (buffer : List α) :
    (drain n buffer).2 = buffer.drop (buffer.length / n * n) := by
  have hlen : (flatten (drain n buffer).1).length = buffer.length / n * n := by
    rw [length_flatten, drain_length]
  have h : (flatten (drain n buffer).1 ++ (drain n buffer).2).drop (buffer.length / n * n) =
      (drain n buffer).2 := List.drop_left' hlen
  rwa [drain_flatten, eq_comm] at h

/-- The records are the consecutive slices of the stream. -/
theorem drain_slices (buffer : List α) :
    (drain n buffer).1.map Subtype.val =
      (List.range (buffer.length / n)).map fun k => (buffer.drop (k * n)).take n := by
  fun_induction drain n buffer with
  | case1 buffer h r ih =>
    have hdiv : buffer.length / n = (buffer.drop n).length / n + 1 := by
      rw [List.length_drop, Nat.div_eq_sub_div (Nat.pos_of_neZero n) h]
    rw [List.map_cons, ih, hdiv, List.range_succ_eq_map, List.map_cons, List.map_map]
    simp only [Nat.zero_mul, List.drop_zero, List.cons.injEq, true_and]
    refine List.map_congr_left fun k _ => ?_
    rw [List.drop_drop, Function.comp_apply, Nat.succ_mul, Nat.add_comm]
  | case2 buffer h => rw [Nat.div_eq_of_lt (by omega)]; rfl

end Framing
end AarchGate
