/-
# Two elements with a property

When a list has two elements with a property, by their positions.
-/

import Mathlib.Data.List.Basic

namespace AarchGate
namespace Trace

variable {α : Type*} {p : α → Bool} {l : List α}

/-- Elements with the property at two positions count twice. -/
theorem two_le_countP {i j : ℕ} {x y : α} (hij : i < j) (hi : l[i]? = some x) (hx : p x = true)
    (hj : l[j]? = some y) (hy : p y = true) : 2 ≤ l.countP p := by
  have hfront : 0 < (l.take j).countP p := by
    refine List.countP_pos_iff.2 ⟨x, List.mem_of_getElem? (i := i) ?_, hx⟩
    rw [List.getElem?_take_of_lt hij, hi]
  have hback : 0 < (l.drop j).countP p := by
    refine List.countP_pos_iff.2 ⟨y, List.mem_of_getElem? (i := 0) ?_, hy⟩
    rw [List.getElem?_drop, Nat.add_zero, hj]
  rw [← List.take_append_drop j l, List.countP_append]
  omega

/-- **There are two elements with the property** exactly if two positions have one. -/
theorem two_le_countP_iff : 2 ≤ l.countP p ↔ ∃ (i j : ℕ) (x y : α), i ≠ j ∧
    l[i]? = some x ∧ p x = true ∧ l[j]? = some y ∧ p y = true := by
  constructor
  · intro h
    induction l with
    | nil => simp at h
    | cons z l ih =>
      by_cases hz : p z = true
      · rw [List.countP_cons_of_pos hz] at h
        obtain ⟨y, hy, hpy⟩ := List.countP_pos_iff.1 (show 0 < l.countP p by omega)
        obtain ⟨j, hj⟩ := List.mem_iff_getElem?.1 hy
        exact ⟨0, j + 1, z, y, by omega, rfl, hz, hj, hpy⟩
      · rw [List.countP_cons_of_neg hz] at h
        obtain ⟨i, j, x, y, hij, hi, hx, hj, hy⟩ := ih h
        exact ⟨i + 1, j + 1, x, y, by omega, hi, hx, hj, hy⟩
  · rintro ⟨i, j, x, y, hij, hi, hx, hj, hy⟩
    rcases Nat.lt_or_gt_of_ne hij with hlt | hlt
    · exact two_le_countP hlt hi hx hj hy
    · exact two_le_countP hlt hj hy hi hx

end Trace
end AarchGate
