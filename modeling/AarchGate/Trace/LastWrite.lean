/-
# The last write

A state holds entries under keys.  An action writes the entry of a key, removes it, or
leaves it as it is, and what it writes may depend on the whole state.

An entry is there exactly when the run has a last write to its key, with no removal
after it, and it is what this write wrote then (`Store.get_eq_some_iff`).
-/

import AarchGate.Trace.Along

namespace AarchGate
namespace Trace

/-- A system whose actions write and remove entries. -/
structure Store (σ α κ ν : Type*) where
  step : σ → α → σ
  get : σ → κ → Option ν
  Writes : α → κ → Prop
  Removes : α → κ → Prop
  value : σ → α → Option ν
  get_write : ∀ {s a q}, Writes a q → get (step s a) q = value s a
  get_remove : ∀ {s a q}, Removes a q → get (step s a) q = none
  get_other : ∀ {s a q}, ¬Writes a q → ¬Removes a q → get (step s a) q = get s q
  not_writes : ∀ {a q}, Removes a q → ¬Writes a q

namespace Store

variable {σ α κ ν : Type*} (S : Store σ α κ ν)

/-- The state before action `n`. -/
def state (s : σ) (as : List α) (n : ℕ) : σ := run S.step s (as.take n)

/-- Action `i` is the last write to the key before action `n`, and no removal follows it. -/
structure LastWrite (as : List α) (n : ℕ) (q : κ) (i : ℕ) : Prop where
  lt : i < n
  writes : ∃ a, as[i]? = some a ∧ S.Writes a q
  after : ∀ j a, i < j → j < n → as[j]? = some a → ¬S.Writes a q ∧ ¬S.Removes a q

variable {S} {s : σ} {as : List α} {n i : ℕ} {a : α} {q : κ}

/-- The state after an action. -/
theorem state_succ_some (ha : as[n]? = some a) :
    S.state s as (n + 1) = S.step (S.state s as n) a := by
  simp [state, run, List.take_add_one, ha]

/-- And after the last one. -/
theorem state_succ_none (ha : as[n]? = none) : S.state s as (n + 1) = S.state s as n := by
  simp [state, List.take_add_one, ha]

/-- A write is the last one. -/
theorem lastWrite_succ_write (ha : as[n]? = some a) (hw : S.Writes a q) :
    S.LastWrite as (n + 1) q i ↔ i = n := by
  constructor
  · intro h
    by_contra hne
    exact (h.after n a (by have := h.lt; omega) (Nat.lt_succ_self n) ha).1 hw
  · rintro rfl
    exact ⟨Nat.lt_succ_self i, ⟨a, ha, hw⟩, fun j _ hij hj => by omega⟩

/-- After a removal there is none. -/
theorem not_lastWrite_succ_remove (ha : as[n]? = some a) (hr : S.Removes a q) :
    ¬S.LastWrite as (n + 1) q i := by
  intro h
  rcases Nat.lt_succ_iff_lt_or_eq.1 h.lt with hlt | rfl
  · exact (h.after n a hlt (Nat.lt_succ_self n) ha).2 hr
  · obtain ⟨a', ha', hw⟩ := h.writes
    obtain rfl := Option.some.inj (ha.symm.trans ha')
    exact S.not_writes hr hw

/-- Another action leaves it the last one. -/
theorem lastWrite_succ_other (ha : ∀ a, as[n]? = some a → ¬S.Writes a q ∧ ¬S.Removes a q) :
    S.LastWrite as (n + 1) q i ↔ S.LastWrite as n q i := by
  constructor
  · intro h
    have hne : i ≠ n := by
      rintro rfl
      obtain ⟨a, hi, hw⟩ := h.writes
      exact (ha a hi).1 hw
    exact ⟨by have := h.lt; omega, h.writes, fun j a hij hj => h.after j a hij (by omega)⟩
  · intro h
    refine ⟨by have := h.lt; omega, h.writes, fun j a hij hj hja => ?_⟩
    by_cases hjn : j = n
    · exact ha a (hjn ▸ hja)
    · exact h.after j a hij (by omega) hja

/-- **An entry is what the last write wrote**, from a state without entries. -/
theorem get_eq_some_iff (hs : ∀ q, S.get s q = none) {v : ν} :
    S.get (S.state s as n) q = some v ↔
      ∃ i a, S.LastWrite as n q i ∧ as[i]? = some a ∧ S.value (S.state s as i) a = some v := by
  induction n with
  | zero =>
    rw [state, List.take_zero, run, List.foldl_nil, hs]
    constructor
    · exact fun h => absurd h (by simp)
    · exact fun ⟨i, _, h, _⟩ => absurd h.lt (Nat.not_lt_zero i)
  | succ n ih =>
    cases ha : as[n]? with
    | none =>
      simp only [state_succ_none ha, ih,
        lastWrite_succ_other fun a h => absurd (ha.symm.trans h) (by simp)]
    | some a =>
      rw [state_succ_some ha]
      by_cases hw : S.Writes a q
      · simp only [S.get_write hw, lastWrite_succ_write ha hw]
        constructor
        · exact fun h => ⟨n, a, rfl, ha, h⟩
        · rintro ⟨i, a', rfl, ha', h⟩
          obtain rfl := Option.some.inj (ha.symm.trans ha')
          exact h
      · by_cases hr : S.Removes a q
        · rw [S.get_remove hr]
          constructor
          · exact fun h => absurd h (by simp)
          · exact fun ⟨_, _, h, _⟩ => absurd h (not_lastWrite_succ_remove ha hr)
        · have hother : ∀ a', as[n]? = some a' → ¬S.Writes a' q ∧ ¬S.Removes a' q := by
            intro a' ha'
            obtain rfl := Option.some.inj (ha.symm.trans ha')
            exact ⟨hw, hr⟩
          simp only [S.get_other hw hr, ih, lastWrite_succ_other hother]

end Store

end Trace
end AarchGate
