/-
# Scratchpad allocation

`ScratchpadManager` in `src/jit/compiler.cpp`: a bitmap of `MAX_SLOTS = 32768`
words, from which `alloc_slot` takes the first free word and `alloc_block` the
first free 64-aligned run of 64 words.  Both return `-1` when there is none.

`allocSlot_spec` and `allocBlock_spec` say what a call does: the words it hands
out were free, are marked, and nothing else changes.
-/

import Mathlib.Data.Int.Basic
import Mathlib.Data.List.Basic
import Mathlib.Tactic.SplitIfs

namespace AarchGate
namespace Jit

/-- `ScratchpadManager::MAX_SLOTS`. -/
def maxSlots : ℕ := 32768

/-- `ScratchpadManager`: the words in use. -/
structure ScratchpadManager where
  used : ℕ → Bool

namespace ScratchpadManager

/-- The empty bitmap. -/
def init : ScratchpadManager := ⟨fun _ => false⟩

/-- The bitmap with the words `i … i + n - 1` marked. -/
def mark (M : ScratchpadManager) (i n : ℕ) : ScratchpadManager :=
  ⟨fun s => if i ≤ s ∧ s < i + n then true else M.used s⟩

/-- The search loop of `alloc_slot`, from word `i`. -/
def findSlot (M : ScratchpadManager) : ℕ → ℕ → Option ℕ
  | 0, _ => none
  | fuel + 1, i => if M.used i then findSlot M fuel (i + 1) else some i

/-- Whether the 64 words from `i` are all free. -/
def blockFree (M : ScratchpadManager) (i : ℕ) : Bool :=
  (List.range 64).all fun j => !M.used (i + j)

/-- The search loop of `alloc_block`, from word `i`. -/
def findBlock (M : ScratchpadManager) : ℕ → ℕ → Option ℕ
  | 0, _ => none
  | fuel + 1, i => if M.blockFree i then some i else findBlock M fuel (i + 64)

/-- `alloc_slot`. -/
def allocSlot (M : ScratchpadManager) : ℤ × ScratchpadManager :=
  match M.findSlot maxSlots 0 with
  | some i => (i, M.mark i 1)
  | none => (-1, M)

/-- `alloc_block`. -/
def allocBlock (M : ScratchpadManager) : ℤ × ScratchpadManager :=
  match M.findBlock (maxSlots / 64) 0 with
  | some i => (i, M.mark i 64)
  | none => (-1, M)

/-- `free_slot`. -/
def freeSlot (M : ScratchpadManager) (id : ℤ) : ScratchpadManager :=
  if 0 ≤ id ∧ id < maxSlots then ⟨fun s => if (s : ℤ) = id then false else M.used s⟩ else M

/-- The slots that are marked. -/
@[simp] theorem mark_used (M : ScratchpadManager) (i n s : ℕ) :
    (M.mark i n).used s = (decide (i ≤ s ∧ s < i + n) || M.used s) := by
  unfold mark
  by_cases h : i ≤ s ∧ s < i + n
  · simp [h]
  · simp [h]

/-- `findSlot` finds the first free word of its range. -/
theorem findSlot_eq_some {M : ScratchpadManager} {fuel i k : ℕ}
    (h : M.findSlot fuel i = some k) :
    i ≤ k ∧ k < i + fuel ∧ M.used k = false ∧ ∀ j, i ≤ j → j < k → M.used j = true := by
  induction fuel generalizing i with
  | zero => simp [findSlot] at h
  | succ fuel ih =>
    rw [findSlot] at h
    split_ifs at h with hu
    · obtain ⟨h1, h2, h3, h4⟩ := ih h
      refine ⟨by omega, by omega, h3, fun j hj hjk => ?_⟩
      rcases Nat.eq_or_lt_of_le hj with rfl | hlt
      · exact hu
      · exact h4 j hlt hjk
    · obtain rfl := Option.some.inj h
      exact ⟨Nat.le_refl _, by omega, by simpa using hu, fun j hj hjk => by omega⟩

/-- None is free. -/
theorem findSlot_eq_none {M : ScratchpadManager} {fuel i : ℕ} (h : M.findSlot fuel i = none) :
    ∀ j, i ≤ j → j < i + fuel → M.used j = true := by
  induction fuel generalizing i with
  | zero => intro j h1 h2; omega
  | succ fuel ih =>
    rw [findSlot] at h
    split_ifs at h with hu
    intro j hj hjf
    rcases Nat.eq_or_lt_of_le hj with rfl | hlt
    · exact hu
    · exact ih h j hlt (by omega)

/-- A free block has 64 free slots. -/
theorem blockFree_iff {M : ScratchpadManager} {i : ℕ} :
    M.blockFree i = true ↔ ∀ j < 64, M.used (i + j) = false := by
  simp [blockFree]

/-- `findBlock` finds a free block of its range, at a multiple of 64 from where
it started. -/
theorem findBlock_eq_some {M : ScratchpadManager} {fuel i k : ℕ}
    (h : M.findBlock fuel i = some k) :
    (∃ q < fuel, k = i + 64 * q) ∧ ∀ j < 64, M.used (k + j) = false := by
  induction fuel generalizing i with
  | zero => simp [findBlock] at h
  | succ fuel ih =>
    rw [findBlock] at h
    split_ifs at h with hf
    · obtain rfl := Option.some.inj h
      exact ⟨⟨0, by omega, by omega⟩, blockFree_iff.1 hf⟩
    · obtain ⟨⟨q, hq, hk⟩, hfree⟩ := ih h
      exact ⟨⟨q + 1, by omega, by omega⟩, hfree⟩

/-- No aligned block is free. -/
theorem findBlock_eq_none {M : ScratchpadManager} {fuel i : ℕ} (h : M.findBlock fuel i = none) :
    ∀ q < fuel, ∃ j < 64, M.used (i + 64 * q + j) = true := by
  induction fuel generalizing i with
  | zero => intro q hq; omega
  | succ fuel ih =>
    rw [findBlock] at h
    split_ifs at h with hf
    intro q hq
    cases q with
    | zero =>
      rw [blockFree_iff] at hf
      simpa using hf
    | succ q =>
      obtain ⟨j, hj, hu⟩ := ih h q (by omega)
      exact ⟨j, hj, by rwa [show i + 64 * (q + 1) + j = i + 64 + 64 * q + j by omega]⟩

/-- **`alloc_slot`** hands out a free word below `MAX_SLOTS`, or `-1` when every
word is in use. -/
theorem allocSlot_spec (M : ScratchpadManager) :
    (∃ i < maxSlots, M.used i = false ∧ M.allocSlot = ((i : ℤ), M.mark i 1)) ∨
      ((∀ i < maxSlots, M.used i = true) ∧ M.allocSlot = (-1, M)) := by
  unfold allocSlot
  cases h : M.findSlot maxSlots 0 with
  | some i =>
    obtain ⟨-, h2, h3, -⟩ := findSlot_eq_some h
    exact Or.inl ⟨i, by omega, h3, rfl⟩
  | none =>
    exact Or.inr ⟨fun i hi => findSlot_eq_none h i (Nat.zero_le _) (by omega), rfl⟩

/-- **`alloc_block`** hands out a free aligned block below `MAX_SLOTS`, or `-1`
when no aligned block is entirely free. -/
theorem allocBlock_spec (M : ScratchpadManager) :
    (∃ i, 64 ∣ i ∧ i + 64 ≤ maxSlots ∧ (∀ j < 64, M.used (i + j) = false) ∧
        M.allocBlock = ((i : ℤ), M.mark i 64)) ∨
      ((∀ q < maxSlots / 64, ∃ j < 64, M.used (64 * q + j) = true) ∧ M.allocBlock = (-1, M)) := by
  unfold allocBlock
  cases h : M.findBlock (maxSlots / 64) 0 with
  | some i =>
    obtain ⟨⟨q, hq, rfl⟩, hfree⟩ := findBlock_eq_some h
    have hm : maxSlots / 64 = 512 := rfl
    have hm' : maxSlots = 32768 := rfl
    exact Or.inl ⟨_, ⟨q, by omega⟩, by omega, hfree, rfl⟩
  | none =>
    refine Or.inr ⟨fun q hq => ?_, rfl⟩
    simpa using findBlock_eq_none h q hq

/-- `alloc_slot` takes the first free word. -/
theorem allocSlot_first {M : ScratchpadManager} {k : ℕ} (hk : k < maxSlots) (hfree : M.used k = false)
    (hbelow : ∀ j < k, M.used j = true) : M.allocSlot = ((k : ℤ), M.mark k 1) := by
  unfold allocSlot
  cases h : M.findSlot maxSlots 0 with
  | none =>
    rw [findSlot_eq_none h k (Nat.zero_le k) (by omega)] at hfree
    exact absurd hfree (by decide)
  | some i =>
    obtain ⟨-, -, hi, hmin⟩ := findSlot_eq_some h
    obtain hlt | rfl | hlt := Nat.lt_trichotomy i k
    · rw [hbelow i hlt] at hi
      exact absurd hi (by decide)
    · rfl
    · rw [hmin k (Nat.zero_le k) hlt] at hfree
      exact absurd hfree (by decide)

/-- `alloc_block` takes the first free aligned block. -/
theorem allocBlock_first {M : ScratchpadManager} {q : ℕ} (hq : q < maxSlots / 64)
    (hfree : ∀ j < 64, M.used (64 * q + j) = false)
    (hbelow : ∀ q' < q, ∃ j < 64, M.used (64 * q' + j) = true) :
    M.allocBlock = (((64 * q : ℕ) : ℤ), M.mark (64 * q) 64) := by
  have hfind : ∀ fuel i, i ≤ q → q < i + fuel → M.findBlock fuel (64 * i) = some (64 * q) := by
    intro fuel
    induction fuel with
    | zero => intro i h1 h2; omega
    | succ fuel ih =>
      intro i h1 h2
      rw [findBlock]
      by_cases hi : i = q
      · rw [hi, if_pos (blockFree_iff.2 hfree)]
      · obtain ⟨j, hj, hu⟩ := hbelow i (by omega)
        rw [if_neg fun h => by rw [blockFree_iff.1 h j hj] at hu; exact absurd hu (by decide)]
        exact ih (i + 1) (by omega) (by omega)
  have h := hfind (maxSlots / 64) 0 (Nat.zero_le q) (by omega)
  rw [Nat.mul_zero] at h
  rw [allocBlock, h]

end ScratchpadManager

end Jit
end AarchGate
