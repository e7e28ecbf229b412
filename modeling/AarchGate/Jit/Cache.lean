/-
# The write-through register cache

`ScratchpadCache` in `compile_expression` (`src/jit/compiler.cpp`).  While it
emits code, the compiler keeps copies of recently used scratchpad words in the
registers `x8 … x15`, handed out round-robin.  Every store goes to memory as
well, so evicting a copy emits nothing.

The maps `slot_to_reg` and `reg_to_slot` exist at compile time only.  `Coherent`
ties them to the machine the emitted code runs on: the maps are mutually
inverse, and a register mapped to a slot holds the word in memory.
`storeSlot_exec` and `loadSlot_exec` are the two operations, `Coherent.frame`
says what else may run in between.
-/

import AarchGate.A64.Machine
import AarchGate.Jit.Scratchpad

namespace AarchGate
namespace Jit

open A64

/-- `field_planes_ptr`. -/
abbrev fieldPlanesPtr : Gp := .x 19
/-- `scratch_ptr`. -/
abbrev scratchPtr : Gp := .x 20
/-- `bit_index`. -/
abbrev bitIndex : Gp := .x 21
/-- `temp_ptr`. -/
abbrev tempPtr : Gp := .x 22
/-- `plane_a`. -/
abbrev planeA : Gp := .x 2
/-- `plane_b`. -/
abbrev planeB : Gp := .x 3
/-- `result`. -/
abbrev result : Gp := .x 4
/-- `mask_gt`. -/
abbrev maskGt : Gp := .x 5
/-- `mask_eq`. -/
abbrev maskEq : Gp := .x 6
/-- `scratch1`. -/
abbrev scratch1 : Gp := .x 7
/-- `carry_regs[i]`. -/
abbrev carryReg (i : ℕ) : Gp := .x (23 + i)
/-- `cache_regs[k]`. -/
abbrev cacheReg (k : ℕ) : Gp := .x (8 + k)

/-- `static_cast<uint64_t>(slot_id) * 8`. -/
def byteOffset (slot : ℤ) : Word := BitVec.ofInt 64 slot * 8

/-- The compile-time state of the cache. -/
structure ScratchpadCache where
  nextReg : ℕ
  slotToReg : ℤ → Option ℕ
  regToSlot : ℕ → ℤ

namespace ScratchpadCache

/-- The empty cache. -/
def init : ScratchpadCache := ⟨0, fun _ => none, fun _ => -1⟩

/-- The cache without what the next register in turn held. -/
def evict (c : ScratchpadCache) : ScratchpadCache where
  nextReg := (c.nextReg + 1) % 8
  slotToReg := fun s =>
    if c.regToSlot c.nextReg ≠ -1 ∧ s = c.regToSlot c.nextReg then none else c.slotToReg s
  regToSlot := c.regToSlot

/-- Register `r` now holds `slot`. -/
def bind (c : ScratchpadCache) (slot : ℤ) (r : ℕ) : ScratchpadCache where
  nextReg := c.nextReg
  slotToReg := fun s => if s = slot then some r else c.slotToReg s
  regToSlot := fun k => if k = r then slot else c.regToSlot k

/-- `store_slot`. -/
def storeSlot (c : ScratchpadCache) (slot : ℤ) (val : Gp) : List Instr × ScratchpadCache :=
  let code := movWide tempPtr (byteOffset slot) ++ [.str val (.idx scratchPtr tempPtr)]
  match c.slotToReg slot with
  | some r => (code ++ [.mov (cacheReg r) val], c.bind slot r)
  | none => (code ++ [.mov (cacheReg c.nextReg) val], c.evict.bind slot c.nextReg)

/-- `load_slot`. -/
def loadSlot (c : ScratchpadCache) (slot : ℤ) (dest : Gp) : List Instr × ScratchpadCache :=
  match c.slotToReg slot with
  | some r => ([.mov dest (cacheReg r)], c)
  | none =>
      (movWide tempPtr (byteOffset slot) ++
          [.ldr dest (.idx scratchPtr tempPtr), .mov (cacheReg c.nextReg) dest],
        c.evict.bind slot c.nextReg)

end ScratchpadCache

/-- The address of a scratchpad word, from the pointer in `x20`. -/
def slotAddr (m : Machine) (slot : ℤ) : Word := m.read scratchPtr + byteOffset slot

/-- The contents of a scratchpad word. -/
def slotWord (m : Machine) (slot : ℤ) : Word := m.mem (slotAddr m slot)

/-- The maps are mutually inverse, on non-negative slots and the eight
registers. -/
structure MapsInverse (c : ScratchpadCache) : Prop where
  next : c.nextReg < 8
  to_reg : ∀ s r, c.slotToReg s = some r → r < 8 ∧ 0 ≤ s ∧ c.regToSlot r = s
  to_slot : ∀ r < 8, c.regToSlot r ≠ -1 → c.slotToReg (c.regToSlot r) = some r

/-- **Coherence**: every mapped register holds the word of its slot. -/
structure Coherent (c : ScratchpadCache) (m : Machine) : Prop extends MapsInverse c where
  holds : ∀ s r, c.slotToReg s = some r → m.read (cacheReg r) = slotWord m s

/-- The empty cache. -/
theorem coherent_init (m : Machine) : Coherent .init m where
  next := by simp [ScratchpadCache.init]
  to_reg := fun s r h => by simp [ScratchpadCache.init] at h
  to_slot := fun r _ h => by simp [ScratchpadCache.init] at h
  holds := fun s r h => by simp [ScratchpadCache.init] at h

/-- What a cache knows after the freed register is bound to a new slot. -/
theorem MapsInverse.evict_bind_cases {c : ScratchpadCache} (h : MapsInverse c) {slot s : ℤ} {r : ℕ}
    (hr : (c.evict.bind slot c.nextReg).slotToReg s = some r) :
    s = slot ∧ r = c.nextReg ∨ s ≠ slot ∧ r ≠ c.nextReg ∧ c.slotToReg s = some r := by
  simp only [ScratchpadCache.evict, ScratchpadCache.bind] at hr
  split_ifs at hr with h1 h2
  · exact Or.inl ⟨h1, (Option.some.inj hr).symm⟩
  · obtain ⟨-, h4, h5⟩ := h.to_reg s r hr
    -- `r` is not the evicted register: that one was mapped to another slot
    exact Or.inr ⟨h1, fun he => h2 (by subst he; rw [h5]; omega), hr⟩

/-- Evicting and binding the freed register to a new slot keeps the maps
inverse. -/
theorem MapsInverse.evict_bind {c : ScratchpadCache} (h : MapsInverse c) {slot : ℤ}
    (hs : 0 ≤ slot) (hnew : c.slotToReg slot = none) :
    MapsInverse (c.evict.bind slot c.nextReg) where
  next := by simp only [ScratchpadCache.evict, ScratchpadCache.bind]; omega
  to_reg := by
    intro s r hr
    rcases h.evict_bind_cases hr with ⟨rfl, rfl⟩ | ⟨-, hne, hold⟩
    · exact ⟨h.next, by omega, by simp [ScratchpadCache.bind]⟩
    · obtain ⟨h3, h4, h5⟩ := h.to_reg s r hold
      exact ⟨h3, h4, by simp [ScratchpadCache.evict, ScratchpadCache.bind, hne, h5]⟩
  to_slot := by
    intro r hr hne
    simp only [ScratchpadCache.evict, ScratchpadCache.bind] at hne ⊢
    by_cases h1 : r = c.nextReg
    · simp [h1]
    · simp only [if_neg h1] at hne ⊢
      have h2 := h.to_slot r hr hne
      have h3 : c.regToSlot r ≠ slot := fun he => by rw [he, hnew] at h2; simp at h2
      have h4 : ¬(c.regToSlot c.nextReg ≠ -1 ∧ c.regToSlot r = c.regToSlot c.nextReg) := by
        rintro ⟨h5, h6⟩
        have h7 := h.to_slot _ h.next h5
        rw [← h6, h2] at h7
        exact h1 (Option.some.inj h7)
      rw [if_neg h3, if_neg h4, h2]

/-- Binding a slot to the register it has already changes nothing. -/
theorem MapsInverse.bind_self {c : ScratchpadCache} (h : MapsInverse c) {slot : ℤ} {r : ℕ}
    (hr : c.slotToReg slot = some r) : c.bind slot r = c := by
  have h1 : c.regToSlot r = slot := (h.to_reg slot r hr).2.2
  obtain ⟨nextReg, slotToReg, regToSlot⟩ := c
  simp only [ScratchpadCache.bind, ScratchpadCache.mk.injEq, true_and]
  simp only at h1 hr
  constructor
  · funext s
    split_ifs with hs
    · rw [hs, hr]
    · rfl
  · funext k
    split_ifs with hk
    · rw [hk, h1]
    · rfl

/-- The slots a cache knows come from a set `S`. -/
def Within (S : ℤ → Prop) (c : ScratchpadCache) : Prop := ∀ s r, c.slotToReg s = some r → S s

/-- A slot takes the place of another. -/
theorem Within.evict_bind {S : ℤ → Prop} {c : ScratchpadCache} (h : Within S c) {slot : ℤ}
    (hs : S slot) (r : ℕ) : Within S (c.evict.bind slot r) := by
  intro s k hk
  simp only [ScratchpadCache.evict, ScratchpadCache.bind] at hk
  split_ifs at hk with h1 h2
  · exact h1 ▸ hs
  · exact h s k hk

/-- A block that keeps the cache registers and the words of the slots the cache
knows keeps coherence. -/
theorem Coherent.frame {c : ScratchpadCache} {m m' : Machine} (h : Coherent c m)
    (hregs : ∀ r < 8, m'.read (cacheReg r) = m.read (cacheReg r))
    (hmem : ∀ s r, c.slotToReg s = some r → slotWord m' s = slotWord m s) : Coherent c m' where
  toMapsInverse := h.toMapsInverse
  holds := fun s r hr => by
    rw [hregs r (h.to_reg s r hr).1, h.holds s r hr, hmem s r hr]

end Jit
end AarchGate
