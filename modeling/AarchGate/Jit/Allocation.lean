/-
# Slot and register allocation

"Phase 1" of `compile_expression` in `src/jit/compiler.cpp`: every node that is
not a leaf gets its words of the scratchpad, a block of 64 for an arithmetic
node, one word for a mask and a second one for the equality mask of a
comparison; the first six additions and subtractions get a carry register.

`Owns` are the words of a node.  `allocNode_spec` says what one round of the
loop does, and `allocNodes_spec` that after the loop the words of distinct
nodes are disjoint and lie in the scratchpad.
-/

import AarchGate.Jit.Analyzer
import AarchGate.Jit.Scratchpad

namespace AarchGate
namespace Jit

open Ir

/-- The state of the loop. -/
structure AllocState where
  mgr : ScratchpadManager
  nextCarry : ℕ
  annot : ℕ → Annot

/-- The kinds that are given a carry register. -/
def isAddSub (k : NodeKind) : Bool := k = .ADD || k = .SUB

/-- A sum is no leaf. -/
theorem not_isLeaf_of_isAddSub {k : NodeKind} (h : isAddSub k = true) : k.isLeaf = false := by
  cases k <;> simp [isAddSub, NodeKind.isLeaf] at h ⊢

/-- Nor a mask. -/
theorem not_isMask_of_isAddSub {k : NodeKind} (h : isAddSub k = true) : k.isMask = false := by
  cases k <;> simp [isAddSub, NodeKind.isMask] at h ⊢

/-- A mask is no sum. -/
theorem not_isAddSub_of_isMask {k : NodeKind} (h : k.isMask = true) : isAddSub k = false := by
  cases k <;> simp [isAddSub, NodeKind.isMask] at h ⊢

/-- The slot of the result: a block for bit-planes, one word for a mask. -/
def allocResult (n : ℕ) (st : AllocState) : AllocState × Bool :=
  let r := if (st.annot n).resultKind = .BITPLANE then st.mgr.allocBlock else st.mgr.allocSlot
  ({ st with mgr := r.2, annot := setAnnot st.annot n fun a => { a with slotId := r.1 } },
    decide (0 ≤ r.1))

/-- The slot of the equality mask. -/
def allocEq (n : ℕ) (st : AllocState) : AllocState × Bool :=
  let r := st.mgr.allocSlot
  ({ st with mgr := r.2, annot := setAnnot st.annot n fun a => { a with eqSlotId := r.1 } },
    decide (0 ≤ r.1))

/-- The carry register, while there are some left. -/
def allocCarry (n : ℕ) (st : AllocState) : AllocState :=
  if st.nextCarry < 6 then
    { st with
      nextCarry := st.nextCarry + 1
      annot := setAnnot st.annot n fun a => { a with carryReg := st.nextCarry } }
  else st

/-- One round of the loop; `false` is the `return nullptr` of a full scratchpad. -/
def allocNode (g : ℕ → Node) (n : ℕ) (st : AllocState) : AllocState × Bool :=
  if (g n).kind.isLeaf then (st, true)
  else
    match allocResult n st with
    | (st, false) => (st, false)
    | (st, true) =>
      match if (g n).kind.isComparison then allocEq n st else (st, true) with
      | (st, false) => (st, false)
      | (st, true) => (if isAddSub (g n).kind then allocCarry n st else st, true)

/-- The loop over `all_nodes`. -/
def allocNodes (g : ℕ → Node) : List ℕ → AllocState → AllocState × Bool
  | [], st => (st, true)
  | n :: ns, st =>
      match allocNode g n st with
      | (st, false) => (st, false)
      | (st, true) => allocNodes g ns st

/-- Word `s` of the scratchpad belongs to a node of kind `k`. -/
def Owns (k : NodeKind) (a : Annot) (s : ℕ) : Prop :=
  k.isLeaf = false ∧
    if k.isMask then (s : ℤ) = a.slotId ∨ k.isComparison = true ∧ (s : ℤ) = a.eqSlotId
    else a.slotId ≤ s ∧ (s : ℤ) < a.slotId + 64

/-- The shape of the slots of a node. -/
structure Placed (k : NodeKind) (a : Annot) : Prop where
  slot_nonneg : k.isLeaf = false → 0 ≤ a.slotId
  aligned : k.isLeaf = false → k.isMask = false → (64 : ℤ) ∣ a.slotId
  eq_nonneg : k.isComparison = true → 0 ≤ a.eqSlotId
  eq_ne : k.isComparison = true → a.eqSlotId ≠ a.slotId

/-- What a round, or the whole loop, leaves alone: everything but the slots and
the carry register, and `eq_slot_id` outside the comparisons. -/
structure SlotsOnly (k : NodeKind) (a a' : Annot) : Prop where
  resultKind : a'.resultKind = a.resultKind
  fieldIdx : a'.fieldIdx = a.fieldIdx
  skipJit : a'.skipJit = a.skipJit
  eqSlotId : k.isComparison = false → a'.eqSlotId = a.eqSlotId
  carryReg : isAddSub k = false → a'.carryReg = a.carryReg
  leaf : k.isLeaf = true → a' = a

/-- Nothing has changed. -/
theorem SlotsOnly.refl (k : NodeKind) (a : Annot) : SlotsOnly k a a :=
  ⟨rfl, rfl, rfl, fun _ => rfl, fun _ => rfl, fun _ => rfl⟩

/-- What a successful round does. -/
structure NodeAllocated (g : ℕ → Node) (n : ℕ) (st st' : AllocState) : Prop where
  frame : ∀ m, m ≠ n → st'.annot m = st.annot m
  only : SlotsOnly (g n).kind (st.annot n) (st'.annot n)
  placed : Placed (g n).kind (st'.annot n)
  fresh : ∀ s, Owns (g n).kind (st'.annot n) s →
    s < maxSlots ∧ st.mgr.used s = false ∧ st'.mgr.used s = true
  keep : ∀ s, st.mgr.used s = true → st'.mgr.used s = true
  carry : isAddSub (g n).kind = true → st.nextCarry < 6 →
    (st'.annot n).carryReg = st.nextCarry ∧ st'.nextCarry = st.nextCarry + 1
  exhausted : isAddSub (g n).kind = true → 6 ≤ st.nextCarry →
    (st'.annot n).carryReg = (st.annot n).carryReg ∧ st'.nextCarry = st.nextCarry
  noCarry : isAddSub (g n).kind = false → st'.nextCarry = st.nextCarry

/-- The carry register does not touch the words. -/
theorem carried_mgr (k : NodeKind) (n : ℕ) (st : AllocState) :
    (if isAddSub k then allocCarry n st else st).mgr = st.mgr := by
  unfold allocCarry
  split_ifs <;> rfl

/-- The carry register does not concern the slot. -/
theorem carried_slotId (k : NodeKind) (n : ℕ) (st : AllocState) :
    ((if isAddSub k then allocCarry n st else st).annot n).slotId = (st.annot n).slotId := by
  unfold allocCarry
  split_ifs <;> simp

section Round

variable {g : ℕ → Node} {n : ℕ} {st st' : AllocState}

namespace AllocState

/-- The state with what was returned for the result. -/
def withResult (st : AllocState) (n : ℕ) (r : ℤ × ScratchpadManager) : AllocState :=
  { st with mgr := r.2, annot := setAnnot st.annot n fun a => { a with slotId := r.1 } }

/-- The state with what was returned for the equality mask. -/
def withEq (st : AllocState) (n : ℕ) (r : ℤ × ScratchpadManager) : AllocState :=
  { st with mgr := r.2, annot := setAnnot st.annot n fun a => { a with eqSlotId := r.1 } }

variable (st n) (r : ℤ × ScratchpadManager)

@[simp] theorem withResult_mgr : (st.withResult n r).mgr = r.2 := rfl

@[simp] theorem withResult_nextCarry : (st.withResult n r).nextCarry = st.nextCarry := rfl

@[simp] theorem withResult_annot :
    (st.withResult n r).annot = setAnnot st.annot n fun a => { a with slotId := r.1 } := rfl

@[simp] theorem withEq_mgr : (st.withEq n r).mgr = r.2 := rfl

@[simp] theorem withEq_nextCarry : (st.withEq n r).nextCarry = st.nextCarry := rfl

@[simp] theorem withEq_annot :
    (st.withEq n r).annot = setAnnot st.annot n fun a => { a with eqSlotId := r.1 } := rfl

end AllocState

/-! ### The round, for each sort of node -/

/-- A leaf gets nothing. -/
theorem allocNode_leaf (hleaf : (g n).kind.isLeaf = true) : allocNode g n st = (st, true) := by
  rw [allocNode, if_pos hleaf]

/-- Bit-planes: an aligned block of 64 words. -/
theorem allocNode_block (hk : (st.annot n).resultKind = (g n).kind.resultKind)
    (hleaf : (g n).kind.isLeaf = false) (hmask : (g n).kind.isMask = false) :
    allocNode g n st = if 0 ≤ st.mgr.allocBlock.1 then
      (if isAddSub (g n).kind then allocCarry n (st.withResult n st.mgr.allocBlock)
        else st.withResult n st.mgr.allocBlock, true)
    else (st.withResult n st.mgr.allocBlock, false) := by
  have hrk : (st.annot n).resultKind = .BITPLANE := by rw [hk, NodeKind.resultKind, hmask]; rfl
  have hr : allocResult n st =
      (st.withResult n st.mgr.allocBlock, decide (0 ≤ st.mgr.allocBlock.1)) := by
    rw [allocResult, if_pos hrk]
    rfl
  rw [allocNode, hleaf, if_neg Bool.false_ne_true, hr,
    NodeKind.not_isComparison_of_not_isMask hmask]
  by_cases h0 : 0 ≤ st.mgr.allocBlock.1
  · rw [if_pos h0, decide_eq_true h0]
    rfl
  · rw [if_neg h0, decide_eq_false h0]

/-- A mask gets a slot. -/
theorem allocResult_mask (hk : (st.annot n).resultKind = (g n).kind.resultKind)
    (hmask : (g n).kind.isMask = true) :
    allocResult n st = (st.withResult n st.mgr.allocSlot, decide (0 ≤ st.mgr.allocSlot.1)) := by
  have hrk : (st.annot n).resultKind ≠ .BITPLANE := by
    rw [hk, NodeKind.resultKind, if_pos hmask]
    decide
  rw [allocResult, if_neg hrk]
  rfl

/-- A mask that is no comparison: one word. -/
theorem allocNode_mask (hk : (st.annot n).resultKind = (g n).kind.resultKind)
    (hmask : (g n).kind.isMask = true) (hcmp : (g n).kind.isComparison = false) :
    allocNode g n st = (st.withResult n st.mgr.allocSlot, decide (0 ≤ st.mgr.allocSlot.1)) := by
  rw [allocNode, NodeKind.not_isLeaf_of_isMask hmask, if_neg Bool.false_ne_true,
    allocResult_mask hk hmask, hcmp, not_isAddSub_of_isMask hmask]
  cases decide (0 ≤ st.mgr.allocSlot.1) <;> rfl

/-- A comparison: one more word for the equality mask. -/
theorem allocNode_comparison (hk : (st.annot n).resultKind = (g n).kind.resultKind)
    (hcmp : (g n).kind.isComparison = true) :
    allocNode g n st = if 0 ≤ st.mgr.allocSlot.1 then
      ((st.withResult n st.mgr.allocSlot).withEq n st.mgr.allocSlot.2.allocSlot,
        decide (0 ≤ st.mgr.allocSlot.2.allocSlot.1))
    else (st.withResult n st.mgr.allocSlot, false) := by
  have hmask := NodeKind.isMask_of_isComparison hcmp
  rw [allocNode, NodeKind.not_isLeaf_of_isMask hmask, if_neg Bool.false_ne_true,
    allocResult_mask hk hmask, hcmp, not_isAddSub_of_isMask hmask]
  by_cases h0 : 0 ≤ st.mgr.allocSlot.1
  · rw [if_pos h0, decide_eq_true h0]
    have heq : allocEq n (st.withResult n st.mgr.allocSlot) =
        ((st.withResult n st.mgr.allocSlot).withEq n st.mgr.allocSlot.2.allocSlot,
          decide (0 ≤ st.mgr.allocSlot.2.allocSlot.1)) := rfl
    simp only [if_true, heq]
    generalize decide (0 ≤ st.mgr.allocSlot.2.allocSlot.1) = fits
    cases fits <;> rfl
  · rw [if_neg h0, decide_eq_false h0]

/-! ### What a successful round does -/

/-- A leaf is allocated. -/
theorem NodeAllocated.leaf (hleaf : (g n).kind.isLeaf = true) : NodeAllocated g n st st := by
  have hcmp := NodeKind.not_isComparison_of_not_isMask (NodeKind.not_isMask_of_isLeaf hleaf)
  have hadd : isAddSub (g n).kind = false := by
    rcases NodeKind.eq_of_isLeaf hleaf with hk | hk <;> rw [hk] <;> rfl
  exact ⟨fun _ _ => rfl, .refl _ _, ⟨by simp [hleaf], by simp [hleaf], by simp [hcmp],
    by simp [hcmp]⟩, fun s hs => by simp [Owns, hleaf] at hs, fun _ h => h,
    by simp [hadd], by simp [hadd], fun _ => rfl⟩

/-- Planes with a block of their own. -/
theorem NodeAllocated.block (hleaf : (g n).kind.isLeaf = false) (hmask : (g n).kind.isMask = false)
    {i : ℕ} (hdvd : 64 ∣ i) (hi : i + 64 ≤ maxSlots)
    (hfree : ∀ j < 64, st.mgr.used (i + j) = false) :
    NodeAllocated g n st (if isAddSub (g n).kind then
      allocCarry n (st.withResult n (i, st.mgr.mark i 64))
        else st.withResult n (i, st.mgr.mark i 64)) := by
  have hcmp := NodeKind.not_isComparison_of_not_isMask hmask
  refine ⟨?_, ?_, ⟨?_, ?_, by simp [hcmp], by simp [hcmp]⟩, ?_, ?_, ?_, ?_, ?_⟩
  · intro m hm
    unfold allocCarry
    split_ifs <;> simp [setAnnot_ne _ _ hm]
  · unfold allocCarry
    split_ifs with hadd
    · exact ⟨by simp, by simp, by simp, by simp, by simp [hadd], by simp [hleaf]⟩
    · exact ⟨by simp, by simp, by simp, by simp, by simp, by simp [hleaf]⟩
    · exact ⟨by simp, by simp, by simp, by simp, by simp, by simp [hleaf]⟩
  · intro _
    rw [carried_slotId]
    simp
  · intro _ _
    rw [carried_slotId]
    simpa using Int.natCast_dvd_natCast.2 hdvd
  · intro s hs
    simp only [Owns, hmask, Bool.false_eq_true, if_false, carried_slotId,
      AllocState.withResult_annot, setAnnot_self] at hs
    have hs' : i ≤ s ∧ s < i + 64 := by omega
    obtain ⟨j, rfl⟩ := Nat.exists_eq_add_of_le hs'.1
    refine ⟨by omega, hfree j (by omega), ?_⟩
    rw [carried_mgr]
    simp [hs'.2]
  · intro s hs
    rw [carried_mgr]
    simp [hs]
  · intro hadd hlt
    simp [hadd, allocCarry, hlt]
  · intro hadd hge
    simp [hadd, allocCarry, Nat.not_lt.2 hge]
  · intro hadd
    simp [hadd]

/-- A mask with a slot of its own. -/
theorem NodeAllocated.mask (hmask : (g n).kind.isMask = true)
    (hcmp : (g n).kind.isComparison = false) {i : ℕ} (hi : i < maxSlots)
    (hfree : st.mgr.used i = false) :
    NodeAllocated g n st (st.withResult n (i, st.mgr.mark i 1)) := by
  have hadd := not_isAddSub_of_isMask hmask
  have hleaf := NodeKind.not_isLeaf_of_isMask hmask
  refine ⟨fun m hm => by simp [setAnnot_ne _ _ hm],
    ⟨by simp, by simp, by simp, by simp, by simp, by simp [hleaf]⟩,
    ⟨by simp, by simp [hmask], by simp [hcmp], by simp [hcmp]⟩, ?_, fun s hs => by simp [hs],
    by simp [hadd], by simp [hadd], fun _ => rfl⟩
  intro s hs
  simp only [Owns, hmask, if_true, hcmp, AllocState.withResult_annot, setAnnot_self,
    Int.natCast_inj, Bool.false_eq_true, false_and, or_false] at hs
  obtain rfl := hs.2
  exact ⟨hi, hfree, by simp⟩

/-- A comparison with two. -/
theorem NodeAllocated.comparison (hcmp : (g n).kind.isComparison = true) {i j : ℕ}
    (hi : i < maxSlots) (hfree : st.mgr.used i = false) (hj : j < maxSlots)
    (hfree' : (st.mgr.mark i 1).used j = false) :
    NodeAllocated g n st ((st.withResult n (i, st.mgr.mark i 1)).withEq n
      (j, (st.mgr.mark i 1).mark j 1)) := by
  have hmask := NodeKind.isMask_of_isComparison hcmp
  have hadd := not_isAddSub_of_isMask hmask
  have hleaf := NodeKind.not_isLeaf_of_isMask hmask
  have hij : i ≠ j ∧ st.mgr.used j = false := by
    simp only [ScratchpadManager.mark_used, Bool.or_eq_false_iff, decide_eq_false_iff_not] at hfree'
    exact ⟨by omega, hfree'.2⟩
  refine ⟨fun m hm => by simp [setAnnot_ne _ _ hm],
    ⟨by simp, by simp, by simp, by simp [hcmp], by simp, by simp [hleaf]⟩,
    ⟨by simp, by simp [hmask], by simp, ?_⟩, ?_, fun s hs => by simp [hs], by simp [hadd],
    by simp [hadd], fun _ => rfl⟩
  · intro _
    simp only [AllocState.withEq_annot, AllocState.withResult_annot, setAnnot_self, ne_eq,
      Int.natCast_inj]
    exact hij.1.symm
  · intro s hs
    simp only [Owns, hmask, if_true, hcmp, AllocState.withEq_annot, AllocState.withResult_annot,
      setAnnot_self, Int.natCast_inj, true_and] at hs
    rcases hs.2 with rfl | rfl
    · exact ⟨hi, hfree, by simp⟩
    · exact ⟨hj, hij.2, by simp⟩

/-- **One round.** -/
theorem allocNode_spec (hk : (st.annot n).resultKind = (g n).kind.resultKind)
    (h : allocNode g n st = (st', true)) : NodeAllocated g n st st' := by
  have hneg : ¬(0 : ℤ) ≤ -1 := by decide
  cases hleaf : (g n).kind.isLeaf with
  | true =>
    rw [allocNode_leaf hleaf] at h
    obtain rfl := (Prod.mk.inj h).1
    exact .leaf hleaf
  | false =>
    cases hmask : (g n).kind.isMask with
    | false =>
      rw [allocNode_block hk hleaf hmask] at h
      rcases st.mgr.allocBlock_spec with ⟨i, hdvd, hi, hfree, he⟩ | ⟨-, he⟩
      · rw [he, if_pos (Int.natCast_nonneg i)] at h
        obtain rfl := (Prod.mk.inj h).1
        exact .block hleaf hmask hdvd hi hfree
      · rw [he, if_neg hneg] at h
        exact absurd (Prod.mk.inj h).2 Bool.false_ne_true
    | true =>
      rcases st.mgr.allocSlot_spec with ⟨i, hi, hfree, he⟩ | ⟨-, he⟩
      · cases hcmp : (g n).kind.isComparison with
        | false =>
          rw [allocNode_mask hk hmask hcmp, he] at h
          obtain rfl := (Prod.mk.inj h).1
          exact .mask hmask hcmp hi hfree
        | true =>
          rw [allocNode_comparison hk hcmp, he, if_pos (Int.natCast_nonneg i)] at h
          rcases (st.mgr.mark i 1).allocSlot_spec with ⟨j, hj, hfree', he'⟩ | ⟨-, he'⟩
          · rw [he'] at h
            obtain rfl := (Prod.mk.inj h).1
            exact .comparison hcmp hi hfree hj hfree'
          · rw [he', decide_eq_false hneg] at h
            exact absurd (Prod.mk.inj h).2 Bool.false_ne_true
      · cases hcmp : (g n).kind.isComparison with
        | false =>
          rw [allocNode_mask hk hmask hcmp, he, decide_eq_false hneg] at h
          exact absurd (Prod.mk.inj h).2 Bool.false_ne_true
        | true =>
          rw [allocNode_comparison hk hcmp, he, if_neg hneg] at h
          exact absurd (Prod.mk.inj h).2 Bool.false_ne_true

end Round

/-- What the whole loop gives. -/
structure Allocated (g : ℕ → Node) (ns : List ℕ) (a a' : ℕ → Annot) : Prop where
  frame : ∀ n, n ∉ ns → a' n = a n
  only : ∀ n, SlotsOnly (g n).kind (a n) (a' n)
  placed : ∀ n ∈ ns, Placed (g n).kind (a' n)
  inRange : ∀ n ∈ ns, ∀ s, Owns (g n).kind (a' n) s → s < maxSlots
  disjoint : ∀ m ∈ ns, ∀ n ∈ ns, ∀ s, Owns (g m).kind (a' m) s → Owns (g n).kind (a' n) s → m = n

/-- **After the loop the words of distinct nodes are disjoint**, inside the
scratchpad and outside what was in use before. -/
theorem allocNodes_spec {g : ℕ → Node} {ns : List ℕ} :
    ∀ {st st' : AllocState}, (∀ n ∈ ns, (st.annot n).resultKind = (g n).kind.resultKind) →
      allocNodes g ns st = (st', true) → ns.Nodup →
        Allocated g ns st.annot st'.annot ∧
          ∀ n ∈ ns, ∀ s, Owns (g n).kind (st'.annot n) s → st.mgr.used s = false := by
  induction ns with
  | nil =>
    intro st st' _ h _
    obtain rfl : st = st' := by simpa [allocNodes] using h
    exact ⟨⟨fun _ _ => rfl, fun _ => .refl _ _, by simp, by simp, by simp⟩, by simp⟩
  | cons n ns ih =>
    intro st st' hk h hnd
    obtain ⟨hn, hnd⟩ := List.nodup_cons.1 hnd
    rw [allocNodes] at h
    split at h
    · simp at h
    · rename_i st₁ hst₁
      have h₁ := allocNode_spec (hk n (List.mem_cons_self ..)) hst₁
      have hk₁ : ∀ m ∈ ns, (st₁.annot m).resultKind = (g m).kind.resultKind := by
        intro m hm
        rw [h₁.frame m (fun h => hn (h ▸ hm))]
        exact hk m (List.mem_cons_of_mem _ hm)
      obtain ⟨h₂, hfree₂⟩ := ih hk₁ h hnd
      have hself : st'.annot n = st₁.annot n := h₂.frame n hn
      refine ⟨⟨?_, ?_, ?_, ?_, ?_⟩, ?_⟩
      · intro m hm
        rw [List.mem_cons, not_or] at hm
        rw [h₂.frame m hm.2, h₁.frame m hm.1]
      · intro m
        by_cases hm : m = n
        · subst hm; rw [hself]; exact h₁.only
        · have := h₂.only m
          rwa [h₁.frame m hm] at this
      · intro m hm
        rcases List.mem_cons.1 hm with rfl | hm
        · rw [hself]; exact h₁.placed
        · exact h₂.placed m hm
      · intro m hm s hs
        rcases List.mem_cons.1 hm with rfl | hm
        · rw [hself] at hs; exact (h₁.fresh s hs).1
        · exact h₂.inRange m hm s hs
      · -- a word of a later node was still free when `n` took its own
        have hcross : ∀ m ∈ ns, ∀ s, Owns (g m).kind (st'.annot m) s →
            Owns (g n).kind (st'.annot n) s → False := by
          intro m hm s hs hs'
          rw [hself] at hs'
          have hused := (h₁.fresh s hs').2.2
          rw [hfree₂ m hm s hs] at hused
          exact Bool.false_ne_true hused
        intro m hm m' hm' s hs hs'
        rcases List.mem_cons.1 hm with rfl | hm₁
        · rcases List.mem_cons.1 hm' with rfl | hm₂
          · rfl
          · exact (hcross m' hm₂ s hs' hs).elim
        · rcases List.mem_cons.1 hm' with rfl | hm₂
          · exact (hcross m hm₁ s hs hs').elim
          · exact h₂.disjoint m hm₁ m' hm₂ s hs hs'
      · intro m hm s hs
        rcases List.mem_cons.1 hm with rfl | hm
        · rw [hself] at hs; exact (h₁.fresh s hs).2.1
        · have hf := hfree₂ m hm s hs
          by_contra hu
          rw [Bool.not_eq_false] at hu
          rw [h₁.keep s hu] at hf
          exact Bool.false_ne_true hf.symm

/-- **The first six additions and subtractions get a carry register**, the others keep
what they had. -/
theorem allocNodes_carry {g : ℕ → Node} {pre : List ℕ} {n : ℕ} {post : List ℕ} :
    ∀ {st st' : AllocState},
      (∀ x ∈ pre ++ n :: post, (st.annot x).resultKind = (g x).kind.resultKind) →
      allocNodes g (pre ++ n :: post) st = (st', true) → (pre ++ n :: post).Nodup →
        isAddSub (g n).kind = true →
          (st.nextCarry + (pre.filter fun x => isAddSub (g x).kind).length < 6 →
            ∃ c < 6, (st'.annot n).carryReg = (c : ℕ)) ∧
          (6 ≤ st.nextCarry + (pre.filter fun x => isAddSub (g x).kind).length →
            (st'.annot n).carryReg = (st.annot n).carryReg) := by
  induction pre with
  | nil =>
    intro st st' hk h hnd hadd
    obtain ⟨hn, hnd⟩ := List.nodup_cons.1 hnd
    rw [List.nil_append, allocNodes] at h
    split at h
    · simp at h
    · rename_i st₁ hst₁
      have h₁ := allocNode_spec (hk n (by simp)) hst₁
      have hk₁ : ∀ x ∈ post, (st₁.annot x).resultKind = (g x).kind.resultKind := by
        intro x hx
        rw [h₁.frame x (fun h => hn (h ▸ hx))]
        exact hk x (by simp [hx])
      have hself : st'.annot n = st₁.annot n := (allocNodes_spec hk₁ h hnd).1.frame n hn
      rw [hself]
      exact ⟨fun hlt => ⟨st.nextCarry, hlt, (h₁.carry hadd hlt).1⟩,
        fun hge => (h₁.exhausted hadd hge).1⟩
  | cons k pre ih =>
    intro st st' hk h hnd hadd
    obtain ⟨hn, hnd⟩ := List.nodup_cons.1 hnd
    rw [List.cons_append, allocNodes] at h
    split at h
    · simp at h
    · rename_i st₁ hst₁
      have h₁ := allocNode_spec (hk k (by simp)) hst₁
      have hk₁ : ∀ x ∈ pre ++ n :: post, (st₁.annot x).resultKind = (g x).kind.resultKind := by
        intro x hx
        rw [h₁.frame x (fun h => hn (h ▸ hx))]
        exact hk x (List.mem_cons_of_mem _ hx)
      obtain ⟨ihlt, ihge⟩ := ih hk₁ h hnd hadd
      rw [h₁.frame n fun he => hn (by simp [he])] at ihge
      by_cases haddk : isAddSub (g k).kind = true
      · simp only [List.filter_cons, haddk, if_true, List.length_cons]
        rcases Nat.lt_or_ge st.nextCarry 6 with hc | hc
        · obtain ⟨-, hnext⟩ := h₁.carry haddk hc
          exact ⟨fun hlt => ihlt (by omega), fun hge => ihge (by omega)⟩
        · obtain ⟨-, hnext⟩ := h₁.exhausted haddk hc
          exact ⟨fun hlt => by omega, fun hge => ihge (by omega)⟩
      · simp only [List.filter_cons, haddk, Bool.false_eq_true, if_false]
        have hnext := h₁.noCarry (by simpa using haddk)
        exact ⟨fun hlt => ihlt (by omega), fun hge => ihge (by omega)⟩

/-- A round takes the first word, or the first block, that is free. -/
theorem allocNode_slotId {g : ℕ → Node} {n : ℕ} {st st' : AllocState}
    (hk : (st.annot n).resultKind = (g n).kind.resultKind) (hleaf : (g n).kind.isLeaf = false)
    (h : allocNode g n st = (st', true)) :
    (st'.annot n).slotId =
      if (g n).kind.isMask then st.mgr.allocSlot.1 else st.mgr.allocBlock.1 := by
  cases hmask : (g n).kind.isMask with
  | false =>
    rw [allocNode_block hk hleaf hmask] at h
    by_cases h0 : 0 ≤ st.mgr.allocBlock.1
    · rw [if_pos h0] at h
      obtain rfl := (Prod.mk.inj h).1
      rw [if_neg Bool.false_ne_true, carried_slotId]
      simp
    · rw [if_neg h0] at h
      exact absurd (Prod.mk.inj h).2 Bool.false_ne_true
  | true =>
    cases hcmp : (g n).kind.isComparison with
    | false =>
      rw [allocNode_mask hk hmask hcmp] at h
      obtain rfl := (Prod.mk.inj h).1
      simp
    | true =>
      rw [allocNode_comparison hk hcmp] at h
      by_cases h0 : 0 ≤ st.mgr.allocSlot.1
      · rw [if_pos h0] at h
        obtain rfl := (Prod.mk.inj h).1
        simp
      · rw [if_neg h0] at h
        exact absurd (Prod.mk.inj h).2 Bool.false_ne_true

/-- **The first node that is no leaf gets the words from 0 on.** -/
theorem allocNodes_first {g : ℕ → Node} {pre : List ℕ} {n : ℕ} {post : List ℕ}
    (hpre : ∀ x ∈ pre, (g x).kind.isLeaf = true) (hleaf : (g n).kind.isLeaf = false)
    {st st' : AllocState} (hk : ∀ x ∈ pre ++ n :: post, (st.annot x).resultKind = (g x).kind.resultKind)
    (h : allocNodes g (pre ++ n :: post) st = (st', true)) (hnd : (pre ++ n :: post).Nodup)
    (hmgr : st.mgr = .init) : (st'.annot n).slotId = 0 := by
  induction pre with
  | nil =>
    obtain ⟨hn, hnd⟩ := List.nodup_cons.1 hnd
    rw [List.nil_append, allocNodes] at h
    split at h
    · simp at h
    · rename_i st₁ hst₁
      have h₁ := allocNode_spec (hk n (by simp)) hst₁
      have hk₁ : ∀ x ∈ post, (st₁.annot x).resultKind = (g x).kind.resultKind := fun x hx => by
        rw [h₁.frame x (fun h => hn (h ▸ hx))]
        exact hk x (by simp [hx])
      have hslot : ScratchpadManager.init.allocSlot.1 = 0 :=
        congrArg Prod.fst (ScratchpadManager.allocSlot_first (k := 0) (by decide) rfl (by simp))
      have hblock : ScratchpadManager.init.allocBlock.1 = 0 :=
        congrArg Prod.fst (ScratchpadManager.allocBlock_first (q := 0) (by decide) (fun _ _ => rfl)
          (by simp))
      rw [(allocNodes_spec hk₁ h hnd).1.frame n hn, allocNode_slotId (hk n (by simp)) hleaf hst₁, hmgr,
        hslot, hblock, ite_self]
  | cons k pre ih =>
    rw [List.cons_append, allocNodes, allocNode_leaf (hpre k (by simp))] at h
    exact ih (fun x hx => hpre x (List.mem_cons_of_mem _ hx))
      (fun x hx => hk x (List.mem_cons_of_mem _ hx)) h (List.nodup_cons.1 hnd).2

end Jit
end AarchGate
