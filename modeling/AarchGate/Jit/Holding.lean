/-
# The scratchpad over a whole run

`ScratchpadManager` (`src/jit/compiler.cpp`) keeps one bitmap for two kinds of
requests.  `Holding` puts beside it what its caller holds: the single slots and
the 64-slot blocks that were handed out and not freed since.

`Holding.Exact` says that the two agree and that no two regions overlap.  Every
call keeps it (`Exact.call`), under one condition on `free_slot`: the slot is no
part of a live block.  A single slot that is live is none, by `Exact` itself; the
condition rules out a second `free_slot` of a slot that went into a block after
the first.  So it holds after every run, and there `-1` means what it should
(`scratchpad_run`).  The allocations of "Phase 1" of `compile_expression` keep it
too (`allocNodes_exact`).
-/

import AarchGate.Jit.Allocation
import AarchGate.Trace.Along
import Mathlib.Data.Set.Insert

namespace AarchGate
namespace Jit

/-- What a call hands out: a single slot, or the 64 slots from the first. -/
inductive Region
  | slot (s : ℤ)
  | block (b : ℤ)
  deriving DecidableEq, Repr

/-- The slots from `lo` to below `hi`. -/
def slotRange (lo hi : ℤ) : Set ℤ := {s | lo ≤ s ∧ s < hi}

/-- The slots of a range. -/
@[simp] theorem mem_slotRange {lo hi s : ℤ} : s ∈ slotRange lo hi ↔ lo ≤ s ∧ s < hi := Iff.rfl

/-- The slots of a region. -/
def Region.slots : Region → Set ℤ
  | .slot s => {s}
  | .block b => slotRange b (b + 64)

/-- The calls on a `ScratchpadManager`. -/
inductive ScratchpadCall
  | allocSlot
  | allocBlock
  | freeSlot (id : ℤ)
  deriving DecidableEq, Repr

/-- A manager, and the regions its caller holds. -/
structure Holding where
  mgr : ScratchpadManager
  live : List Region

namespace Holding

/-- A new manager, of which nothing is held. -/
def start : Holding := ⟨.init, []⟩

/-- The caller takes what an allocation returns, unless that is `-1`. -/
def grant (H : Holding) (region : ℤ → Region) (returned : ℤ × ScratchpadManager) : Holding where
  mgr := returned.2
  live := if returned.1 = -1 then H.live else region returned.1 :: H.live

/-- One call. -/
def call (H : Holding) : ScratchpadCall → Holding
  | .allocSlot => H.grant .slot H.mgr.allocSlot
  | .allocBlock => H.grant .block H.mgr.allocBlock
  | .freeSlot id => ⟨H.mgr.freeSlot id, H.live.filter (· ≠ .slot id)⟩

/-- The slot belongs to a live region. -/
def Live (H : Holding) (s : ℤ) : Prop := ∃ r ∈ H.live, s ∈ r.slots

/-- `free_slot` is called for single slots only: not into a live block. -/
def FreesSingle (H : Holding) : ScratchpadCall → Prop
  | .freeSlot id => ∀ b, .block b ∈ H.live → id ∉ (Region.block b).slots
  | _ => True

/-- An aligned block of slots none of which is live. -/
def FreeBlock (H : Holding) (b : ℤ) : Prop :=
  64 ∣ b ∧ (Region.block b).slots ⊆ slotRange 0 (maxSlots : ℤ) ∧
    ∀ s ∈ (Region.block b).slots, ¬H.Live s

/-- **The bitmap is exact**: the regions are disjoint and in place, and the bits
set are those of their slots. -/
structure Exact (H : Holding) : Prop where
  disjoint : H.live.Pairwise fun r r' => ∀ s ∈ r.slots, s ∉ r'.slots
  bounded : ∀ r ∈ H.live, r.slots ⊆ slotRange 0 (maxSlots : ℤ)
  aligned : ∀ b, .block b ∈ H.live → 64 ∣ b
  used_iff : ∀ k : ℕ, H.mgr.used k = true ↔ H.Live k

/-- At the start nothing is held. -/
theorem exact_start : start.Exact where
  disjoint := List.Pairwise.nil
  bounded := fun r hr => absurd hr List.not_mem_nil
  aligned := fun b hb => absurd hb List.not_mem_nil
  used_iff := fun k => by simp [start, ScratchpadManager.init, Live]

variable {H : Holding}

/-- The words that are marked are exactly those of the region. -/
theorem mark_used_iff (M : ScratchpadManager) (i n k : ℕ) :
    (M.mark i n).used k = true ↔ (k : ℤ) ∈ slotRange (i : ℤ) (i + n) ∨ M.used k = true := by
  rw [ScratchpadManager.mark_used, Bool.or_eq_true, decide_eq_true_eq, mem_slotRange]
  refine or_congr ?_ Iff.rfl
  omega

/-- A region none of whose slots is live is added. -/
theorem Exact.cons (h : H.Exact) {R : Region} {M : ScratchpadManager}
    (hfree : ∀ s ∈ R.slots, ¬H.Live s) (hbounded : R.slots ⊆ slotRange 0 (maxSlots : ℤ))
    (haligned : ∀ b, R = .block b → 64 ∣ b)
    (hused : ∀ k : ℕ, M.used k = true ↔ (k : ℤ) ∈ R.slots ∨ H.mgr.used k = true) :
    Exact ⟨M, R :: H.live⟩ where
  disjoint := by
    refine List.pairwise_cons.2 ⟨fun r hr => ?_, h.disjoint⟩
    exact fun s hs hsr => hfree s hs ⟨r, hr, hsr⟩
  bounded := List.forall_mem_cons.2 ⟨hbounded, h.bounded⟩
  aligned := fun b hb => (List.mem_cons.1 hb).elim (fun he => haligned b he.symm) (h.aligned b)
  used_iff := fun k => by
    rw [hused, h.used_iff]
    simp [Live]

/-- Where a word is free, its slot is not live. -/
theorem Exact.not_live (h : H.Exact) {k : ℕ} (hk : H.mgr.used k = false) : ¬H.Live k := by
  rw [← h.used_iff, hk]
  decide

/-- 64 free words from a multiple of 64 are a free block. -/
theorem Exact.freeBlock (h : H.Exact) {i : ℕ} (hdvd : 64 ∣ i) (hi : i + 64 ≤ maxSlots)
    (hfree : ∀ j < 64, H.mgr.used (i + j) = false) : H.FreeBlock i := by
  refine ⟨by omega, fun s hs => ?_, fun s hs => ?_⟩
  · obtain ⟨hs1, hs2⟩ := mem_slotRange.1 hs
    exact ⟨by omega, by omega⟩
  · obtain ⟨hs1, hs2⟩ := mem_slotRange.1 hs
    obtain ⟨k, rfl⟩ := Int.eq_ofNat_of_zero_le (show 0 ≤ s by omega)
    have hk := hfree (k - i) (by omega)
    rw [Nat.add_sub_cancel' (by omega)] at hk
    exact h.not_live hk

/-- `allocSlot` keeps it. -/
theorem Exact.allocSlot (h : H.Exact) : (H.call .allocSlot).Exact := by
  rw [call, grant]
  rcases H.mgr.allocSlot_spec with ⟨i, hi, hfree, he⟩ | ⟨-, he⟩
  · rw [he, if_neg (by omega)]
    refine h.cons ?_ ?_ (fun b hb => by cases hb) fun k => ?_
    · rintro s rfl
      exact h.not_live hfree
    · rintro s rfl
      exact ⟨by omega, by omega⟩
    · rw [mark_used_iff, Region.slots, Set.mem_singleton_iff, mem_slotRange]
      refine or_congr ?_ Iff.rfl
      omega
  · rw [he, if_pos rfl]
    exact h

/-- `allocBlock` keeps it. -/
theorem Exact.allocBlock (h : H.Exact) : (H.call .allocBlock).Exact := by
  rw [call, grant]
  rcases H.mgr.allocBlock_spec with ⟨i, hdvd, hi, hfree, he⟩ | ⟨-, he⟩
  · rw [he, if_neg (by omega)]
    obtain ⟨hdvd', hbounded, hnone⟩ := h.freeBlock hdvd hi hfree
    refine h.cons hnone hbounded (fun b hb => ?_) fun k => mark_used_iff ..
    cases hb
    exact hdvd'
  · rw [he, if_pos rfl]
    exact h

/-- A slot is live after `free_slot` if it is live and another one. -/
theorem live_freeSlot_iff {id : ℤ} (hid : H.FreesSingle (.freeSlot id)) (s : ℤ) :
    (H.call (.freeSlot id)).Live s ↔ s ≠ id ∧ H.Live s := by
  constructor
  · rintro ⟨r, hr, hs⟩
    obtain ⟨hmem, hne⟩ := List.mem_filter.1 hr
    refine ⟨?_, r, hmem, hs⟩
    rintro rfl
    cases r with
    | slot t => exact of_decide_eq_true hne (congrArg Region.slot hs.symm)
    | block b => exact hid b hmem hs
  · rintro ⟨hne, r, hr, hs⟩
    refine ⟨r, List.mem_filter.2 ⟨hr, decide_eq_true ?_⟩, hs⟩
    rintro rfl
    exact hne hs

/-- So does freeing a slot that is held. -/
theorem Exact.freeSlot (h : H.Exact) {id : ℤ} (hid : H.FreesSingle (.freeSlot id)) :
    (H.call (.freeSlot id)).Exact where
  disjoint := h.disjoint.filter _
  bounded := fun r hr => h.bounded r (List.mem_of_mem_filter hr)
  aligned := fun b hb => h.aligned b (List.mem_of_mem_filter hb)
  used_iff := fun k => by
    rw [live_freeSlot_iff hid, ← h.used_iff, call, ScratchpadManager.freeSlot]
    split_ifs with hin
    · by_cases hk : (k : ℤ) = id
      · simp [hk]
      · simp [hk]
    · -- an id out of range names no word of the bitmap
      refine (and_iff_right_of_imp fun hu => ?_).symm
      obtain ⟨r, hr, hk⟩ := (h.used_iff k).1 hu
      rintro rfl
      exact hin (mem_slotRange.1 (h.bounded r hr hk))

/-- **Every call keeps the bitmap exact.** -/
theorem Exact.call (h : H.Exact) {c : ScratchpadCall} (hc : H.FreesSingle c) :
    (H.call c).Exact := by
  cases c with
  | allocSlot => exact h.allocSlot
  | allocBlock => exact h.allocBlock
  | freeSlot id => exact h.freeSlot hc

/-- The condition is needed: slot 0 is freed twice, and belongs to two regions. -/
example : (Trace.run Holding.call start
    [.allocSlot, .freeSlot 0, .allocBlock, .freeSlot 0, .allocSlot]).live =
      [.slot 0, .block 0] := by
  rfl

/-- `alloc_slot` fails only when every slot is live. -/
theorem Exact.allocSlot_eq_neg_one (h : H.Exact) :
    H.mgr.allocSlot.1 = -1 ↔ ∀ s ∈ slotRange 0 (maxSlots : ℤ), H.Live s := by
  rcases H.mgr.allocSlot_spec with ⟨i, hi, hfree, he⟩ | ⟨hall, he⟩
  · refine iff_of_false (by rw [he]; omega) fun hlive => ?_
    exact h.not_live hfree (hlive i ⟨by omega, by omega⟩)
  · refine iff_of_true (by rw [he]) fun s hs => ?_
    obtain ⟨hs1, hs2⟩ := mem_slotRange.1 hs
    obtain ⟨k, rfl⟩ := Int.eq_ofNat_of_zero_le hs1
    exact (h.used_iff k).1 (hall k (by omega))

/-- `alloc_block` fails only when no aligned block is free. -/
theorem Exact.allocBlock_eq_neg_one (h : H.Exact) :
    H.mgr.allocBlock.1 = -1 ↔ ¬∃ b, H.FreeBlock b := by
  rcases H.mgr.allocBlock_spec with ⟨i, hdvd, hi, hfree, he⟩ | ⟨hall, he⟩
  · exact iff_of_false (by rw [he]; omega) (not_not.2 ⟨i, h.freeBlock hdvd hi hfree⟩)
  · refine iff_of_true (by rw [he]) ?_
    rintro ⟨b, ⟨q, rfl⟩, hin, hfree⟩
    have hfirst : (0 : ℤ) ≤ 64 * q := (hin ⟨le_refl _, by omega⟩).1
    have hlast : 64 * q + 63 < (maxSlots : ℤ) := (hin ⟨by omega, by omega⟩).2
    obtain ⟨n, rfl⟩ := Int.eq_ofNat_of_zero_le (show 0 ≤ q by omega)
    obtain ⟨j, hj, hu⟩ := hall n (by omega)
    refine hfree _ ⟨?_, ?_⟩ ((h.used_iff _).1 hu)
    · push_cast
      omega
    · push_cast
      omega

/-- **Scratchpad allocation over a run.**  After any calls the live regions are
disjoint, lie in the scratchpad and start where they should, and the next
allocation fails exactly when there is nothing left for it. -/
theorem scratchpad_run {calls : List ScratchpadCall}
    (hcalls : Trace.Along Holding.call FreesSingle start calls) :
    let H := Trace.run Holding.call start calls
    (H.live.Pairwise fun r r' => ∀ s ∈ r.slots, s ∉ r'.slots) ∧
      (∀ r ∈ H.live, r.slots ⊆ slotRange 0 (maxSlots : ℤ)) ∧
      (∀ b, .block b ∈ H.live → 64 ∣ b) ∧
      (H.mgr.allocSlot.1 = -1 ↔ ∀ s ∈ slotRange 0 (maxSlots : ℤ), H.Live s) ∧
      (H.mgr.allocBlock.1 = -1 ↔ ¬∃ b, H.FreeBlock b) := by
  intro H
  have h : H.Exact := Trace.Along.invariant (fun _ _ hH hc => hH.call hc) exact_start hcalls
  exact ⟨h.disjoint, h.bounded, h.aligned, h.allocSlot_eq_neg_one, h.allocBlock_eq_neg_one⟩

/-- The call that takes the first slot of an empty scratchpad. -/
theorem call_allocSlot_start : start.call .allocSlot = ⟨.mark .init 0 1, [.slot 0]⟩ := by
  rw [call, grant, ScratchpadManager.allocSlot_first (k := 0) (by decide) rfl fun j hj => by omega]
  rfl

/-- A slot is taken, freed, and a block takes its place. -/
theorem scratchpad_run_reuse :
    let H := Trace.run Holding.call start [.allocSlot, .freeSlot 0, .allocBlock]
    Trace.Along Holding.call FreesSingle start [.allocSlot, .freeSlot 0, .allocBlock] ∧
      (H.mgr.allocBlock.1 = -1 ↔ ¬∃ b, H.FreeBlock b) := by
  have hfree : (start.call .allocSlot).FreesSingle (.freeSlot 0) := by
    rw [call_allocSlot_start]
    exact fun b hb => absurd hb (by simp)
  have hcalls : Trace.Along call FreesSingle start [.allocSlot, .freeSlot 0, .allocBlock] :=
    ⟨trivial, hfree, trivial, trivial⟩
  exact ⟨hcalls, (scratchpad_run hcalls).2.2.2.2⟩

end Holding

/-! ### The allocation of the compiler -/

section Phase1

open Ir

variable {g : ℕ → Node} {n : ℕ} {st : AllocState} {H : Holding}

/-- A round makes at most two calls, all of them allocations. -/
theorem allocNode_exact (hk : (st.annot n).resultKind = (g n).kind.resultKind) (h : H.Exact)
    (hmgr : H.mgr = st.mgr) : ∃ H' : Holding, H'.Exact ∧ H'.mgr = (allocNode g n st).1.mgr := by
  have hslot : (H.call .allocSlot).mgr = st.mgr.allocSlot.2 := congrArg (·.allocSlot.2) hmgr
  cases hleaf : (g n).kind.isLeaf with
  | true =>
    rw [allocNode_leaf hleaf]
    exact ⟨H, h, hmgr⟩
  | false =>
    cases hmask : (g n).kind.isMask with
    | false =>
      have hblock : (H.call .allocBlock).mgr = st.mgr.allocBlock.2 := congrArg (·.allocBlock.2) hmgr
      refine ⟨H.call .allocBlock, h.allocBlock, ?_⟩
      rw [hblock, allocNode_block hk hleaf hmask]
      split_ifs with h0 hadd
      · exact (carried_mgr .ADD n (st.withResult n st.mgr.allocBlock)).symm
      · rfl
      · rfl
    | true =>
      cases hcmp : (g n).kind.isComparison with
      | false =>
        refine ⟨H.call .allocSlot, h.allocSlot, ?_⟩
        rw [hslot, allocNode_mask hk hmask hcmp]
        rfl
      | true =>
        rw [allocNode_comparison hk hcmp]
        split_ifs with h0
        · exact ⟨(H.call .allocSlot).call .allocSlot, h.allocSlot.allocSlot,
            congrArg (·.allocSlot.2) hslot⟩
        · exact ⟨H.call .allocSlot, h.allocSlot, hslot⟩

/-- **The bitmap of a compilation is exact**, whether all the nodes got their slots or
not. -/
theorem allocNodes_exact {ns : List ℕ} (hnd : ns.Nodup)
    (hk : ∀ n ∈ ns, (st.annot n).resultKind = (g n).kind.resultKind) (h : H.Exact)
    (hmgr : H.mgr = st.mgr) : ∃ H' : Holding, H'.Exact ∧ H'.mgr = (allocNodes g ns st).1.mgr := by
  induction ns generalizing st H with
  | nil => exact ⟨H, h, hmgr⟩
  | cons n ns ih =>
    obtain ⟨hn, hnd⟩ := List.nodup_cons.1 hnd
    obtain ⟨hkn, hkns⟩ := List.forall_mem_cons.1 hk
    obtain ⟨H₁, h₁, hmgr₁⟩ := allocNode_exact hkn h hmgr
    rw [allocNodes]
    split
    · rename_i st₁ hst₁
      rw [hst₁] at hmgr₁
      exact ⟨H₁, h₁, hmgr₁⟩
    · rename_i st₁ hst₁
      rw [hst₁] at hmgr₁
      refine ih hnd (fun m hm => ?_) h₁ hmgr₁
      rw [(allocNode_spec hkn hst₁).frame m fun he => hn (he ▸ hm)]
      exact hkns m hm

end Phase1

end Jit
end AarchGate
