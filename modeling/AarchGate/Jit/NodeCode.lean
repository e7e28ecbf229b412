/-
# The code of one node

What the code emitted for a node leaves in the words of the node, for each kind:
the comparisons, the logical operations and the selection go through the
register cache, so each statement starts and ends in a `Ready` state.  The
operands are given by their lanes, and the result has the lanes of the
operation.  `PadKeeps` says that no other word of the scratchpad changes.
-/

import AarchGate.Jit.Blocks

namespace AarchGate
namespace Jit

open A64 Ir BitPlane

variable {L : Layout} {F : ℕ → ℕ → Word} {g : ℕ → Node} {a : ℕ → Annot} {depth : ℕ}
  {saved : ℕ → Word} {M : ℕ → Prop} {c : ScratchpadCache} {m m' : Machine}

/-- `slot_id` is the mask word `s`. -/
structure MaskSlot (M : ℕ → Prop) (slot : ℤ) (s : ℕ) : Prop where
  eq : slot = (s : ℕ)
  lt : s < maxSlots
  mem : M s

/-- A block of code that leaves the memory and the registers of the cache alone
keeps the state ready. -/
theorem Ready.of_mem_eq (h : Ready L F depth saved M c m) {rs : List Gp} (hk : Keeps rs m m')
    (hrs : ∀ r ∈ rs, r ≠ fieldPlanesPtr ∧ r ≠ scratchPtr ∧ r ≠ .sp ∧ ∀ k < 8, r ≠ cacheReg k)
    (hmem : m'.mem = m.mem) : Ready L F depth saved M c m' :=
  h.frame hk hrs (PadKeeps.of_mem_eq (fun _ => False) hmem) fun _ h => h.elim

/-- One instruction that writes `result`. -/
theorem Ready.write_result (h : Ready L F depth saved M c m) (v : Word) :
    Ready L F depth saved M c (m.write result v) := by
  have hk : Keeps [result] m (m.write result v) := fun r hr => by
    rw [List.mem_singleton] at hr
    simp [hr]
  exact h.of_mem_eq hk (by decide) (by simp)

/-! ### Comparisons -/

/-- The loads, the comparator and the two stores of a comparison. -/
theorem compareCore_exec (h : Ready L F depth saved M c m) {n l r s e : ℕ}
    (hs : MaskSlot M (a n).slotId s) (he : MaskSlot M (a n).eqSlotId e) (hse : s ≠ e)
    (hl : OperandOk L g a l) (hr : OperandOk L g a r) (op : Cmp) {va vb : ℕ → Word}
    (hA : Planes (opWord L F g a m l) va) (hB : Planes (opWord L F g a m r) vb)
    (hs0 : pad L m s = 0) (he0 : pad L m e = BitVec.allOnes 64) :
    let r₁ := c.loadSlot e maskEq
    let r₂ := r₁.2.loadSlot s maskGt
    let body := hoist g a hoistedLeft l ++ hoist g a hoistedRight r ++ compareBits g 64 op.kind l r
    let r₃ := r₂.2.storeSlot s maskGt
    let r₄ := r₃.2.storeSlot e maskEq
    let m' := execs (r₁.1 ++ r₂.1 ++ body ++ r₃.1 ++ r₄.1) m
    Ready L F depth saved M r₄.2 m' ∧
      Mask (pad L m' s) (fun i => if op = .lt ∨ op = .le then decide (va i < vb i)
        else decide (vb i < va i)) ∧
      Mask (pad L m' e) (fun i => decide (va i = vb i)) ∧
      PadKeeps L (fun k => k = s ∨ k = e) m m' := by
  intro r₁ r₂ body r₃ r₄ m'
  obtain ⟨h₁, hv₁, hm₁, hk₁⟩ := h.loadSlot he.lt he.mem (d := 6) (by simp [CacheScratch])
    (by decide) (by decide)
  obtain ⟨h₂, hv₂, hm₂, hk₂⟩ := h₁.loadSlot hs.lt hs.mem (d := 5) (by simp [CacheScratch])
    (by decide) (by decide)
  generalize hx₁ : execs r₁.1 m = m₁ at *
  generalize hx₂ : execs r₂.1 m₁ = m₂ at *
  have hmem₂ : m₂.mem = m.mem := hm₂.trans hm₁
  have heq₂ : m₂.read maskEq = BitVec.allOnes 64 := by
    rw [hk₂ _ (by decide), hv₁, he0]
  have hgt₂ : m₂.read maskGt = 0 := by
    rw [hv₂, pad, hm₁]; exact hs0
  obtain ⟨hgt, heq, hm₃, hk₃⟩ := compareBits_exec h₂.env hl hr op
    (hA.congr fun b _ => opWord_mem_eq hmem₂ b) (hB.congr fun b _ => opWord_mem_eq hmem₂ b) hgt₂ heq₂
  generalize hx₃ : execs body m₂ = m₃ at *
  have h₃ : Ready L F depth saved M r₂.2 m₃ := h₂.of_mem_eq hk₃ (by decide) hm₃
  obtain ⟨h₄, hv₄, hp₄, hk₄⟩ := h₃.storeSlot hs.lt hs.mem (v := 5) (by simp [CacheScratch])
  generalize hx₄ : execs r₃.1 m₃ = m₄ at *
  obtain ⟨h₅, hv₅, hp₅, hk₅⟩ := h₄.storeSlot he.lt he.mem (v := 6) (by simp [CacheScratch])
  have hm' : m' = execs r₄.1 m₄ := by
    simp only [m', execs_append, hx₁, hx₂, hx₃, hx₄]
  rw [← hm'] at h₅ hv₅ hp₅ hk₅
  refine ⟨h₅, ?_, ?_, ?_⟩
  · rw [hp₅.pad_eq hs.lt hse, hv₄]
    exact hgt
  · rw [hv₅, hk₄ _ (by decide)]
    exact heq
  · refine (PadKeeps.of_mem_eq _ (hm₃.trans hmem₂)).trans ?_
    exact (hp₄.mono fun _ h => Or.inl h).trans (hp₅.mono fun _ h => Or.inr h)

/-- **The code of a comparison** leaves its mask in the slot of the node. -/
theorem emitCompare_exec (h : Ready L F depth saved M c m) {n l r s e : ℕ} {op : Cmp}
    (hkind : (g n).kind = op.kind) (hs : MaskSlot M (a n).slotId s)
    (he : MaskSlot M (a n).eqSlotId e) (hse : s ≠ e) (hl : OperandOk L g a l)
    (hr : OperandOk L g a r) {va vb : ℕ → Word} (hA : Planes (opWord L F g a m l) va)
    (hB : Planes (opWord L F g a m r) vb) (hs0 : pad L m s = 0)
    (he0 : pad L m e = BitVec.allOnes 64) :
    let rc := emitCompare g a 64 n l r c
    let m' := execs rc.1 m
    Ready L F depth saved M rc.2 m' ∧ Mask (pad L m' s) (fun i => op.holds (va i) (vb i)) ∧
      PadKeeps L (fun k => k = s ∨ k = e) m m' := by
  intro rc m'
  obtain ⟨h₁, hgt, heq, hp₁⟩ := compareCore_exec h hs he hse hl hr op hA hB hs0 he0
  simp only [rc, m', emitCompare, hkind, hs.eq, he.eq]
  by_cases hagg : op.kind = .GE ∨ op.kind = .LE ∨ op.kind = .EQ
  · -- the equality mask joins, or replaces, the greater-than mask
    simp only [if_pos hagg]
    rw [execs_append, execs_append, execs_append, execs_append]
    generalize execs _ m = m₁ at h₁ hgt heq hp₁ ⊢
    obtain ⟨h₂, hv₂, hm₂, hk₂⟩ := h₁.loadSlot hs.lt hs.mem (d := 2) (by simp [CacheScratch])
      (by decide) (by decide)
    generalize execs _ m₁ = m₂ at h₂ hv₂ hm₂ hk₂ ⊢
    obtain ⟨h₃, hv₃, hm₃, hk₃⟩ := h₂.loadSlot he.lt he.mem (d := 3) (by simp [CacheScratch])
      (by decide) (by decide)
    generalize execs _ m₂ = m₃ at h₃ hv₃ hm₃ hk₃ ⊢
    have hA₃ : m₃.read planeA = pad L m₁ s := by rw [hk₃ _ (by decide), hv₂]
    have hB₃ : m₃.read planeB = pad L m₁ e := by rw [hv₃, pad, hm₂]; rfl
    let w : Word := if op.kind = .EQ then pad L m₁ e else pad L m₁ s ||| pad L m₁ e
    have hw : execs [if op.kind = .EQ then .mov result planeB else .alu .orr result planeA planeB]
        m₃ = m₃.write result w := by
      by_cases hop : op.kind = .EQ
      · simp [w, hop, hB₃]
      · simp [w, hop, hA₃, hB₃, Alu.eval]
    rw [hw]
    obtain ⟨h₄, hv₄, hp₄, -⟩ := (h₃.write_result w).storeSlot hs.lt hs.mem (v := 4)
      (by simp [CacheScratch])
    refine ⟨h₄, ?_, ?_⟩
    · rw [hv₄, Machine.read_write_x, if_pos rfl]
      cases op with
      | gt | lt => simp [Cmp.kind] at hagg
      | eq => exact heq
      | ge =>
        refine (hgt.or heq).congr fun i _ => ?_
        rw [Cmp.holds, decide_le_eq_or, decide_eq_decide.2 (eq_comm (a := vb i))]
        rfl
      | le =>
        refine (hgt.or heq).congr fun i _ => ?_
        rw [Cmp.holds, decide_le_eq_or]
        rfl
    · have hmem : (m₃.write result w).mem = m₁.mem := by simp [hm₃, hm₂]
      exact hp₁.trans ((PadKeeps.of_mem_eq _ hmem).trans (hp₄.mono fun _ h => Or.inl h))
  · simp only [if_neg hagg]
    refine ⟨h₁, hgt.congr fun i _ => ?_, hp₁⟩
    cases op <;> simp [Cmp.kind, Cmp.holds] at hagg ⊢

/-! ### Logical operations -/

/-- **The code of `AND` and `OR`.** -/
theorem emitLogic_exec (h : Ready L F depth saved M c m) {n l r sl sr s : ℕ}
    (hl : MaskSlot M (a l).slotId sl) (hr : MaskSlot M (a r).slotId sr)
    (hs : MaskSlot M (a n).slotId s) :
    let rc := emitLogic g a n l (some r) c
    let m' := execs rc.1 m
    Ready L F depth saved M rc.2 m' ∧
      pad L m' s = (if (g n).kind = .AND then pad L m sl &&& pad L m sr
        else pad L m sl ||| pad L m sr) ∧ PadKeeps L (· = s) m m' := by
  intro rc m'
  simp only [rc, m', emitLogic, hl.eq, hr.eq, hs.eq]
  rw [execs_append, execs_append, execs_append]
  obtain ⟨h₁, hv₁, hm₁, hk₁⟩ := h.loadSlot hl.lt hl.mem (d := 2) (by simp [CacheScratch])
    (by decide) (by decide)
  generalize execs _ m = m₁ at h₁ hv₁ hm₁ hk₁ ⊢
  obtain ⟨h₂, hv₂, hm₂, hk₂⟩ := h₁.loadSlot hr.lt hr.mem (d := 3) (by simp [CacheScratch])
    (by decide) (by decide)
  generalize execs _ m₁ = m₂ at h₂ hv₂ hm₂ hk₂ ⊢
  have hA : m₂.read planeA = pad L m sl := by rw [hk₂ _ (by decide), hv₁]
  have hB : m₂.read planeB = pad L m sr := by rw [hv₂, pad, hm₁]; rfl
  let w : Word := if (g n).kind = .AND then pad L m sl &&& pad L m sr
    else pad L m sl ||| pad L m sr
  have hw : execs [.alu (if (g n).kind = .AND then .and else .orr) result planeA planeB] m₂ =
      m₂.write result w := by
    by_cases hop : (g n).kind = .AND
    · simp [w, hop, hA, hB, Alu.eval]
    · simp [w, hop, hA, hB, Alu.eval]
  rw [hw]
  obtain ⟨h₃, hv₃, hp₃, -⟩ := (h₂.write_result w).storeSlot hs.lt hs.mem (v := 4)
    (by simp [CacheScratch])
  refine ⟨h₃, by rw [hv₃, Machine.read_write_x, if_pos rfl], ?_⟩
  exact (PadKeeps.of_mem_eq _ (by simp [hm₂, hm₁])).trans hp₃

/-- **The code of `NOT`.** -/
theorem emitNot_exec (h : Ready L F depth saved M c m) {n l sl s : ℕ}
    (hl : MaskSlot M (a l).slotId sl) (hs : MaskSlot M (a n).slotId s) :
    let rc := emitLogic g a n l none c
    let m' := execs rc.1 m
    Ready L F depth saved M rc.2 m' ∧ pad L m' s = ~~~pad L m sl ∧ PadKeeps L (· = s) m m' := by
  intro rc m'
  simp only [rc, m', emitLogic, hl.eq, hs.eq]
  rw [execs_append, execs_append]
  obtain ⟨h₁, hv₁, hm₁, hk₁⟩ := h.loadSlot hl.lt hl.mem (d := 2) (by simp [CacheScratch])
    (by decide) (by decide)
  generalize execs _ m = m₁ at h₁ hv₁ hm₁ hk₁ ⊢
  have hw : execs [.mvn result planeA] m₁ = m₁.write result (~~~pad L m sl) := by simp [hv₁]
  rw [hw]
  obtain ⟨h₂, hv₂, hp₂, -⟩ := (h₁.write_result (~~~pad L m sl)).storeSlot hs.lt hs.mem (v := 4)
    (by simp [CacheScratch])
  refine ⟨h₂, by rw [hv₂, Machine.read_write_x, if_pos rfl], ?_⟩
  exact (PadKeeps.of_mem_eq _ (by simp [hm₁])).trans hp₂

/-! ### Blocks -/

/-- **The code of `SELECT`** chooses between its operands in every lane. -/
theorem emitSelect_exec (h : Ready L F depth saved M c m) {n i l r si : ℕ}
    (hi : MaskSlot M (a i).slotId si) (hl : OperandOk L g a l) (hr : OperandOk L g a r)
    (hn : 0 ≤ (a n).slotId) (hslot : (a n).slotId.toNat + 64 ≤ maxSlots)
    (hal : Apart g a l (a n).slotId.toNat) (har : Apart g a r (a n).slotId.toNat)
    (hM : ∀ k, InBlock (a n).slotId.toNat k → ¬M k) {p : ℕ → Bool} {va vb : ℕ → Word}
    (hp : Mask (pad L m si) p) (hA : Planes (opWord L F g a m l) va)
    (hB : Planes (opWord L F g a m r) vb) :
    let rc := emitSelect g a 64 n i l r c
    let m' := execs rc.1 m
    Ready L F depth saved M rc.2 m' ∧
      Planes (fun b => pad L m' ((a n).slotId.toNat + b)) (fun j => if p j then va j else vb j) ∧
      PadKeeps L (InBlock (a n).slotId.toNat) m m' := by
  intro rc m'
  simp only [rc, m', emitSelect, hi.eq]
  rw [execs_append]
  obtain ⟨h₁, hv₁, hm₁, hk₁⟩ := h.loadSlot hi.lt hi.mem (d := 5) (by simp [CacheScratch])
    (by decide) (by decide)
  generalize execs _ m = m₁ at h₁ hv₁ hm₁ hk₁ ⊢
  obtain ⟨hv₂, hp₂, hk₂⟩ := selectBits_exec h₁.env hl hr hn hslot hal har 64 (Nat.le_refl _)
  generalize execs _ m₁ = m₂ at hv₂ hp₂ hk₂ ⊢
  refine ⟨h₁.frame hk₂ (by decide) hp₂ hM, ?_, (PadKeeps.of_mem_eq _ hm₁).trans hp₂⟩
  refine (Planes.mux hp hA hB).congr fun b hb => ?_
  rw [hv₂ b hb, hv₁, opWord_mem_eq hm₁, opWord_mem_eq hm₁]

/-- The code of `ADD` and `SUB`, between ready states. -/
theorem Ready.emitAddSub (h : Ready L F depth saved M c m) {n : ℕ} {k : ℕ} (hk : k < 6)
    (hM : ∀ j, InBlock (a n).slotId.toNat j → ¬M j)
    (hp : PadKeeps L (InBlock (a n).slotId.toNat) m m') (hr : Keeps (addSubRegs k) m m') :
    Ready L F depth saved M c m' := by
  refine h.frame hr (fun r hr => ?_) hp hM
  simp only [addSubRegs, List.mem_cons, List.not_mem_nil, or_false] at hr
  rcases hr with rfl | rfl | rfl | rfl | rfl | rfl | rfl | rfl <;>
    refine ⟨?_, ?_, by simp, fun j hj => ?_⟩ <;> simp only [ne_eq, Gp.x.injEq] <;> omega

end Jit
end AarchGate
