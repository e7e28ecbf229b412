/-
# The adder, the comparator and the multiplexer

The unrolled loops `compile_expression` emits for one node, executed.  Each
loop has a lemma for one bit and a lemma for `k` bits by induction; the words
they leave behind are those of `BitPlane`: `carryInto` for the adder,
`compareUpTo` for the comparator.
-/

import AarchGate.BitPlane.Lanes
import AarchGate.Jit.Operand

namespace AarchGate
namespace Jit

open A64 Ir BitPlane

variable {L : Layout} {F : ℕ → ℕ → Word} {g : ℕ → Node} {a : ℕ → Annot} {depth : ℕ}
  {saved : ℕ → Word} {m : Machine}

/-- The words of the block at `slot`. -/
def InBlock (slot k : ℕ) : Prop := slot ≤ k ∧ k < slot + 64

/-- The operand does not live in the block at `slot`. -/
def Apart (g : ℕ → Node) (a : ℕ → Annot) (op slot : ℕ) : Prop :=
  (g op).kind.isLeaf = false → ∀ b < 64, ¬InBlock slot ((a op).slotId.toNat + b)


/-- Hoisting both operands. -/
theorem hoistBoth_exec (hE : Env L F depth saved m) {l r : ℕ} (hl : OperandOk L g a l)
    (hr : OperandOk L g a r) :
    ∃ vl vr, execs (hoist g a hoistedLeft l ++ hoist g a hoistedRight r) m =
        (m.write hoistedLeft vl).write hoistedRight vr ∧
      IsBase L g a l vl ∧ IsBase L g a r vr := by
  obtain ⟨vl, hvl, hbl⟩ := hoist_exec hE hl (h := 16) (by decide)
  have hE₁ : Env L F depth saved (m.write hoistedLeft vl) :=
    hE.write (by decide) (by decide) vl
  obtain ⟨vr, hvr, hbr⟩ := hoist_exec hE₁ hr (h := 17) (by decide)
  exact ⟨vl, vr, by rw [execs_append, hvl, hvr], hbl, hbr⟩

/-! ### Addition and subtraction -/

/-- One bit of the adder. -/
theorem addSubBit_exec (hE : Env L F depth saved m) {l r : ℕ} (hl : OperandOk L g a l)
    (hr : OperandOk L g a r) (hbl : IsBase L g a l (m.read hoistedLeft))
    (hbr : IsBase L g a r (m.read hoistedRight)) {slot : ℕ}
    (ht : m.read tempPtr = wordAt L.scratch slot) (sub : Bool) (c : ℕ) {b : ℕ} (hb : b < 64) :
    let A := opWord L F g a m l b
    let B := if sub then ~~~opWord L F g a m r b else opWord L F g a m r b
    let cin := m.read (carryReg c)
    let m' := execs (addSubBit g sub (carryReg c) l r b) m
    m'.read (carryReg c) = (A &&& B) ||| ((A ^^^ B) &&& cin) ∧
      (m'.mem = fun x => if x = wordAt L.scratch (slot + b) then A ^^^ B ^^^ cin else m.mem x) ∧
      Keeps [planeA, planeB, result, scratch1, carryReg c] m m' := by
  intro A B cin m'
  have hE₁ : Env L F depth saved (m.write planeA A) :=
    hE.write (by decide) (by decide) A
  have h₁ := loadPlane_exec hE hl hbl 2 hb
  have h₂ := loadPlane_exec hE₁ hr (h := 17) (by simpa using hbr) 3 hb
  rw [opWord_mem_eq (Machine.mem_write ..)] at h₂
  have he : m' = execs
      ((if sub then [.mvn planeB planeB] else []) ++
      [.alu .eor result planeA planeB, .alu .eor scratch1 result (carryReg c),
      .alu .and planeA planeA planeB, .alu .and result result (carryReg c),
      .alu .orr (carryReg c) planeA result, .str scratch1 (.off tempPtr (BitVec.ofNat 64 (b * 8)))])
      ((m.write planeA A).write planeB (opWord L F g a m r b)) := by
    show execs (addSubBit g sub (carryReg c) l r b) m = _
    rw [addSubBit, List.append_assoc, List.append_assoc, execs_append, h₁, execs_append, h₂]
  have he' : m' = execs
      [.alu .eor result planeA planeB, .alu .eor scratch1 result (carryReg c),
      .alu .and planeA planeA planeB, .alu .and result result (carryReg c),
      .alu .orr (carryReg c) planeA result, .str scratch1 (.off tempPtr (BitVec.ofNat 64 (b * 8)))]
      ((m.write planeA A).write planeB B) := by
    rw [he]
    cases sub <;> simp [B]
  have h2 : 23 + c ≠ 2 := by omega
  have h3 : 23 + c ≠ 3 := by omega
  have h4 : 23 + c ≠ 4 := by omega
  have h7 : 23 + c ≠ 7 := by omega
  have h22 : 22 ≠ 23 + c := by omega
  rw [he', wordAt_add, ← ht]
  refine ⟨?_, ?_, fun r hr => ?_⟩
  · simp [Alu.eval, cin, h2, h3, h4, h7]
  · funext x
    simp [Alu.eval, cin, h2, h3, h4, h7, h7.symm, h22]
  · simp only [List.mem_cons, List.not_mem_nil, or_false, not_or] at hr
    simp [hr]

/-- The adder after `k` bits: the carry word of bit `k`, and the planes of the
sum below `k`. -/
structure Added (L : Layout) (A B : ℕ → Word) (slot c k : ℕ) (m m' : Machine) : Prop where
  carry : m'.read (carryReg c) = carryInto A B (m.read (carryReg c)) k
  sum : ∀ b < k, pad L m' (slot + b) = A b ^^^ B b ^^^ carryInto A B (m.read (carryReg c)) b
  pads : PadKeeps L (InBlock slot) m m'
  regs : Keeps [planeA, planeB, result, scratch1, carryReg c] m m'

/-- The second operand of the adder, complemented for `SUB`. -/
def addend (sub : Bool) (B : ℕ → Word) (b : ℕ) : Word := if sub then ~~~B b else B b

/-- **The adder loop**, by induction on the bits: a bit reads operands the
earlier ones did not write. -/
theorem addSubBits_exec (hE : Env L F depth saved m) {l r : ℕ} (hl : OperandOk L g a l)
    (hr : OperandOk L g a r) (hbl : IsBase L g a l (m.read hoistedLeft))
    (hbr : IsBase L g a r (m.read hoistedRight)) {slot : ℕ} (hslot : slot + 64 ≤ maxSlots)
    (hal : Apart g a l slot) (har : Apart g a r slot)
    (ht : m.read tempPtr = wordAt L.scratch slot) (sub : Bool) {c : ℕ} (hc : c < 6) :
    ∀ k ≤ 64, Added L (opWord L F g a m l) (addend sub (opWord L F g a m r)) slot c k m
      (execs ((List.range k).flatMap (addSubBit g sub (carryReg c) l r)) m) := by
  intro k hk
  induction k with
  | zero =>
    exact ⟨rfl, fun b hb => absurd hb (Nat.not_lt_zero b), .refl _ _ _, .refl _ _⟩
  | succ k ih =>
    have ih := ih (by omega)
    rw [List.range_succ, List.flatMap_append, execs_append, List.flatMap_singleton]
    generalize execs ((List.range k).flatMap (addSubBit g sub (carryReg c) l r)) m = m₁ at ih
    have hkeep : ∀ n, n = 16 ∨ n = 17 ∨ n = 19 ∨ n = 20 ∨ n = 22 → m₁.read (.x n) = m.read (.x n) := by
      intro n hn
      refine ih.regs _ ?_
      simp only [List.mem_cons, Gp.x.injEq, List.not_mem_nil, or_false, not_or]
      omega
    have hE₁ : Env L F depth saved m₁ := hE.frame (hkeep 19 (by simp)) (hkeep 20 (by simp))
      (ih.regs _ (by simp)) ih.pads.memKeeps
    have hwl := opWord_congr (F := F) hl ih.pads hal (show k < 64 by omega)
    have hwr := opWord_congr (F := F) hr ih.pads har (show k < 64 by omega)
    obtain ⟨hcarry, hmem, hregs⟩ := addSubBit_exec (b := k) hE₁ hl hr
      (by rw [hkeep 16 (by simp)]; exact hbl) (by rw [hkeep 17 (by simp)]; exact hbr)
      (by rw [hkeep 22 (by simp)]; exact ht) sub c (by omega)
    rw [hwl, hwr, ih.carry] at hcarry hmem
    generalize execs (addSubBit g sub (carryReg c) l r k) m₁ = m₂ at hcarry hmem hregs
    have hpad : PadKeeps L (InBlock slot) m₁ m₂ := by
      intro x hx
      rw [hmem]
      refine if_neg ?_
      rintro rfl
      exact hx ⟨slot + k, by omega, ⟨by omega, by omega⟩, rfl⟩
    refine ⟨hcarry, fun b hb => ?_, ih.pads.trans hpad, fun r hr => ?_⟩
    · rw [pad, hmem]
      by_cases hbk : b = k
      · subst hbk
        exact if_pos rfl
      · have hne : wordAt L.scratch (slot + b) ≠ wordAt L.scratch (slot + k) := fun h =>
          hbk (by have := (pad_inj (by omega) (by omega)).1 h; omega)
        simp only [if_neg hne]
        exact ih.sum b (by omega)
    · rw [hregs r hr, ih.regs r hr]

/-- The planes that are added: those of `b`, or their complement. -/
theorem addend_planes {B : ℕ → Word} {vb : ℕ → Word} (hB : Planes B vb) (sub : Bool) :
    Planes (addend sub B) (fun r => if sub then ~~~vb r else vb r) := by
  cases sub
  · exact hB
  · exact hB.not

/-- What the code of `SUB` computes in row `r`: it adds the complement, and the
carry word `1` is a carry-in for row 0 alone. -/
def subLane (r : ℕ) (x y : Word) : Word := x - y - (if r = 0 then 0 else 1)

/-- From the second row on a difference is one too small. -/
theorem subLane_ne (x y : Word) : subLane 1 x y ≠ x - y := by
  rw [subLane, if_neg (by decide)]
  intro h
  bv_omega

/-- With the carry that `emit_sub` starts from. -/
theorem add_not_carry_eq_subLane (r : ℕ) (x y : Word) :
    x + ~~~y + BitVec.setWidth 64 (BitVec.ofBool ((1 : Word).getLsbD r)) = subLane r x y := by
  have hneg : x - y = x + ~~~y + 1 := by
    rw [BitVec.sub_eq_add_neg, BitVec.neg_eq_not_add, BitVec.add_assoc]
    rfl
  rw [subLane, hneg]
  by_cases h : r = 0
  · subst h
    simp
  · have h1 : (1 : Word).getLsbD r = false := by simp [BitVec.getLsbD_one, h]
    rw [h1, if_neg h, BitVec.add_sub_cancel]
    simp

/-- The registers the code of an addition writes. -/
def addSubRegs (c : ℕ) : List Gp :=
  [planeA, planeB, result, scratch1, hoistedLeft, hoistedRight, tempPtr, carryReg c]

/-- **The code of `ADD` and `SUB`** leaves the planes of the sum, or of the
difference `subLane`, in the block of the node. -/
theorem emitAddSub_exec (hE : Env L F depth saved m) {n l r : ℕ} (hl : OperandOk L g a l)
    (hr : OperandOk L g a r) (hn : 0 ≤ (a n).slotId) (hslot : (a n).slotId.toNat + 64 ≤ maxSlots)
    (hal : Apart g a l (a n).slotId.toNat) (har : Apart g a r (a n).slotId.toNat) {c : ℕ}
    (hc : c < 6) {va vb : ℕ → Word} (hA : Planes (opWord L F g a m l) va)
    (hB : Planes (opWord L F g a m r) vb) :
    let m' := execs (emitAddSub g a 64 (carryReg c) n l r) m
    Planes (fun b => pad L m' ((a n).slotId.toNat + b))
        (fun i => if (g n).kind = .SUB then subLane i (va i) (vb i) else va i + vb i) ∧
      PadKeeps L (InBlock (a n).slotId.toNat) m m' ∧ Keeps (addSubRegs c) m m' := by
  intro m'
  -- the set-up code: carry, the two bases, the base of the destination
  let cin : Word := if (g n).kind = .SUB then 1 else 0
  have h20 : 20 ≠ 23 + c := by omega
  have hE₁ : Env L F depth saved (m.write (carryReg c) cin) :=
    hE.write (by omega) (by omega) cin
  obtain ⟨vl, vr, hv, hbl, hbr⟩ := hoistBoth_exec hE₁ hl hr
  let m₀ := (((m.write (carryReg c) cin).write hoistedLeft vl).write hoistedRight vr).write tempPtr
    (wordAt L.scratch (a n).slotId.toNat)
  have hm' : m' = execs ((List.range 64).flatMap
      (addSubBit g (decide ((g n).kind = .SUB)) (carryReg c) l r)) m₀ := by
    have hset : execs ([.movImm (carryReg c) cin] ++ (hoist g a hoistedLeft l ++
        hoist g a hoistedRight r) ++ movWide tempPtr (byteOffset (a n).slotId) ++
        [.alu .add tempPtr tempPtr scratchPtr]) m = m₀ := by
      have hmov : execs [.movImm (carryReg c) cin] m = m.write (carryReg c) cin := rfl
      rw [execs_append, execs_append, execs_append, hmov, hv, execs_movWide, byteOffset_toNat hn]
      simp [m₀, Alu.eval, hE.x20, h20, wordAt, BitVec.add_comm]
    rw [← hset, ← execs_append]
    simp only [m', emitAddSub, cin, List.append_assoc]
  have hkeep₀ : Keeps (addSubRegs c) m m₀ := by
    intro r hr
    simp only [addSubRegs, List.mem_cons, List.not_mem_nil, or_false, not_or] at hr
    simp [m₀, hr]
  have hmem₀ : m₀.mem = m.mem := by simp [m₀]
  have hE₀ : Env L F depth saved m₀ :=
    hE.of_mem_eq hkeep₀ (by simp [addSubRegs]; omega) hmem₀
  have hop : ∀ o, opWord L F g a m₀ o = opWord L F g a m o := fun o =>
    funext fun b => opWord_mem_eq hmem₀ b
  have h := addSubBits_exec hE₀ hl hr (by simpa [m₀] using hbl) (by simpa [m₀] using hbr) hslot hal
    har (by simp [m₀]) (decide ((g n).kind = .SUB)) hc 64 (Nat.le_refl _)
  rw [← hm', hop, hop] at h
  have hcin : m₀.read (carryReg c) = cin := by
    have h1 : 23 + c ≠ 16 := by omega
    have h2 : 23 + c ≠ 17 := by omega
    have h3 : 23 + c ≠ 22 := by omega
    simp [m₀, h1, h2, h3]
  refine ⟨?_, (PadKeeps.of_mem_eq _ hmem₀).trans h.pads, hkeep₀.trans_subset h.regs ?_⟩
  · have hsum := hA.add (addend_planes hB (decide ((g n).kind = .SUB))) cin
    refine (hsum.congr fun b hb => by rw [h.sum b hb, hcin]).lanes fun i _ => ?_
    by_cases hk : (g n).kind = .SUB
    · simp only [hk, if_true, decide_true, cin]
      exact (add_not_carry_eq_subLane i (va i) (vb i)).symm
    · simp [hk, cin]
  · simp [addSubRegs]

/-! ### Comparison -/

/-- The registers of the comparator. -/
def compareRegs : List Gp := [planeA, planeB, result, maskGt, maskEq]

/-- One bit of the comparator. -/
theorem compareBit_exec (hE : Env L F depth saved m) {oA oB hA hB : ℕ} (hoA : OperandOk L g a oA)
    (hoB : OperandOk L g a oB) (hB2 : hB ≠ 2) (hbA : IsBase L g a oA (m.read (.x hA)))
    (hbB : IsBase L g a oB (m.read (.x hB))) {b : ℕ} (hb : b < 64) :
    let A := opWord L F g a m oA b
    let B := opWord L F g a m oB b
    let m' := execs (compareBit g oA oB (.x hA) (.x hB) b) m
    m'.read maskGt = (m.read maskGt ||| ((A &&& ~~~B) &&& m.read maskEq)) ∧
      m'.read maskEq = m.read maskEq &&& ~~~(A ^^^ B) ∧ m'.mem = m.mem ∧
      Keeps compareRegs m m' := by
  intro A B m'
  have hE₁ : Env L F depth saved (m.write planeA A) :=
    hE.write (by decide) (by decide) A
  have h₁ := loadPlane_exec hE hoA hbA 2 hb
  have h₂ := loadPlane_exec hE₁ hoB (h := hB) (by simpa [hB2] using hbB) 3 hb
  rw [opWord_mem_eq (Machine.mem_write ..)] at h₂
  have he : m' = execs [.alu .bic result planeA planeB, .alu .and result result maskEq,
      .alu .orr maskGt maskGt result, .alu .eor result planeA planeB,
      .alu .bic maskEq maskEq result] ((m.write planeA A).write planeB B) := by
    simp only [m', compareBit]
    rw [execs_append, execs_append, h₁, h₂]
  rw [he]
  refine ⟨by simp [Alu.eval], by simp [Alu.eval], by simp, fun r hr => ?_⟩
  simp only [compareRegs, List.mem_cons, List.not_mem_nil, or_false, not_or] at hr
  simp [hr]

/-- **The comparator loop** runs `compareUpTo` on the mask registers. -/
theorem compareLoop_exec (hE : Env L F depth saved m) {oA oB hA hB : ℕ} (hoA : OperandOk L g a oA)
    (hoB : OperandOk L g a oB) (hhA : hA = 16 ∨ hA = 17) (hhB : hB = 16 ∨ hB = 17)
    (hbA : IsBase L g a oA (m.read (.x hA))) (hbB : IsBase L g a oB (m.read (.x hB))) :
    ∀ k ≤ 64,
      let m' := execs ((List.range k).flatMap fun i =>
        compareBit g oA oB (.x hA) (.x hB) (64 - 1 - i)) m
      (m'.read maskGt, m'.read maskEq) = compareUpTo (opWord L F g a m oA) (opWord L F g a m oB) 64
          (m.read maskGt) (m.read maskEq) k ∧ m'.mem = m.mem ∧ Keeps compareRegs m m' := by
  intro k hk
  induction k with
  | zero => exact ⟨rfl, rfl, .refl _ _⟩
  | succ k ih =>
    obtain ⟨hmask, hmem, hregs⟩ := ih (by omega)
    rw [List.range_succ, List.flatMap_append, execs_append, List.flatMap_singleton]
    generalize execs ((List.range k).flatMap _) m = m₁ at hmask hmem hregs
    have hE₁ : Env L F depth saved m₁ := hE.of_mem_eq hregs (by decide) hmem
    have hbase : ∀ h, h = 16 ∨ h = 17 → m₁.read (.x h) = m.read (.x h) := by
      intro h hh
      refine hregs _ ?_
      simp only [compareRegs, List.mem_cons, Gp.x.injEq, List.not_mem_nil, or_false, not_or]
      omega
    have hB2 : hB ≠ 2 := by omega
    obtain ⟨hgt, heq, hmem₂, hregs₂⟩ := compareBit_exec hE₁ hoA hoB hB2
      (by rw [hbase hA hhA]; exact hbA) (by rw [hbase hB hhB]; exact hbB)
      (show 64 - 1 - k < 64 by omega)
    simp only [opWord_mem_eq hmem] at hgt heq
    refine ⟨?_, hmem₂.trans hmem, fun r hr => (hregs₂ r hr).trans (hregs r hr)⟩
    rw [compareUpTo, ← hmask, hgt, heq]

/-- The masks after all bits, on cleared masks: `>` and `=` in every lane. -/
theorem compareLoop_masks (hE : Env L F depth saved m) {oA oB hA hB : ℕ}
    (hoA : OperandOk L g a oA) (hoB : OperandOk L g a oB) (hhA : hA = 16 ∨ hA = 17)
    (hhB : hB = 16 ∨ hB = 17) (hbA : IsBase L g a oA (m.read (.x hA)))
    (hbB : IsBase L g a oB (m.read (.x hB))) (hgt : m.read maskGt = 0)
    (heq : m.read maskEq = BitVec.allOnes 64) {x y : ℕ → Word}
    (hx : Planes (opWord L F g a m oA) x) (hy : Planes (opWord L F g a m oB) y) :
    let m' := execs ((List.range 64).flatMap fun i =>
      compareBit g oA oB (.x hA) (.x hB) (64 - 1 - i)) m
    Mask (m'.read maskGt) (fun i => decide (y i < x i)) ∧
      Mask (m'.read maskEq) (fun i => decide (x i = y i)) ∧ m'.mem = m.mem ∧
      Keeps compareRegs m m' := by
  intro m'
  obtain ⟨hmask, hmem, hregs⟩ :=
    compareLoop_exec hE hoA hoB hhA hhB hbA hbB 64 (Nat.le_refl _)
  rw [hgt, heq] at hmask
  refine ⟨?_, ?_, hmem, hregs⟩
  · rw [show m'.read maskGt = _ from congrArg Prod.fst hmask]
    exact compareUpTo_gt hx hy
  · rw [show m'.read maskEq = _ from congrArg Prod.snd hmask]
    exact compareUpTo_eq hx hy

/-- The registers the code of a comparison writes besides the cache. -/
def hoistCompareRegs : List Gp := hoistedLeft :: hoistedRight :: compareRegs

/-- **The two masks of a comparison.**  `LT` and `LE` run the comparator on the
swapped operands. -/
theorem compareBits_exec (hE : Env L F depth saved m) {l r : ℕ} (hl : OperandOk L g a l)
    (hr : OperandOk L g a r) (op : Cmp) {va vb : ℕ → Word}
    (hA : Planes (opWord L F g a m l) va) (hB : Planes (opWord L F g a m r) vb)
    (hgt : m.read maskGt = 0) (heq : m.read maskEq = BitVec.allOnes 64) :
    let m' := execs (hoist g a hoistedLeft l ++ hoist g a hoistedRight r ++
      compareBits g 64 op.kind l r) m
    Mask (m'.read maskGt) (fun i => if op = .lt ∨ op = .le then decide (va i < vb i)
        else decide (vb i < va i)) ∧
      Mask (m'.read maskEq) (fun i => decide (va i = vb i)) ∧ m'.mem = m.mem ∧
      Keeps hoistCompareRegs m m' := by
  intro m'
  obtain ⟨vl, vr, hv, hbl, hbr⟩ := hoistBoth_exec hE hl hr
  obtain ⟨m₀, hm₀⟩ : ∃ m₀, m₀ = (m.write hoistedLeft vl).write hoistedRight vr := ⟨_, rfl⟩
  have hm' : m' = execs (compareBits g 64 op.kind l r) m₀ := by
    simp only [m']
    rw [execs_append, hv, hm₀]
  have hkeep₀ : Keeps hoistCompareRegs m m₀ := by
    intro r hr
    simp only [hoistCompareRegs, List.mem_cons, not_or] at hr
    simp [hm₀, hr]
  have hmem₀ : m₀.mem = m.mem := by simp [hm₀]
  have hE₀ : Env L F depth saved m₀ := hE.of_mem_eq hkeep₀ (by decide) hmem₀
  have hgt₀ : m₀.read maskGt = 0 := by simp [hm₀, hgt]
  have heq₀ : m₀.read maskEq = BitVec.allOnes 64 := by simp [hm₀, heq]
  have hbl₀ : IsBase L g a l (m₀.read (.x 16)) := by simpa [hm₀] using hbl
  have hbr₀ : IsBase L g a r (m₀.read (.x 17)) := by simpa [hm₀] using hbr
  have hA₀ : Planes (opWord L F g a m₀ l) va := hA.congr fun b _ => opWord_mem_eq hmem₀ b
  have hB₀ : Planes (opWord L F g a m₀ r) vb := hB.congr fun b _ => opWord_mem_eq hmem₀ b
  have hregs : ∀ {m₁}, Keeps compareRegs m₀ m₁ → Keeps hoistCompareRegs m m₁ := by
    intro m₁ h r hr
    rw [h r fun h' => hr (List.mem_cons_of_mem _ (List.mem_cons_of_mem _ h')), hkeep₀ r hr]
  by_cases hs : op = .lt ∨ op = .le
  · have hcode : compareBits g 64 op.kind l r = (List.range 64).flatMap fun i =>
        compareBit g r l hoistedRight hoistedLeft (64 - 1 - i) := by
      unfold compareBits
      rcases hs with rfl | rfl <;> simp [Cmp.kind]
    obtain ⟨h₁, h₂, h₃, h₄⟩ := compareLoop_masks hE₀ hr hl (Or.inr rfl) (Or.inl rfl) hbr₀ hbl₀ hgt₀
      heq₀ hB₀ hA₀
    rw [← hcode, ← hm'] at h₁ h₂ h₃ h₄
    refine ⟨by simpa only [if_pos hs] using h₁, h₂.congr fun i _ => ?_, h₃.trans hmem₀, hregs h₄⟩
    exact decide_eq_decide.2 eq_comm
  · have hcode : compareBits g 64 op.kind l r = (List.range 64).flatMap fun i =>
        compareBit g l r hoistedLeft hoistedRight (64 - 1 - i) := by
      unfold compareBits
      rw [not_or] at hs
      cases op <;> simp [Cmp.kind] at hs ⊢
    obtain ⟨h₁, h₂, h₃, h₄⟩ := compareLoop_masks hE₀ hl hr (Or.inl rfl) (Or.inr rfl) hbl₀ hbr₀ hgt₀
      heq₀ hA₀ hB₀
    rw [← hcode, ← hm'] at h₁ h₂ h₃ h₄
    exact ⟨by simpa only [if_neg hs] using h₁, h₂, h₃.trans hmem₀, hregs h₄⟩

/-! ### Selection -/

/-- The registers of the multiplexer. -/
def selectRegs : List Gp := [bitIndex, planeA, planeB, scratch1, tempPtr]

/-- One bit of the multiplexer. -/
theorem selectBit_exec (hE : Env L F depth saved m) {n l r : ℕ} (hl : OperandOk L g a l)
    (hr : OperandOk L g a r) (hn : 0 ≤ (a n).slotId) {b : ℕ} (hb : b < 64) :
    let A := opWord L F g a m l b
    let B := opWord L F g a m r b
    let m' := execs (selectBit g a n l r b) m
    (m'.mem = fun x => if x = wordAt L.scratch ((a n).slotId.toNat + b) then
        (m.read maskGt &&& A) ||| (B &&& ~~~m.read maskGt) else m.mem x) ∧
      Keeps selectRegs m m' := by
  intro A B m'
  let m₁ := m.write bitIndex (BitVec.ofNat 64 b)
  have hk₁ : Keeps selectRegs m m₁ := by
    intro r hr
    simp only [selectRegs, List.mem_cons, not_or] at hr
    simp [m₁, hr]
  obtain ⟨hval₂, hmem₂, hkeep₂⟩ :=
    emitLoadOp_exec (hE.of_mem_eq hk₁ (by decide) (by simp [m₁])) hl hb (by simp [m₁]) 2
  generalize hm₂ : execs (emitLoadOp g a l (.x 2)) m₁ = m₂ at hval₂ hmem₂ hkeep₂
  have hbit₂ : m₂.read bitIndex = BitVec.ofNat 64 b := by
    rw [hkeep₂ _ (by decide)]; simp [m₁]
  have hk₂ : Keeps selectRegs m m₂ := hk₁.trans_subset hkeep₂ (by decide)
  have hmem₂' : m₂.mem = m.mem := hmem₂.trans (by simp [m₁])
  obtain ⟨hval₃, hmem₃, hkeep₃⟩ :=
    emitLoadOp_exec (hE.of_mem_eq hk₂ (by decide) hmem₂') hr hb hbit₂ 3
  generalize hm₃ : execs (emitLoadOp g a r (.x 3)) m₂ = m₃ at hval₃ hmem₃ hkeep₃
  have hk₃ : Keeps selectRegs m m₃ := hk₂.trans_subset hkeep₃ (by decide)
  have hmem₃' : m₃.mem = m.mem := hmem₃.trans hmem₂'
  have hA : m₃.read planeA = A := by
    rw [hkeep₃ _ (by decide), hval₂, opWord_mem_eq (hmem₂.symm.trans hmem₂')]
  have hB : m₃.read planeB = B := by rw [hval₃, opWord_mem_eq hmem₂']
  have hgt : m₃.read maskGt = m.read maskGt := hk₃ _ (by decide)
  have h20 : m₃.read scratchPtr = L.scratch := (hk₃ _ (by decide)).trans hE.x20
  have hoff : byteOffset (a n).slotId + BitVec.ofNat 64 (b * 8) =
      BitVec.ofNat 64 (8 * ((a n).slotId.toNat + b)) := by
    rw [byteOffset_toNat hn, Nat.mul_add, BitVec.ofNat_add, Nat.mul_comm b 8]
  have he : m' = execs ([.alu .and scratch1 maskGt planeA, .alu .bic tempPtr planeB maskGt,
      .alu .orr scratch1 scratch1 tempPtr] ++
      movWide tempPtr (BitVec.ofNat 64 (8 * ((a n).slotId.toNat + b))) ++
      [.str scratch1 (.idx scratchPtr tempPtr)]) m₃ := by
    rw [← hm₃, ← hm₂, ← execs_append, ← execs_append, ← hoff]
    simp only [m', m₁, selectBit, List.append_assoc]
    rfl
  rw [he]
  constructor
  · funext x
    have haddr : L.scratch + BitVec.ofNat 64 (8 * ((a n).slotId.toNat + b)) =
        wordAt L.scratch ((a n).slotId.toNat + b) := rfl
    simp [execs_movWide, Alu.eval, hA, hB, hgt, h20, hmem₃', haddr]
  · intro r hr
    rw [← hk₃ r hr]
    simp only [selectRegs, List.mem_cons, List.not_mem_nil, or_false, not_or] at hr
    simp [execs_movWide, hr]

/-- **The multiplexer loop.** -/
theorem selectBits_exec (hE : Env L F depth saved m) {n l r : ℕ} (hl : OperandOk L g a l)
    (hr : OperandOk L g a r) (hn : 0 ≤ (a n).slotId) (hslot : (a n).slotId.toNat + 64 ≤ maxSlots)
    (hal : Apart g a l (a n).slotId.toNat) (har : Apart g a r (a n).slotId.toNat) :
    ∀ k ≤ 64,
      let m' := execs ((List.range k).flatMap (selectBit g a n l r)) m
      (∀ b < k, pad L m' ((a n).slotId.toNat + b) =
        (m.read maskGt &&& opWord L F g a m l b) ||| (opWord L F g a m r b &&& ~~~m.read maskGt)) ∧
      PadKeeps L (InBlock (a n).slotId.toNat) m m' ∧ Keeps selectRegs m m' := by
  intro k hk
  induction k with
  | zero => exact ⟨fun b hb => absurd hb (Nat.not_lt_zero b), .refl _ _ _, .refl _ _⟩
  | succ k ih =>
    obtain ⟨hval, hpads, hregs⟩ := ih (by omega)
    rw [List.range_succ, List.flatMap_append, execs_append, List.flatMap_singleton]
    generalize execs ((List.range k).flatMap (selectBit g a n l r)) m = m₁ at hval hpads hregs
    have hE₁ : Env L F depth saved m₁ := hE.frame (hregs _ (by decide)) (hregs _ (by decide))
      (hregs _ (by decide)) hpads.memKeeps
    obtain ⟨hmem, hregs₂⟩ := selectBit_exec hE₁ hl hr hn (show k < 64 by omega)
    rw [hregs maskGt (by decide), opWord_congr hl hpads hal (by omega),
      opWord_congr hr hpads har (by omega)] at hmem
    generalize execs (selectBit g a n l r k) m₁ = m₂ at hmem hregs₂
    have hpad : PadKeeps L (InBlock (a n).slotId.toNat) m₁ m₂ := by
      intro x hx
      rw [hmem]
      refine if_neg ?_
      rintro rfl
      exact hx ⟨_, by omega, ⟨by omega, by omega⟩, rfl⟩
    refine ⟨fun b hb => ?_, hpads.trans hpad, fun r hr => (hregs₂ r hr).trans (hregs r hr)⟩
    rw [pad, hmem]
    by_cases hbk : b = k
    · subst hbk
      exact if_pos rfl
    · have hne : wordAt L.scratch ((a n).slotId.toNat + b) ≠
          wordAt L.scratch ((a n).slotId.toNat + k) := fun h =>
        hbk (by have := (pad_inj (by omega) (by omega)).1 h; omega)
      simp only [if_neg hne]
      exact hval b (by omega)

end Jit
end AarchGate
