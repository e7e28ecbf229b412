/-
# Following the code of a kernel

The passes of `compile_expression` hand out numbers that the emission turns into addresses
and registers without a further test: `slot_id` and `eq_slot_id` become byte offsets into the
scratchpad, `field_idx` one into the table of columns, `carry_reg` an index into `carry_regs`.

A `KernelWalk` follows the code that is emitted, with what is known of the pointers in its
registers, and says which loads and stores are allowed.  Here the emission is gone through once,
block by block, for every such walk (`KernelWalk.compile_guards`): where the addresses come from
and what the kernel reads and writes are two of them.
-/

import AarchGate.A64.Walk
import AarchGate.Jit.Correct
import AarchGate.Jit.Scalar

namespace AarchGate
namespace Jit

open A64 Ir

/-- The byte offsets of the words of the scratchpad. -/
def PadOffset (c : Word) : Prop := ∃ s < maxSlots, c = BitVec.ofNat 64 (8 * s)

/-- Word `bit` of a block. -/
theorem padOffset_plane {slot : ℤ} (bit : ℕ) (h0 : 0 ≤ slot) (h : slot + bit < maxSlots) :
    PadOffset (byteOffset slot + BitVec.ofNat 64 (bit * 8)) := by
  obtain ⟨s, rfl⟩ := Int.eq_ofNat_of_zero_le h0
  refine ⟨s + bit, by exact_mod_cast h, BitVec.eq_of_toNat_eq ?_⟩
  simp only [byteOffset, BitVec.ofInt_natCast, BitVec.toNat_add, BitVec.toNat_mul, BitVec.toNat_ofNat,
    show (8 : Word).toNat = 8 from rfl]
  omega

/-- A single slot. -/
theorem padOffset_slot {slot : ℤ} (h0 : 0 ≤ slot) (h : slot < maxSlots) :
    PadOffset (byteOffset slot) := by
  simpa using padOffset_plane 0 h0 (by simpa using h)

/-- The registers the cache hands out. -/
structure CacheRegs (c : ScratchpadCache) : Prop where
  next : c.nextReg < 8
  regs : ∀ s r, c.slotToReg s = some r → r < 8

/-- The empty cache. -/
theorem CacheRegs.init : CacheRegs .init := ⟨by decide, nofun⟩

/-- A slot more. -/
theorem CacheRegs.bind {c : ScratchpadCache} (h : CacheRegs c) (slot : ℤ) {r : ℕ} (hr : r < 8) :
    CacheRegs (c.bind slot r) := by
  refine ⟨h.next, fun s k hk => ?_⟩
  simp only [ScratchpadCache.bind] at hk
  split_ifs at hk
  · exact Option.some.inj hk ▸ hr
  · exact h.regs s k hk

/-- A slot less. -/
theorem CacheRegs.evict {c : ScratchpadCache} (h : CacheRegs c) : CacheRegs c.evict := by
  refine ⟨Nat.mod_lt _ (by decide), fun s k hk => ?_⟩
  simp only [ScratchpadCache.evict] at hk
  split_ifs at hk
  exact h.regs s k hk

/-- **A way of following the code of a kernel**: what is known of the addresses it computes, and
which of its loads and stores are allowed.  `pad` is known of a pointer into the scratchpad,
`table` of the pointer to the table, `column` of a pointer from the entry of a `LOAD`. -/
structure KernelWalk (g : ℕ → Node) (a : ℕ → Annot) (S V : Type) extends Walk S V where
  pad : Word → V
  table : V
  stack : V
  column : ℕ → V
  InTable : ℕ → Prop
  read_movImm : ∀ {s : S} (n : ℕ) (imm : Word), read (step (.movImm (.x n) imm) s) (.x n) = num imm
  read_addImm : ∀ {s : S} {n : ℕ} {v : Word} (imm : Word), read s (.x n) = num v →
    read (step (.addImm (.x n) (.x n) imm) s) (.x n) = num (v + imm)
  read_addLsl : ∀ {s : S} {n k : ℕ} {v w : Word}, read s (.x n) = num v → read s (.x k) = num w →
    read (step (.addLsl (.x n) (.x n) (.x k) 3) s) (.x n) = num (v + w <<< 3)
  read_base : ∀ {s : S} {n : ℕ} {off : Word}, read s (.x n) = num off → read s scratchPtr = pad 0 →
    read (step (.alu .add (.x n) (.x n) scratchPtr) s) (.x n) = pad off
  pad_idx : ∀ {s : S} {r : Gp} {off : Word}, read s scratchPtr = pad 0 → read s r = num off →
    PadOffset off → ∀ rt, Allowed (.ldr rt (.idx scratchPtr r)) s ∧
      Allowed (.str rt (.idx scratchPtr r)) s
  pad_off : ∀ {s : S} {r : Gp} {c imm : Word}, read s r = pad c → PadOffset (c + imm) →
    ∀ rt, Allowed (.ldr rt (.off r imm)) s ∧ Allowed (.str rt (.off r imm)) s
  table_load : ∀ {s : S} {op : ℕ}, (g op).kind = .LOAD → InTable op → Fixed s →
    read s fieldPlanesPtr = table → ∀ n : ℕ,
      Allowed (.ldr (.x n) (.off fieldPlanesPtr (byteOffset (a op).fieldIdx))) s ∧
      read (step (.ldr (.x n) (.off fieldPlanesPtr (byteOffset (a op).fieldIdx))) s) (.x n) = column op
  column_off : ∀ {s : S} {op bit : ℕ} {r : Gp}, (g op).kind = .LOAD → InTable op → bit < 64 →
    read s r = column op → ∀ rt, Allowed (.ldr rt (.off r (BitVec.ofNat 64 (bit * 8)))) s
  column_idxLsl : ∀ {s : S} {op bit : ℕ} {r q : Gp}, (g op).kind = .LOAD → InTable op → bit < 64 →
    read s r = column op → read s q = num (BitVec.ofNat 64 bit) →
      ∀ rt, Allowed (.ldr rt (.idxLsl r q 3)) s

namespace KernelWalk

variable {g : ℕ → Node} {a : ℕ → Annot} {S V : Type} {W : KernelWalk g a S V}

variable (W) in
/-- What is known everywhere in a kernel after its prologue. -/
abbrev basePointers : List (Gp × V) :=
  [(scratchPtr, W.pad 0), (fieldPlanesPtr, W.table), (.sp, W.stack)]

variable (W) in
/-- A block that keeps it. -/
abbrev Guards (is : List Instr) : Prop :=
  W.Triple (W.Known W.basePointers) is (W.Known W.basePointers)

variable (W) in
/-- A block of code that keeps the base pointers, with the state of the cache after it. -/
def Emits (rc : List Instr × ScratchpadCache) : Prop := W.Guards rc.1 ∧ CacheRegs rc.2

/-- A word of the scratchpad is loaded, its offset in a register. -/
theorem modest_ldr_idx {ks : List (Gp × V)} (hpad : (scratchPtr, W.pad 0) ∈ ks) {r : Gp} {off : Word}
    (hr : (r, W.num off) ∈ ks) (h : PadOffset off) {n : ℕ} (hn : ∀ k ∈ ks, k.1 ≠ .x n) :
    W.Modest ks (.ldr (.x n) (.idx scratchPtr r)) :=
  ⟨fun k hk => mt List.mem_singleton.1 (hn k hk),
    fun _ hs => (W.pad_idx (hs.regs _ hpad) (hs.regs _ hr) h _).1⟩

/-- A word of the scratchpad is stored, its offset in a register. -/
theorem modest_str_idx {ks : List (Gp × V)} (hpad : (scratchPtr, W.pad 0) ∈ ks) {r : Gp} {off : Word}
    (hr : (r, W.num off) ∈ ks) (h : PadOffset off) (v : Gp) :
    W.Modest ks (.str v (.idx scratchPtr r)) :=
  ⟨fun _ _ => List.not_mem_nil, fun _ hs => (W.pad_idx (hs.regs _ hpad) (hs.regs _ hr) h _).2⟩

/-- A word of the scratchpad is stored. -/
theorem guards_store {off : Word} (h : PadOffset off) (v : Gp) :
    W.Guards (movWide tempPtr off ++ [.str v (.idx scratchPtr tempPtr)]) := by
  refine ((Walk.Triple.movWide off (by simp)).append (.modest fun i hi => ?_)).forget
  obtain rfl := List.mem_singleton.1 hi
  exact modest_str_idx (by simp) (List.mem_cons_self ..) h v

/-- A copy to a register below `x16`. -/
theorem guards_mov {n : ℕ} (hn : n < 16) (rn : Gp) : W.Guards [.mov (.x n) rn] :=
  .quiet rfl (by simp [Instr.dest]; omega)

/-- `store_slot` of the cache. -/
theorem storeSlot_emits {c : ScratchpadCache} (hc : CacheRegs c) {slot : ℤ}
    (hs : PadOffset (byteOffset slot)) (val : Gp) : W.Emits (c.storeSlot slot val) := by
  unfold ScratchpadCache.storeSlot
  cases hr : c.slotToReg slot with
  | some r =>
    have hlt := hc.regs _ _ hr
    exact ⟨(guards_store hs val).append (guards_mov (by omega) val), hc.bind _ hlt⟩
  | none =>
    have hlt := hc.next
    exact ⟨(guards_store hs val).append (guards_mov (by omega) val), hc.evict.bind _ hlt⟩

/-- `load_slot` of the cache. -/
theorem loadSlot_emits {c : ScratchpadCache} (hc : CacheRegs c) {slot : ℤ}
    (hs : PadOffset (byteOffset slot)) {n : ℕ} (hn : n < 16) : W.Emits (c.loadSlot slot (.x n)) := by
  unfold ScratchpadCache.loadSlot
  cases hr : c.slotToReg slot with
  | some r => exact ⟨guards_mov hn _, hc⟩
  | none =>
    have hlt := hc.next
    refine ⟨((Walk.Triple.movWide _ (by simp)).append (.modest fun i hi => ?_)).forget,
      hc.evict.bind _ hlt⟩
    rcases List.mem_pair.1 hi with rfl | rfl
    · exact modest_ldr_idx (by simp) (List.mem_cons_self ..) hs (by simp; omega)
    · exact Walk.modest_of_quiet rfl (by simp [Instr.dest]; omega)

/-! ### The blocks of the compiler -/

variable (W) in
/-- What is known of a hoisted operand. -/
def operand (op : ℕ) : V :=
  match (g op).kind with
  | .LOAD => W.column op
  | .CONST => W.num (g op).constValue
  | _ => W.pad (byteOffset (a op).slotId)

/-- A hoisted block is a pointer to it. -/
theorem operand_block {op : ℕ} (hk : (g op).kind.isLeaf = false) :
    W.operand op = W.pad (byteOffset (a op).slotId) := NodeKind.leaf_match _ _ _ hk

variable (W) in
/-- An operand has a column in the table, or planes in the scratchpad. -/
structure Fits (op : ℕ) : Prop where
  load : (g op).kind = .LOAD → W.InTable op
  block : (g op).kind.isLeaf = false → 0 ≤ (a op).slotId ∧ (a op).slotId.toNat + 64 ≤ maxSlots

/-- The address of a block of the scratchpad. -/
theorem triple_base {ks : List (Gp × V)} (hpad : (scratchPtr, W.pad 0) ∈ ks) (off : Word) {n : ℕ}
    (hn : ∀ k ∈ ks, k.1 ≠ .x n) :
    W.Triple (W.Known ks) (movWide (.x n) off ++ [.alu .add (.x n) (.x n) scratchPtr])
      (W.Known ((.x n, W.pad off) :: ks)) := by
  refine (Walk.Triple.movWide _ hn).append (.assign (fun _ hs => (Walk.known_cons.1 hs).2) rfl hn
    fun s hs => ⟨W.allowed_of_quiet rfl, ?_⟩)
  obtain ⟨hoff, hs⟩ := Walk.known_cons.1 hs
  exact W.read_base hoff (hs.regs _ hpad)

/-- The pointer to a column is loaded from the table. -/
theorem triple_table {ks : List (Gp × V)} (hfields : (fieldPlanesPtr, W.table) ∈ ks) {op : ℕ}
    (ho : W.Fits op) (hk : (g op).kind = .LOAD) {n : ℕ} (hn : ∀ k ∈ ks, k.1 ≠ .x n) :
    W.Triple (W.Known ks) [.ldr (.x n) (.off fieldPlanesPtr (byteOffset (a op).fieldIdx))]
      (W.Known ((.x n, W.column op) :: ks)) :=
  .assign (fun _ hs => hs) rfl hn fun _ hs =>
    W.table_load hk (ho.load hk) hs.fixed (hs.regs _ hfields) n

/-- An operand is hoisted. -/
theorem hoist_triple {ks : List (Gp × V)} (hpad : (scratchPtr, W.pad 0) ∈ ks)
    (hfields : (fieldPlanesPtr, W.table) ∈ ks) {n : ℕ} (hn : ∀ k ∈ ks, k.1 ≠ .x n) {op : ℕ}
    (ho : W.Fits op) :
    W.Triple (W.Known ks) (hoist g a (.x n) op) (W.Known ((.x n, W.operand op) :: ks)) := by
  rcases NodeKind.leaf_cases (g op).kind with hk | hk | hk
  · rw [hoist, operand, hk]
    exact triple_table hfields ho hk hn
  · rw [hoist, operand, hk]
    exact .movWide _ hn
  · rw [hoist_block hk, operand_block hk]
    exact triple_base hpad _ hn

/-- One plane of a hoisted operand. -/
theorem loadPlane_triple {ks : List (Gp × V)} {h : Gp} {op bit n : ℕ} (hop : (h, W.operand op) ∈ ks)
    (ho : W.Fits op) (hbit : bit < 64) (hn : ∀ k ∈ ks, k.1 ≠ .x n) :
    W.Triple (W.Known ks) (loadPlane g (.x n) h op bit) (W.Known ks) := by
  refine .modest fun i hi => ?_
  have hdest : ∀ k ∈ ks, k.1 ∉ [Gp.x n] := fun k hk => mt List.mem_singleton.1 (hn k hk)
  rcases NodeKind.leaf_cases (g op).kind with hk | hk | hk
  · rw [loadPlane, hk] at hi
    rw [operand, hk] at hop
    obtain rfl := List.mem_singleton.1 hi
    exact ⟨hdest, fun s hs => W.column_off hk (ho.load hk) hbit (hs.regs _ hop) _⟩
  · rw [loadPlane, hk] at hi
    simp only at hi
    split_ifs at hi <;> obtain rfl := List.mem_singleton.1 hi <;>
      exact Walk.modest_of_quiet rfl hdest
  · obtain ⟨h0, hlt⟩ := ho.block hk
    rw [loadPlane_block hk] at hi
    rw [operand_block hk] at hop
    obtain rfl := List.mem_singleton.1 hi
    exact ⟨hdest, fun s hs => (W.pad_off (hs.regs _ hop) (padOffset_plane _ h0 (by omega)) _).1⟩

variable (W) in
/-- What is known in the unrolled loop of an adder or a comparator. -/
abbrev hoisted (l r : ℕ) : List (Gp × V) :=
  (hoistedRight, W.operand r) :: (hoistedLeft, W.operand l) :: W.basePointers

/-- Both operands are hoisted. -/
theorem hoists_triple {l r : ℕ} (hl : W.Fits l) (hr : W.Fits r) :
    W.Triple (W.Known W.basePointers) (hoist g a hoistedLeft l ++ hoist g a hoistedRight r)
      (W.Known (W.hoisted l r)) :=
  (hoist_triple (by simp) (by simp) (by simp) hl).append
    (hoist_triple (by simp) (by simp) (by simp) hr)

/-- One bit of the adder; `x22` is the block of the result. -/
theorem addSubBit_triple (sub : Bool) {c n l r bit : ℕ} (hleaf : (g n).kind.isLeaf = false)
    (hn : W.Fits n) (hl : W.Fits l) (hr : W.Fits r) (hbit : bit < 64) :
    let A := W.Known ((tempPtr, W.pad (byteOffset (a n).slotId)) :: W.hoisted l r)
    W.Triple A (addSubBit g sub (carryReg c) l r bit) A := by
  obtain ⟨h0, hlt⟩ := hn.block hleaf
  refine (((loadPlane_triple (by simp) hl hbit (by simp)).append
    (loadPlane_triple (by simp) hr hbit (by simp))).append (.modest fun i hi => ?_)).append
      (.modest fun i hi => ?_)
  · split_ifs at hi
    · obtain rfl := List.mem_singleton.1 hi
      exact Walk.modest_of_quiet rfl (by simp [Instr.dest])
    · exact absurd hi List.not_mem_nil
  · simp only [List.mem_cons, List.not_mem_nil, or_false] at hi
    rcases hi with rfl | rfl | rfl | rfl | rfl | rfl
    case inr.inr.inr.inr.inr =>
      exact ⟨fun _ _ => List.not_mem_nil, fun s hs => (W.pad_off
        (hs.regs (tempPtr, _) (List.mem_cons_self ..)) (padOffset_plane _ h0 (by omega)) _).2⟩
    all_goals exact Walk.modest_of_quiet rfl (by simp [Instr.dest]; try omega)

/-- The code of an `ADD` or `SUB` node. -/
theorem emitAddSub_guards {bits : ℕ} (hbits : bits ≤ 64) {n l r c : ℕ} (hn : W.Fits n)
    (hleaf : (g n).kind.isLeaf = false) (hl : W.Fits l) (hr : W.Fits r) :
    W.Guards (emitAddSub g a bits (carryReg c) n l r) := by
  have hcarry : W.Guards [.movImm (carryReg c) (if (g n).kind = .SUB then 1 else 0)] :=
    .quiet rfl (by simp [Instr.dest]; omega)
  have hloop := Walk.Triple.flatMap (List.range bits) fun bit hbit =>
    addSubBit_triple ((g n).kind = .SUB) (c := c) hleaf hn hl hr
      ((List.mem_range.1 hbit).trans_le hbits)
  unfold emitAddSub
  rw [List.append_assoc [_], List.append_assoc _ (movWide _ _)]
  refine (((hcarry.append (hoists_triple hl hr)).append (triple_base (by simp) _ (by simp))).append
    hloop).weaken (fun _ hs => hs) fun s hs => ?_
  exact hs.weaken fun k hk =>
    List.mem_cons_of_mem _ (List.mem_cons_of_mem _ (List.mem_cons_of_mem _ hk))

/-- One bit of the comparator. -/
theorem compareBit_triple {l r x y bit : ℕ} {hx hy : Gp} (hfx : W.Fits x) (hfy : W.Fits y)
    (hmx : (hx, W.operand x) ∈ W.hoisted l r) (hmy : (hy, W.operand y) ∈ W.hoisted l r)
    (hbit : bit < 64) :
    W.Triple (W.Known (W.hoisted l r)) (compareBit g x y hx hy bit) (W.Known (W.hoisted l r)) := by
  refine ((loadPlane_triple hmx hfx hbit (by simp)).append
    (loadPlane_triple hmy hfy hbit (by simp))).append (.modest fun i hi => ?_)
  simp only [List.mem_cons, List.not_mem_nil, or_false] at hi
  rcases hi with rfl | rfl | rfl | rfl | rfl <;>
    exact Walk.modest_of_quiet rfl (by simp [Instr.dest])

/-- The hoisted operands and the comparator. -/
theorem compare_guards {bits : ℕ} (hbits : bits ≤ 64) (k : NodeKind) {l r : ℕ} (hl : W.Fits l)
    (hr : W.Fits r) :
    W.Guards (hoist g a hoistedLeft l ++ hoist g a hoistedRight r ++ compareBits g bits k l r) := by
  refine ((hoists_triple hl hr).append (.flatMap _ fun i hi => ?_)).forget.forget
  rw [List.mem_range] at hi
  split_ifs
  · exact compareBit_triple hr hl (by simp) (by simp) (by omega)
  · exact compareBit_triple hl hr (by simp) (by simp) (by omega)

end KernelWalk

/-- The slots of a mask lie in the scratchpad. -/
def MaskFits (a : ℕ → Annot) (n : ℕ) : Prop := 0 ≤ (a n).slotId ∧ (a n).slotId < maxSlots

/-- So its word is one of the scratchpad. -/
theorem MaskFits.padOffset {a : ℕ → Annot} {n : ℕ} (h : MaskFits a n) :
    PadOffset (byteOffset (a n).slotId) := padOffset_slot h.1 h.2

namespace KernelWalk

variable {g : ℕ → Node} {a : ℕ → Annot} {S V : Type} {W : KernelWalk g a S V}

/-- The code of a comparison. -/
theorem emitCompare_emits {bits : ℕ} (hbits : bits ≤ 64) {n l r : ℕ} {c : ScratchpadCache}
    (hc : CacheRegs c) (hn : MaskFits a n) (heq : PadOffset (byteOffset (a n).eqSlotId))
    (hl : W.Fits l) (hr : W.Fits r) : W.Emits (emitCompare g a bits n l r c) := by
  have hslot := hn.padOffset
  obtain ⟨t₁, c₁⟩ := loadSlot_emits (W := W) hc heq (n := 6) (by omega)
  obtain ⟨t₂, c₂⟩ := loadSlot_emits (W := W) c₁ hslot (n := 5) (by omega)
  obtain ⟨t₃, c₃⟩ := storeSlot_emits (W := W) c₂ hslot maskGt
  obtain ⟨t₄, c₄⟩ := storeSlot_emits (W := W) c₃ heq maskEq
  have hcode := (((t₁.append t₂).append (compare_guards hbits (g n).kind hl hr)).append t₃).append t₄
  obtain ⟨t₅, c₅⟩ := loadSlot_emits (W := W) c₄ hslot (n := 2) (by omega)
  obtain ⟨t₆, c₆⟩ := loadSlot_emits (W := W) c₅ heq (n := 3) (by omega)
  obtain ⟨t₇, c₇⟩ := storeSlot_emits (W := W) c₆ hslot result
  have hop : W.Guards
      [if (g n).kind = .EQ then .mov result planeB else .alu .orr result planeA planeB] := by
    split_ifs
    · exact guards_mov (by omega) _
    · exact .quiet rfl (by simp [Instr.dest])
  unfold emitCompare
  dsimp only
  by_cases hk : (g n).kind = .GE ∨ (g n).kind = .LE ∨ (g n).kind = .EQ
  · rw [if_pos hk]
    exact ⟨(((hcode.append t₅).append t₆).append hop).append t₇, c₇⟩
  · rw [if_neg hk]
    exact ⟨hcode, c₄⟩

/-- The code of a logical node. -/
theorem emitLogic_emits {n l : ℕ} {r : Option ℕ} {c : ScratchpadCache} (hc : CacheRegs c)
    (hn : MaskFits a n) (hl : MaskFits a l) (hr : ∀ r', r = some r' → MaskFits a r') :
    W.Emits (emitLogic g a n l r c) := by
  obtain ⟨t₁, c₁⟩ := loadSlot_emits (W := W) hc hl.padOffset (n := 2) (by omega)
  cases r with
  | none =>
    obtain ⟨t₃, c₃⟩ := storeSlot_emits (W := W) c₁ hn.padOffset result
    exact ⟨(t₁.append (.quiet rfl (by simp [Instr.dest]))).append t₃, c₃⟩
  | some r =>
    obtain ⟨t₂, c₂⟩ := loadSlot_emits (W := W) c₁ (hr r rfl).padOffset (n := 3) (by omega)
    obtain ⟨t₃, c₃⟩ := storeSlot_emits (W := W) c₂ hn.padOffset result
    exact ⟨((t₁.append t₂).append (.quiet rfl (by simp [Instr.dest]))).append t₃, c₃⟩

variable (W) in
/-- What is known in one bit of the multiplexer. -/
abbrev bitPointers (bit : ℕ) : List (Gp × V) :=
  (bitIndex, W.num (BitVec.ofNat 64 bit)) :: W.basePointers

/-- One plane of an operand of the multiplexer. -/
theorem emitLoadOp_triple {op bit n : ℕ} (ho : W.Fits op) (hbit : bit < 64) (hn : n < 4) :
    W.Triple (W.Known (W.bitPointers bit)) (emitLoadOp g a op (.x n))
      (W.Known (W.bitPointers bit)) := by
  rcases NodeKind.leaf_cases (g op).kind with hk | hk | hk
  · rw [emitLoadOp, hk]
    refine ((triple_table (n := 22) (by simp) ho hk (by simp)).append (.modest fun i hi => ?_)).forget
    obtain rfl := List.mem_singleton.1 hi
    refine ⟨by simp [Instr.dest, Mem.dest]; omega, fun s hs => W.column_idxLsl hk (ho.load hk) hbit
      (hs.regs (tempPtr, _) (List.mem_cons_self ..)) (hs.regs (bitIndex, _) (by simp)) _⟩
  · rw [emitLoadOp, hk]
    refine ((Walk.Triple.movWide _ (by simp)).append (.modest fun i hi => ?_)).forget
    simp only [List.mem_cons, List.not_mem_nil, or_false] at hi
    rcases hi with rfl | rfl | rfl <;> exact Walk.modest_of_quiet rfl (by simp [Instr.dest]; omega)
  · rw [emitLoadOp_block hk]
    obtain ⟨h0, hlt⟩ := ho.block hk
    refine Walk.Triple.append ((Walk.Triple.movWide _ (by simp)).append (.assign (n := 7)
      (v := W.num (byteOffset (a op).slotId + BitVec.ofNat 64 (bit * 8)))
      (fun _ hs => (Walk.known_cons.1 hs).2) rfl (by simp) fun s hs => ⟨W.allowed_of_quiet rfl, ?_⟩))
        (.modest fun i hi => ?_) |>.forget
    · obtain ⟨hoff, hs⟩ := Walk.known_cons.1 hs
      rw [W.read_addLsl hoff (hs.regs (bitIndex, _) (List.mem_cons_self ..)), shiftLeft_three,
        Nat.mul_comm]
    · obtain rfl := List.mem_singleton.1 hi
      exact modest_ldr_idx (by simp) (List.mem_cons_self ..) (padOffset_plane _ h0 (by omega))
        (by simp; omega)

/-- One bit of the multiplexer. -/
theorem selectBit_guards {n l r bit : ℕ} (hn : W.Fits n) (hleaf : (g n).kind.isLeaf = false)
    (hl : W.Fits l) (hr : W.Fits r) (hbit : bit < 64) : W.Guards (selectBit g a n l r bit) := by
  obtain ⟨h0, hlt⟩ := hn.block hleaf
  have hidx : W.Triple (W.Known W.basePointers) [.movImm bitIndex (BitVec.ofNat 64 bit)]
      (W.Known (W.bitPointers bit)) :=
    .assign (fun _ hs => hs) rfl (by simp) fun s _ => ⟨W.allowed_of_quiet rfl, W.read_movImm _ _⟩
  unfold selectBit
  rw [List.append_assoc _ (movWide _ _)]
  refine ((((hidx.append (emitLoadOp_triple (n := 2) hl hbit (by omega))).append
    (emitLoadOp_triple (n := 3) hr hbit (by omega))).append (.modest fun i hi => ?_)).forget.append
      (guards_store (padOffset_plane _ h0 (by omega)) scratch1))
  simp only [List.mem_cons, List.not_mem_nil, or_false] at hi
  rcases hi with rfl | rfl | rfl <;> exact Walk.modest_of_quiet rfl (by simp [Instr.dest])

/-- The code of a `SELECT` node. -/
theorem emitSelect_emits {bits : ℕ} (hbits : bits ≤ 64) {n i l r : ℕ} {c : ScratchpadCache}
    (hc : CacheRegs c) (hi : MaskFits a i) (hn : W.Fits n) (hleaf : (g n).kind.isLeaf = false)
    (hl : W.Fits l) (hr : W.Fits r) : W.Emits (emitSelect g a bits n i l r c) := by
  obtain ⟨t₁, c₁⟩ := loadSlot_emits (W := W) hc hi.padOffset (n := 5) (by omega)
  exact ⟨t₁.append (.flatMap _ fun _ hbit =>
    selectBit_guards hn hleaf hl hr ((List.mem_range.1 hbit).trans_le hbits)), c₁⟩

/-- The initial contents of the slots of a mask. -/
theorem initNode_guards {n : ℕ} (hfits : (a n).resultKind = .BITMASK →
      (a n).slotId < maxSlots ∧ (a n).eqSlotId < maxSlots) : W.Guards (initNode g a n) := by
  unfold initNode
  refine Walk.Triple.append (B := W.Known W.basePointers) ?_ ?_
  · split_ifs
    · exact .quiet rfl (by simp [Instr.dest]; omega)
    · exact .nil _
  · split_ifs with h he
    · obtain ⟨hslot, heq⟩ := hfits h.2
      refine (guards_store (padOffset_slot h.1 hslot) .xzr).append
        ((Walk.Triple.movWide _ (by simp)).append (.modest fun i hi => ?_)).forget
      rcases List.mem_pair.1 hi with rfl | rfl
      · exact Walk.modest_of_quiet rfl (by simp [Instr.dest])
      · exact modest_str_idx (by simp) (List.mem_cons_self ..) (padOffset_slot he heq) _
    · rw [List.append_nil]
      exact guards_store (padOffset_slot h.1 (hfits h.2).1) .xzr
    · exact .nil _

/-- The initial contents of the carries. -/
theorem initCarries_guards : W.Guards initCarries := by
  refine .modest fun i hi => ?_
  obtain ⟨k, -, rfl⟩ := List.mem_map.1 hi
  exact Walk.modest_of_quiet rfl (by simp [Instr.dest]; omega)

/-- **The copy of a block** to the front of the scratchpad; `x22` is the offset of its next
word. -/
theorem copyBlock_guards {s : ℤ} (h0 : 0 ≤ s) (hlt : s.toNat + 64 ≤ maxSlots) :
    W.Guards (movWide tempPtr (byteOffset s) ++ (List.range 64).flatMap fun i =>
      [.ldr result (.idx scratchPtr tempPtr),
        .str result (.off scratchPtr (BitVec.ofNat 64 (i * 8))), .addImm tempPtr tempPtr 8]) := by
  let A (i : ℕ) : S → Prop :=
    W.Known ((tempPtr, W.num (byteOffset s + BitVec.ofNat 64 (i * 8))) :: W.basePointers)
  have hloop : W.Triple (A 0) ((List.range 64).flatMap fun i =>
      [.ldr result (.idx scratchPtr tempPtr), .str result (.off scratchPtr (BitVec.ofNat 64 (i * 8))),
        .addImm tempPtr tempPtr 8]) (A 64) := by
    refine .range fun i hi => ?_
    -- the load and the store of the word
    have hcopy : W.Triple (A i) [.ldr result (.idx scratchPtr tempPtr),
        .str result (.off scratchPtr (BitVec.ofNat 64 (i * 8)))] (A i) := by
      refine .modest fun j hj => ?_
      rcases List.mem_pair.1 hj with rfl | rfl
      · exact modest_ldr_idx (by simp) (List.mem_cons_self ..) (padOffset_plane _ h0 (by omega))
          (by simp)
      · refine ⟨fun _ _ => List.not_mem_nil, fun s hs =>
          (W.pad_off (hs.regs (scratchPtr, W.pad 0) (by simp)) ?_ _).2⟩
        simpa [byteOffset] using padOffset_plane i (Int.le_refl 0) (by omega)
    refine hcopy.append (.assign (fun _ hs => (Walk.known_cons.1 hs).2) rfl (by simp)
      fun s hs => ⟨W.allowed_of_quiet rfl, ?_⟩)
    rw [W.read_addImm 8 (Walk.known_cons.1 hs).1, BitVec.add_assoc,
      show (i + 1) * 8 = i * 8 + 8 by omega, BitVec.ofNat_add]
    rfl
  refine ((Walk.Triple.movWide (byteOffset s) (by simp)).append (hloop.weaken (fun m hm => ?_)
    fun _ hm => hm)).forget
  simpa only [A, Nat.zero_mul, BitVec.add_zero] using hm

/-- The delivery of the result. -/
theorem emitResult_guards {root : ℕ} (hplane : (a root).resultKind = .BITPLANE →
      0 ≤ (a root).slotId ∧ (a root).slotId.toNat + 64 ≤ maxSlots)
    (hmask : (a root).resultKind ≠ .BITPLANE → MaskFits a root) : W.Guards (emitResult a root) := by
  have hzero : W.Guards [.movImm (.x 0) 0] := .quiet rfl (by simp [Instr.dest])
  unfold emitResult
  split_ifs with hs hk
  · exact hzero
  · obtain ⟨h0, hlt⟩ := hplane hk
    exact (copyBlock_guards h0 hlt).append hzero
  · refine ((Walk.Triple.movWide _ (by simp)).append (.modest fun i hi => ?_)).forget
    obtain rfl := List.mem_singleton.1 hi
    exact modest_ldr_idx (by simp) (List.mem_cons_self ..) (hmask hk).padOffset (by simp)

end KernelWalk

/-! ### The whole kernel -/

section Kernel

variable {g : ℕ → Node} {a : ℕ → Annot} {nodes : List ℕ} {bits n : ℕ} {S V : Type}

/-- The nodes with a mask, by their kind. -/
theorem isMask_iff {k : NodeKind} : k.resultKind = .BITMASK ↔ k.isMask = true := by
  simp [NodeKind.resultKind]

/-- The slot of a mask lies in the scratchpad. -/
theorem Slots.maskFits (H : Slots g a nodes) (hn : n ∈ nodes) (hk : (g n).kind.isMask = true) :
    MaskFits a n := by
  have h0 := (H.placed n hn).slot_nonneg (NodeKind.not_isLeaf_of_isMask hk)
  have hlt := H.inRange n hn _ (H.owns_slot hn hk)
  exact ⟨h0, by omega⟩

/-- So does the second slot of a comparison. -/
theorem Slots.eqFits (H : Slots g a nodes) (hn : n ∈ nodes) (hk : (g n).kind.isComparison = true) :
    0 ≤ (a n).eqSlotId ∧ (a n).eqSlotId < maxSlots := by
  have h0 := (H.placed n hn).eq_nonneg hk
  have hlt := H.inRange n hn _ (H.owns_eqSlot hn hk)
  exact ⟨h0, by omega⟩

namespace KernelWalk

variable {W : KernelWalk g a S V} (H : Slots g a nodes)
  (hF : ∀ n ∈ nodes, (g n).kind = .LOAD → W.InTable n) (hbits : bits ≤ 64)

include H hF hbits

/-- **The code of one node.** -/
theorem emitNode_emits (hn : n ∈ nodes) (hsorted : (a n).skipJit = false → Sorted g n)
    {c : ScratchpadCache} (hc : CacheRegs c) {rc : List Instr × ScratchpadCache}
    (h : emitNode g a bits n c = .ok rc) : W.Emits rc := by
  have hnone : W.Emits ([], c) := ⟨.nil _, hc⟩
  cases hs : (a n).skipJit with
  | true =>
    rw [emitNode_skip hs] at h
    exact Except.ok.inj h ▸ hnone
  | false =>
    have hS := hsorted hs
    have hplane : ∀ x ∈ nodes, (g x).kind.isMask = false → W.Fits x := fun x hx hk =>
      ⟨hF x hx, fun hleaf => H.block hx hleaf hk⟩
    have hop : ∀ x ∈ (g n).children, (g x).kind.isMask = false → W.Fits x :=
      fun x hx => hplane x (H.post.closed hn hx)
    have hfits : ∀ x ∈ (g n).children, (g x).kind.isMask = true → MaskFits a x :=
      fun x hx => H.maskFits (H.post.closed hn hx)
    cases hk : (g n).kind with
    | LOAD | CONST =>
      rw [emitNode_leaf hs (by rw [hk]; rfl)] at h
      exact Except.ok.inj h ▸ hnone
    | MUL | POPCNT | LSL | LSR | SUM | INFERENCE_COUNT =>
      rw [emitNode, hs, if_neg Bool.false_ne_true, hk] at h
      exact Except.ok.inj h ▸ hnone
    | ADD | SUB =>
      obtain ⟨l, r, hl, hr, hlk, hrk⟩ := hS.arith (.inl (by rw [hk]; rfl))
      rw [emitNode_addSub hs (by simp [hk]) hl hr] at h
      split_ifs at h
      obtain rfl := Except.ok.inj h
      exact ⟨emitAddSub_guards hbits (hplane n hn (by rw [hk]; rfl)) (by rw [hk]; rfl)
        (hop l (left_mem_children hl) hlk) (hop r (right_mem_children hr) hrk), hc⟩
    | GT | LT | GE | LE | EQ =>
      have hcmp : (g n).kind.isComparison = true := by rw [hk]; rfl
      obtain ⟨l, r, hl, hr, hlk, hrk⟩ := hS.arith (.inr hcmp)
      rw [emitNode_compare hs hcmp hl hr] at h
      obtain rfl := Except.ok.inj h
      obtain ⟨he0, helt⟩ := H.eqFits hn hcmp
      exact emitCompare_emits hbits hc (H.maskFits hn (NodeKind.isMask_of_isComparison hcmp))
        (padOffset_slot he0 helt) (hop l (left_mem_children hl) hlk)
        (hop r (right_mem_children hr) hrk)
    | AND | OR =>
      obtain ⟨l, r, hl, hr, hlk, hrk⟩ := hS.logic (by simp [hk])
      rw [emitNode_logic hs (by simp [hk]) hl, hr] at h
      obtain rfl := Except.ok.inj h
      refine emitLogic_emits hc (H.maskFits hn (by rw [hk]; rfl))
        (hfits l (left_mem_children hl) hlk) fun r' hr' => ?_
      obtain rfl := Option.some.inj hr'
      exact hfits r (right_mem_children hr) hrk
    | NOT =>
      obtain ⟨l, hl, hr, hlk⟩ := hS.not hk
      rw [emitNode_logic hs (by simp [hk]) hl, hr] at h
      obtain rfl := Except.ok.inj h
      exact emitLogic_emits hc (H.maskFits hn (by rw [hk]; rfl))
        (hfits l (left_mem_children hl) hlk) fun r' hr' => absurd hr' (by simp)
    | SELECT =>
      obtain ⟨i, l, r, hi, hl, hr, hik, hlk, hrk⟩ := hS.select hk
      rw [emitNode_select hs hk hi hl hr] at h
      obtain rfl := Except.ok.inj h
      exact emitSelect_emits hbits hc (hfits i (cond_mem_children hi) hik)
        (hplane n hn (by rw [hk]; rfl)) (by rw [hk]; rfl)
        (hop l (left_mem_children hl) hlk) (hop r (right_mem_children hr) hrk)

/-- **The code of all nodes.** -/
theorem emitNodes_guards (hsorted : ∀ n ∈ nodes, (a n).skipJit = false → Sorted g n) {ns : List ℕ}
    (hns : ∀ n ∈ ns, n ∈ nodes) : ∀ {c : ScratchpadCache}, CacheRegs c → ∀ {body : List Instr},
      emitNodes g a bits ns c = .ok body → W.Guards body := by
  induction ns with
  | nil =>
    intro c _ body h
    obtain rfl := Except.ok.inj h
    exact .nil _
  | cons n ns ih =>
    intro c hc body h
    obtain ⟨rc, hrc, h⟩ := bind_ok h
    obtain ⟨rest, hrest, h⟩ := bind_ok h
    obtain rfl := Except.ok.inj h
    have hn := hns n (List.mem_cons_self ..)
    obtain ⟨t, hc'⟩ := emitNode_emits H hF hbits hn (hsorted n hn) hc hrc
    exact t.append (ih (fun x hx => hns x (List.mem_cons_of_mem _ hx)) hc' hrest)

end KernelWalk

/-- A kernel up to its `ret` does not branch. -/
theorem straight_kernelBody (root : ℕ) {ns : List ℕ} {body : List Instr}
    (hbody : emitNodes g a bits ns .init = .ok body) : Straight (kernelBody g a root ns body) :=
  (plain_kernelBody (S := fun _ => True) _ _ _ _
    (plain_emitNodes (fun _ _ _ _ _ => trivial) hbody)).straight

/-- **A compiled kernel, part by part**: between prologue and epilogue every block is allowed and
keeps the base pointers, whatever the metadata of the nodes was before; the delivery of the result
unless the root is a leaf. -/
theorem KernelWalk.compile_guards {P : NodePool} (hP : Built P) {rt : List Instr → Bool}
    {a₀ : ℕ → Annot} {root : ℕ} (hroot : root < P.nextIdx) (hbits : bits ≤ 64) {code : List Instr}
    (hcomp : compileExpression rt P.storage a₀ root bits = (a, .ok code))
    (heq : ∀ n, (P.storage n).kind.isComparison = false → (a₀ n).eqSlotId = -1)
    (hsorted : ∀ n, Reach P.storage root n → (a₀ n).skipJit = false → Sorted P.storage n)
    (W : KernelWalk P.storage a S V)
    (hF : ∀ n, Reach P.storage root n → (P.storage n).kind = .LOAD → W.InTable n) :
    ∃ mid, code = prologue ++ (mid ++ emitResult a root) ++ epilogue ++ [.ret (.x 30)] ∧
      Straight (prologue ++ (mid ++ emitResult a root) ++ epilogue) ∧ W.Guards mid ∧
      ((P.storage root).kind.isLeaf = false → W.Guards (emitResult a root)) := by
  obtain ⟨nodes, body, hprep, hbody, rfl⟩ := compileExpression_ok hcomp
  have hp := prepare_spec hP hroot hprep
  have hself := (hp.mem_iff root).2 (Reach.refl _ _)
  have hinit : W.Guards (nodes.flatMap (initNode P.storage a)) :=
    .flatMap _ fun n hn => initNode_guards fun hmask => by
      rw [hp.resultKind n hn] at hmask
      refine ⟨(hp.maskFits hn (isMask_iff.1 hmask)).2, ?_⟩
      cases hcmp : (P.storage n).kind.isComparison with
      | true => exact (hp.eqFits hn hcmp).2
      | false =>
        rw [hp.eqSlotId n hcmp, heq n hcmp]
        decide
  have hnodes : W.Guards body := emitNodes_guards hp.toSlots (fun n hn => hF n ((hp.mem_iff n).1 hn))
    hbits (fun n hn hs => hsorted n ((hp.mem_iff n).1 hn) (by rw [← hp.skipJit]; exact hs))
    (fun n hn => hn) .init hbody
  have hsplit : kernelBody P.storage a root nodes body = prologue ++
      ((initCarries ++ nodes.flatMap (initNode P.storage a) ++ body) ++ emitResult a root) ++
        epilogue := by
    simp only [kernelBody, List.append_assoc]
  refine ⟨_, by rw [hsplit], ?_, (initCarries_guards.append hinit).append hnodes, fun hleaf => ?_⟩
  · rw [← hsplit]
    exact straight_kernelBody root hbody
  · refine emitResult_guards (fun hk => ?_) fun hk => ?_
    · rw [hp.resultKind root hself] at hk
      exact hp.block hself hleaf (by simpa [NodeKind.resultKind] using hk)
    · rw [hp.resultKind root hself] at hk
      exact hp.maskFits hself (by simpa [NodeKind.resultKind] using hk)

end Kernel

end Jit
end AarchGate
