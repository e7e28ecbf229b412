/-
# The emitted nodes simulate the flow

`Metadata` collects what the passes before the emission establish: the nodes are
post-ordered, their words are disjoint and inside the scratchpad, the fields are
in the table, and the operands of every node that is emitted are of the right
sorts.

`Holds m n` says that on machine `m` the words of node `n` carry its word of the
flow in all 64 lanes at once: bit-planes for an arithmetic node, a mask for a
boolean one.  `Sim` is the invariant of the single pass over the nodes: the nodes
already emitted hold, the masks of the comparisons still to come are cleared, and
the words no code writes are as the call found them.  `Sim.step` is one
node and `Sim.run` the whole pass.
-/

import AarchGate.Jit.NodeCode
import AarchGate.Jit.Flow

namespace AarchGate
namespace Jit

open A64 Ir BitPlane

/-- The nodes are post-ordered, and their words are disjoint and inside the
scratchpad. -/
structure Slots (g : ℕ → Node) (a : ℕ → Annot) (nodes : List ℕ) : Prop where
  post : Graph.PostOrdered (succs g) nodes
  placed : ∀ n ∈ nodes, Placed (g n).kind (a n)
  inRange : ∀ n ∈ nodes, ∀ s, Owns (g n).kind (a n) s → s < maxSlots
  disjoint : ∀ m ∈ nodes, ∀ n ∈ nodes, ∀ s,
    Owns (g m).kind (a m) s → Owns (g n).kind (a n) s → m = n

/-- What the passes before the emission establish about nodes and metadata. -/
structure Metadata (L : Layout) (F : ℕ → ℕ → Word) (g : ℕ → Node) (a : ℕ → Annot)
    (rows : ℕ → Name → Word) (nodes : List ℕ) : Prop extends Slots g a nodes where
  fields : ∀ n ∈ nodes, (g n).kind = .LOAD → 0 ≤ (a n).fieldIdx ∧
    (a n).fieldIdx.toNat < L.numFields ∧
    Planes (F (a n).fieldIdx.toNat) (fun r => rows r (g n).fieldName)
  sorted : ∀ n ∈ nodes, (a n).skipJit = false → Sorted g n
  masks : ∀ n ∈ nodes, (g n).kind.isMask = true → (a n).skipJit = false

/-- The words of the masks. -/
def MaskWord (g : ℕ → Node) (a : ℕ → Annot) (nodes : List ℕ) (k : ℕ) : Prop :=
  ∃ n ∈ nodes, (g n).kind.isMask = true ∧ Owns (g n).kind (a n) k

/-- The words no code writes: they belong to no node with code. -/
def Unwritten (g : ℕ → Node) (a : ℕ → Annot) (nodes : List ℕ) (k : ℕ) : Prop :=
  ∀ n ∈ nodes, coded g a n = true → ¬Owns (g n).kind (a n) k

/-- The words of node `n` carry its word of the flow `V` in every lane. -/
structure Holds (L : Layout) (F : ℕ → ℕ → Word) (g : ℕ → Node) (a : ℕ → Annot)
    (V : ℕ → ℕ → Word) (m : Machine) (n : ℕ) : Prop where
  planes : (g n).kind.isMask = false → Planes (opWord L F g a m n) fun r => V r n
  mask : (g n).kind.isMask = true → Mask (pad L m (a n).slotId.toNat) fun r => truth (V r n)

/-- The words that stand in the blocks of the nodes: what a node without code has. -/
def residue (a : ℕ → Annot) (p : ℕ → Word) (r n : ℕ) : Word :=
  laneOf 64 (fun b => p ((a n).slotId.toNat + b)) r

/-- Nothing was left in a block of zeros. -/
theorem residue_zero {a : ℕ → Annot} {p : ℕ → Word} {r n : ℕ}
    (h : ∀ b < 64, p ((a n).slotId.toNat + b) = 0) : residue a p r n = 0 := by
  refine BitVec.eq_of_getLsbD_eq fun b hb => ?_
  rw [residue, laneOf, BitVec.getLsbD_setWidth, BitVec.getLsbD_ofBoolListLE]
  simp only [List.getD, List.getElem?_map, List.getElem?_range hb, Option.map_some,
    Option.getD_some, h b hb]
  simp

variable {L : Layout} {F : ℕ → ℕ → Word} {g : ℕ → Node} {a : ℕ → Annot}
  {rows : ℕ → Name → Word} {nodes : List ℕ} {depth : ℕ} {saved p : ℕ → Word} {V : ℕ → ℕ → Word}
  {c c' : ScratchpadCache} {m m' : Machine}

/-! ### Reading the metadata -/

section Slots

variable (H : Slots g a nodes) {n : ℕ} (hn : n ∈ nodes)

include H hn

/-- A mask owns its slot. -/
theorem Slots.owns_slot (hk : (g n).kind.isMask = true) :
    Owns (g n).kind (a n) (a n).slotId.toNat := by
  have hleaf := NodeKind.not_isLeaf_of_isMask hk
  refine ⟨hleaf, ?_⟩
  rw [if_pos hk]
  exact Or.inl (Int.toNat_of_nonneg ((H.placed n hn).slot_nonneg hleaf))

/-- The word of a mask. -/
theorem Slots.maskSlot (hk : (g n).kind.isMask = true) :
    MaskSlot (MaskWord g a nodes) (a n).slotId (a n).slotId.toNat := by
  have ho := H.owns_slot hn hk
  have h0 := (H.placed n hn).slot_nonneg (NodeKind.not_isLeaf_of_isMask hk)
  exact ⟨(Int.toNat_of_nonneg h0).symm, H.inRange n hn _ ho, n, hn, hk, ho⟩

/-- A comparison owns the second one. -/
theorem Slots.owns_eqSlot (hk : (g n).kind.isComparison = true) :
    Owns (g n).kind (a n) (a n).eqSlotId.toNat := by
  have hmask := NodeKind.isMask_of_isComparison hk
  refine ⟨NodeKind.not_isLeaf_of_isMask hmask, ?_⟩
  rw [if_pos hmask]
  exact Or.inr ⟨hk, Int.toNat_of_nonneg ((H.placed n hn).eq_nonneg hk)⟩

/-- The second word of a comparison. -/
theorem Slots.eqSlot (hk : (g n).kind.isComparison = true) :
    MaskSlot (MaskWord g a nodes) (a n).eqSlotId (a n).eqSlotId.toNat ∧
      (a n).slotId.toNat ≠ (a n).eqSlotId.toNat := by
  have hmask := NodeKind.isMask_of_isComparison hk
  have ho := H.owns_eqSlot hn hk
  have h0 := (H.placed n hn).eq_nonneg hk
  have h1 := (H.placed n hn).slot_nonneg (NodeKind.not_isLeaf_of_isMask hmask)
  have hne := (H.placed n hn).eq_ne hk
  exact ⟨⟨(Int.toNat_of_nonneg h0).symm, H.inRange n hn _ ho, n, hn, hmask, ho⟩, by omega⟩

omit hn in
/-- Planes own their block. -/
theorem Slots.owns_block (hn : n ∈ nodes) (hleaf : (g n).kind.isLeaf = false)
    (hk : (g n).kind.isMask = false) {k : ℕ} (hb : InBlock (a n).slotId.toNat k) :
    Owns (g n).kind (a n) k := by
  have h0 := (H.placed n hn).slot_nonneg hleaf
  refine ⟨hleaf, ?_⟩
  rw [hk]
  simp only [Bool.false_eq_true, if_false]
  obtain ⟨h1, h2⟩ := hb
  omega

/-- The block of an arithmetic node. -/
theorem Slots.block (hleaf : (g n).kind.isLeaf = false) (hk : (g n).kind.isMask = false) :
    0 ≤ (a n).slotId ∧ (a n).slotId.toNat + 64 ≤ maxSlots := by
  refine ⟨(H.placed n hn).slot_nonneg hleaf, ?_⟩
  have := H.inRange n hn _
    (H.owns_block hn hleaf hk (k := (a n).slotId.toNat + 63) ⟨by omega, by omega⟩)
  omega

/-- No mask lies in the block of an arithmetic node. -/
theorem Slots.block_not_mask (hleaf : (g n).kind.isLeaf = false)
    (hk : (g n).kind.isMask = false) {k : ℕ} (hb : InBlock (a n).slotId.toNat k) :
    ¬MaskWord g a nodes k := by
  rintro ⟨x, hx, hxm, hxo⟩
  obtain rfl := H.disjoint x hx n hn k hxo (H.owns_block hn hleaf hk hb)
  rw [hk] at hxm
  exact Bool.false_ne_true hxm

/-- An operand does not overlap the block of another node. -/
theorem Slots.apart (hleaf : (g n).kind.isLeaf = false) (hk : (g n).kind.isMask = false)
    {l : ℕ} (hl : l ∈ nodes) (hlk : (g l).kind.isMask = false) (hne : l ≠ n) :
    Apart g a l (a n).slotId.toNat := by
  intro hll b hb hin
  refine hne (H.disjoint l hl n hn _ (H.owns_block hl hll hlk ⟨?_, ?_⟩)
    (H.owns_block hn hleaf hk hin))
  · omega
  · omega

end Slots

/-- An arithmetic node is usable as an operand. -/
theorem Metadata.operandOk (H : Metadata L F g a rows nodes) {n : ℕ} (hn : n ∈ nodes)
    (hk : (g n).kind.isMask = false) : OperandOk L g a n where
  load h := ⟨(H.fields n hn h).1, (H.fields n hn h).2.1⟩
  block h := H.block hn h hk

/-! ### The invariant of the pass -/

/-- **The invariant**: after the nodes `done`, before the nodes `todo`; the call was
made on the scratchpad `p`. -/
structure Sim (L : Layout) (F : ℕ → ℕ → Word) (g : ℕ → Node) (a : ℕ → Annot)
    (V : ℕ → ℕ → Word) (p : ℕ → Word) (nodes : List ℕ) (depth : ℕ) (saved : ℕ → Word)
    (done todo : List ℕ) (c : ScratchpadCache) (m : Machine) : Prop where
  ready : Ready L F depth saved (MaskWord g a nodes) c m
  holds : ∀ n ∈ done, Holds L F g a V m n
  cleared : ∀ n ∈ todo, (g n).kind.isComparison = true →
    pad L m (a n).slotId.toNat = 0 ∧ pad L m (a n).eqSlotId.toNat = BitVec.allOnes 64
  untouched : ∀ k < maxSlots, Unwritten g a nodes k → pad L m k = p k

/-- A node without code is no mask. -/
theorem Metadata.not_mask (H : Metadata L F g a rows nodes) {n : ℕ} (hn : n ∈ nodes)
    (hc : coded g a n = false) : (g n).kind.isMask = false := by
  by_contra hk
  rw [Bool.not_eq_false] at hk
  rw [coded, H.masks n hn hk, emitted, hk] at hc
  simp at hc

/-- The blocks of the nodes without code are not written. -/
theorem Slots.unwritten (H : Slots g a nodes) {n : ℕ} (hn : n ∈ nodes)
    (hleaf : (g n).kind.isLeaf = false) (hk : (g n).kind.isMask = false)
    (hc : coded g a n = false) {b : ℕ} (hb : b < 64) :
    Unwritten g a nodes ((a n).slotId.toNat + b) := by
  intro x hx hcx ho
  obtain rfl := H.disjoint x hx n hn _ ho (H.owns_block hn hleaf hk ⟨by omega, by omega⟩)
  rw [hc] at hcx
  exact absurd hcx Bool.false_ne_true

/-- The words of a node are not touched by the code of another. -/
theorem Holds.frame (H : Metadata L F g a rows nodes) {n x : ℕ} (hn : n ∈ nodes) (hx : x ∈ nodes)
    (hne : x ≠ n) (hp : PadKeeps L (Owns (g n).kind (a n)) m m') (h : Holds L F g a V m x) :
    Holds L F g a V m' x where
  planes hk := by
    refine (h.planes hk).congr fun b hb => opWord_congr (H.operandOk hx hk) hp ?_ hb
    intro hleaf b hb ho
    exact hne (H.disjoint x hx n hn _ (H.owns_block hx hleaf hk ⟨by omega, by omega⟩) ho)
  mask hk := by
    rw [hp.pad_eq (H.maskSlot hx hk).lt fun ho =>
      hne (H.disjoint x hx n hn _ (H.owns_slot hx hk) ho)]
    exact h.mask hk

variable {done todo : List ℕ} {n : ℕ}

/-- What is left to show for one node: the state is ready again, only words of the
node have changed, none if it has no code, and the node holds. -/
theorem Sim.advance (H : Metadata L F g a rows nodes) (hnodes : nodes = done ++ n :: todo)
    (h : Sim L F g a V p nodes depth saved done (n :: todo) c m)
    (hready : Ready L F depth saved (MaskWord g a nodes) c' m')
    (hp : PadKeeps L (fun s => coded g a n = true ∧ Owns (g n).kind (a n) s) m m')
    (hnew : Holds L F g a V m' n) : Sim L F g a V p nodes depth saved (done ++ [n]) todo c' m' := by
  have hnd : (done ++ n :: todo).Nodup := hnodes ▸ H.post.nodup
  have hmem : n ∈ nodes := by rw [hnodes]; simp
  have hown : PadKeeps L (Owns (g n).kind (a n)) m m' := hp.mono fun _ hs => hs.2
  have hdone : ∀ x ∈ done, x ≠ n := by
    rintro x hx rfl
    exact (List.nodup_append.1 hnd).2.2 x hx x (List.mem_cons_self ..) rfl
  have htodo : ∀ x ∈ todo, x ≠ n := by
    rintro x hx rfl
    exact (List.nodup_cons.1 (List.nodup_append.1 hnd).2.1).1 hx
  refine ⟨hready, ?_, ?_, ?_⟩
  · intro x hx
    rcases List.mem_append.1 hx with hx | hx
    · exact (h.holds x hx).frame H hmem (by rw [hnodes]; simp [hx]) (hdone x hx) hown
    · rw [List.mem_singleton] at hx
      exact hx ▸ hnew
  · intro x hx hcmp
    have hxn : x ∈ nodes := by rw [hnodes]; simp [hx]
    obtain ⟨h0, h1⟩ := h.cleared x (List.mem_cons_of_mem _ hx) hcmp
    have hmask := NodeKind.isMask_of_isComparison hcmp
    rw [hown.pad_eq (H.maskSlot hxn hmask).lt fun ho =>
        htodo x hx (H.disjoint x hxn n hmem _ (H.owns_slot hxn hmask) ho),
      hown.pad_eq (H.eqSlot hxn hcmp).1.lt fun ho =>
        htodo x hx (H.disjoint x hxn n hmem _ (H.owns_eqSlot hxn hcmp) ho)]
    exact ⟨h0, h1⟩
  · intro k hk hun
    rw [hp.pad_eq hk fun ⟨hc, ho⟩ => hun n hmem hc ho, h.untouched k hk hun]

/-! ### One node -/

section Step

variable (H : Metadata L F g a rows nodes) (hV : Flow g a rows (residue a p) V)
  (hnodes : nodes = done ++ n :: todo)
  (h : Sim L F g a V p nodes depth saved done (n :: todo) c m)

include H hnodes in
/-- Operands have been computed. -/
theorem Metadata.operand_mem {x : ℕ} (hx : x ∈ (g n).children) : x ∈ done ∧ x ∈ nodes ∧ x ≠ n := by
  have hd := (H.post.split hnodes).2 x hx
  exact ⟨hd, by rw [hnodes]; simp [hd], fun he => (H.post.split hnodes).1 (he ▸ hd)⟩

include H hV hnodes h

/-- A node without code: a leaf, or a block that is left as it was. -/
theorem Sim.step_nil (hc : coded g a n = false) :
    Sim L F g a V p nodes depth saved (done ++ [n]) todo c (execs [] m) := by
  have hmem : n ∈ nodes := by rw [hnodes]; simp
  have hmask := H.not_mask hmem hc
  refine h.advance H hnodes h.ready (.refl _ _ _) ⟨fun _ => ?_, fun hk => ?_⟩
  · cases hleaf : (g n).kind.isLeaf with
    | false =>
      have hblock := (H.block hmem hleaf hmask).2
      refine (planes_laneOf fun b => p ((a n).slotId.toNat + b)).congr (fun b hb => ?_) |>.lanes
        fun r _ => (hV r).left_over hleaf hc
      rw [execs_nil, opWord_block hleaf, h.untouched _ (by omega) (H.unwritten hmem hleaf hmask hc hb)]
    | true =>
      rcases NodeKind.eq_of_isLeaf hleaf with hk | hk
      · exact (H.fields n hmem hk).2.2.congr (fun b _ => opWord_load hk b) |>.lanes
          fun r _ => (hV r).load hk
      · exact (planes_const (g n).constValue).congr (fun b _ => opWord_const hk b) |>.lanes
          fun r _ => (hV r).const hk
  · rw [hmask] at hk
    exact absurd hk Bool.false_ne_true

variable (hs : (a n).skipJit = false)

include hs

/-- A sum or a difference. -/
theorem Sim.step_addSub (hk : isAddSub (g n).kind = true) {l r : ℕ} (hl : (g n).left = some l)
    (hr : (g n).right = some r) (hlk : (g l).kind.isMask = false) (hrk : (g r).kind.isMask = false)
    {i : ℕ} (hi : i < 6) :
    Sim L F g a V p nodes depth saved (done ++ [n]) todo c
      (execs (emitAddSub g a 64 (carryReg i) n l r) m) := by
  have hmem : n ∈ nodes := by rw [hnodes]; simp
  have he : emitted (g n).kind = true := by rw [emitted, hk]; rfl
  obtain ⟨hld, hln, hlne⟩ := H.operand_mem hnodes (left_mem_children hl)
  obtain ⟨hrd, hrn, hrne⟩ := H.operand_mem hnodes (right_mem_children hr)
  have hleaf := not_isLeaf_of_isAddSub hk
  have hmask := not_isMask_of_isAddSub hk
  obtain ⟨h0, hslot⟩ := H.block hmem hleaf hmask
  obtain ⟨hout, hpads, hregs⟩ := emitAddSub_exec h.ready.env (H.operandOk hln hlk)
    (H.operandOk hrn hrk) h0 hslot (H.apart hmem hleaf hmask hln hlk hlne)
    (H.apart hmem hleaf hmask hrn hrk hrne) hi ((h.holds l hld).planes hlk)
    ((h.holds r hrd).planes hrk)
  refine h.advance H hnodes (h.ready.emitAddSub hi
    (fun j hj => H.block_not_mask hmem hleaf hmask hj) hpads hregs)
    (hpads.mono fun j hj => ⟨by rw [coded, he, hs]; rfl, H.owns_block hmem hleaf hmask hj⟩)
    ⟨fun _ => ?_, fun h => by rw [hmask] at h; exact absurd h Bool.false_ne_true⟩
  refine (hout.congr fun b _ => opWord_block hleaf b).lanes fun j _ => ?_
  rw [(hV j).coded he hs, hl, hr, opValue_addSub hk]
  rfl

/-- A comparison. -/
theorem Sim.step_compare {op : Cmp} (hk : (g n).kind = op.kind) {l r : ℕ} (hl : (g n).left = some l)
    (hr : (g n).right = some r) (hlk : (g l).kind.isMask = false)
    (hrk : (g r).kind.isMask = false) :
    Sim L F g a V p nodes depth saved (done ++ [n]) todo (emitCompare g a 64 n l r c).2
      (execs (emitCompare g a 64 n l r c).1 m) := by
  have hmem : n ∈ nodes := by rw [hnodes]; simp
  obtain ⟨hld, hln, -⟩ := H.operand_mem hnodes (left_mem_children hl)
  obtain ⟨hrd, hrn, -⟩ := H.operand_mem hnodes (right_mem_children hr)
  have hcmp : (g n).kind.isComparison = true := by rw [hk]; cases op <;> rfl
  have hmask := NodeKind.isMask_of_isComparison hcmp
  have hem : emitted (g n).kind = true := by rw [emitted, hmask, Bool.or_true]; rfl
  obtain ⟨he, hse⟩ := H.eqSlot hmem hcmp
  obtain ⟨hs0, he0⟩ := h.cleared n (List.mem_cons_self ..) hcmp
  obtain ⟨hready, hout, hpads⟩ := emitCompare_exec h.ready hk (H.maskSlot hmem hmask) he hse
    (H.operandOk hln hlk) (H.operandOk hrn hrk) ((h.holds l hld).planes hlk)
    ((h.holds r hrd).planes hrk) hs0 he0
  refine h.advance H hnodes hready (hpads.mono fun j hj => ⟨by rw [coded, hem, hs]; rfl, ?_⟩)
    ⟨fun h => by rw [hmask] at h; exact absurd h (by decide), fun _ => ?_⟩
  · rcases hj with rfl | rfl
    · exact H.owns_slot hmem hmask
    · exact H.owns_eqSlot hmem hcmp
  · refine hout.congr fun j _ => ?_
    rw [(hV j).coded hem hs, hl, hr, hk, opValue_cmp, truth_bit]
    rfl

/-- `AND` and `OR`. -/
theorem Sim.step_logic (hk : (g n).kind = .AND ∨ (g n).kind = .OR) {l r : ℕ}
    (hl : (g n).left = some l) (hr : (g n).right = some r) (hlk : (g l).kind.isMask = true)
    (hrk : (g r).kind.isMask = true) :
    Sim L F g a V p nodes depth saved (done ++ [n]) todo (emitLogic g a n l (some r) c).2
      (execs (emitLogic g a n l (some r) c).1 m) := by
  have hmem : n ∈ nodes := by rw [hnodes]; simp
  obtain ⟨hld, hln, -⟩ := H.operand_mem hnodes (left_mem_children hl)
  obtain ⟨hrd, hrn, -⟩ := H.operand_mem hnodes (right_mem_children hr)
  have hmask : (g n).kind.isMask = true := by rcases hk with hk | hk <;> rw [hk] <;> rfl
  have hem : emitted (g n).kind = true := by rw [emitted, hmask, Bool.or_true]; rfl
  obtain ⟨hready, hout, hpads⟩ := emitLogic_exec (g := g) h.ready (H.maskSlot hln hlk)
    (H.maskSlot hrn hrk) (H.maskSlot hmem hmask)
  refine h.advance H hnodes hready (hpads.mono fun j hj => ⟨by rw [coded, hem, hs]; rfl, ?_⟩)
    ⟨fun h => by rw [hmask] at h; exact absurd h (by decide), fun _ => ?_⟩
  · exact hj ▸ H.owns_slot hmem hmask
  · rw [hout]
    have hp := (h.holds l hld).mask hlk
    have hq := (h.holds r hrd).mask hrk
    rcases hk with hk | hk
    · rw [if_pos hk]
      refine (hp.and hq).congr fun j _ => ?_
      rw [(hV j).coded hem hs, hl, hr, hk]
      exact truth_bit _
    · rw [if_neg (by rw [hk]; decide)]
      refine (hp.or hq).congr fun j _ => ?_
      rw [(hV j).coded hem hs, hl, hr, hk]
      exact truth_bit _

/-- `NOT`. -/
theorem Sim.step_not (hk : (g n).kind = .NOT) {l : ℕ} (hl : (g n).left = some l)
    (hlk : (g l).kind.isMask = true) :
    Sim L F g a V p nodes depth saved (done ++ [n]) todo (emitLogic g a n l none c).2
      (execs (emitLogic g a n l none c).1 m) := by
  have hmem : n ∈ nodes := by rw [hnodes]; simp
  obtain ⟨hld, hln, -⟩ := H.operand_mem hnodes (left_mem_children hl)
  have hmask : (g n).kind.isMask = true := by rw [hk]; rfl
  have hem : emitted (g n).kind = true := by rw [hk]; rfl
  obtain ⟨hready, hout, hpads⟩ := emitNot_exec (g := g) h.ready (H.maskSlot hln hlk)
    (H.maskSlot hmem hmask)
  refine h.advance H hnodes hready (hpads.mono fun j hj => ⟨by rw [coded, hem, hs]; rfl, ?_⟩)
    ⟨fun h => by rw [hmask] at h; exact absurd h (by decide), fun _ => ?_⟩
  · exact hj ▸ H.owns_slot hmem hmask
  · rw [hout]
    refine ((h.holds l hld).mask hlk).not.congr fun j _ => ?_
    rw [(hV j).coded hem hs, hl, hk]
    exact truth_bit _

/-- `SELECT`. -/
theorem Sim.step_select (hk : (g n).kind = .SELECT) {i l r : ℕ} (hi : (g n).cond = some i)
    (hl : (g n).left = some l) (hr : (g n).right = some r) (hik : (g i).kind.isMask = true)
    (hlk : (g l).kind.isMask = false) (hrk : (g r).kind.isMask = false) :
    Sim L F g a V p nodes depth saved (done ++ [n]) todo (emitSelect g a 64 n i l r c).2
      (execs (emitSelect g a 64 n i l r c).1 m) := by
  have hmem : n ∈ nodes := by rw [hnodes]; simp
  obtain ⟨hid, hin, -⟩ := H.operand_mem hnodes (cond_mem_children hi)
  obtain ⟨hld, hln, hlne⟩ := H.operand_mem hnodes (left_mem_children hl)
  obtain ⟨hrd, hrn, hrne⟩ := H.operand_mem hnodes (right_mem_children hr)
  have hleaf : (g n).kind.isLeaf = false := by rw [hk]; rfl
  have hmask : (g n).kind.isMask = false := by rw [hk]; rfl
  have hem : emitted (g n).kind = true := by rw [hk]; rfl
  obtain ⟨h0, hslot⟩ := H.block hmem hleaf hmask
  obtain ⟨hready, hout, hpads⟩ := emitSelect_exec h.ready (H.maskSlot hin hik)
    (H.operandOk hln hlk) (H.operandOk hrn hrk) h0 hslot (H.apart hmem hleaf hmask hln hlk hlne)
    (H.apart hmem hleaf hmask hrn hrk hrne) (fun j hj => H.block_not_mask hmem hleaf hmask hj)
    ((h.holds i hid).mask hik) ((h.holds l hld).planes hlk) ((h.holds r hrd).planes hrk)
  refine h.advance H hnodes hready
    (hpads.mono fun j hj => ⟨by rw [coded, hem, hs]; rfl, H.owns_block hmem hleaf hmask hj⟩)
    ⟨fun _ => ?_, fun h => by rw [hmask] at h; exact absurd h Bool.false_ne_true⟩
  refine (hout.congr fun b _ => opWord_block hleaf b).lanes fun j _ => ?_
  rw [(hV j).coded hem hs, hi, hl, hr, hk]
  rfl

omit hs

/-- **One node of the pass.** -/
theorem Sim.step {rc : List Instr × ScratchpadCache} (he : emitNode g a 64 n c = .ok rc) :
    Sim L F g a V p nodes depth saved (done ++ [n]) todo rc.2 (execs rc.1 m) := by
  have hmem : n ∈ nodes := by rw [hnodes]; simp
  cases hc : coded g a n with
  | false =>
    obtain rfl := Except.ok.inj ((emitNode_uncoded hc).symm.trans he)
    exact h.step_nil H hV hnodes hc
  | true =>
    obtain ⟨hem, hs⟩ : emitted (g n).kind = true ∧ (a n).skipJit = false := by simpa [coded] using hc
    have hsort := H.sorted n hmem hs
    -- the emission follows the kind of the node
    rcases emitted_cases hem with hk | ⟨op, hk⟩ | hk | hk | hk
    · obtain ⟨l, r, hl, hr, hlk, hrk⟩ := hsort.arith (Or.inl hk)
      rw [emitNode_addSub hs (by simpa [isAddSub] using hk) hl hr] at he
      split_ifs at he with hcarry
      obtain rfl := Except.ok.inj he
      exact h.step_addSub H hV hnodes hs hk hl hr hlk hrk (by omega)
    · have hcmp : (g n).kind.isComparison = true := by rw [hk]; cases op <;> rfl
      obtain ⟨l, r, hl, hr, hlk, hrk⟩ := hsort.arith (Or.inr hcmp)
      obtain rfl := Except.ok.inj ((emitNode_compare hs hcmp hl hr).symm.trans he)
      exact h.step_compare H hV hnodes hs hk hl hr hlk hrk
    · obtain ⟨l, r, hl, hr, hlk, hrk⟩ := hsort.logic hk
      have heq : emitNode g a 64 n c = _ := emitNode_logic hs (by tauto) hl
      rw [hr] at heq
      obtain rfl := Except.ok.inj (heq.symm.trans he)
      exact h.step_logic H hV hnodes hs hk hl hr hlk hrk
    · obtain ⟨l, hl, hr, hlk⟩ := hsort.not hk
      have heq : emitNode g a 64 n c = _ := emitNode_logic hs (by tauto) hl
      rw [hr] at heq
      obtain rfl := Except.ok.inj (heq.symm.trans he)
      exact h.step_not H hV hnodes hs hk hl hlk
    · obtain ⟨i, l, r, hi, hl, hr, hik, hlk, hrk⟩ := hsort.select hk
      obtain rfl := Except.ok.inj ((emitNode_select hs hk hi hl hr).symm.trans he)
      exact h.step_select H hV hnodes hs hk hi hl hr hik hlk hrk

end Step

/-- **The whole pass**: all nodes hold at its end. -/
theorem Sim.run (H : Metadata L F g a rows nodes) (hV : Flow g a rows (residue a p) V) :
    ∀ {todo done : List ℕ} {c : ScratchpadCache} {m : Machine} {code : List Instr},
      nodes = done ++ todo → Sim L F g a V p nodes depth saved done todo c m →
        emitNodes g a 64 todo c = .ok code →
          ∃ c', Sim L F g a V p nodes depth saved nodes [] c' (execs code m) := by
  intro todo
  induction todo with
  | nil =>
    intro done c m code hnodes h he
    obtain rfl := Except.ok.inj he
    rw [List.append_nil] at hnodes
    subst hnodes
    exact ⟨c, h⟩
  | cons n todo ih =>
    intro done c m code hnodes h he
    obtain ⟨rc, hn, he⟩ := bind_ok he
    obtain ⟨rest, hr, he⟩ := bind_ok he
    obtain rfl := Except.ok.inj he
    rw [execs_append]
    exact ih (by rw [hnodes]; simp) (h.step H hV hnodes hn) hr

end Jit
end AarchGate
