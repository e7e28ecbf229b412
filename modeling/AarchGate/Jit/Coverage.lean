/-
# What the bit-sliced compiler covers

The builder functions make nodes of 19 kinds, and `compile_expression` accepts all of
them: `ExpressionAnalyzer` classifies every kind and the allocation gives every node
its words.  The emission has cases for 11 kinds only.  A `MUL`, a shift, a `POPCNT`,
an `INFERENCE_COUNT` or a `SUM` gets a block of the scratchpad that no instruction
writes, and whoever uses the node reads what was left there.

`nodeMeaning` is what a node of each kind means, stated for the kinds and not for
the code.  What a `POPCNT` counts over the 64 rows is a parameter of it, the results
hold for every choice.  `Faithful` says that a root is not miscompiled silently: the
compilation returns a null pointer, or a kernel on which all nodes the root uses have
their meaning.  **That is so exactly for the roots that do not fit, or whose nodes are
all of the kinds with code, without `SUB` and with at most six `ADD`s**
(`faithful_iff`).
-/

import AarchGate.Jit.Accept
import Mathlib.Data.BitVec

namespace AarchGate
namespace Jit

open A64 Ir BitPlane

/-! ### Meaning -/

/-- What an operand adds to a `SUM`: its value, or its weight where a mask is true. -/
def summandValue (g : ℕ → Node) (V : ℕ → Word) (op : ℕ) : Word :=
  if (g op).kind.isMask then if truth (V op) then (g op).weight else 0 else V op

/-- The meaning of a node on row `r` of a block, from the meanings `M` of its operands;
`count` is what `POPCNT` makes of a mask. -/
def nodeMeaning (count : (ℕ → Bool) → ℕ → Word) (g : ℕ → Node) (rows : ℕ → Name → Word)
    (M : ℕ → ℕ → Word) (r n : ℕ) : Word :=
  let i := (g n).cond.elim 0 (M r)
  let x := (g n).left.elim 0 (M r)
  let y := (g n).right.elim 0 (M r)
  match (g n).kind with
  | .LOAD => rows r (g n).fieldName
  | .CONST => (g n).constValue
  | .MUL => x * y
  | .LSL => x <<< (g n).shiftAmount.toNat
  | .LSR => x >>> (g n).shiftAmount.toNat
  | .POPCNT => count (fun r => (g n).left.any fun l => truth (M r l)) r
  | .INFERENCE_COUNT => bit (truth i)
  | .SUM => ((g n).operands.map (summandValue g (M r))).sum
  | k => opValue (· - ·) k i x y

/-- The meaning of a node, computed from the leaves upwards. -/
def meaningFuel (count : (ℕ → Bool) → ℕ → Word) (g : ℕ → Node) (rows : ℕ → Name → Word) :
    ℕ → ℕ → ℕ → Word
  | 0, _, _ => 0
  | fuel + 1, r, n => nodeMeaning count g rows (meaningFuel count g rows fuel) r n

/-- The meaning of node `n` on row `r`; the operands of a node come before it. -/
def meaning (count : (ℕ → Bool) → ℕ → Word) (g : ℕ → Node) (rows : ℕ → Name → Word) (r n : ℕ) :
    Word := meaningFuel count g rows (n + 1) r n

section Meaning

variable {count : (ℕ → Bool) → ℕ → Word} {g : ℕ → Node} {rows : ℕ → Name → Word}

/-- A meaning depends on those of the operands. -/
theorem nodeMeaning_congr {M M' : ℕ → ℕ → Word} {n : ℕ}
    (h : ∀ c ∈ (g n).children, ∀ r, M r c = M' r c) (r : ℕ) :
    nodeMeaning count g rows M r n = nodeMeaning count g rows M' r n := by
  have hcond := elim_congr fun c hc => h c (cond_mem_children hc) r
  have hleft := elim_congr fun c hc => h c (left_mem_children hc) r
  have hright := elim_congr fun c hc => h c (right_mem_children hc) r
  have hany : (fun r => (g n).left.any fun l => truth (M r l)) =
      fun r => (g n).left.any fun l => truth (M' r l) := by
    funext r
    cases hl : (g n).left with
    | none => rfl
    | some l => simp only [Option.any_some, h l (left_mem_children hl) r]
  have hsum : (g n).operands.map (summandValue g (M r)) = (g n).operands.map (summandValue g (M' r)) :=
    List.map_congr_left fun op hop => by
      simp only [summandValue, h op (by simp [Node.children, hop]) r]
  simp only [nodeMeaning, hcond, hleft, hright, hany, hsum]

/-- Enough depth is enough. -/
theorem meaningFuel_eq {P : NodePool} (hP : Built P) {n : ℕ} :
    ∀ {fuel fuel' : ℕ}, n < fuel → n < fuel' → ∀ r, meaningFuel count P.storage rows fuel r n =
      meaningFuel count P.storage rows fuel' r n := by
  induction n using Nat.strongRecOn with
  | ind n ih =>
    intro fuel fuel' h h' r
    obtain ⟨k, rfl⟩ := Nat.exists_eq_succ_of_ne_zero (show fuel ≠ 0 by omega)
    obtain ⟨k', rfl⟩ := Nat.exists_eq_succ_of_ne_zero (show fuel' ≠ 0 by omega)
    refine nodeMeaning_congr (fun c hc r => ?_) r
    have hlt := (hP.ordered.2 n c hc).1
    exact ih c hlt (by omega) (by omega) r

/-- **The meaning of a node is that of its kind.** -/
theorem meaning_eq {P : NodePool} (hP : Built P) (r n : ℕ) :
    meaning count P.storage rows r n =
      nodeMeaning count P.storage rows (meaning count P.storage rows) r n :=
  nodeMeaning_congr (fun c hc r =>
    meaningFuel_eq hP (hP.ordered.2 n c hc).1 (Nat.lt_succ_self c) r) r

/-- The meanings below a root depend on its fields only. -/
theorem meaning_congr {P : NodePool} (hP : Built P) {rows' : ℕ → Name → Word} {root : ℕ}
    (h : ∀ n, Reach P.storage root n → (P.storage n).kind = .LOAD →
      ∀ r, rows r (P.storage n).fieldName = rows' r (P.storage n).fieldName)
    {n : ℕ} (hn : Reach P.storage root n) (r : ℕ) :
    meaning count P.storage rows r n = meaning count P.storage rows' r n := by
  induction n using Nat.strongRecOn generalizing r with
  | ind n ih =>
    rw [meaning_eq hP, meaning_eq hP, nodeMeaning_congr fun c hc r =>
      ih c (hP.ordered.2 n c hc).1 (hn.child hc) r]
    unfold nodeMeaning
    cases hk : (P.storage n).kind <;> simp only [h n hn, hk]

/-- Where a node has code and is no `SUB`, the code computes its meaning. -/
theorem nodeMeaning_emitted {n : ℕ} (hk : emitted (g n).kind = true) (hsub : (g n).kind ≠ .SUB)
    (sub : Word → Word → Word) (M : ℕ → ℕ → Word) (r : ℕ) :
    nodeMeaning count g rows M r n = opValue sub (g n).kind ((g n).cond.elim 0 (M r))
      ((g n).left.elim 0 (M r)) ((g n).right.elim 0 (M r)) := by
  unfold nodeMeaning
  revert hk hsub
  cases (g n).kind <;> simp [emitted, isAddSub, NodeKind.isMask, opValue]

end Meaning

/-! ### What is covered -/

/-- The nodes a kernel computes with: all that are not skipped, and what those read. -/
def KernelNode (g : ℕ → Node) (a₀ : ℕ → Annot) (root n : ℕ) : Prop :=
  Reach g root n ∧ ((a₀ n).skipJit = false ∨
    ∃ p, Reach g root p ∧ (a₀ p).skipJit = false ∧ n ∈ (g p).children)

/-- A kernel has run to `m'`, through `m₁` at the end of its evaluation, with the meanings
`M`: every node holds its own, and the root is delivered.  The marked nodes that no other reads
have no words in a kernel; what stands for them is the total that `execute` adds up
(`Engine.ApexEngine.AddsMeanings`). -/
structure RunsWith (L : Layout) (F : ℕ → ℕ → Word) (g : ℕ → Node) (a₀ a : ℕ → Annot) (root : ℕ)
    (M : ℕ → ℕ → Word) (m₁ m' : Machine) : Prop where
  holds : ∀ n, KernelNode g a₀ root n → Holds L F g a M m₁ n
  mask : (a₀ root).skipJit = false → (g root).kind.isMask = true →
    Mask (m'.read (.x 0)) fun r => truth (M r root)
  planes : (a₀ root).skipJit = false → (g root).kind.isMask = false →
    Planes (pad L m') fun r => M r root

/-- **The root is not miscompiled silently**: the compilation has no undefined behaviour,
and each kernel it returns computes with the meanings of the nodes. -/
def Faithful (count : (ℕ → Bool) → ℕ → Word) (g : ℕ → Node) (a₀ : ℕ → Annot) (root : ℕ) : Prop :=
  ∀ rt, (compileExpression rt g a₀ root 64).2 ≠ .error .undefined ∧
    ∀ a code, compileExpression rt g a₀ root 64 = (a, .ok code) →
      ∀ (L : Layout) (F : ℕ → ℕ → Word) (rows : ℕ → Name → Word) (m : Machine),
        FieldPlanes L F g a root rows → Args L F m → ∃ m', call code m = some m' ∧
          RunsWith L F g a₀ a root (meaning count g rows) (execs (evaluation a root code) m) m'

/-- Every node of the kernel has code that computes its meaning, and the root has words of
its own. -/
structure Covered (g : ℕ → Node) (a₀ : ℕ → Annot) (root : ℕ) : Prop where
  compound : (a₀ root).skipJit = false → (g root).kind.isLeaf = false
  coded : ∀ n, KernelNode g a₀ root n → (g n).kind.isLeaf = false →
    coded g a₀ n = true ∧ (g n).kind ≠ .SUB
  six : ∀ ns : List ℕ, ns.Nodup → (∀ n ∈ ns, Reach g root n ∧ (g n).kind = .ADD ∧
    (n = root → (a₀ n).skipJit = false)) → ns.length ≤ 6

/-- What a pass may find in the nodes of a new expression: no slot, no carry register,
and marks on nodes that are no masks and no additions below the root. -/
structure Marked (g : ℕ → Node) (a₀ : ℕ → Annot) (root : ℕ) : Prop where
  eqSlotId : ∀ n, (g n).kind.isComparison = false → (a₀ n).eqSlotId = -1
  slotId : (a₀ root).slotId = -1
  carryReg : ∀ n, Reach g root n → (a₀ n).carryReg = -1
  masks : ∀ n, Reach g root n → (g n).kind.isMask = true → (a₀ n).skipJit = false
  addSub : ∀ n, Reach g root n → isAddSub (g n).kind = true → n ≠ root → (a₀ n).skipJit = false

/-- More than `k` elements with a property: one of them comes after `k` others. -/
theorem exists_after {α : Type} {q : α → Bool} {k : ℕ} {l : List α} (h : k < (l.filter q).length) :
    ∃ pre x post, l = pre ++ x :: post ∧ q x = true ∧ k ≤ (pre.filter q).length := by
  induction l using List.reverseRecOn with
  | nil => exact absurd h (Nat.not_lt_zero k)
  | append_singleton l x ih =>
    by_cases hk : k < (l.filter q).length
    · obtain ⟨pre, y, post, rfl, hy, hle⟩ := ih hk
      exact ⟨pre, y, post ++ [x], by simp, hy, hle⟩
    · rw [List.filter_append, List.length_append] at h
      cases hx : q x with
      | false => simp [hx] at h; omega
      | true =>
        simp only [List.filter_cons, hx, if_true, List.filter_nil, List.length_singleton] at h
        exact ⟨l, x, [], rfl, hx, by omega⟩

/-- **The seventh addition or subtraction** has no carry register: among more than six with a
property, one with the property is left without. -/
theorem Prepared.exists_no_carry {g : ℕ → Node} {a₀ a : ℕ → Annot} {root : ℕ} {nodes : List ℕ}
    (hp : Prepared g a₀ root a nodes) (q : ℕ → Bool) {ns : List ℕ} (hnd : ns.Nodup)
    (hns : ∀ n ∈ ns, Reach g root n ∧ isAddSub (g n).kind = true ∧ q n = true) (hlen : 6 < ns.length) :
    ∃ n, Reach g root n ∧ isAddSub (g n).kind = true ∧ q n = true ∧
      (a n).carryReg = (a₀ n).carryReg := by
  have hsub : ns ⊆ nodes.filter fun n => isAddSub (g n).kind && q n := fun n hn => by
    obtain ⟨hr, hadd, hq⟩ := hns n hn
    exact List.mem_filter.2 ⟨(hp.mem_iff n).2 hr, by rw [hadd, hq]; rfl⟩
  obtain ⟨pre, n, post, hsplit, hn, hpre⟩ :=
    exists_after (Nat.lt_of_lt_of_le hlen (hnd.length_le_of_subset hsub))
  rw [Bool.and_eq_true] at hn
  have hsix : 6 ≤ (pre.filter fun x => isAddSub (g x).kind).length :=
    Nat.le_trans hpre (List.Sublist.length_le (List.monotone_filter_right pre fun x hx => by
      rw [Bool.and_eq_true] at hx
      exact hx.1))
  exact ⟨n, (hp.mem_iff n).1 (by rw [hsplit]; simp), hn.1, hn.2, hp.noCarry pre n post hsplit hsix hn.1⟩

/-! ### A leaf at the root

A bare `LOAD` or `CONST` has no slot.  The result code takes its `slot_id` of `-1` for a
slot all the same, and copies from the word in front of the scratchpad. -/

section Leaf

/-- The first word the result code copies, wherever it is. -/
theorem copyBlock_first {L : Layout} {F : ℕ → ℕ → Word} {depth : ℕ} {saved : ℕ → Word} {m : Machine}
    (hE : Env L F depth saved m) : ∀ k ≤ 64,
      let m' := execs ((List.range k).flatMap fun i => [.ldr result (.idx scratchPtr tempPtr),
        .str result (.off scratchPtr (BitVec.ofNat 64 (i * 8))), .addImm tempPtr tempPtr 8]) m
      (0 < k → pad L m' 0 = m.mem (L.scratch + m.read tempPtr)) ∧ PadKeeps L (· < k) m m' ∧
        Keeps [result, tempPtr] m m' := by
  intro k
  induction k with
  | zero => exact fun _ => ⟨fun h => absurd h (Nat.lt_irrefl 0), .refl _ _ _, .refl _ _⟩
  | succ k ih =>
    intro hk
    obtain ⟨hval, hkeep, hregs⟩ := ih (by omega)
    rw [List.range_succ, List.flatMap_append, execs_append, List.flatMap_singleton]
    generalize hm₁ : execs ((List.range k).flatMap _) m = m₁ at hval hkeep hregs
    have hE₁ : Env L F depth saved m₁ := hE.frame (hregs _ (by decide)) (hregs _ (by decide))
      (hregs _ (by decide)) hkeep.memKeeps
    have haddr : L.scratch + BitVec.ofNat 64 (k * 8) = wordAt L.scratch k := by
      rw [Nat.mul_comm]; rfl
    have he : execs [.ldr result (.idx scratchPtr tempPtr),
        .str result (.off scratchPtr (BitVec.ofNat 64 (k * 8))), .addImm tempPtr tempPtr 8] m₁ =
        ((m₁.write result (m₁.mem (L.scratch + m₁.read tempPtr))).store (wordAt L.scratch k)
          (m₁.mem (L.scratch + m₁.read tempPtr))).write tempPtr (m₁.read tempPtr + 8) := by
      simp [hE₁.x20, haddr]
    simp only [he]
    refine ⟨fun _ => ?_, ?_, fun r hr => ?_⟩
    · simp only [pad, Machine.mem_write, Machine.mem_store]
      rcases Nat.eq_zero_or_pos k with rfl | hpos
      · rw [if_pos rfl, ← hm₁]
        rfl
      · rw [if_neg fun h => by
          have hm : maxSlots = 32768 := rfl
          have := (pad_inj (L := L) (by omega) (by omega)).1 h
          omega]
        exact hval hpos
    · have hm : maxSlots = 32768 := rfl
      refine hkeep.next (by omega) fun x hx => ?_
      simp only [Machine.mem_write, Machine.mem_store, if_neg hx]
    · rw [← hregs r hr]
      simp only [List.mem_cons, List.not_mem_nil, or_false, not_or] at hr
      simp [hr]

/-- The word in front of the scratchpad. -/
def before (L : Layout) : Word := L.scratch + byteOffset (-1)

/-- What a kernel of one leaf executes before its result. -/
theorem evaluation_leaf {P : NodePool} (hP : Built P) {root : ℕ} (hroot : root < P.nextIdx)
    (hchild : (P.storage root).children = []) (hleaf : (P.storage root).kind.isLeaf = true)
    {a₀ a : ℕ → Annot} (hs : (a₀ root).skipJit = false) (hslot : (a₀ root).slotId = -1)
    {rt : List Instr → Bool} {code : List Instr}
    (hcomp : compileExpression rt P.storage a₀ root 64 = (a, .ok code)) :
    evaluation a root code = prologue ++ initCarries ∧ (a root).skipJit = false ∧
      (a root).slotId = -1 ∧ (a root).resultKind = .BITPLANE := by
  obtain ⟨nodes, body, hprep, hbody, rfl⟩ := compileExpression_ok hcomp
  have hp := prepare_spec hP hroot hprep
  have hself : root ∈ nodes := (hp.mem_iff root).2 (Reach.refl _ _)
  have hskip : (a root).skipJit = false := by rw [hp.skipJit, hs]
  have hslot' : (a root).slotId = -1 := by rw [hp.leafSlot root hself hleaf, hslot]
  have hkind : (P.storage root).kind.isMask = false ∧ (P.storage root).kind ≠ .SUB := by
    rcases NodeKind.eq_of_isLeaf hleaf with hk | hk <;> rw [hk] <;> decide
  -- the leaf is the only node
  obtain rfl : nodes = [root] := by
    obtain ⟨t, ht⟩ := hp.last
    have hnd : (t ++ [root]).Nodup := ht ▸ hp.post.nodup
    cases t with
    | nil => exact ht
    | cons x t =>
      have hx : x = root := by
        rcases ((hp.mem_iff x).1 (by rw [ht]; simp)).cases_head with h | ⟨c, hc, -⟩
        · exact h.symm
        · rw [hchild] at hc
          exact absurd hc List.not_mem_nil
      exact absurd (show x ∈ t ++ [root] by simp [hx]) (List.nodup_cons.1 hnd).1
  obtain rfl : body = [] := by
    rw [emitNodes, emitNode_leaf hskip hleaf] at hbody
    exact (Except.ok.inj hbody).symm
  refine ⟨?_, hskip, hslot', by rw [hp.resultKind root hself, NodeKind.resultKind, hkind.1]; rfl⟩
  rw [evaluation_kernelBody]
  simp [initNode, hslot', hkind.2]

/-- **The kernel of a bare leaf** delivers the word in front of the scratchpad. -/
theorem leafRoot_call {P : NodePool} (hP : Built P) {root : ℕ} (hroot : root < P.nextIdx)
    (ht : TypedNode P.storage root) (hleaf : (P.storage root).kind.isLeaf = true) {a₀ a : ℕ → Annot}
    (hs : (a₀ root).skipJit = false) (hslot : (a₀ root).slotId = -1)
    (heq : ∀ n, (P.storage n).kind.isComparison = false → (a₀ n).eqSlotId = -1)
    {rt : List Instr → Bool} {code : List Instr}
    (hcomp : compileExpression rt P.storage a₀ root 64 = (a, .ok code)) {L : Layout} {F : ℕ → ℕ → Word}
    {rows : ℕ → Name → Word} (hF : FieldPlanes L F P.storage a root rows) {m m' : Machine}
    (hm : Args L F m) (hframe : ∀ j < 12, before L ≠ wordAt L.frame j)
    (hcall : call code m = some m') : pad L m' 0 = m.mem (before L) := by
  have hchild : (P.storage root).children = [] := by
    unfold TypedNode at ht
    revert ht hleaf
    cases (P.storage root).kind <;> simp [NodeKind.isLeaf]
  have honly : ∀ n, Reach P.storage root n → n = root := fun n hn => by
    rcases hn.cases_head with h | ⟨c, hc, -⟩
    · exact h.symm
    · rw [hchild] at hc
      exact absurd hc List.not_mem_nil
  obtain ⟨heval, hskip, hslot', hrk⟩ := evaluation_leaf hP hroot hchild hleaf hs hslot hcomp
  obtain ⟨V, hV⟩ := exists_flow hP a rows (residue a (pad L m))
  obtain ⟨nodes, c, m₁, hm₁, -, -, hsim, hret⟩ := compile_call hP hroot hcomp heq
    (fun n hn _ => honly n hn ▸ ht.sorted) (fun n hn _ => honly n hn ▸ hs) hF hm hV
  have hmem : m₁.mem (before L) = m.mem (before L) := by
    rw [hm₁, heval, execs_append, (initCarries_exec (prologue_exec hm).1).2, prologue_mem hm hframe]
  have hE₁ := hsim.ready.env.write (n := 22) (by decide) (by decide) (byteOffset (-1))
  obtain ⟨hval, hkeep, hregs⟩ := copyBlock_first hE₁ 64 (Nat.le_refl _)
  generalize hm₂ : execs ((List.range 64).flatMap _) _ = m₂ at hval hkeep hregs
  have hres : execs (emitResult a root) m₁ = m₂.write (.x 0) 0 := by
    simp only [emitResult, hskip, hrk, hslot', Bool.false_eq_true, if_false, if_true]
    rw [execs_append, execs_append, execs_movWide, hm₂]
    rfl
  have hE₂ : Env L F 12 (fun j => m.read (.x (savedReg j))) (execs (emitResult a root) m₁) := by
    rw [hres]
    exact (hE₁.frame (hregs _ (by decide)) (hregs _ (by decide)) (hregs _ (by decide))
      hkeep.memKeeps).write (by decide) (by decide) 0
  obtain rfl := Option.some.inj ((hret hE₂).symm.trans hcall)
  rw [pad, (epilogue_exec hE₂).mem, hres, Machine.mem_write]
  refine (hval (by decide)).trans ?_
  rw [Machine.mem_write, Machine.read_write_x, if_pos rfl]
  exact hmem

/-- A store outside the table and the columns keeps the arguments. -/
theorem Args.store {L : Layout} {F : ℕ → ℕ → Word} {m : Machine} (h : Args L F m) {x : Word} (w : Word)
    (htable : ∀ i < L.numFields, x ≠ wordAt L.table i)
    (hplane : ∀ i < L.numFields, ∀ b < 64, x ≠ wordAt (L.plane i) b) : Args L F (m.store x w) where
  x0 := h.x0
  x1 := h.x1
  sp := h.sp
  table i hi := by rw [Machine.mem_store, if_neg fun he => htable i hi he.symm, h.table i hi]
  planes i hi b hb := by
    rw [Machine.mem_store, if_neg fun he => hplane i hi b hb he.symm, h.planes i hi b hb]

/-- A call with `w` in front of the scratchpad. -/
def enterBefore (w : Word) : Machine :=
  (Abi.standard.enter (fun i => some (constColumns 0 i)) fun _ => 0).store (before Layout.standard) w

/-- The word before the scratchpad. -/
theorem before_standard_toNat : (before Layout.standard).toNat = 0xFFFFF8 := by decide

/-- It is none of the others. -/
theorem before_ne {x i : ℕ} (hx : x + 8 * i < 0xFFFFF8) :
    before Layout.standard ≠ wordAt (BitVec.ofNat 64 x) i := fun h => by
  have := congrArg BitVec.toNat h
  rw [before_standard_toNat, wordAt_toNat (by omega)] at this
  omega

/-- A call that finds a value there. -/
theorem args_enterBefore (w : Word) : Args Layout.standard (constColumns 0) (enterBefore w) := by
  refine (Abi.standard.args_some (constColumns 0) fun _ => 0).store w (fun i hi => ?_)
    fun i hi b hb => ?_
  · have hi' : i < 128 := hi
    exact before_ne (x := 0x100000) (by omega)
  · have hi' : i < 128 := hi
    exact before_ne (x := 0x200000 + 512 * i) (by omega)

end Leaf

section Iff

variable {count : (ℕ → Bool) → ℕ → Word} {P : NodePool} (hP : Built P) {root : ℕ}
  (hroot : root < P.nextIdx) (htyped : WellTyped P.storage root) {a₀ : ℕ → Annot}
  (hmark : Marked P.storage a₀ root)

include hP

/-- Where all is covered, the flow of the kernel has the meanings. -/
theorem Covered.flow (hcov : Covered P.storage a₀ root) {a : ℕ → Annot}
    (ha : ∀ n, (a n).skipJit = (a₀ n).skipJit) {rows : ℕ → Name → Word} {residue V : ℕ → ℕ → Word}
    (hV : Flow P.storage a rows residue V) {n : ℕ} (hn : KernelNode P.storage a₀ root n) (r : ℕ) :
    V r n = meaning count P.storage rows r n := by
  induction n using Nat.strongRecOn with
  | ind n ih =>
    cases hleaf : (P.storage n).kind.isLeaf with
    | true =>
      rw [meaning_eq hP]
      rcases NodeKind.eq_of_isLeaf hleaf with hk | hk
      · rw [(hV r).load hk, nodeMeaning]
        simp only [hk]
      · rw [(hV r).const hk, nodeMeaning]
        simp only [hk]
    | false =>
      obtain ⟨hc, hsub⟩ := hcov.coded n hn hleaf
      obtain ⟨hem, hs⟩ : emitted (P.storage n).kind = true ∧ (a₀ n).skipJit = false := by
        simpa [Jit.coded] using hc
      -- what a node with code reads is a node of the kernel
      have hchild : ∀ c ∈ (P.storage n).children, V r c = meaning count P.storage rows r c :=
        fun c hc => ih c (hP.ordered.2 n c hc).1 ⟨hn.1.child hc, Or.inr ⟨n, hn.1, hs, hc⟩⟩
      rw [(hV r).coded hem (by rw [ha, hs]), meaning_eq hP,
        nodeMeaning_emitted hem hsub (subLane r),
        elim_congr fun c hc => hchild c (cond_mem_children hc),
        elim_congr fun c hc => hchild c (left_mem_children hc),
        elim_congr fun c hc => hchild c (right_mem_children hc)]

include hroot

/-- A root that fits and is not miscompiled has a kernel. -/
theorem Faithful.code (hfits : Fits P.storage root) (h : Faithful count P.storage a₀ root) :
    ∃ a nodes body code, prepare P.storage a₀ root = (a, .ok nodes) ∧
      emitNodes P.storage a 64 nodes .init = .ok body ∧
      compileExpression (fun _ => true) P.storage a₀ root 64 = (a, .ok code) := by
  obtain ⟨a, nodes, hprep⟩ := (prepare_isOk_iff hP a₀ hroot).2 hfits
  obtain ⟨hok, -⟩ := h fun _ => true
  simp only [compileExpression, hprep] at hok ⊢
  cases hbody : emitNodes P.storage a 64 nodes .init with
  | ok body => exact ⟨a, nodes, body, _, rfl, hbody, rfl⟩
  | error f =>
    rw [hbody, emitNodes_error hbody] at hok
    exact absurd rfl hok

include htyped hmark

/-- **A covered root is not miscompiled.** -/
theorem Covered.faithful (hcov : Covered P.storage a₀ root) : Faithful count P.storage a₀ root := by
  have hsorted : ∀ n, Reach P.storage root n → (a₀ n).skipJit = false → Sorted P.storage n :=
    fun n hn _ => (htyped n hn).sorted
  intro rt
  refine ⟨compile_ne_undefined hP rt hroot hsorted (fun ns hnd hns => hcov.six ns hnd fun n hn => ?_) 64,
    fun a code hcomp L F rows m hF hm => ?_⟩
  · obtain ⟨hr, hadd, hself⟩ := hns n hn
    have hs : (a₀ n).skipJit = false := by
      by_cases he : n = root
      · exact hself he
      · exact hmark.addSub n hr hadd he
    have hsub := (hcov.coded n ⟨hr, Or.inl hs⟩ (not_isLeaf_of_isAddSub hadd)).2
    simp only [isAddSub, Bool.or_eq_true, decide_eq_true_eq] at hadd
    exact ⟨hr, hadd.resolve_right hsub, hself⟩
  · obtain ⟨V, hV⟩ := exists_flow hP a rows (residue a (pad L m))
    obtain ⟨nodes, c, m₁, rfl, hp, H, hsim, hcall⟩ :=
      compile_call hP hroot hcomp hmark.eqSlotId hsorted hmark.masks hF hm hV
    have hval : ∀ n, KernelNode P.storage a₀ root n → ∀ r, V r n = meaning count P.storage rows r n :=
      fun n hn r => hcov.flow hP hp.skipJit hV hn r
    have hholds : ∀ n, KernelNode P.storage a₀ root n → Holds L F P.storage a
        (meaning count P.storage rows) (execs (evaluation a root code) m) n := fun n hn => by
      have h := hsim.holds n ((hp.mem_iff n).2 hn.1)
      exact ⟨fun hk => (h.planes hk).lanes fun r _ => (hval n hn r).symm,
        fun hk => (h.mask hk).congr fun r _ => by rw [hval n hn r]⟩
    cases hs : (a₀ root).skipJit with
    | true =>
      obtain ⟨m', hcall', -⟩ := compile_skipped hP hroot hcomp hmark.eqSlotId hsorted hmark.masks hF hm
        hV hs
      exact ⟨m', hcall', hholds, fun h => absurd (hs.symm.trans h) (by decide),
        fun h => absurd (hs.symm.trans h) (by decide)⟩
    | false =>
      have hself : KernelNode P.storage a₀ root root := ⟨Reach.refl _ _, Or.inl hs⟩
      obtain ⟨m', hcall', hbool, hnum, -⟩ := compile_root hP hroot hcomp hmark.eqSlotId hsorted hmark.masks
        hF hm hV (hcov.compound hs) hs
      exact ⟨m', hcall', hholds, fun _ hk => (hbool hk).congr fun r _ => by rw [hval root hself r],
        fun _ hk => (hnum hk).lanes fun r _ => (hval root hself r).symm⟩

/-- On rows of zeros and any scratchpad, the flow of a kernel that is not miscompiled
has the meanings. -/
theorem Faithful.lanes (h : Faithful count P.storage a₀ root) {a : ℕ → Annot} {code : List Instr}
    (hcomp : compileExpression (fun _ => true) P.storage a₀ root 64 = (a, .ok code)) (p : ℕ → Word) :
    ∃ V, Flow P.storage a (fun _ _ => 0) (residue a (pad Layout.standard
        (Abi.standard.enter (fun i => some (constColumns 0 i)) p))) V ∧
      ∀ n, KernelNode P.storage a₀ root n → (P.storage n).kind.isMask = false → ∀ r < 64,
        V r n = meaning count P.storage (fun _ _ => 0) r n := by
  have hF : FieldPlanes Layout.standard (constColumns 0) P.storage a root fun _ _ => 0 :=
    fun n hn hk => ⟨compile_fieldIdx_lt hP hroot hcomp hn hk, planes_constColumns 0 _⟩
  have hm := Abi.standard.args_some (constColumns 0) p
  obtain ⟨V, hV⟩ := exists_flow hP a (fun _ _ => 0) (residue a (pad Layout.standard
    (Abi.standard.enter (fun i => some (constColumns 0 i)) p)))
  obtain ⟨nodes, c, m₁, rfl, hp, -, hsim, -⟩ := compile_call hP hroot hcomp hmark.eqSlotId
    (fun n hn _ => (htyped n hn).sorted) hmark.masks hF hm hV
  obtain ⟨m', -, hrun⟩ := (h fun _ => true).2 a code hcomp _ _ _ _ hF hm
  exact ⟨V, hV, fun n hn hk r hr => ((hsim.holds n ((hp.mem_iff n).2 hn.1)).planes hk).lane_unique
    ((hrun.holds n hn).planes hk) hr⟩

/-- **A root that is not miscompiled is covered, or does not fit.** -/
theorem Faithful.covered (hfits : Fits P.storage root) (h : Faithful count P.storage a₀ root) :
    Covered P.storage a₀ root := by
  obtain ⟨a, nodes, body, code, hprep, hbody, hcomp⟩ := h.code hP hroot hfits
  have hp := prepare_spec hP hroot hprep
  have hlanes := h.lanes hP hroot htyped hmark hcomp
  refine ⟨fun hs => ?_, fun n hn hleaf => ?_, fun ns hnd hns => ?_⟩
  · by_contra hleaf
    rw [Bool.not_eq_false] at hleaf
    have hmask := NodeKind.not_isMask_of_isLeaf hleaf
    have hF : FieldPlanes Layout.standard (constColumns 0) P.storage a root fun _ _ => 0 :=
      fun n hn hk => ⟨compile_fieldIdx_lt hP hroot hcomp hn hk, planes_constColumns 0 _⟩
    -- the kernel delivers the word in front of the scratchpad, whatever it is
    have hbit : ∀ w : Word, (meaning count P.storage (fun _ _ => 0) 0 root).getLsbD 0 = w.getLsbD 0 := by
      intro w
      obtain ⟨m', hcall, hrun⟩ := (h fun _ => true).2 a code hcomp _ _ _ _ hF (args_enterBefore w)
      have hw := leafRoot_call hP hroot (htyped root (Reach.refl _ _)) hleaf hs hmark.slotId
        hmark.eqSlotId hcomp hF (args_enterBefore w) (fun j hj => before_ne (by omega)) hcall
      rw [← hrun.planes hs hmask 0 (by decide) 0 (by decide), hw, enterBefore, Machine.mem_store,
        if_pos rfl]
    exact absurd ((hbit 0).symm.trans (hbit 1)) (by decide)
  · have hcoded : coded P.storage a₀ n = true := by
      by_contra hc
      rw [Bool.not_eq_true] at hc
      have hmask : (P.storage n).kind.isMask = false := by
        by_contra hk
        rw [Bool.not_eq_false] at hk
        rw [coded, hmark.masks n hn.1 hk, emitted, hk] at hc
        simp at hc
      have hca : coded P.storage a n = false := by rw [coded, hp.skipJit]; exact hc
      have hblock := (hp.block ((hp.mem_iff n).2 hn.1) hleaf hmask).2
      -- the lowest bit of its meaning would be that of any word left in its block
      have hbit : ∀ w : Word, (meaning count P.storage (fun _ _ => 0) 0 n).getLsbD 0 = w.getLsbD 0 := by
        intro w
        obtain ⟨V, hV, hval⟩ := hlanes fun _ => w
        rw [← hval n hn hmask 0 (by decide), (hV 0).left_over hleaf hca, residue,
          ← planes_laneOf (w := 64) _ 0 (by decide) 0 (by decide)]
        exact congrArg (BitVec.getLsbD · 0) (Abi.standard.scratch _ _ _ (by omega))
      exact absurd ((hbit 0).symm.trans (hbit 1)) (by decide)
    refine ⟨hcoded, fun hsub => ?_⟩
    obtain ⟨hem, hs⟩ : emitted (P.storage n).kind = true ∧ (a₀ n).skipJit = false := by
      simpa [coded] using hcoded
    have ht := htyped n hn.1
    rw [TypedNode, hsub] at ht
    obtain ⟨l, r, hb, hl, hr⟩ := ht
    have hchild : ∀ c ∈ (P.storage n).children, KernelNode P.storage a₀ root c :=
      fun c hc => ⟨hn.1.child hc, Or.inr ⟨n, hn.1, hs, hc⟩⟩
    obtain ⟨V, hV, hval⟩ := hlanes fun _ => 0
    have hn1 := hval n hn (by rw [hsub]; rfl) 1 (by decide)
    rw [(hV 1).coded hem (by rw [hp.skipJit, hs]), meaning_eq hP, nodeMeaning] at hn1
    simp only [hsub, hb.left, hb.right, Option.elim_some, opValue,
      hval l (hchild l (left_mem_children hb.left)) hl 1 (by decide),
      hval r (hchild r (right_mem_children hb.right)) hr 1 (by decide)] at hn1
    exact subLane_ne _ _ hn1
  · by_contra hlen
    have hcoded : ∀ n ∈ ns, Reach P.storage root n ∧ isAddSub (P.storage n).kind = true ∧
        (!(a₀ n).skipJit) = true := by
      intro n hn
      obtain ⟨hr, hk, hself⟩ := hns n hn
      have hadd : isAddSub (P.storage n).kind = true := by rw [hk]; rfl
      have hs : (a₀ n).skipJit = false := by
        by_cases he : n = root
        · exact hself he
        · exact hmark.addSub n hr hadd he
      exact ⟨hr, hadd, by rw [hs]; rfl⟩
    obtain ⟨n, hn, hadd, hs, hreg⟩ := hp.exists_no_carry (fun n => !(a₀ n).skipJit) hnd hcoded (by omega)
    rw [Bool.not_eq_true'] at hs
    rw [hmark.carryReg n hn] at hreg
    obtain ⟨c, rc, hrc⟩ := emitNodes_mem hbody n ((hp.mem_iff n).2 hn)
    have hreg' := (emitNode_carry (by rw [hp.skipJit, hs]) hadd hrc).1
    omega

/-- **What is not miscompiled silently**: the roots that do not fit, which give a null
pointer, and those that are covered. -/
theorem faithful_iff : Faithful count P.storage a₀ root ↔
    ¬Fits P.storage root ∨ Covered P.storage a₀ root := by
  constructor
  · intro h
    by_cases hfits : Fits P.storage root
    · exact Or.inr (h.covered hP hroot htyped hmark hfits)
    · exact Or.inl hfits
  · rintro (hfits | hcov)
    · intro rt
      have hnot : ∀ a nodes, prepare P.storage a₀ root ≠ (a, .ok nodes) := fun a nodes hprep =>
        hfits ((prepare_isOk_iff hP a₀ hroot).1 ⟨a, nodes, hprep⟩)
      unfold compileExpression
      cases hprep : prepare P.storage a₀ root with
      | mk a res =>
        cases res with
        | ok nodes => exact absurd hprep (hnot a nodes)
        | error f => simp [prepare_error hprep]
    · exact hcov.faithful hP hroot htyped hmark

end Iff

end Jit
end AarchGate
