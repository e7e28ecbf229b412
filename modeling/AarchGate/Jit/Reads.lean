/-
# What a compilation reads

`compile_expression` and `compile_scalar_expression` in `src/jit/compiler.cpp` read
the metadata of the nodes, of which the passes before the emission have written a part
(`Jit.Patch`).  `SameMeta` and `SameReads` say that two versions of the metadata agree
on all that is read.  Then the code is the same (`compileExpression_congr`,
`compileScalarExpression_congr`).

Three fields are read without being written first: `skip_jit`, the slot of a leaf that
is used as a mask or is the root, and in the scalar compiler the slot of any leaf.  The
carry register of the seventh addition on is read too; in a new node it is `-1`, and
the compilation is undefined.
-/

import AarchGate.Jit.Flow
import AarchGate.Jit.Patch

namespace AarchGate
namespace Jit

open A64 Ir

/-- Node `p` reads the slot of its operand `n`, whatever its kind: as a mask. -/
def ReadsMask (g : ℕ → Node) (p n : ℕ) : Prop :=
  ((g p).kind = .AND ∨ (g p).kind = .OR ∨ (g p).kind = .NOT) ∧
      ((g p).left = some n ∨ (g p).right = some n) ∨
    (g p).kind = .SELECT ∧ (g p).cond = some n

/-- The metadata agree on the nodes of `S`: the kinds of the results, the slots, where `R`
are the leaves whose slot counts, and the fields. -/
structure SameMeta (g : ℕ → Node) (R S : ℕ → Prop) (a a' : ℕ → Annot) : Prop where
  kind : ∀ n, S n → (a n).resultKind = (g n).kind.resultKind
  resultKind : ∀ n, S n → (a n).resultKind = (a' n).resultKind
  slotId : ∀ n, S n → (g n).kind.isLeaf = false ∨ R n → (a n).slotId = (a' n).slotId
  fieldIdx : ∀ n, S n → (g n).kind = .LOAD → (a n).fieldIdx = (a' n).fieldIdx

/-- The metadata agree on what the bit-sliced emission reads. -/
structure SameReads (g : ℕ → Node) (R S : ℕ → Prop) (a a' : ℕ → Annot) : Prop
    extends SameMeta g R S a a' where
  skipJit : ∀ n, S n → emitted (g n).kind = true → (a n).skipJit = (a' n).skipJit
  eqSlotId : ∀ n, S n → (a n).eqSlotId = (a' n).eqSlotId
  carryReg : ∀ n, S n → isAddSub (g n).kind = true → (g n).kind = .SUB ∨ (a' n).skipJit = false →
    (a n).carryReg = (a' n).carryReg

/-- A pointer that is read is the same in both. -/
theorem deref_congr {α : Type} {o : Option ℕ} {f f' : ℕ → Except Fault α}
    (h : ∀ n, o = some n → f n = f' n) : (deref o >>= f) = (deref o >>= f') := by
  cases o with
  | none => rfl
  | some n => exact h n rfl

section Emission

variable {g : ℕ → Node} {R S : ℕ → Prop} {a a' : ℕ → Annot}

/-- `hoist` reads no more. -/
theorem hoist_congr (h : SameMeta g R S a a') (r : Gp) {op : ℕ} (hop : S op) :
    hoist g a r op = hoist g a' r op := by
  unfold hoist
  cases hk : (g op).kind
  case LOAD => simp only [h.fieldIdx op hop hk]
  case CONST => rfl
  all_goals simp only [h.slotId op hop (Or.inl (by rw [hk]; rfl))]

/-- Nor does `emitLoadOp`. -/
theorem emitLoadOp_congr (h : SameMeta g R S a a') {op : ℕ} (hop : S op) (r : Gp) :
    emitLoadOp g a op r = emitLoadOp g a' op r := by
  unfold emitLoadOp
  cases hk : (g op).kind
  case LOAD => simp only [h.fieldIdx op hop hk]
  case CONST => rfl
  all_goals simp only [h.slotId op hop (Or.inl (by rw [hk]; rfl))]

/-- Nor `emitAddSub`. -/
theorem emitAddSub_congr (h : SameMeta g R S a a') {n l r : ℕ} (hn : (a n).slotId = (a' n).slotId)
    (hl : S l) (hr : S r) (bits : ℕ) (carry : Gp) :
    emitAddSub g a bits carry n l r = emitAddSub g a' bits carry n l r := by
  rw [emitAddSub, emitAddSub, hoist_congr h _ hl, hoist_congr h _ hr, hn]

/-- Nor `emitCompare`. -/
theorem emitCompare_congr (h : SameReads g R S a a') {n l r : ℕ} (hn : S n)
    (hk : (g n).kind.isLeaf = false) (hl : S l) (hr : S r) (bits : ℕ) (c : ScratchpadCache) :
    emitCompare g a bits n l r c = emitCompare g a' bits n l r c := by
  simp only [emitCompare, hoist_congr h.toSameMeta _ hl, hoist_congr h.toSameMeta _ hr,
    h.slotId n hn (Or.inl hk), h.eqSlotId n hn]

/-- Nor `emitLogic`. -/
theorem emitLogic_congr {n l : ℕ} {r : Option ℕ} (hn : (a n).slotId = (a' n).slotId)
    (hl : (a l).slotId = (a' l).slotId) (hr : ∀ r', r = some r' → (a r').slotId = (a' r').slotId)
    (c : ScratchpadCache) : emitLogic g a n l r c = emitLogic g a' n l r c := by
  cases r with
  | none => simp only [emitLogic, hn, hl]
  | some r => simp only [emitLogic, hn, hl, hr r rfl]

/-- Nor `emitSelect`. -/
theorem emitSelect_congr (h : SameMeta g R S a a') {n i l r : ℕ} (hn : (a n).slotId = (a' n).slotId)
    (hi : (a i).slotId = (a' i).slotId) (hl : S l) (hr : S r) (bits : ℕ) (c : ScratchpadCache) :
    emitSelect g a bits n i l r c = emitSelect g a' bits n i l r c := by
  have hbit : selectBit g a n l r = selectBit g a' n l r := by
    funext bit
    simp only [selectBit, emitLoadOp_congr h hl, emitLoadOp_congr h hr, hn]
  rw [emitSelect, emitSelect, hi, hbit]

variable (h : SameReads g R S a a') {n : ℕ} (hn : S n)

include h hn

/-- Nor the initialisation. -/
theorem initNode_congr : initNode g a n = initNode g a' n := by
  unfold initNode
  rw [h.eqSlotId n hn, ← h.resultKind n hn]
  congr 1
  · by_cases hk : (g n).kind = .SUB
    · rw [h.carryReg n hn (by rw [hk]; rfl) (Or.inl hk)]
    · simp only [hk, and_false, if_false]
  · -- only the slots of masks are initialised, and a leaf is none
    by_cases hk : (a n).resultKind = .BITMASK
    · have hleaf : (g n).kind.isLeaf = false := by
        rw [h.kind n hn] at hk
        revert hk; cases (g n).kind <;> simp [NodeKind.resultKind, NodeKind.isMask, NodeKind.isLeaf]
      rw [h.slotId n hn (Or.inl hleaf)]
    · simp only [hk, and_false, if_false]

/-- **The code of a node depends on what is read.** -/
theorem emitNode_congr (hchild : ∀ c ∈ (g n).children, S c) (hmask : ∀ c, ReadsMask g n c → R c)
    (bits : ℕ) (c : ScratchpadCache) : emitNode g a bits n c = emitNode g a' bits n c := by
  by_cases hem : emitted (g n).kind = true
  swap
  · have hnil : ∀ b : ℕ → Annot, emitNode g b bits n c = .ok ([], c) := fun b => by
      unfold emitNode
      revert hem
      cases (g n).kind <;> simp [emitted, isAddSub, NodeKind.isMask]
    rw [hnil, hnil]
  have hleaf : (g n).kind.isLeaf = false := by
    revert hem; cases (g n).kind <;> simp [emitted, isAddSub, NodeKind.isMask, NodeKind.isLeaf]
  have hslot := h.slotId n hn (Or.inl hleaf)
  have hS : ∀ {x}, (g n).left = some x ∨ (g n).right = some x ∨ (g n).cond = some x → S x := by
    rintro x (hx | hx | hx)
    · exact hchild x (left_mem_children hx)
    · exact hchild x (right_mem_children hx)
    · exact hchild x (cond_mem_children hx)
  have hread : ∀ {x}, (g n).left = some x ∨ (g n).right = some x ∨ (g n).cond = some x →
      ReadsMask g n x → (a x).slotId = (a' x).slotId :=
    fun hx hr => h.slotId _ (hS hx) (Or.inr (hmask _ hr))
  cases hs : (a' n).skipJit with
  | true => rw [emitNode_skip hs, emitNode_skip ((h.skipJit n hn hem).trans hs)]
  | false =>
    have hs' : (a n).skipJit = false := (h.skipJit n hn hem).trans hs
    unfold emitNode
    rw [hs, hs', if_neg Bool.false_ne_true, if_neg Bool.false_ne_true]
    cases hk : (g n).kind
    case ADD | SUB =>
      refine deref_congr fun l hl => deref_congr fun r hr => ?_
      rw [h.carryReg n hn (by rw [hk]; rfl) (Or.inr hs),
        emitAddSub_congr h.toSameMeta hslot (hS (Or.inl hl)) (hS (Or.inr (Or.inl hr)))]
    case GT | LT | GE | LE | EQ =>
      refine deref_congr fun l hl => deref_congr fun r hr => ?_
      rw [emitCompare_congr h hn hleaf (hS (Or.inl hl)) (hS (Or.inr (Or.inl hr)))]
    case AND | OR | NOT =>
      have hlogic : (g n).kind = .AND ∨ (g n).kind = .OR ∨ (g n).kind = .NOT := by rw [hk]; decide
      refine deref_congr fun l hl => ?_
      rw [emitLogic_congr hslot (hread (Or.inl hl) (Or.inl ⟨hlogic, Or.inl hl⟩))
        fun r hr => hread (Or.inr (Or.inl hr)) (Or.inl ⟨hlogic, Or.inr hr⟩)]
    case SELECT =>
      refine deref_congr fun i hi => deref_congr fun l hl => deref_congr fun r hr => ?_
      rw [emitSelect_congr h.toSameMeta hslot (hread (Or.inr (Or.inr hi)) (Or.inr ⟨hk, hi⟩))
        (hS (Or.inl hl)) (hS (Or.inr (Or.inl hr)))]
    all_goals rfl

omit hn in
/-- So the code of all nodes is the same. -/
theorem emitNodes_congr (ns : List ℕ) (hns : ∀ n ∈ ns, S n ∧ (∀ c ∈ (g n).children, S c) ∧
      ∀ c, ReadsMask g n c → R c) (bits : ℕ) :
    ∀ c, emitNodes g a bits ns c = emitNodes g a' bits ns c := by
  induction ns with
  | nil => exact fun _ => rfl
  | cons n ns ih =>
    intro c
    obtain ⟨hn, hchild, hmask⟩ := hns n (List.mem_cons_self ..)
    rw [emitNodes, emitNodes, emitNode_congr h hn hchild hmask]
    congr 1
    funext r
    rw [ih fun n hn => hns n (List.mem_cons_of_mem _ hn)]

/-- The end of the kernel, for a root whose slot counts. -/
theorem emitResult_congr (hskip : (a n).skipJit = (a' n).skipJit) (hR : R n) :
    emitResult a n = emitResult a' n := by
  rw [emitResult, emitResult, hskip, h.resultKind n hn, h.slotId n hn (Or.inr hR)]

end Emission

section Scalar

variable {g : ℕ → Node} {S : ℕ → Prop} {a a' : ℕ → Annot} (h : SameMeta g (fun _ => True) S a a')

include h

/-- `getOperand` reads no more. -/
theorem getOperand_congr {o : Option ℕ} (ho : ∀ n, o = some n → S n) (out : Gp) :
    getOperand g a o out = getOperand g a' o out := by
  cases o with
  | none => rfl
  | some n =>
    have hn := ho n rfl
    unfold getOperand
    cases hk : (g n).kind
    case LOAD => simp only [hk, h.fieldIdx n hn hk]
    case CONST => simp only [hk]
    all_goals simp only [hk, h.slotId n hn (Or.inr trivial)]

/-- The scalar code of a node depends on what is read. -/
theorem scalarNode_congr {n : ℕ} (hn : S n) (hchild : ∀ c ∈ (g n).children, S c) :
    scalarNode g a n = scalarNode g a' n := by
  have hop : scalarOp g a n = scalarOp g a' n := by
    unfold scalarOp
    cases (g n).kind
    case SELECT =>
      refine deref_congr fun i hi => ?_
      rw [h.slotId i (hchild i (cond_mem_children hi)) (Or.inr trivial)]
    all_goals rfl
  rw [scalarNode, scalarNode, hop, h.slotId n hn (Or.inr trivial),
    getOperand_congr h fun x hx => hchild x (left_mem_children hx),
    getOperand_congr h fun x hx => hchild x (right_mem_children hx)]

/-- So the scalar code is the same. -/
theorem scalarNodes_congr (ns : List ℕ) (hns : ∀ n ∈ ns, S n ∧ ∀ c ∈ (g n).children, S c) :
    scalarNodes g a ns = scalarNodes g a' ns := by
  induction ns with
  | nil => rfl
  | cons n ns ih =>
    obtain ⟨hn, hchild⟩ := hns n (List.mem_cons_self ..)
    rw [scalarNodes, scalarNodes, scalarNode_congr h hn hchild,
      ih fun n hn => hns n (List.mem_cons_of_mem _ hn)]

end Scalar

/-! ### The compilations -/

/-- The leaves whose slot the bit-sliced compiler reads. -/
def SlotRead (g : ℕ → Node) (root n : ℕ) : Prop := n = root ∨ ∃ p, Reach g root p ∧ ReadsMask g p n

section Compile

variable {P : NodePool} (hP : Built P) {root : ℕ} (hroot : root < P.nextIdx) {w : ℕ → Patch}
  {R : ℕ → Prop} {a a' : ℕ → Annot}

/-- Metadata that agree on the fields a compilation does not write agree after it. -/
theorem sameMeta_patch (hcomplete : ∀ n, Reach P.storage root n → (w n).Complete (P.storage n).kind)
    (hslot : ∀ n, Reach P.storage root n → (P.storage n).kind.isLeaf = true → R n →
      (a n).slotId = (a' n).slotId) :
    SameMeta P.storage R (Reach P.storage root) (patch w a) (patch w a') where
  kind n hn := by rw [patch, Patch.apply, (hcomplete n hn).resultKind]; rfl
  resultKind n hn := by rw [patch, patch, Patch.apply, Patch.apply, (hcomplete n hn).resultKind]; rfl
  slotId n hn h := by
    rw [patch, patch, Patch.apply, Patch.apply]
    cases hk : (P.storage n).kind.isLeaf with
    | false =>
      obtain ⟨v, hv⟩ := Option.isSome_iff_exists.1 ((hcomplete n hn).slotId hk)
      rw [hv]
      rfl
    | true => rw [hslot n hn hk (h.resolve_left (by rw [hk]; decide))]
  fieldIdx n hn hk := by
    obtain ⟨v, hv⟩ := Option.isSome_iff_exists.1 ((hcomplete n hn).fieldIdx hk)
    rw [patch, patch, Patch.apply, Patch.apply, hv]
    rfl

include hP hroot

/-- **The bit-sliced compiler on metadata that agree on what it reads**: where `a'` are
those of new nodes and the compilation of these is defined, the kernel is the same, and
so are the metadata that are read after it. -/
theorem compileExpression_congr {rt : List Instr → Bool}
    (hskip : ∀ n, Reach P.storage root n → emitted (P.storage n).kind = true ∨ n = root →
      (a n).skipJit = (a' n).skipJit)
    (hslot : ∀ n, Reach P.storage root n → (P.storage n).kind.isLeaf = true → R n →
      (a n).slotId = (a' n).slotId)
    (hR : ∀ n, SlotRead P.storage root n → R n)
    (heq : ∀ n, (P.storage n).kind.isComparison = false → (a n).eqSlotId = (a' n).eqSlotId)
    (hnew : ∀ n, Reach P.storage root n → (a' n).carryReg = -1)
    (hsub : ∀ n, Reach P.storage root n → (P.storage n).kind = .SUB → (a' n).skipJit = false)
    (hdef : (compileExpression rt P.storage a' root 64).2 ≠ .error .undefined) :
    ∃ b b' res, compileExpression rt P.storage a root 64 = (b, res) ∧
      compileExpression rt P.storage a' root 64 = (b', res) ∧
      (∀ n, (b n).skipJit = (a n).skipJit ∧ (b' n).skipJit = (a' n).skipJit) ∧
      ∀ code, res = .ok code → SameMeta P.storage R (Reach P.storage root) b b' := by
  obtain ⟨w, res, hprep, -, hok⟩ := prepare_patch P.storage root
  have hmem := mem_postOrder hP hroot
  simp only [compileExpression, hprep] at hdef ⊢
  cases res with
  | error f => exact ⟨patch w a, patch w a', _, rfl, rfl, fun _ => ⟨rfl, rfl⟩, fun code h => by cases h⟩
  | ok nodes =>
    obtain ⟨rfl, hnodes⟩ := hok nodes rfl
    have hmeta : SameMeta P.storage R (Reach P.storage root) (patch w a) (patch w a') :=
      sameMeta_patch (fun n hn => (hnodes n ((hmem n).2 hn)).1) hslot
    -- a carry register that is read has been written, or new nodes are undefined
    have hcarry : ∀ n, Reach P.storage root n → isAddSub (P.storage n).kind = true →
        (a' n).skipJit = false → (w n).carryReg.isSome = true := by
      intro n hn hk hs
      by_contra hnone
      rw [Bool.not_eq_true, Option.isSome_eq_false_iff, Option.isNone_iff_eq_none] at hnone
      cases hbody : emitNodes P.storage (patch w a') 64 (postOrder P.storage root) .init with
      | error f =>
        obtain rfl := emitNodes_error hbody
        simp [hbody, bind, Except.bind] at hdef
      | ok body =>
        obtain ⟨c, rc, hrc⟩ := emitNodes_mem hbody n ((hmem n).2 hn)
        have hreg := (emitNode_carry (a := patch w a') hs hk hrc).1
        rw [patch, Patch.apply, hnone, Option.getD_none, hnew n hn] at hreg
        exact absurd hreg (by decide)
    have hreads : SameReads P.storage R (Reach P.storage root) (patch w a) (patch w a') :=
      { hmeta with
        skipJit := fun n hn hem => hskip n hn (Or.inl hem)
        eqSlotId := fun n hn => by
          rw [patch, patch, Patch.apply, Patch.apply]
          cases hk : (P.storage n).kind.isComparison with
          | false => rw [heq n hk]
          | true =>
            obtain ⟨v, hv⟩ := Option.isSome_iff_exists.1 ((hnodes n ((hmem n).2 hn)).2.eqSlotId hk)
            rw [hv]
            rfl
        carryReg := fun n hn hk h => by
          have hs : (a' n).skipJit = false := h.elim (hsub n hn) id
          obtain ⟨v, hv⟩ := Option.isSome_iff_exists.1 (hcarry n hn hk hs)
          rw [patch, patch, Patch.apply, Patch.apply, hv]
          rfl }
    have hbody := emitNodes_congr hreads (postOrder P.storage root) (fun n hn =>
      ⟨(hmem n).1 hn, fun c hc => ((hmem n).1 hn).child hc,
        fun c hc => hR c (Or.inr ⟨n, (hmem n).1 hn, hc⟩)⟩) 64 .init
    have hinit : (postOrder P.storage root).flatMap (initNode P.storage (patch w a)) =
        (postOrder P.storage root).flatMap (initNode P.storage (patch w a')) :=
      List.flatMap_congr fun n hn => initNode_congr hreads ((hmem n).1 hn)
    have hend : emitResult (patch w a) root = emitResult (patch w a') root :=
      emitResult_congr hreads (Reach.refl _ _) (hskip root (Reach.refl _ _) (Or.inr rfl))
        (hR root (Or.inl rfl))
    refine ⟨patch w a, patch w a', _, rfl, ?_, fun _ => ⟨rfl, rfl⟩, fun _ _ => hmeta⟩
    simp only [kernelBody, hbody, hinit, hend]
    rfl

/-- **The scalar compiler on metadata that agree on the slots of the leaves.** -/
theorem compileScalarExpression_congr (rt : List Instr → Bool)
    (hslot : ∀ n, Reach P.storage root n → (P.storage n).kind.isLeaf = true →
      (a n).slotId = (a' n).slotId) :
    ∃ b b' res, compileScalarExpression rt P.storage a root = (b, res) ∧
      compileScalarExpression rt P.storage a' root = (b', res) ∧
        SameMeta P.storage (fun _ => True) (Reach P.storage root) b b' := by
  obtain ⟨w, hprep, -, hnodes⟩ := prepareScalar_patch P.storage root
  have hmem := mem_postOrder hP hroot
  have hmeta : SameMeta P.storage (fun _ => True) (Reach P.storage root) (patch w a) (patch w a') :=
    sameMeta_patch (fun n hn => hnodes n ((hmem n).2 hn)) fun n hn hk _ => hslot n hn hk
  have hcode := scalarNodes_congr hmeta (postOrder P.storage root)
    fun n hn => ⟨(hmem n).1 hn, fun c hc => ((hmem n).1 hn).child hc⟩
  simp only [compileScalarExpression, hprep, hcode]
  exact ⟨_, _, _, rfl, rfl, hmeta⟩

end Compile

end Jit
end AarchGate
