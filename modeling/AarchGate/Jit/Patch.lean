/-
# The passes as patches

The passes of `compile_expression` and `compile_scalar_expression` in
`src/jit/compiler.cpp` write metadata to the nodes of an expression, and nodes keep
them from one compilation to the next.  What a pass writes does not depend on what it
finds: it is a `Patch` of each node, the same for all metadata (`prepare_patch`,
`prepareScalar_patch`).

A compilation does not write everything.  The slot of a leaf and the equality slot of
a node that is no comparison are never written (`Patch.Legal`), and neither is
`skip_jit`.  The fields that are written are `Patch.Complete`.
-/

import AarchGate.Jit.Scalar

namespace AarchGate
namespace Jit

open Ir

/-- What a pass writes to a node: the new values of the fields it writes. -/
@[ext] structure Patch where
  resultKind : Option ResultKind := none
  slotId : Option ℤ := none
  eqSlotId : Option ℤ := none
  fieldIdx : Option ℤ := none
  carryReg : Option ℤ := none

namespace Patch

/-- The metadata after a patch. -/
def apply (p : Patch) (x : Annot) : Annot where
  resultKind := p.resultKind.getD x.resultKind
  slotId := p.slotId.getD x.slotId
  eqSlotId := p.eqSlotId.getD x.eqSlotId
  fieldIdx := p.fieldIdx.getD x.fieldIdx
  carryReg := p.carryReg.getD x.carryReg
  skipJit := x.skipJit

/-- The patch `p` and then `q`. -/
def andThen (p q : Patch) : Patch where
  resultKind := q.resultKind.or p.resultKind
  slotId := q.slotId.or p.slotId
  eqSlotId := q.eqSlotId.or p.eqSlotId
  fieldIdx := q.fieldIdx.or p.fieldIdx
  carryReg := q.carryReg.or p.carryReg

/-- The empty patch. -/
@[simp] theorem apply_empty (x : Annot) : apply {} x = x := rfl

/-- The later value, or the earlier. -/
theorem getD_or {α : Type} (o o' : Option α) (x : α) : (o.or o').getD x = o.getD (o'.getD x) := by
  cases o <;> rfl

/-- One patch after the other. -/
@[simp] theorem apply_andThen (p q : Patch) (x : Annot) : (p.andThen q).apply x = q.apply (p.apply x) := by
  simp only [apply, andThen, getD_or]

/-- The fields a compilation never writes: the slot of a leaf, and the equality slot
outside the comparisons. -/
structure Legal (k : NodeKind) (p : Patch) : Prop where
  leaf : k.isLeaf = true → p.slotId = none
  eqSlotId : k.isComparison = false → p.eqSlotId = none

/-- The fields a compilation writes. -/
structure Complete (k : NodeKind) (p : Patch) : Prop where
  resultKind : p.resultKind = some k.resultKind
  slotId : k.isLeaf = false → p.slotId.isSome = true
  fieldIdx : k = .LOAD → p.fieldIdx.isSome = true

/-- Legal patches are legal together. -/
theorem Legal.andThen {k : NodeKind} {p q : Patch} (hp : Legal k p) (hq : Legal k q) :
    Legal k (p.andThen q) where
  leaf hk := by rw [Patch.andThen, hq.leaf hk, hp.leaf hk]; rfl
  eqSlotId hk := by rw [Patch.andThen, hq.eqSlotId hk, hp.eqSlotId hk]; rfl

end Patch

/-- The metadata of all nodes after a pass. -/
def patch (w : ℕ → Patch) (a : ℕ → Annot) : ℕ → Annot := fun n => (w n).apply (a n)

/-- One pass after the other. -/
def Patch.seq (w w' : ℕ → Patch) : ℕ → Patch := fun n => (w n).andThen (w' n)

/-- Patches of all nodes, one after the other. -/
theorem patch_seq (w w' : ℕ → Patch) (a : ℕ → Annot) :
    patch (Patch.seq w w') a = patch w' (patch w a) := funext fun _ => Patch.apply_andThen ..

/-- A pass that writes one node. -/
def Patch.single (n : ℕ) (p : Patch) : ℕ → Patch := fun i => if i = n then p else {}

/-- The node that is patched. -/
theorem Patch.single_self (n : ℕ) (p : Patch) : Patch.single n p n = p := if_pos rfl

/-- The others stay. -/
theorem Patch.single_ne {n i : ℕ} (p : Patch) (h : i ≠ n) : Patch.single n p i = {} := if_neg h

/-- Setting an annotation is a patch. -/
theorem setAnnot_eq_patch (a : ℕ → Annot) (n : ℕ) (p : Patch) :
    setAnnot a n p.apply = patch (Patch.single n p) a := by
  funext i
  by_cases h : i = n
  · rw [h, setAnnot_self, patch, Patch.single_self]
  · rw [setAnnot_ne _ _ h, patch, Patch.single_ne p h, Patch.apply_empty]

/-! ### The passes -/

/-- What the analysis writes. -/
def analysisPatch (g : ℕ → Node) (root n : ℕ) : Patch :=
  if n ∈ postOrder g root then { resultKind := some (g n).kind.resultKind } else {}

/-- **The analysis is a patch.** -/
theorem ofRoot_patch (g : ℕ → Node) (a : ℕ → Annot) (root : ℕ) :
    ExpressionAnalyzer.ofRoot g a root = ⟨postOrder g root,
      (postOrder g root).filter fun n => isArithmetic (g n).kind, patch (analysisPatch g root) a⟩ := by
  have hall : (ExpressionAnalyzer.ofRoot g a root).allNodes = postOrder g root := analyze_allNodes ..
  have hA : Analyzed g a (ExpressionAnalyzer.ofRoot g a root) :=
    analyze_analyzed _ _ ⟨rfl, fun _ h => absurd h List.not_mem_nil, fun _ _ => rfl⟩
  have hannot : (ExpressionAnalyzer.ofRoot g a root).annot = patch (analysisPatch g root) a := by
    funext n
    rw [patch, analysisPatch, ← hall]
    split_ifs with hn
    · exact hA.listed n hn
    · exact hA.unlisted n hn
  have harith := hA.arith
  rw [hall] at harith
  rw [← hall, ← hannot, hall, ← harith, ← hall]

/-- A patch of `field_idx`. -/
def Patch.FieldsOnly (p : Patch) : Prop := p = { fieldIdx := p.fieldIdx }

/-- A field number is always legal. -/
theorem Patch.FieldsOnly.legal {p : Patch} (h : p.FieldsOnly) (k : NodeKind) : p.Legal k := by
  rw [h]
  exact ⟨fun _ => rfl, fun _ => rfl⟩

/-- And sets no kind. -/
theorem Patch.FieldsOnly.resultKind {p : Patch} (h : p.FieldsOnly) : p.resultKind = none := by
  rw [h]

/-- One numbering after the other. -/
theorem fieldsOnly_seq {w w' : ℕ → Patch} (h : ∀ n, (w n).FieldsOnly) (h' : ∀ n, (w' n).FieldsOnly)
    (n : ℕ) : (Patch.seq w w' n).FieldsOnly := by
  rw [Patch.FieldsOnly, Patch.seq, h n, h' n]
  rfl

/-- One number. -/
theorem fieldsOnly_single (n : ℕ) (v : ℤ) (i : ℕ) :
    (Patch.single n { fieldIdx := some v } i).FieldsOnly := by
  by_cases h : i = n
  · rw [h, Patch.single_self]; rfl
  · rw [Patch.single_ne _ h]; rfl

/-- **The numbering is a patch.** -/
theorem assignFields_patch (g : ℕ → Node) (limit : Option ℕ) (ns : List ℕ) : ∀ names : List Name,
    ∃ w res, (∀ a, assignFields g limit ns names a = (patch w a, res)) ∧ (∀ n, (w n).FieldsOnly) ∧
      (res ≠ none → ∀ n ∈ ns, (g n).kind = .LOAD → (w n).fieldIdx.isSome = true) := by
  have hempty : ∀ a, patch (fun _ => {}) a = a := fun _ => rfl
  induction ns with
  | nil => exact fun names => ⟨fun _ => {}, some names, fun _ => rfl, fun _ => rfl, fun _ _ h =>
      absurd h List.not_mem_nil⟩
  | cons n ns ih =>
    intro names
    by_cases hk : (g n).kind = .LOAD
    · -- the index written for `n`, and the rest
      have key : ∀ (v : ℤ) (names' : List Name), ∃ w res,
          (∀ a, assignFields g limit ns names' (setAnnot a n fun x => { x with fieldIdx := v }) =
            (patch w a, res)) ∧ (∀ i, (w i).FieldsOnly) ∧
          (res ≠ none → ∀ i ∈ n :: ns, (g i).kind = .LOAD → (w i).fieldIdx.isSome = true) := by
        intro v names'
        obtain ⟨w, res, hw, hfields, hload⟩ := ih names'
        refine ⟨Patch.seq (Patch.single n { fieldIdx := some v }) w, res, fun a => ?_,
          fieldsOnly_seq (fieldsOnly_single n v) hfields, fun hres i hi hki => ?_⟩
        · rw [patch_seq, ← setAnnot_eq_patch]
          exact hw _
        · rw [Patch.seq, Patch.andThen, Option.isSome_or]
          rcases List.mem_cons.1 hi with rfl | hi
          · rw [Patch.single_self]; simp
          · rw [hload hres i hi hki]; rfl
      simp only [assignFields, if_pos hk]
      by_cases hf : (g n).fieldName ∈ names
      · simp only [if_pos hf]
        exact key _ _
      · by_cases hlim : limit.any (names.length ≥ ·) = true
        · simp only [if_neg hf, if_pos hlim]
          exact ⟨fun _ => {}, none, fun _ => rfl, fun _ => rfl, fun h => absurd rfl h⟩
        · simp only [if_neg hf, if_neg hlim]
          exact key _ _
    · simp only [assignFields, if_neg hk]
      obtain ⟨w, res, hw, hfields, hload⟩ := ih names
      refine ⟨w, res, hw, hfields, fun hres i hi hki => ?_⟩
      rcases List.mem_cons.1 hi with rfl | hi
      · exact absurd hki hk
      · exact hload hres i hi hki

/-- The loop over the constants is a patch. -/
theorem markConsts_patch (ns : List ℕ) : ∃ w, (∀ a, ns.foldl (fun a n =>
      setAnnot a n fun x => { x with fieldIdx := -2 }) a = patch w a) ∧ ∀ n, (w n).FieldsOnly := by
  induction ns with
  | nil => exact ⟨fun _ => {}, fun _ => rfl, fun _ => rfl⟩
  | cons n ns ih =>
    obtain ⟨w, hw, hfields⟩ := ih
    refine ⟨Patch.seq (Patch.single n { fieldIdx := some (-2) }) w, fun a => ?_,
      fieldsOnly_seq (fieldsOnly_single n (-2)) hfields⟩
    rw [List.foldl_cons, patch_seq, ← setAnnot_eq_patch]
    exact hw _

/-- A patch of the slots and the carry register. -/
structure Patch.SlotsOnly (k : NodeKind) (p : Patch) : Prop extends Patch.Legal k p where
  resultKind : p.resultKind = none
  fieldIdx : p.fieldIdx = none

/-- The slots of a node are written. -/
structure Patch.Placed (k : NodeKind) (p : Patch) : Prop where
  slotId : k.isLeaf = false → p.slotId.isSome = true
  eqSlotId : k.isComparison = true → p.eqSlotId.isSome = true

/-- Two patches of one node. -/
theorem single_seq_apply (n : ℕ) (p q : Patch) (a : ℕ → Annot) :
    patch (Patch.single n q) (patch (Patch.single n p) a) = patch (Patch.single n (p.andThen q)) a := by
  funext i
  by_cases h : i = n
  · simp only [patch, h, Patch.single_self, Patch.apply_andThen]
  · simp only [patch, Patch.single_ne _ h, Patch.apply_empty]

/-- No slot at all. -/
theorem Patch.SlotsOnly.empty (k : NodeKind) : Patch.SlotsOnly k {} :=
  ⟨⟨fun _ => rfl, fun _ => rfl⟩, rfl, rfl⟩

/-- The slots of one node. -/
theorem Patch.SlotsOnly.single {g : ℕ → Node} {n : ℕ} {p : Patch} (h : p.SlotsOnly (g n).kind)
    (i : ℕ) : (Patch.single n p i).SlotsOnly (g i).kind := by
  by_cases hi : i = n
  · rw [hi, Patch.single_self]
    exact h
  · rw [Patch.single_ne p hi]
    exact .empty _

/-- Slots and more slots. -/
theorem Patch.SlotsOnly.andThen {k : NodeKind} {p q : Patch} (hp : p.SlotsOnly k)
    (hq : q.SlotsOnly k) : (p.andThen q).SlotsOnly k := by
  refine ⟨hp.toLegal.andThen hq.toLegal, ?_, ?_⟩
  · rw [Patch.andThen, hp.resultKind, hq.resultKind]
    rfl
  · rw [Patch.andThen, hp.fieldIdx, hq.fieldIdx]
    rfl

/-- `allocResult` is a patch. -/
theorem allocResult_patch (g : ℕ → Node) (n : ℕ) (mgr : ScratchpadManager) (c : ℕ) :
    ∃ v mgr', ∀ a : ℕ → Annot, (a n).resultKind = (g n).kind.resultKind →
      allocResult n ⟨mgr, c, a⟩ = (⟨mgr', c, patch (Patch.single n { slotId := some v }) a⟩,
        decide (0 ≤ v)) := by
  by_cases hk : (g n).kind.resultKind = .BITPLANE
  · refine ⟨mgr.allocBlock.1, mgr.allocBlock.2, fun a ha => ?_⟩
    rw [allocResult, ← setAnnot_eq_patch, ha, if_pos hk]
    rfl
  · refine ⟨mgr.allocSlot.1, mgr.allocSlot.2, fun a ha => ?_⟩
    rw [allocResult, ← setAnnot_eq_patch, ha, if_neg hk]
    rfl

/-- So is `allocEq`. -/
theorem allocEq_patch (n : ℕ) (mgr : ScratchpadManager) (c : ℕ) (a : ℕ → Annot) :
    allocEq n ⟨mgr, c, a⟩ = (⟨mgr.allocSlot.2, c,
      patch (Patch.single n { eqSlotId := some mgr.allocSlot.1 }) a⟩, decide (0 ≤ mgr.allocSlot.1)) := by
  rw [allocEq, ← setAnnot_eq_patch]
  rfl

/-- And `allocCarry`. -/
theorem allocCarry_patch (n : ℕ) (mgr : ScratchpadManager) (c : ℕ) :
    ∃ v c', ∀ a, allocCarry n ⟨mgr, c, a⟩ = ⟨mgr, c', patch (Patch.single n { carryReg := v }) a⟩ := by
  by_cases hc : c < 6
  · refine ⟨some c, c + 1, fun a => ?_⟩
    rw [allocCarry, ← setAnnot_eq_patch]
    simp only [if_pos hc]
    rfl
  · refine ⟨none, c, fun a => ?_⟩
    have hnone : patch (Patch.single n {}) a = a := by
      funext i
      by_cases h : i = n
      · rw [patch, h, Patch.single_self]; rfl
      · rw [patch, Patch.single_ne _ h]; rfl
    rw [allocCarry, hnone]
    simp only [if_neg hc]

/-- **A round of the allocation is a patch of its node.** -/
theorem allocNode_patch (g : ℕ → Node) (n : ℕ) (mgr : ScratchpadManager) (c : ℕ) :
    ∃ p mgr' c' ok, (∀ a : ℕ → Annot, (a n).resultKind = (g n).kind.resultKind →
        allocNode g n ⟨mgr, c, a⟩ = (⟨mgr', c', patch (Patch.single n p) a⟩, ok)) ∧
      p.SlotsOnly (g n).kind ∧ (ok = true → p.Placed (g n).kind) := by
  by_cases hleaf : (g n).kind.isLeaf = true
  · have hcmp := NodeKind.not_isComparison_of_not_isMask (NodeKind.not_isMask_of_isLeaf hleaf)
    refine ⟨{}, mgr, c, true, fun a _ => ?_, ⟨⟨fun _ => rfl, fun _ => rfl⟩, rfl, rfl⟩,
      fun _ => ⟨by simp [hleaf], by simp [hcmp]⟩⟩
    rw [allocNode, if_pos hleaf, ← setAnnot_eq_patch]
    congr 2
    funext i
    simp [setAnnot]
  obtain ⟨v, mgr₁, h₁⟩ := allocResult_patch g n mgr c
  have hlegal : ∀ {p : Patch}, (g n).kind.isComparison = true ∨ p.eqSlotId = none → p.Legal (g n).kind :=
    fun h => ⟨fun hk => absurd hk hleaf, fun hk => h.resolve_left (by rw [hk]; decide)⟩
  by_cases hv : 0 ≤ v
  · by_cases hcmp : (g n).kind.isComparison = true
    · have hadd := not_isAddSub_of_isMask (NodeKind.isMask_of_isComparison hcmp)
      refine ⟨.andThen { slotId := some v } { eqSlotId := some mgr₁.allocSlot.1 }, mgr₁.allocSlot.2, c,
        decide (0 ≤ mgr₁.allocSlot.1), fun a ha => ?_, ⟨hlegal (Or.inl hcmp), rfl, rfl⟩,
        fun _ => ⟨fun _ => rfl, fun _ => rfl⟩⟩
      simp only [allocNode, if_neg hleaf, h₁ a ha, hv, decide_true, hcmp, if_true, allocEq_patch,
        single_seq_apply, hadd, Bool.false_eq_true, if_false]
      cases decide (0 ≤ mgr₁.allocSlot.1) <;> rfl
    · rw [Bool.not_eq_true] at hcmp
      by_cases hadd : isAddSub (g n).kind = true
      · obtain ⟨w, c', h₂⟩ := allocCarry_patch n mgr₁ c
        refine ⟨.andThen { slotId := some v } { carryReg := w }, mgr₁, c', true, fun a ha => ?_,
          ⟨hlegal (Or.inr rfl), rfl, rfl⟩, fun _ => ⟨fun _ => rfl, by simp [hcmp]⟩⟩
        simp only [allocNode, if_neg hleaf, h₁ a ha, hv, decide_true, hcmp, Bool.false_eq_true, if_false,
          hadd, if_true, h₂, single_seq_apply]
      · refine ⟨{ slotId := some v }, mgr₁, c, true, fun a ha => ?_, ⟨hlegal (Or.inr rfl), rfl, rfl⟩,
          fun _ => ⟨fun _ => rfl, by simp [hcmp]⟩⟩
        simp only [allocNode, if_neg hleaf, h₁ a ha, hv, decide_true, hcmp, Bool.false_eq_true, if_false,
          hadd]
  · refine ⟨{ slotId := some v }, mgr₁, c, false, fun a ha => ?_, ⟨hlegal (Or.inr rfl), rfl, rfl⟩,
      fun h => absurd h (by decide)⟩
    simp only [allocNode, if_neg hleaf, h₁ a ha, hv, decide_false]

/-- **The allocation is a patch.** -/
theorem allocNodes_patch (g : ℕ → Node) (ns : List ℕ) : ∀ (mgr : ScratchpadManager) (c : ℕ),
    ∃ w mgr' c' ok, (∀ a : ℕ → Annot, (∀ n ∈ ns, (a n).resultKind = (g n).kind.resultKind) →
        allocNodes g ns ⟨mgr, c, a⟩ = (⟨mgr', c', patch w a⟩, ok)) ∧
      (∀ n, (w n).SlotsOnly (g n).kind) ∧ (ok = true → ∀ n ∈ ns, (w n).Placed (g n).kind) := by
  induction ns with
  | nil => exact fun mgr c => ⟨fun _ => {}, mgr, c, true, fun _ _ => rfl, fun n => .empty _,
      fun _ _ h => absurd h List.not_mem_nil⟩
  | cons n ns ih =>
    intro mgr c
    obtain ⟨p, mgr₁, c₁, ok₁, h₁, hp, hplaced⟩ := allocNode_patch g n mgr c
    cases ok₁ with
    | false =>
      refine ⟨Patch.single n p, mgr₁, c₁, false, fun a ha => ?_, hp.single, fun h => absurd h (by decide)⟩
      rw [allocNodes, h₁ a (ha n (List.mem_cons_self ..))]
    | true =>
      obtain ⟨w, mgr₂, c₂, ok₂, h₂, hw, hplaced₂⟩ := ih mgr₁ c₁
      refine ⟨Patch.seq (Patch.single n p) w, mgr₂, c₂, ok₂, fun a ha => ?_,
        fun i => (hp.single i).andThen (hw i), fun hok i hi => ?_⟩
      · rw [allocNodes, h₁ a (ha n (List.mem_cons_self ..)), patch_seq]
        refine h₂ _ fun i hi => ?_
        rw [patch, Patch.apply, (hp.single i).resultKind]
        exact ha i (List.mem_cons_of_mem _ hi)
      · -- a node is placed when its turn comes, and stays so
        have hor : (Patch.single n p i).Placed (g i).kind ∨ (w i).Placed (g i).kind := by
          rcases List.mem_cons.1 hi with rfl | hi
          · rw [Patch.single_self]; exact Or.inl (hplaced rfl)
          · exact Or.inr (hplaced₂ hok i hi)
        constructor <;> intro hk <;> rw [Patch.seq, Patch.andThen, Option.isSome_or]
        · rcases hor with h | h <;> rw [h.slotId hk] <;> simp
        · rcases hor with h | h <;> rw [h.eqSlotId hk] <;> simp

/-! ### The passes together -/

/-- **What `prepare` writes does not depend on the metadata it finds**, and neither does
its result. -/
theorem prepare_patch (g : ℕ → Node) (root : ℕ) :
    ∃ w res, (∀ a, prepare g a root = (patch w a, res)) ∧ (∀ n, (w n).Legal (g n).kind) ∧
      ∀ nodes, res = .ok nodes → nodes = postOrder g root ∧
        ∀ n ∈ nodes, (w n).Complete (g n).kind ∧ (w n).Placed (g n).kind := by
  obtain ⟨w₁, names, h₁, hf₁, hload⟩ := assignFields_patch g (some 128)
    ((postOrder g root).filter fun n => isArithmetic (g n).kind) []
  obtain ⟨w₂, h₂, hf₂⟩ := markConsts_patch
    (((postOrder g root).filter fun n => isArithmetic (g n).kind).filter fun n => (g n).kind = .CONST)
  obtain ⟨w₃, mgr, c, ok, h₃, hs₃, hplaced⟩ := allocNodes_patch g (postOrder g root) .init 0
  have hA : ∀ n, (analysisPatch g root n).Legal (g n).kind := fun n => by
    rw [analysisPatch]
    split_ifs <;> exact ⟨fun _ => rfl, fun _ => rfl⟩
  cases names with
  | none =>
    refine ⟨Patch.seq (analysisPatch g root) w₁, .error .nullptr, fun a => ?_, fun n => ?_,
      fun nodes h => by cases h⟩
    · rw [prepare, ofRoot_patch, patch_seq]
      simp only [h₁]
    · exact (hA n).andThen ((hf₁ n).legal _)
  | some names =>
    have hlegal : ∀ n, (Patch.seq (Patch.seq (Patch.seq (analysisPatch g root) w₁) w₂) w₃ n).Legal
        (g n).kind := fun n =>
      (((hA n).andThen ((hf₁ n).legal _)).andThen ((hf₂ n).legal _)).andThen (hs₃ n).toLegal
    have hrk : ∀ a, ∀ n ∈ postOrder g root,
        (patch w₂ (patch w₁ (patch (analysisPatch g root) a)) n).resultKind = (g n).kind.resultKind :=
      fun a n hn => by
      rw [patch, Patch.apply, hf₂ n, patch, Patch.apply, hf₁ n, patch, analysisPatch, if_pos hn]
      rfl
    have hrun : ∀ a, prepare g a root = (patch (Patch.seq (Patch.seq (Patch.seq (analysisPatch g root) w₁)
        w₂) w₃) a, if ok then .ok (postOrder g root) else .error .nullptr) := fun a => by
      rw [prepare, ofRoot_patch, patch_seq, patch_seq, patch_seq]
      simp only [h₁, h₂, h₃ _ (hrk a)]
      cases ok <;> rfl
    refine ⟨_, _, hrun, hlegal, fun nodes hnodes => ?_⟩
    cases ok with
    | false => cases hnodes
    | true =>
      obtain rfl := Except.ok.inj hnodes
      refine ⟨rfl, fun n hn => ⟨⟨?_, fun hk => ?_, fun hk => ?_⟩, fun hk => ?_, fun hk => ?_⟩⟩
      · simp only [Patch.seq, Patch.andThen, analysisPatch, if_pos hn, (hs₃ n).resultKind, (hf₁ n).resultKind,
          (hf₂ n).resultKind]
        rfl
      · simp only [Patch.seq, Patch.andThen, Option.isSome_or, (hplaced rfl n hn).slotId hk, Bool.true_or]
      · have := hload (by simp) n (List.mem_filter.2 ⟨hn, by rw [hk]; rfl⟩) hk
        simp only [Patch.seq, Patch.andThen, Option.isSome_or, this, Bool.true_or, Bool.or_true]
      · simp only [Patch.seq, Patch.andThen, Option.isSome_or, (hplaced rfl n hn).slotId hk, Bool.true_or]
      · simp only [Patch.seq, Patch.andThen, Option.isSome_or, (hplaced rfl n hn).eqSlotId hk, Bool.true_or]

/-- The slots of the scalar compiler are a patch. -/
theorem allocScalar_patch (g : ℕ → Node) (ns : List ℕ) : ∀ mgr : ScratchpadManager,
    ∃ w, (∀ a, allocScalar g ns mgr a = patch w a) ∧ (∀ n, (w n).SlotsOnly (g n).kind) ∧
      ∀ n ∈ ns, (g n).kind.isLeaf = false → (w n).slotId.isSome = true := by
  induction ns with
  | nil => exact fun mgr => ⟨fun _ => {}, fun _ => rfl, fun n => .empty _, fun _ h =>
      absurd h List.not_mem_nil⟩
  | cons n ns ih =>
    intro mgr
    by_cases hleaf : (g n).kind.isLeaf = true
    · obtain ⟨w, hw, hs, hslot⟩ := ih mgr
      refine ⟨w, fun a => ?_, hs, fun i hi hk => ?_⟩
      · rw [allocScalar, if_pos hleaf, hw]
      · rcases List.mem_cons.1 hi with rfl | hi
        · exact absurd (hleaf.symm.trans hk) (by decide)
        · exact hslot i hi hk
    · obtain ⟨w, hw, hs, hslot⟩ := ih mgr.allocSlot.2
      have hp : Patch.SlotsOnly (g n).kind { slotId := some mgr.allocSlot.1 } :=
        ⟨⟨fun hk => absurd hk hleaf, fun _ => rfl⟩, rfl, rfl⟩
      refine ⟨Patch.seq (Patch.single n { slotId := some mgr.allocSlot.1 }) w, fun a => ?_,
        fun i => (hp.single i).andThen (hs i), fun i hi hk => ?_⟩
      · rw [allocScalar, if_neg hleaf, patch_seq, ← setAnnot_eq_patch]
        exact hw _
      · rw [Patch.seq, Patch.andThen, Option.isSome_or]
        rcases List.mem_cons.1 hi with rfl | hi
        · rw [Patch.single_self]; simp
        · rw [hslot i hi hk]; rfl

/-- Without a limit the numbering does not give up. -/
theorem assignFields_none (g : ℕ → Node) (ns : List ℕ) :
    ∀ (names : List Name) (a : ℕ → Annot), (assignFields g none ns names a).2 ≠ none := by
  induction ns with
  | nil => exact fun _ _ => by simp [assignFields]
  | cons n ns ih =>
    intro names a
    simp only [assignFields, Option.any_none, Bool.false_eq_true, if_false]
    split_ifs <;> exact ih _ _

/-- **What `prepareScalar` writes does not depend on the metadata it finds.** -/
theorem prepareScalar_patch (g : ℕ → Node) (root : ℕ) :
    ∃ w, (∀ a, prepareScalar g a root = (patch w a, postOrder g root)) ∧
      (∀ n, (w n).Legal (g n).kind) ∧ ∀ n ∈ postOrder g root, (w n).Complete (g n).kind := by
  obtain ⟨w₁, names, h₁, hf₁, hload⟩ := assignFields_patch g none (postOrder g root) []
  obtain ⟨w₂, h₂, hs₂, hslot⟩ := allocScalar_patch g (postOrder g root) .init
  have hA : ∀ n, (analysisPatch g root n).Legal (g n).kind := fun n => by
    rw [analysisPatch]
    split_ifs <;> exact ⟨fun _ => rfl, fun _ => rfl⟩
  have hnames : names ≠ none := by
    have := assignFields_none g (postOrder g root) [] fun _ => {}
    rwa [h₁] at this
  refine ⟨Patch.seq (Patch.seq (analysisPatch g root) w₁) w₂, fun a => ?_, fun n =>
    ((hA n).andThen ((hf₁ n).legal _)).andThen (hs₂ n).toLegal, fun n hn => ⟨?_, fun hk => ?_,
    fun hk => ?_⟩⟩
  · rw [prepareScalar, ofRoot_patch, patch_seq, patch_seq]
    simp only [h₁, h₂]
  · simp only [Patch.seq, Patch.andThen, analysisPatch, if_pos hn, (hs₂ n).resultKind, (hf₁ n).resultKind]
    rfl
  · simp only [Patch.seq, Patch.andThen, Option.isSome_or, hslot n hn hk, Bool.true_or]
  · simp only [Patch.seq, Patch.andThen, Option.isSome_or, hload hnames n hn hk, Bool.true_or,
      Bool.or_true]

end Jit
end AarchGate
