/-
# Compilation after other compilations

`ApexEngine::set_expression` in `src/api/engine.cpp`, called again and again on
expressions that share nodes.  The calls write their metadata to the nodes, and a later
call finds what the earlier ones left.

Most of it is overwritten before it is read.  What is not: the marks `skip_jit` of an
earlier `SUM` root, which only the `GPU_THROUGHPUT` mode takes back, and the slots
`generate_msl_source` gives to the leaves, which no other pass does.  A call that meets
none of these (`Clean`) **installs what it would install for new nodes**
(`setExpression_history`).  One that does may install something else
(`stale_mark_drops_select`).
-/

import AarchGate.Engine.Forest
import AarchGate.Gpu.Execute
import AarchGate.Jit.Reads

namespace AarchGate
namespace Engine
namespace ApexEngine

open A64 Ir AarchGate.Core
open Jit (Fault deref SameMeta SlotRead ReadsMask Patch patch emitted gtFive)

/-! ### After the compilation -/

/-- The leaves whose slot is read: by the bit-sliced kernel, or as an operand of the sum the
engine adds up. -/
def MetaRead (g : ℕ → Node) (root n : ℕ) : Prop :=
  SlotRead g root n ∨ ∃ s, engineSum g root = some s ∧ n ∈ (g s).operands

section Congr

variable {g : ℕ → Node} {R : ℕ → Prop} {root : ℕ} {a a' : ℕ → Annot}

/-- The sum of the fourth step is the one of step 1.5. -/
theorem effectiveRoot_sum {s : ℕ} (h : effectiveRoot g root = .ok s) (hk : (g s).kind = .SUM) :
    engineSum g root = some s := by
  obtain ⟨plus, hplus, h⟩ := Jit.bind_ok h
  cases plus with
  | false =>
    obtain rfl := Except.ok.inj h
    simp [engineSum, hk]
  | true =>
    unfold isSumPlusConst at hplus
    by_cases hadd : (g root).kind = .ADD
    swap
    · rw [if_neg hadd] at hplus
      cases hplus
    rw [if_pos hadd] at hplus
    obtain ⟨l, hl, hplus⟩ := Jit.bind_ok hplus
    have hls := Jit.deref_ok hl
    obtain rfl : l = s := by
      simp only [if_true, hls, deref] at h
      exact Except.ok.inj h
    rw [if_pos hk] at hplus
    obtain ⟨r, hr, hplus⟩ := Jit.bind_ok hplus
    have hc : (g r).kind = .CONST := by simpa using Except.ok.inj hplus
    simp [engineSum, hadd, hls, Jit.deref_ok hr, hk, hc]

/-- Step 4 reads slots only. -/
theorem sumMeta_congr (h : SameMeta g R (Reach g root) a a') (hR : ∀ n, MetaRead g root n → R n) :
    sumMeta g a root = sumMeta g a' root := by
  unfold sumMeta
  cases heff : effectiveRoot g root with
  | error f => rfl
  | ok s =>
    simp only [bind, Except.bind]
    by_cases hk : (g s).kind = .SUM
    swap
    · simp only [hk, if_false]
    have hs := effectiveRoot_sum heff hk
    have hop : ∀ op ∈ (g s).operands, operandMeta g a op = operandMeta g a' op := fun op hop => by
      have hreach : Reach g root op := (engineSum_reach hs).child (by simp [Node.children, hop])
      unfold operandMeta
      by_cases hsel : (g op).kind = .SELECT
      · rw [if_pos hsel, if_pos hsel]
        refine Jit.deref_congr fun c hc => ?_
        rw [h.slotId c (hreach.child (cond_mem_children hc))
          (Or.inr (hR c (Or.inl (Or.inr ⟨op, hreach, Or.inr ⟨hsel, hc⟩⟩))))]
      · rw [if_neg hsel, if_neg hsel, h.slotId op hreach (Or.inr (hR op (Or.inr ⟨s, hs, hop⟩)))]
    simp only [hk, if_true, mapM_congr hop]

/-- Step 3 reads the fields only. -/
theorem collectFields_congr (h : SameMeta g R (Reach g root) a a')
    (getField : Name → Option FieldDescriptor) (fuel : ℕ) :
    ∀ n, Reach g root n → ∀ fs, collectFields g a getField fuel n fs =
      collectFields g a' getField fuel n fs := by
  induction fuel with
  | zero => exact fun _ _ _ => rfl
  | succ fuel ih =>
    intro n hn fs
    have hself : collectField g a getField n fs = collectField g a' getField n fs := by
      unfold collectField
      by_cases hk : (g n).kind = .LOAD
      · rw [h.fieldIdx n hn hk]
      · simp only [hk, false_and, if_false]
    rw [collectFields, collectFields, hself]
    exact List.foldl_ext _ _ _ fun fs c hc => ih c (hn.child hc) fs

end Congr

section Msl

variable {g : ℕ → Node} {S : ℕ → Prop} {a a' : ℕ → Annot}

/-- The slots of the shader are a patch when no node is skipped. -/
theorem assignSlots_patch (ns : List ℕ) : ∀ k : ℕ, ∃ w next,
    (∀ a : ℕ → Annot, (∀ n ∈ ns, (a n).skipJit = false) →
      Gpu.assignSlots ns (a, k) = (patch w a, next)) ∧
    (∀ n, w n = { slotId := (w n).slotId }) ∧ ∀ n ∈ ns, (w n).slotId.isSome = true := by
  induction ns with
  | nil => exact fun k => ⟨fun _ => {}, k, fun _ _ => rfl, fun _ => rfl, fun _ h =>
      absurd h List.not_mem_nil⟩
  | cons n ns ih =>
    intro k
    obtain ⟨w, next, hw, honly, hslot⟩ := ih (k + 1)
    have hsingle : ∀ i, Patch.single n { slotId := some (k : ℤ) } i =
        { slotId := (Patch.single n { slotId := some (k : ℤ) } i).slotId } := fun i => by
      by_cases h : i = n
      · rw [h, Patch.single_self]
      · rw [Patch.single_ne _ h]
    refine ⟨Patch.seq (Patch.single n { slotId := some k }) w, next, fun a ha => ?_, fun i => ?_,
      fun i hi => ?_⟩
    · rw [Gpu.assignSlots, if_neg (by rw [ha n (List.mem_cons_self ..)]; decide), Jit.patch_seq,
        ← Jit.setAnnot_eq_patch]
      refine hw _ fun i hi => ?_
      by_cases h : i = n
      · rw [h, Jit.setAnnot_self]; exact ha n (List.mem_cons_self ..)
      · rw [Jit.setAnnot_ne _ _ h]; exact ha i (List.mem_cons_of_mem _ hi)
    · rw [Patch.seq, hsingle i, honly i]
      rfl
    · rw [Patch.seq, Patch.andThen, Option.isSome_or]
      rcases List.mem_cons.1 hi with rfl | hi
      · rw [Patch.single_self]; simp
      · rw [hslot i hi]; rfl

variable (h : SameMeta g (fun _ => True) S a a') (hskip : ∀ n, S n → (a n).skipJit = (a' n).skipJit)

include h hskip

/-- The text of a node depends on the slots and the field. -/
theorem emitNode_congr (numFields : ℕ) {n : ℕ} (hn : S n) (hchild : ∀ c ∈ (g n).children, S c) :
    Gpu.emitNode g a numFields n = Gpu.emitNode g a' numFields n := by
  have hself := h.slotId n hn (Or.inr trivial)
  have hslot : ∀ c ∈ (g n).children, (a c).slotId = (a' c).slotId := fun c hc =>
    h.slotId c (hchild c hc) (Or.inr trivial)
  have hbin : ∀ stmt, Gpu.emitBinary g a stmt n = Gpu.emitBinary g a' stmt n := fun stmt =>
    Jit.deref_congr fun l hl => Jit.deref_congr fun r hr => by
      rw [hself, hslot l (left_mem_children hl), hslot r (right_mem_children hr)]
  unfold Gpu.emitNode
  rw [hskip n hn]
  split_ifs
  · rfl
  cases hk : (g n).kind
  case LOAD => rw [hself, h.fieldIdx n hn hk]
  case CONST => rw [hself]
  case NOT =>
    refine Jit.deref_congr fun l hl => ?_
    rw [hself, hslot l (left_mem_children hl)]
  case SELECT =>
    refine Jit.deref_congr fun c hc => Jit.deref_congr fun l hl => Jit.deref_congr fun r hr => ?_
    rw [hself, hslot c (cond_mem_children hc), hslot l (left_mem_children hl),
      hslot r (right_mem_children hr)]
  all_goals first | exact hbin _ | rfl

theorem emitBody_congr (numFields : ℕ) (ns : List ℕ)
    (hns : ∀ n ∈ ns, S n ∧ ∀ c ∈ (g n).children, S c) :
    Gpu.emitBody g a numFields ns = Gpu.emitBody g a' numFields ns := by
  induction ns with
  | nil => rfl
  | cons n ns ih =>
    obtain ⟨hn, hchild⟩ := hns n (List.mem_cons_self ..)
    rw [Gpu.emitBody, Gpu.emitBody, emitNode_congr h hskip numFields hn hchild,
      ih fun n hn => hns n (List.mem_cons_of_mem _ hn)]

end Msl

section Install

variable {P : NodePool} (hP : Built P) {root : ℕ} (hroot : root < P.nextIdx) {R : ℕ → Prop}
  {a a' : ℕ → Annot}

include hP hroot

/-- **The shader of an expression no node of which is skipped** is the same. -/
theorem generateMslSource_congr (h : SameMeta P.storage R (Reach P.storage root) a a')
    (hskip : ∀ n, Reach P.storage root n → (a n).skipJit = false ∧ (a' n).skipJit = false)
    (numFields : ℕ) :
    (∃ f, Gpu.generateMslSource P.storage a numFields root = .error f ∧
      Gpu.generateMslSource P.storage a' numFields root = .error f) ∨
    ∃ b b' K, Gpu.generateMslSource P.storage a numFields root = .ok (b, K) ∧
      Gpu.generateMslSource P.storage a' numFields root = .ok (b', K) ∧
        (b root).resultKind = (b' root).resultKind := by
  have hmem := (Gpu.postOrder_spec hP hroot).mem_iff
  obtain ⟨w, next, hw, honly, hslot⟩ := assignSlots_patch (Gpu.postOrder P.storage root) 0
  have hmeta : SameMeta P.storage (fun _ => True) (Reach P.storage root) (patch w a) (patch w a') :=
    { kind := fun n hn => by
        rw [patch, honly n]
        exact h.kind n hn
      resultKind := fun n hn => by
        rw [patch, patch, honly n]
        exact h.resultKind n hn
      slotId := fun n hn _ => by
        obtain ⟨v, hv⟩ := Option.isSome_iff_exists.1 (hslot n ((hmem n).2 hn))
        rw [patch, patch, Patch.apply, Patch.apply, hv]
        rfl
      fieldIdx := fun n hn hk => by
        rw [patch, patch, honly n]
        exact h.fieldIdx n hn hk }
  have hbody := emitBody_congr hmeta (fun n hn => (hskip n hn).1.trans (hskip n hn).2.symm) numFields
    (Gpu.postOrder P.storage root)
    fun n hn => ⟨(hmem n).1 hn, fun c hc => ((hmem n).1 hn).child hc⟩
  have hsum := sumMeta_congr hmeta fun _ _ => trivial
  simp only [Gpu.generateMslSource, hw a fun n hn => (hskip n ((hmem n).1 hn)).1,
    hw a' fun n hn => (hskip n ((hmem n).1 hn)).2, hbody, hsum]
  cases Gpu.emitBody P.storage (patch w a') numFields (Gpu.postOrder P.storage root) with
  | error f => exact Or.inl ⟨f, rfl, rfl⟩
  | ok body =>
    cases sumMeta P.storage (patch w a') root with
    | error f => exact Or.inl ⟨f, rfl, rfl⟩
    | ok r => exact Or.inr ⟨_, _, _, rfl, rfl, hmeta.resultKind root (Reach.refl _ _)⟩

omit hP hroot

/-- The nodes are new: no pass has written to them. -/
def New (a : ℕ → Annot) : Prop := ∀ n, a n = { resultKind := (a n).resultKind }

/-- The nodes of the expression carry nothing that a call in this mode reads and does not
write first. -/
structure Unstained (g : ℕ → Node) (a : ℕ → Annot) (root : ℕ) (mode : ExecutionMode) : Prop where
  marks : mode = .BIT_SLICED → ∀ n, Reach g root n → emitted (g n).kind = true ∨ n = root →
    (a n).skipJit = true → MarksSkip g root n
  slots : ∀ n, Reach g root n → (g n).kind.isLeaf = true → mode = .SCALAR ∨ MetaRead g root n →
    (a n).slotId = -1
  eqSlots : ∀ n, (g n).kind.isComparison = false → (a n).eqSlotId = -1

include hP hroot

/-- Step 1.5 on stained and on new nodes: undefined for both, or the same marks where they
are read. -/
theorem markMode_congr {mode : ExecutionMode} (h : Unstained P.storage a root mode) (hnew : New a') :
    (markMode P.storage mode root a' = .error .undefined) ∨
    ∃ a₁ a₁', markMode P.storage mode root a = .ok a₁ ∧ markMode P.storage mode root a' = .ok a₁' ∧
      (∀ n, a₁ n = { a n with skipJit := (a₁ n).skipJit }) ∧
      (∀ n, a₁' n = { a' n with skipJit := (a₁' n).skipJit }) ∧
      (mode ≠ .SCALAR → ∀ n, Reach P.storage root n → emitted (P.storage n).kind = true ∨ n = root →
        (a₁ n).skipJit = (a₁' n).skipJit) ∧
      (mode = .GPU_THROUGHPUT → ∀ n, Reach P.storage root n →
        (a₁ n).skipJit = false ∧ (a₁' n).skipJit = false) ∧
      ∀ n, (P.storage n).kind = .SUB → (a₁' n).skipJit = false := by
  have hskip' : ∀ n, (a' n).skipJit = false := fun n => by rw [hnew n]
  cases mode with
  | SCALAR =>
    exact Or.inr ⟨a, a', rfl, rfl, fun _ => rfl, fun _ => rfl, fun h => absurd rfl h,
      fun h => ExecutionMode.noConfusion h, fun n _ => hskip' n⟩
  | GPU_THROUGHPUT =>
    obtain ⟨hmax, -⟩ := hP.ordered
    have hreset := Gpu.resetSkipJit_spec hP (NodePool.maxNodes + 1) root (by omega)
    have hsame : ∀ (b : ℕ → Annot) n, resetSkipJit P.storage (NodePool.maxNodes + 1) root b n =
        { b n with skipJit := (resetSkipJit P.storage (NodePool.maxNodes + 1) root b n).skipJit } := by
      intro b n
      rcases (hreset b).2 n with h | h <;> rw [h]
    refine Or.inr ⟨_, _, rfl, rfl, hsame a, hsame a', fun _ n hn _ => ?_, fun _ n hn => ?_, fun n _ => ?_⟩
    · rw [(hreset a).1 n hn, (hreset a').1 n hn]
    · exact ⟨(hreset a).1 n hn, (hreset a').1 n hn⟩
    · rcases (hreset a').2 n with h | h <;> rw [h]
      exact hskip' n
  | BIT_SLICED =>
    rcases markSkip_spec P.storage root with ⟨-, -, hfail⟩ | hok
    · exact Or.inl (hfail a')
    obtain ⟨a₁, hm, hsame, hskip⟩ := hok a
    obtain ⟨a₁', hm', hsame', hskip₁'⟩ := hok a'
    refine Or.inr ⟨a₁, a₁', hm, hm', hsame, hsame', fun _ n hn hread => ?_, fun h => ExecutionMode.noConfusion h,
      fun n hk => ?_⟩
    · rw [Bool.eq_iff_iff, hskip, hskip₁', hskip' n]
      constructor
      · rintro (hs | hm)
        · exact Or.inr (h.marks rfl n hn hread hs)
        · exact Or.inr hm
      · rintro (hs | hm)
        · exact absurd hs (by decide)
        · exact Or.inr hm
    · by_contra hs
      rw [Bool.not_eq_false, hskip₁', hskip' n] at hs
      rcases hs with hs | hs | ⟨s, hs, hne, hr⟩
      · exact absurd hs (by decide)
      · rcases hs.kind with h | h | ⟨-, h⟩ <;> rw [hk] at h <;> cases h
      · have := engineSum_const hs hne hr
        rw [hk] at this
        cases this

/-- Step 2 after such marks: the same kernel, and metadata that agree. -/
theorem compileMode_congr {mode : ExecutionMode} (h : Unstained P.storage a root mode) (hnew : New a')
    (PF : Platform) {a₁ a₁' : ℕ → Annot} (hsame : ∀ n, a₁ n = { a n with skipJit := (a₁ n).skipJit })
    (hsame' : ∀ n, a₁' n = { a' n with skipJit := (a₁' n).skipJit })
    (hskip : mode ≠ .SCALAR → ∀ n, Reach P.storage root n → emitted (P.storage n).kind = true ∨ n = root →
      (a₁ n).skipJit = (a₁' n).skipJit)
    (hsub : ∀ n, (P.storage n).kind = .SUB → (a₁' n).skipJit = false)
    (hdef : (compileMode PF P.storage mode a₁' root).2 ≠ .error .undefined) :
    ∃ b b' res, compileMode PF P.storage mode a₁ root = (b, res) ∧
      compileMode PF P.storage mode a₁' root = (b', res) ∧
      (mode ≠ .SCALAR → ∀ n, (b n).skipJit = (a₁ n).skipJit ∧ (b' n).skipJit = (a₁' n).skipJit) ∧
      ∀ code, res = .ok code → ∃ R, (∀ n, MetaRead P.storage root n → R n) ∧
        SameMeta P.storage R (Reach P.storage root) b b' := by
  have hslot' : ∀ n, (a₁' n).slotId = -1 := fun n => by rw [hsame' n, hnew n]
  have hslot : ∀ n, Reach P.storage root n → (P.storage n).kind.isLeaf = true →
      mode = .SCALAR ∨ MetaRead P.storage root n → (a₁ n).slotId = (a₁' n).slotId := fun n hn hk hr => by
    rw [hslot' n, hsame n]
    exact h.slots n hn hk hr
  unfold compileMode at hdef ⊢
  by_cases hmode : mode = .SCALAR
  · simp only [if_pos hmode] at hdef ⊢
    obtain ⟨b, b', res, hb, hb', hmeta⟩ := Jit.compileScalarExpression_congr hP hroot PF.rt
      fun n hn hk => hslot n hn hk (Or.inl hmode)
    exact ⟨b, b', res, hb, hb', fun h => absurd hmode h, fun _ _ => ⟨_, fun _ _ => trivial, hmeta⟩⟩
  · simp only [if_neg hmode] at hdef ⊢
    obtain ⟨b, b', res, hb, hb', hskips, hmeta⟩ := Jit.compileExpression_congr hP hroot
      (R := MetaRead P.storage root) (hskip hmode) (fun n hn hk hr => hslot n hn hk (Or.inr hr))
      (fun n hn => Or.inl hn) (fun n hk => by rw [hsame n, hsame' n, hnew n]; exact h.eqSlots n hk)
      (fun n _ => by rw [hsame' n, hnew n]) (fun n _ hk => hsub n hk) hdef
    exact ⟨b, b', res, hb, hb', fun _ => hskips, fun code hc => ⟨_, fun _ hr => hr, hmeta code hc⟩⟩

/-- **On unstained nodes a call installs what it installs for new nodes.** -/
theorem setExpression_unstained {mode : ExecutionMode} (h : Unstained P.storage a root mode)
    (hnew : New a') (PF : Platform) (E : ApexEngine) (schemaName : Name)
    (hdef : setExpression PF E schemaName P.storage a' (some root) mode ≠ .error .undefined) :
    (setExpression PF E schemaName P.storage a (some root) mode).map Prod.snd =
      (setExpression PF E schemaName P.storage a' (some root) mode).map Prod.snd := by
  rcases markMode_congr hP hroot h hnew with hfail | ⟨a₁, a₁', hm, hm', hsame, hsame', hskip, hgpu, hsub⟩
  · exact absurd (by simp only [setExpression, hfail, bind, Except.bind]) hdef
  have hcomp : (compileMode PF P.storage mode a₁' root).2 ≠ .error .undefined := fun hc => hdef (by
    cases hcm : compileMode PF P.storage mode a₁' root with
    | mk b' res =>
      rw [hcm] at hc
      obtain rfl : res = .error .undefined := hc
      simp only [setExpression, hm', bind, Except.bind, hcm])
  obtain ⟨b, b', res, hb, hb', hskips, hmeta⟩ := compileMode_congr hP hroot h hnew PF hsame hsame' hskip
    hsub hcomp
  cases res with
  | error f =>
    cases f with
    | undefined => exact absurd (congrArg Prod.snd hb') hcomp
    | nullptr =>
      simp only [setExpression, hm, hm', bind, Except.bind, hb, hb']
      rfl
  | ok kernel =>
    obtain ⟨R, hR, hmeta⟩ := hmeta kernel rfl
    have hfields := collectFields_congr hmeta (E.registry.getField schemaName) (NodePool.maxNodes + 1)
      root (Reach.refl _ _) fun _ => none
    simp only [setExpression, hm, hm', bind, Except.bind, hb, hb', hfields, sumMeta_congr hmeta hR]
    cases sumMeta P.storage b' root with
    | error f => rfl
    | ok r =>
      simp only [generateMode]
      by_cases hmode : mode = .GPU_THROUGHPUT
      · have hnone : ∀ n, Reach P.storage root n → (b n).skipJit = false ∧ (b' n).skipJit = false :=
          fun n hn => by
            obtain ⟨h₁, h₂⟩ := hskips (by rw [hmode]; decide) n
            rw [h₁, h₂]
            exact hgpu hmode n hn
        simp only [if_pos hmode]
        rcases generateMslSource_congr hP hroot hmeta hnone
          ((E.schemaMetadata schemaName).elim 0 (·.fields.length)) with ⟨f, hg, hg'⟩ | ⟨c, c', K, hg, hg', hk⟩
        · simp only [hg, hg', Except.map]
        · simp only [hg, hg', Except.map, hk]
      · simp only [if_neg hmode, Except.map, hmeta.resultKind root (Reach.refl _ _)]

end Install

/-! ### Histories -/

/-- A call of `set_expression`: on some engine of some platform. -/
structure Call where
  platform : Platform
  engine : ApexEngine
  schemaName : Name
  root : ℕ
  mode : ExecutionMode

namespace Call

/-- What a call leaves in the nodes. -/
def run (g : ℕ → Node) (c : Call) (a : ℕ → Annot) : Except Fault (ℕ → Annot) :=
  (setExpression c.platform c.engine c.schemaName g a (some c.root) c.mode).map Prod.fst

/-- The compilation of the call succeeds. -/
def Installs (g : ℕ → Node) (c : Call) (a : ℕ → Annot) : Prop :=
  ∃ a₁ kernel, markMode g c.mode c.root a = .ok a₁ ∧
    (compileMode c.platform g c.mode a₁ c.root).2 = .ok kernel

/-- What a call may change of the fields that are not always written: it marks what step 1.5
marks, takes the marks back in the `GPU_THROUGHPUT` mode, and gives slots to leaves when
a shader is generated. -/
structure Leaves (g : ℕ → Node) (c : Call) (a a' : ℕ → Annot) : Prop where
  eqSlotId : ∀ n, (g n).kind.isComparison = false → (a' n).eqSlotId = (a n).eqSlotId
  skipJit : ∀ n, (a' n).skipJit = true → c.mode = .BIT_SLICED ∧ MarksSkip g c.root n ∨
    (a n).skipJit = true ∧ (c.mode = .GPU_THROUGHPUT → ¬Reach g c.root n)
  slotId : ∀ n, (g n).kind.isLeaf = true → (a' n).slotId ≠ (a n).slotId →
    c.mode = .GPU_THROUGHPUT ∧ c.Installs g a ∧ Reach g c.root n

end Call

/-- Both compilers write by a patch. -/
theorem compileMode_patch (PF : Platform) (g : ℕ → Node) (mode : ExecutionMode) (root : ℕ) :
    ∃ w, (∀ n, (w n).Legal (g n).kind) ∧ ∀ a, (compileMode PF g mode a root).1 = patch w a := by
  unfold compileMode
  by_cases hmode : mode = .SCALAR
  · obtain ⟨w, hprep, hlegal, -⟩ := Jit.prepareScalar_patch g root
    refine ⟨w, hlegal, fun a => ?_⟩
    rw [if_pos hmode, Jit.compileScalarExpression, hprep]
  · obtain ⟨w, res, hprep, hlegal, -⟩ := Jit.prepare_patch g root
    refine ⟨w, hlegal, fun a => ?_⟩
    rw [if_neg hmode, Jit.compileExpression, hprep]
    cases res <;> rfl

/-- Step 1.5 changes marks only. -/
theorem markMode_spec {P : NodePool} (hP : Built P) {root : ℕ} (hroot : root < P.nextIdx)
    {mode : ExecutionMode} {a a₁ : ℕ → Annot} (h : markMode P.storage mode root a = .ok a₁) (n : ℕ) :
    a₁ n = { a n with skipJit := (a₁ n).skipJit } ∧ ((a₁ n).skipJit = true →
      mode = .BIT_SLICED ∧ MarksSkip P.storage root n ∨
      (a n).skipJit = true ∧ (mode = .GPU_THROUGHPUT → ¬Reach P.storage root n)) := by
  cases mode with
  | SCALAR =>
    obtain rfl := Except.ok.inj h
    exact ⟨rfl, fun hs => Or.inr ⟨hs, fun h => ExecutionMode.noConfusion h⟩⟩
  | GPU_THROUGHPUT =>
    obtain rfl := Except.ok.inj h
    obtain ⟨hmax, -⟩ := hP.ordered
    obtain ⟨hreset, honly⟩ := Gpu.resetSkipJit_spec hP (NodePool.maxNodes + 1) root (by omega) a
    have hreach : (resetSkipJit P.storage (NodePool.maxNodes + 1) root a n).skipJit = true →
        ¬Reach P.storage root n := fun hs hn => absurd (hs.symm.trans (hreset n hn)) (by decide)
    rcases honly n with he | he
    · exact ⟨by rw [he], fun hs => Or.inr ⟨by rwa [he] at hs, fun _ => hreach hs⟩⟩
    · exact ⟨by rw [he], fun hs => by rw [he] at hs; cases hs⟩
  | BIT_SLICED =>
    rcases markSkip_spec P.storage root with ⟨-, -, hfail⟩ | hok
    · rw [markMode, hfail a] at h
      cases h
    obtain ⟨a₁', hm, hsame, hskip⟩ := hok a
    obtain rfl := Except.ok.inj (hm.symm.trans h)
    refine ⟨hsame n, fun hs => ?_⟩
    rcases (hskip n).1 hs with hs | hm
    · exact Or.inr ⟨hs, fun h => ExecutionMode.noConfusion h⟩
    · exact Or.inl ⟨rfl, hm⟩

/-- **What one call leaves behind.** -/
theorem Call.run_leaves {P : NodePool} (hP : Built P) {c : Call} (hroot : c.root < P.nextIdx)
    {a a' : ℕ → Annot} (h : c.run P.storage a = .ok a') : c.Leaves P.storage a a' := by
  obtain ⟨w, hlegal, hpatch⟩ := compileMode_patch c.platform P.storage c.mode c.root
  obtain ⟨E', hset⟩ : ∃ E', setExpression c.platform c.engine c.schemaName P.storage a (some c.root)
      c.mode = .ok (a', E') := by
    unfold Call.run at h
    cases hset : setExpression c.platform c.engine c.schemaName P.storage a (some c.root) c.mode with
    | error f => rw [hset] at h; cases h
    | ok r =>
      rw [hset] at h
      obtain rfl := Except.ok.inj h
      exact ⟨r.2, rfl⟩
  obtain ⟨a₁, hm, hcase⟩ := setExpression_cases hset
  have hmark := markMode_spec hP hroot hm
  -- the compiler alone
  have hcompiled : c.Leaves P.storage a (patch w a₁) :=
    { eqSlotId := fun n hk => by
        rw [patch, Patch.apply, (hlegal n).eqSlotId hk, (hmark n).1]
        rfl
      skipJit := fun n hs => (hmark n).2 hs
      slotId := fun n hk hne => by
        rw [patch, Patch.apply, (hlegal n).leaf hk, (hmark n).1] at hne
        exact absurd rfl hne }
  rcases hcase with ⟨hcomp, -⟩ | ⟨a₂, L, hcomp, -, hgen, -⟩
  · have ha' := hpatch a₁
    rw [hcomp] at ha'
    obtain rfl : a' = patch w a₁ := ha'
    exact hcompiled
  obtain rfl : a₂ = patch w a₁ := by rw [← hpatch a₁, hcomp]
  by_cases hmode : c.mode = .GPU_THROUGHPUT
  · -- the slots of the shader
    rw [generateMode, if_pos hmode] at hgen
    cases hg : Gpu.generateMslSource P.storage (patch w a₁)
        ((c.engine.schemaMetadata c.schemaName).elim 0 (·.fields.length)) c.root with
    | error f => rw [hg] at hgen; cases hgen
    | ok bK =>
      obtain ⟨b, K⟩ := bK
      rw [hg] at hgen
      obtain rfl : b = a' := (Prod.mk.inj (Except.ok.inj hgen)).1
      have hothers := Gpu.generateMslSource_others hP hroot hg
      refine ⟨fun n hk => ?_, fun n hs => ?_, fun n hk hne => ⟨hmode, ⟨a₁, L.kernel, hm, by rw [hcomp]⟩, ?_⟩⟩
      · rw [hothers n]
        exact hcompiled.eqSlotId n hk
      · rw [hothers n] at hs
        exact hcompiled.skipJit n hs
      · by_contra hnot
        rw [Gpu.generateMslSource_frame hP hroot hg hnot] at hne
        exact absurd (hcompiled.slotId n hk hne).2.2 hnot
  · obtain ⟨rfl, -⟩ := generateMode_cpu hmode hgen
    exact hcompiled

/-- The calls of a history, one after the other. -/
def runCalls (g : ℕ → Node) (calls : List Call) (a : ℕ → Annot) : Except Fault (ℕ → Annot) :=
  calls.foldlM (fun a c => c.run g a) a

/-- A mark of an earlier call is still there. -/
def StaleMark (g : ℕ → Node) (calls : List Call) (n : ℕ) : Prop :=
  ∃ pre c post, calls = pre ++ c :: post ∧ c.mode = .BIT_SLICED ∧ MarksSkip g c.root n ∧
    ∀ d ∈ post, d.mode = .GPU_THROUGHPUT → ¬Reach g d.root n

/-- An earlier call has generated a shader with this node. -/
def StaleSlot (g : ℕ → Node) (a₀ : ℕ → Annot) (calls : List Call) (n : ℕ) : Prop :=
  ∃ pre c post a, calls = pre ++ c :: post ∧ runCalls g pre a₀ = .ok a ∧
    c.mode = .GPU_THROUGHPUT ∧ c.Installs g a ∧ Reach g c.root n

/-- **What a history leaves behind** in new nodes. -/
theorem runCalls_leaves {P : NodePool} (hP : Built P) {a₀ : ℕ → Annot} (hnew : New a₀)
    {calls : List Call} (hroots : ∀ c ∈ calls, c.root < P.nextIdx) :
    ∀ {a : ℕ → Annot}, runCalls P.storage calls a₀ = .ok a →
      (∀ n, (P.storage n).kind.isComparison = false → (a n).eqSlotId = -1) ∧
      (∀ n, (a n).skipJit = true → StaleMark P.storage calls n) ∧
      ∀ n, (P.storage n).kind.isLeaf = true → (a n).slotId ≠ -1 → StaleSlot P.storage a₀ calls n := by
  induction calls using List.reverseRecOn with
  | nil =>
    intro a h
    obtain rfl : a₀ = a := Except.ok.inj h
    refine ⟨fun n _ => by rw [hnew n], fun n hs => ?_, fun n _ hs => ?_⟩
    · rw [hnew n] at hs; cases hs
    · rw [hnew n] at hs; exact absurd rfl hs
  | append_singleton calls c ih =>
    intro a h
    rw [runCalls, List.foldlM_append] at h
    obtain ⟨b, hb, h⟩ := Jit.bind_ok h
    rw [List.foldlM_cons] at h
    obtain ⟨a', hc, h⟩ := Jit.bind_ok h
    obtain rfl : a' = a := Except.ok.inj h
    obtain ⟨heq, hmark, hslot⟩ := ih (fun d hd => hroots d (by simp [hd])) hb
    have hleaves := Call.run_leaves hP (hroots c (by simp)) hc
    refine ⟨fun n hk => (hleaves.eqSlotId n hk).trans (heq n hk), fun n hs => ?_, fun n hk hs => ?_⟩
    · rcases hleaves.skipJit n hs with ⟨hmode, hm⟩ | ⟨hs, hkeep⟩
      · exact ⟨calls, c, [], rfl, hmode, hm, fun d hd => absurd hd List.not_mem_nil⟩
      · obtain ⟨pre, d, post, rfl, hmode, hm, hpost⟩ := hmark n hs
        refine ⟨pre, d, post ++ [c], by simp, hmode, hm, fun e he => ?_⟩
        rcases List.mem_append.1 he with he | he
        · exact hpost e he
        · rw [List.mem_singleton.1 he]
          exact hkeep
    · by_cases hne : (a' n).slotId = (b n).slotId
      · obtain ⟨pre, d, post, a₁, rfl, hpre, hrest⟩ := hslot n hk (hne ▸ hs)
        exact ⟨pre, d, post ++ [c], a₁, by simp, hpre, hrest⟩
      · exact ⟨calls, c, [], b, rfl, hb, hleaves.slotId n hk hne⟩

/-- **A call that meets nothing of its history**: no node whose code it emits carries a mark
that it does not make itself, and no leaf whose slot it reads has one. -/
structure Clean (g : ℕ → Node) (a₀ : ℕ → Annot) (calls : List Call) (root : ℕ)
    (mode : ExecutionMode) : Prop where
  marks : mode = .BIT_SLICED → ∀ n, Reach g root n → emitted (g n).kind = true ∨ n = root →
    StaleMark g calls n → MarksSkip g root n
  slots : ∀ n, Reach g root n → (g n).kind.isLeaf = true → mode = .SCALAR ∨ MetaRead g root n →
    ¬StaleSlot g a₀ calls n

/-- **Compilation does not depend on history**, where it is clean: after any calls on any
engines in any modes, `set_expression` makes of an engine what it makes of it with new
nodes of the same shape, if that is defined. -/
theorem setExpression_history {P : NodePool} (hP : Built P) (hnew : New P.annot) {calls : List Call}
    (hroots : ∀ c ∈ calls, c.root < P.nextIdx) {a : ℕ → Annot}
    (hrun : runCalls P.storage calls P.annot = .ok a) {root : ℕ} (hroot : root < P.nextIdx)
    {mode : ExecutionMode} (hclean : Clean P.storage P.annot calls root mode) (PF : Platform)
    (E : ApexEngine) (schemaName : Name)
    (hdef : setExpression PF E schemaName P.storage P.annot (some root) mode ≠ .error .undefined) :
    (setExpression PF E schemaName P.storage a (some root) mode).map Prod.snd =
      (setExpression PF E schemaName P.storage P.annot (some root) mode).map Prod.snd := by
  obtain ⟨heq, hmark, hslot⟩ := runCalls_leaves hP hnew hroots hrun
  refine setExpression_unstained hP hroot ⟨fun hm n hn hread hs => ?_, fun n hn hk hread => ?_, heq⟩ hnew
    PF E schemaName hdef
  · exact hclean.marks hm n hn hread (hmark n hs)
  · by_contra hne
    exact hclean.slots n hn hk hread (hslot n hk hne)

/-! ### An example -/

theorem new_empty : New NodePool.empty.annot := fun _ => rfl

/-- The builder functions make new nodes. -/
theorem New.emplace {P : NodePool} (h : New P.annot) {nd : Node} {rk : ResultKind} :
    New (Builder.emplace nd rk P).2.annot := by
  intro n
  unfold Builder.emplace
  split_ifs with hfull
  · exact h n
  · by_cases hn : n = P.nextIdx
    · simp [hn]
    · simp only [hn, if_false]
      exact h n

/-- `GT(a, 5)` for the shader and then bit-sliced, and once more. -/
theorem setExpression_history_gt :
    ∃ a, runCalls Jit.gtPool.storage [⟨.standard, oneFieldEngine, ['t'], 2, .GPU_THROUGHPUT⟩,
        ⟨.standard, oneFieldEngine, ['t'], 2, .BIT_SLICED⟩] Jit.gtPool.annot = .ok a ∧
      (setExpression .standard oneFieldEngine ['t'] Jit.gtPool.storage a (some 2) .BIT_SLICED).map Prod.snd =
        (setExpression .standard oneFieldEngine ['t'] Jit.gtPool.storage Jit.gtPool.annot (some 2)
          .BIT_SLICED).map Prod.snd := by
  have hnew : New Jit.gtPool.annot := new_empty.emplace.emplace.emplace
  have hok : (runCalls Jit.gtPool.storage [⟨.standard, oneFieldEngine, ['t'], 2, .GPU_THROUGHPUT⟩,
      ⟨.standard, oneFieldEngine, ['t'], 2, .BIT_SLICED⟩] Jit.gtPool.annot).isOk = true := by decide
  obtain ⟨_, _, hdef, -⟩ := gtPool_accepted .BIT_SLICED
  cases hrun : runCalls Jit.gtPool.storage [⟨.standard, oneFieldEngine, ['t'], 2, .GPU_THROUGHPUT⟩,
      ⟨.standard, oneFieldEngine, ['t'], 2, .BIT_SLICED⟩] Jit.gtPool.annot with
  | error f => rw [hrun] at hok; cases hok
  | ok a =>
    have hroots : ∀ c ∈ [(⟨.standard, oneFieldEngine, ['t'], 2, .GPU_THROUGHPUT⟩ : Call),
        ⟨.standard, oneFieldEngine, ['t'], 2, .BIT_SLICED⟩], c.root < Jit.gtPool.nextIdx := by
      intro c hc
      rcases List.mem_pair.1 hc with rfl | rfl <;> decide
    have hsum : engineSum Jit.gtPool.storage 2 = none := rfl
    refine ⟨a, rfl, setExpression_history Jit.gtPool_built hnew hroots hrun (by decide) ⟨?_, ?_⟩ .standard
      oneFieldEngine ['t'] fun h => ?_⟩
    · -- neither call has a sum to mark
      rintro - n - - ⟨pre, c, post, hsplit, -, hmark, -⟩
      have hc : c.root = 2 := by
        have := hsplit ▸ List.mem_append_right pre (List.mem_cons_self (a := c) (l := post))
        rcases List.mem_pair.1 this with rfl | rfl <;> rfl
      rw [hc] at hmark
      exact hmark
    · -- no leaf is read by its slot
      rintro n hn hk (h | (rfl | ⟨p, hp, hread⟩) | ⟨s, hs, -⟩)
      · cases h
      · exact absurd hk (by decide)
      · have := Jit.gtPool_built.reach_le hp
        interval_cases p <;> rcases hread with ⟨h, -⟩ | ⟨h, -⟩ <;>
          exact absurd h (by decide)
      · rw [hsum] at hs; cases hs
    · rw [h] at hdef; cases hdef

/-- The pool of `Sum({Select(GT(a, 5), 7, 2)})` and of `GT(Select(GT(a, 5), 7, 2), 3)`, with
one `Select` in both. -/
def sharedPool : NodePool :=
  ((do
    let c ← Builder.GT (← Builder.Load ['a']) (← Builder.Const 5)
    let t ← Builder.Select c (← Builder.Const 7) (← Builder.Const 2)
    let _ ← Builder.Sum t.toList
    Builder.GT t (← Builder.Const 3) : StateM NodePool (Option ℕ)) .empty).2

theorem sharedPool_pristine : Pristine sharedPool :=
  (((Pristine.build (.select gtFive (.const 7) (.const 2)) (by decide) .empty).emplace
    { kind := .SUM, operands := [5] } .BITPLANE (by decide)).emplace
      { kind := .CONST, constValue := 3 } .BITPLANE (by decide)).emplace
        { kind := .GT, left := some 5, right := some 7 } .BITMASK (by decide)

/-- `GT(Select(GT(a, 5), 7, 2), 3)`. -/
theorem sharedPool_represents : Represents sharedPool.storage
    (.cmp .gt (.select gtFive (.const 7) (.const 2)) (.const 3)) 8 := by
  have hselect := Expr.pool_stands (.select gtFive (.const 7) (.const 2)) (by decide) (by decide)
  have hpool := Expr.pool_pristine (.select gtFive (.const 7) (.const 2)) (by decide)
  have hsum := hpool.emplace { kind := .SUM, operands := [5] } .BITPLANE (by decide)
  have hconst := hsum.emplace { kind := .CONST, constValue := 3 } .BITPLANE (by decide)
  refine ⟨5, 7, ⟨rfl, rfl, rfl, rfl, rfl⟩, (((hselect.emplace hpool.built _ _ (by decide)).emplace
    hsum.built _ _ (by decide)).emplace hconst.built _ _ (by decide)).represents,
    ⟨⟨rfl, rfl, rfl, rfl, rfl⟩, rfl⟩⟩

/-- With a mark on the `Select`, the kernel of `GT(t, 3)` compares what is in the scratchpad. -/
theorem sharedPool_counts_none {a₀ a : ℕ → Annot} {E : ApexEngine}
    (heq : ∀ n, (sharedPool.storage n).kind.isComparison = false → (a₀ n).eqSlotId = -1)
    (h2 : (a₀ 2).skipJit = false) (h5 : (a₀ 5).skipJit = true) (h8 : (a₀ 8).skipJit = false)
    (hset : setExpression .standard oneFieldEngine ['t']
      sharedPool.storage a₀ (some 8) .BIT_SLICED = .ok (a, E)) (hacc : E.exprLogic ≠ [])
    (data : ℕ → BitVec 8) (rowCount : ℕ) :
    ∃ E', execute .standard E data rowCount = some (0, E') := by
  obtain ⟨a₁, L, hmark, hcomp, hsum, hmode, hkind, hbits, hinst⟩ :=
    setExpression_installed sharedPool_pristine.built (by decide) (by decide) rfl rfl hset hacc
  rw [markMode, markSkip_typed sharedPool_represents] at hmark
  obtain rfl := Except.ok.inj hmark
  rw [compileMode, if_neg (by decide)] at hcomp
  rw [compile_resultKind sharedPool_pristine.built sharedPool_represents rfl hcomp] at hkind
  obtain ⟨nodes, body, hprep, -, -⟩ := Jit.compileExpression_ok hcomp
  have hp := Jit.prepare_spec sharedPool_pristine.built (show 8 < sharedPool.nextIdx by decide) hprep
  obtain ⟨hlen, hN⟩ := Numbered.ofPrepared hp
  have hI := hinst _ hN hlen (by decide)
  have hadds : AddsUp .standard L (Jit.fieldOrder sharedPool.storage 8) fun _ => 0 := by
    intro R cols hcols
    have hplanes := hcols.holdsPlanes hmode hbits
    obtain ⟨V, hV⟩ := Jit.exists_flow sharedPool_pristine.built a R (Jit.residue a (Jit.pad Jit.Layout.standard
      (Jit.Abi.standard.enter cols fun _ => 0)))
    obtain ⟨m, hcall, hbool, -⟩ := Jit.compile_root sharedPool_pristine.built (by decide) hcomp heq
      (fun n hn _ => Jit.sorted_of_reach sharedPool_represents hn)
      (fun n hn hk => by
        have := sharedPool_pristine.built.reach_le hn
        interval_cases n <;> first | exact h2 | exact h8 | exact absurd hk (by decide))
      (hplanes.fieldPlanes .standard hN hlen) (hplanes.args .standard hlen fun _ => 0) hV rfl h8
    -- the block of the `Select` is never written, and zero is not greater than 3
    have hblock := (hp.block (n := 5) ((hp.mem_iff 5).2 (.single (by decide))) rfl rfl).2
    have hzero : ∀ r, V r 5 = 0 := fun r => by
      rw [(hV r).left_over rfl (by rw [Jit.coded, hp.skipJit, h5]; rfl)]
      exact Jit.residue_zero fun b hb => Jit.Abi.standard.scratch _ _ _ (by omega)
    have hfalse : ∀ r, Jit.truth (V r 8) = false := fun r => by
      rw [(hV r).coded rfl (by rw [hp.skipJit, h8])]
      show Jit.truth (BitPlane.bit (Cmp.gt.holds (V r 5) (V r 7))) = false
      rw [hzero r, (hV r).const rfl]
      rfl
    refine ⟨m, hcall, fun rows hrows => ?_⟩
    rw [chunkTotal_mask hkind hrows (hbool rfl) _]
    simp only [hfalse]
    rfl
  obtain ⟨E', hrun⟩ := hI.execute (by rw [hmode]; decide) (fun _ _ _ => rfl) hadds E.fieldBuffers data
    rowCount
  exact ⟨E', hrun.trans (by simp)⟩

/-- **A mark that is left behind.**  One row with `a = 10`: after `Sum({t})` has been
installed, `GT(t, 3)` counts no row, and with new nodes it counts one. -/
theorem stale_mark_drops_select :
    ∃ a b E E₁ b' E' E₁', runCalls sharedPool.storage [⟨.standard, oneFieldEngine, ['t'], 6, .BIT_SLICED⟩]
        sharedPool.annot = .ok a ∧
      setExpression .standard oneFieldEngine ['t'] sharedPool.storage a (some 8) .BIT_SLICED = .ok (b, E) ∧
      setExpression .standard oneFieldEngine ['t'] sharedPool.storage sharedPool.annot (some 8) .BIT_SLICED =
        .ok (b', E') ∧
      execute .standard E tens 1 = some (0, E₁) ∧
      execute .standard E' tens 1 = some (1, E₁') := by
  have hnew : New sharedPool.annot :=
    new_empty.emplace.emplace.emplace.emplace.emplace.emplace.emplace.emplace.emplace
  have hhist : (runCalls sharedPool.storage [⟨.standard, oneFieldEngine, ['t'], 6, .BIT_SLICED⟩]
      sharedPool.annot).toOption.map (fun a => ((a 2).skipJit, (a 5).skipJit, (a 8).skipJit,
        accepted (setExpression .standard oneFieldEngine ['t'] sharedPool.storage a (some 8) .BIT_SLICED))) =
      some (false, true, false, true) := by decide +kernel
  cases hrun : runCalls sharedPool.storage [⟨.standard, oneFieldEngine, ['t'], 6, .BIT_SLICED⟩]
      sharedPool.annot with
  | error f => rw [hrun] at hhist; cases hhist
  | ok a =>
    rw [hrun] at hhist
    obtain ⟨h2, h5, h8, hok⟩ : (a 2).skipJit = false ∧ (a 5).skipJit = true ∧ (a 8).skipJit = false ∧
        accepted (setExpression .standard oneFieldEngine ['t'] sharedPool.storage a (some 8) .BIT_SLICED) =
          true := by simpa [Except.toOption] using hhist
    obtain ⟨b, E, hset, hacc⟩ := accepted_iff.1 hok
    have hok' : accepted (setExpression .standard oneFieldEngine ['t'] sharedPool.storage sharedPool.annot
        (some 8) .BIT_SLICED) = true := by decide +kernel
    obtain ⟨b', E', hset', hacc'⟩ := accepted_iff.1 hok'
    obtain ⟨heq, -⟩ := runCalls_leaves sharedPool_pristine.built hnew
      (fun c hc => by rw [List.mem_singleton.1 hc]; decide) hrun
    obtain ⟨E₁, hE⟩ := sharedPool_counts_none heq h2 h5 h8 hset hacc
      tens 1
    obtain ⟨-, hexec⟩ := bitSliced_execute sharedPool_pristine.built sharedPool_represents rfl rfl (sharedPool_pristine.fresh 8)
      (show init.registry.schemas ['t'] = none from rfl) rfl (by decide) hset' hacc'
    obtain ⟨E₁', hE'⟩ := hexec E'.fieldBuffers tens 1
    refine ⟨a, b, E, E₁, b', E', E₁', rfl, hset, hset', hE, hE'.trans ?_⟩
    have htotal : rowTotal (fun r => Expr.eval (rowOf oneField
        tens 8 r) (.cmp .gt (.select (.cmp .gt (.load ['a'])
          (.const 5)) (.const 7) (.const 2)) (.const 3))) 1 = 1 := by decide
    rw [htotal]

end ApexEngine
end Engine
end AarchGate
