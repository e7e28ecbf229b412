/-
# Which expressions are miscompiled silently

Step 1.5 of `set_expression` in `src/api/engine.cpp` and `compile_expression`.  In the
`BIT_SLICED` mode the engine adds up one `SUM` itself: the root, or the left operand of
a root `ADD(SUM(..), CONST)`.  It marks this root, the sum and the `SELECT`s below it,
and the compiler leaves the marked nodes out (`markSkip_spec`).

All other nodes have to have code, and of the operands of its sum the engine counts masks and
adds constants and weights.  **A well-typed root of new nodes is not miscompiled silently
exactly when it does not fit, or is coverable and weighted** (`faithful_marked_iff`): what the
engine does not handle is of the kinds with code and reads nothing that the engine handles,
and the constants and weights that the masks choose add up to the meaning of the root.  A
product is not: its kernel delivers what the scratchpad held (`mul_delivers_zero`).
-/

import AarchGate.Engine.Lanes
import AarchGate.Jit.Coverage

namespace AarchGate
namespace Engine
namespace ApexEngine

open A64 Ir AarchGate.Core BitPlane
open Jit (TypedNode WellTyped Covered Marked Faithful Fits meaning truth pad)

/-- What the compiler covers: of the nodes the engine does not handle, each is a leaf or of
a kind with correct code and reads none that the engine handles, and at most six of
them are additions. -/
structure Coverable (g : ℕ → Node) (root : ℕ) : Prop where
  compound : (g root).kind.isLeaf = false
  kinds : ∀ n, Reach g root n → ¬Handled g root n → (g n).kind.isLeaf = false →
    Jit.emitted (g n).kind = true ∧ (g n).kind ≠ .SUB
  reads : ∀ n, Reach g root n → ¬Handled g root n → ∀ c ∈ (g n).children, ¬Handled g root c
  six : ∀ ns : List ℕ, ns.Nodup → (∀ n ∈ ns, Reach g root n ∧ (g n).kind = .ADD ∧
    ¬Handled g root n) → ns.length ≤ 6

section Coverage

variable {P : NodePool} {root : ℕ} (htyped : WellTyped P.storage root) {a₀ : ℕ → Annot}
  (hskip : ∀ x, Reach P.storage root x → (P.storage x).kind.isLeaf = false ∨ x = root →
    ((a₀ x).skipJit = true ↔ Handled P.storage root x))

include hskip

theorem skipJit_eq_false_iff {x : ℕ} (hx : Reach P.storage root x)
    (hleaf : (P.storage x).kind.isLeaf = false ∨ x = root) :
    (a₀ x).skipJit = false ↔ ¬Handled P.storage root x := by
  rw [← hskip x hx hleaf, Bool.not_eq_true]

/-- The marks on new nodes are such as the compiler may find. -/
theorem marked_of_fresh (hP : Built P) (hfresh : Fresh P root)
    (hsame : ∀ x, a₀ x = { P.annot x with skipJit := (a₀ x).skipJit }) :
    Marked P.storage a₀ root where
  eqSlotId n hn := by rw [hsame]; exact hP.eqSlotId n hn
  slotId := by rw [hsame]; exact hfresh.slotId (Reach.refl _ _)
  carryReg n hn := by rw [hsame, hfresh n hn]
  masks n hn hk := (skipJit_eq_false_iff hskip hn (Or.inl (NodeKind.not_isLeaf_of_isMask hk))).2
    fun h => absurd (h.not_mask.symm.trans hk) (by decide)
  addSub n hn hk hne := (skipJit_eq_false_iff hskip hn (Or.inl (Jit.not_isLeaf_of_isAddSub hk))).2
    fun h => hne (h.addSub hk)

include htyped

/-- A node above another one is not marked when the engine does not handle it. -/
theorem skipJit_parent {x c : ℕ} (hx : Reach P.storage root x) (hc : c ∈ (P.storage x).children) :
    (a₀ x).skipJit = false ↔ ¬Handled P.storage root x := by
  refine skipJit_eq_false_iff hskip hx (Or.inl ?_)
  by_contra hleaf
  have ht := htyped x hx
  unfold TypedNode at ht
  have hnil : (P.storage x).children = [] := by
    revert hleaf ht
    cases (P.storage x).kind <;> simp [NodeKind.isLeaf]
  rw [hnil] at hc
  exact absurd hc List.not_mem_nil

/-- **Coverable is covered with the marks of the engine.** -/
theorem covered_iff : Covered P.storage a₀ root ↔ Coverable P.storage root := by
  have hself := skipJit_eq_false_iff hskip (Reach.refl _ _) (Or.inr rfl)
  constructor
  · intro h
    refine ⟨?_, fun n hn hnot hleaf => ?_, fun n hn hnot c hc hcH => ?_, fun ns hnd hns => ?_⟩
    · by_contra hleaf
      exact hleaf (h.compound (hself.2 fun hH => hleaf hH.not_leaf))
    · have hs := (skipJit_eq_false_iff hskip hn (Or.inl hleaf)).2 hnot
      obtain ⟨hc, hsub⟩ := h.coded n ⟨hn, Or.inl hs⟩ hleaf
      exact ⟨by simpa [Jit.coded, hs] using hc, hsub⟩
    · have hs := (skipJit_parent htyped hskip hn hc).2 hnot
      have hcoded := (h.coded c ⟨hn.child hc, Or.inr ⟨n, hn, hs, hc⟩⟩ hcH.not_leaf).1
      rw [Jit.coded, (hskip c (hn.child hc) (Or.inl hcH.not_leaf)).2 hcH] at hcoded
      simp at hcoded
    · refine h.six ns hnd fun n hn => ?_
      obtain ⟨hr, hk, hnot⟩ := hns n hn
      exact ⟨hr, hk, fun he => (skipJit_eq_false_iff hskip hr (Or.inr he)).2 hnot⟩
  · intro h
    refine ⟨fun _ => h.compound, fun n hn hleaf => ?_, fun ns hnd hns => ?_⟩
    · have hskipn := skipJit_eq_false_iff hskip hn.1 (Or.inl hleaf)
      have hnot : ¬Handled P.storage root n := by
        rcases hn.2 with hs | ⟨p, hp, hs, hc⟩
        · exact hskipn.1 hs
        · exact h.reads p hp ((skipJit_parent htyped hskip hp hc).1 hs) n hc
      obtain ⟨hem, hsub⟩ := h.kinds n hn.1 hnot hleaf
      exact ⟨by rw [Jit.coded, hem, hskipn.2 hnot]; rfl, hsub⟩
    · refine h.six ns hnd fun n hn => ?_
      obtain ⟨hr, hk, hs⟩ := hns n hn
      refine ⟨hr, hk, fun hH => ?_⟩
      have he := hH.addSub (by rw [hk]; rfl)
      exact (skipJit_eq_false_iff hskip hr (Or.inr he)).1 (hs he) hH

end Coverage

/-! ### Roots the engine handles -/

/-- The 64 rows of a block of the data. -/
def blockRows (fields : List FieldDescriptor) (data : ℕ → BitVec 8) (rowStride q r : ℕ) :
    Name → Word :=
  rowOf fields data rowStride (64 * q + r)

/-- **Where the engine handles the root itself, `execute` adds up its meanings**: on every
platform, over any schema with the fields of the root, for all data and numbers of rows. -/
def AddsMeanings (count : (ℕ → Bool) → ℕ → Word) (P : NodePool) (root : ℕ) : Prop :=
  ∀ s, engineSum P.storage root = some s → ∀ (PF : Platform) (E₀ : ApexEngine) (schemaName : Name)
    (fields : List FieldDescriptor) (rowStride : ℕ), E₀.registry.schemas schemaName = none →
    E₀.exprLogic = [] → (∀ n, Reach P.storage root n → (P.storage n).kind = .LOAD →
      ∃ d ∈ fields, d.name = (P.storage n).fieldName) → ∀ (a : ℕ → Annot) (E : ApexEngine),
    setExpression PF (E₀.registerSchema schemaName fields rowStride) schemaName P.storage P.annot
      (some root) .BIT_SLICED = .ok (a, E) → E.exprLogic ≠ [] →
    ∀ (data : ℕ → BitVec 8) (rowCount : ℕ), ∃ E', execute PF E data rowCount =
      some (∑ i ∈ Finset.range rowCount,
        meaning count P.storage (blockRows fields data rowStride (i / 64)) (i % 64) root, E')

/-- What step 4 takes of the operands stands for their meanings: none is a bare leaf, and on
every row the constants and weights that the masks choose add up to the meaning of the root. -/
def Weighted (count : (ℕ → Bool) → ℕ → Word) (g : ℕ → Node) (root : ℕ) : Prop :=
  ∀ s, engineSum g root = some s → ¬AddsLeaf g root ∧ ∀ rows, ∀ r < 64,
    sumValue g root s (meaning count g rows r) = meaning count g rows r root

section Handled

variable {count : (ℕ → Bool) → ℕ → Word} {P : NodePool} (hP : Built P) {root : ℕ}
  (hlt : root < P.nextIdx) (hfresh : Fresh P root) (htyped : WellTyped P.storage root)

include hP hfresh htyped

/-- Where the root is coverable, the masks of the operands have their meanings. -/
theorem Coverable.rootWord_eq (hcov : Coverable P.storage root) {a₁ : ℕ → Annot}
    (hmark : markSkip P.storage root P.annot = .ok a₁) {s op : ℕ}
    (hs : engineSum P.storage root = some s) (hop : op ∈ (P.storage s).operands)
    (hleaf : (P.storage op).kind.isLeaf = false) (rows : ℕ → Name → Word) (r : ℕ) :
    rootWord P.storage a₁ root 0 r (rows r) (maskNode P.storage op) =
      meaning count P.storage rows r (maskNode P.storage op) := by
  obtain ⟨a₁', hmark', -, hskip⟩ := markSkip_handled (htyped root (Reach.refl _ _)) P.annot
  obtain rfl := Except.ok.inj (hmark'.symm.trans hmark)
  have hskip' : ∀ x, Reach P.storage root x → (P.storage x).kind.isLeaf = false ∨ x = root →
      ((a₁' x).skipJit = true ↔ Handled P.storage root x) :=
    fun x hx hleaf => hskip x hleaf (hfresh.skipJit hx)
  have hcov' := (covered_iff htyped hskip').2 hcov
  have hreach := reach_maskNode htyped hs hop
  refine hcov'.flow hP (fun _ => rfl) (fun r => words_rootWord hP a₁' root 0 r (rows r))
    ⟨hreach.2, Or.inl ?_⟩ r
  rw [skipJit_eq_false_iff hskip' hreach.2 (Or.inl (maskNode_not_leaf htyped hs hop hleaf))]
  by_cases hk : (P.storage op).kind = .SELECT
  · -- the condition is a mask
    have ht := htyped op hreach.1
    rw [TypedNode, hk] at ht
    obtain ⟨i, l, r, hsel, hi, -⟩ := ht
    rw [maskNode, if_pos hk, hsel.cond]
    exact fun h => absurd (h.not_mask.symm.trans hi) (by decide)
  · rw [maskNode, if_neg hk]
    have hlt : op < s := (hP.ordered.2 s op (by simp [Node.children, hop])).1
    have hle := hP.reach_le (engineSum_reach hs)
    rintro ⟨s', hs', rfl | rfl | ⟨-, hsel⟩⟩
    · omega
    · obtain rfl := Option.some.inj (hs'.symm.trans hs)
      omega
    · exact hk hsel

include hlt

variable (count) in
/-- **What `execute` returns for a handled root** that is coverable. -/
theorem Coverable.execute_eq (hcov : Coverable P.storage root) {s : ℕ}
    (hs : engineSum P.storage root = some s) (hadds : ¬AddsLeaf P.storage root) {PF : Platform}
    {E₀ : ApexEngine} {schemaName : Name} {fields : List FieldDescriptor} {rowStride : ℕ}
    (hnew : E₀.registry.schemas schemaName = none) (honly : E₀.exprLogic = [])
    (hreg : ∀ n, Reach P.storage root n → (P.storage n).kind = .LOAD →
      ∃ d ∈ fields, d.name = (P.storage n).fieldName) {a : ℕ → Annot} {E : ApexEngine}
    (hset : setExpression PF (E₀.registerSchema schemaName fields rowStride) schemaName P.storage
      P.annot (some root) .BIT_SLICED = .ok (a, E)) (hacc : E.exprLogic ≠ [])
    (data : ℕ → BitVec 8) (rowCount : ℕ) :
    ∃ E', execute PF E data rowCount = some (∑ i ∈ Finset.range rowCount, sumValue P.storage root s
      (meaning count P.storage (blockRows fields data rowStride (i / 64)) (i % 64)), E') := by
  obtain ⟨a₁, hmark, -⟩ := markSkip_handled (htyped root (Reach.refl _ _)) P.annot
  have hmarks := (Usable.of_fresh hP hfresh).rootMarks hmark
  obtain ⟨L, names, hI, hmode, hbits, hrefs, -, hcomp, hsum, hkind, hN, hlen⟩ :=
    setExpression_root hP hlt hmark hnew honly hreg hset hacc
  have hown : ∀ {c c' r row row'}, (∀ f ∈ names, row f = row' f) →
      rootValue P.storage a₁ root c r row = rootValue P.storage a₁ root c' r row' := fun hrow =>
    rootValue_congr hP htyped (fun x hx hk => hrow _ ((hrefs.mem _).2 ⟨x, hx, hk, rfl⟩))
      fun h => absurd (h.1.1.symm.trans hs) (by simp)
  have hw := (root_totals hP hlt htyped hcomp hkind hsum hmarks hcov.compound hadds hN
    hlen).laneTotals (v := rootValue P.storage a₁ root 0) fun c r row => hown fun _ _ => rfl
  obtain ⟨E', hrun⟩ := hI.execute_lanes hmode hbits hw (fun r row row' h => hown h) E.fieldBuffers data
    rowCount
  refine ⟨E', hrun.trans (congrArg (fun v => some (v, E')) (Finset.sum_congr rfl fun i _ => ?_))⟩
  have hrow : recordAt (fun f => fields.find? fun d => d.name = f) data (i * rowStride) =
      blockRows fields data rowStride (i / 64) (i % 64) := by
    rw [blockRows, Nat.div_add_mod]
    rfl
  rw [rowValue, rootValue, hs, hrow]
  exact sumValue_congr fun op hop => hcov.rootWord_eq hP hfresh htyped hmark hs hop
    (not_leaf_of_adds hadds hs hop) (blockRows fields data rowStride (i / 64)) (i % 64)

end Handled

/-! ### The operands -/

section Weights

variable {count : (ℕ → Bool) → ℕ → Word} {P : NodePool} (hP : Built P) {root : ℕ}
  (htyped : WellTyped P.storage root)

include hP

/-- The meaning of a mask is 0 or 1. -/
theorem meaning_mask {n : ℕ} (hk : (P.storage n).kind.isMask = true) (rows : ℕ → Name → Word) (r : ℕ) :
    truth (meaning count P.storage rows r n) = (meaning count P.storage rows r n).getLsbD 0 := by
  have hbit : ∀ b, truth (bit b) = (bit b : Word).getLsbD 0 := by decide
  rw [Jit.meaning_eq hP, Jit.nodeMeaning_emitted (by rw [Jit.emitted, hk, Bool.or_true, Bool.true_or])
    (fun h => by rw [h] at hk; cases hk) (· - ·)]
  revert hk
  cases (P.storage n).kind <;> simp [NodeKind.isMask, Jit.opValue, hbit]

theorem meaning_const {n : Option ℕ} {v : Word} (h : constOf P.storage n = some v)
    (rows : ℕ → Name → Word) (r : ℕ) : n.elim 0 (meaning count P.storage rows r) = v := by
  obtain ⟨i, rfl, hi⟩ := Option.bind_eq_some_iff.1 h
  split_ifs at hi with hk
  rw [Option.elim_some, Jit.meaning_eq hP, Jit.nodeMeaning]
  simp only [hk]
  exact Option.some.inj hi

include htyped

/-- **`SELECT`s of two constants and masks with weights are what step 4 takes them for.** -/
theorem weighted_of_shapes (h : ∀ s, engineSum P.storage root = some s →
    (P.storage s).operands ≠ [] ∧ ∀ op ∈ (P.storage s).operands, (P.storage op).kind.isMask = true ∨
      (P.storage op).kind = .SELECT ∧ (constOf P.storage (P.storage op).left).isSome = true ∧
        (constOf P.storage (P.storage op).right).isSome = true) : Weighted count P.storage root := by
  intro s hs
  obtain ⟨hne, hops⟩ := h s hs
  refine ⟨?_, fun rows r _ => ?_⟩
  · rintro ⟨s', hs', op, hop, hleaf⟩
    obtain rfl := Option.some.inj (hs'.symm.trans hs)
    rcases hops op hop with hk | ⟨hk, -⟩
    · rw [NodeKind.not_isLeaf_of_isMask hk] at hleaf
      cases hleaf
    · rw [hk] at hleaf
      cases hleaf
  have hop : ∀ op ∈ (P.storage s).operands,
      (if (meaning count P.storage rows r (maskNode P.storage op)).getLsbD 0 then thenOf P.storage op
        else elseOf P.storage op) = Jit.summandValue P.storage (meaning count P.storage rows r) op := by
    intro op hop
    rw [Jit.summandValue, thenOf, elseOf, maskNode]
    rcases hops op hop with hk | ⟨hk, hl, hr⟩
    · have hsel : (P.storage op).kind ≠ .SELECT := fun h => by rw [h] at hk; cases hk
      rw [if_neg hsel, if_neg hsel, if_neg hsel, if_pos hk, meaning_mask hP hk]
    · obtain ⟨u, hu⟩ := Option.isSome_iff_exists.1 hl
      obtain ⟨v, hv⟩ := Option.isSome_iff_exists.1 hr
      have ht := htyped op (reach_maskNode htyped hs hop).1
      rw [TypedNode, hk] at ht
      obtain ⟨i, l, x, hsel, hi, -⟩ := ht
      have hmask : ¬(P.storage op).kind.isMask = true := by rw [hk]; decide
      rw [if_pos hk, if_pos hk, if_pos hk, hu, hv, if_neg hmask, Jit.meaning_eq hP r op,
        Jit.nodeMeaning]
      simp only [hk, Jit.opValue, meaning_const hP hu, meaning_const hP hv, hsel.cond, Option.elim_some,
        Option.getD_some, meaning_mask hP hi]
  have hsum : ((P.storage s).operands.map fun op =>
      if (meaning count P.storage rows r (maskNode P.storage op)).getLsbD 0 then thenOf P.storage op
      else elseOf P.storage op).sum = meaning count P.storage rows r s := by
    rw [List.map_congr_left hop, Jit.meaning_eq hP r s, Jit.nodeMeaning]
    simp only [(engineSum_kind hs).1]
  rw [sumValue, if_neg hne, hsum]
  rcases engineSum_cases (htyped root (Reach.refl _ _)) with ⟨hnone, -⟩ | ⟨hself, -, hk⟩ |
    ⟨l, c, hl, -, -, hleft, hright, -, hconst, hadd⟩
  · rw [hnone] at hs
    cases hs
  · obtain rfl := Option.some.inj (hself.symm.trans hs)
    rw [rootConst, if_pos hk, zero_add]
  · obtain rfl := Option.some.inj (hl.symm.trans hs)
    have hc : constOf P.storage (P.storage root).right = some (P.storage c).constValue := by
      rw [hright, constOf, Option.bind_some, if_pos hconst]
    rw [rootConst, if_neg (by rw [hadd]; decide), hc, Option.getD_some, Jit.meaning_eq hP r root,
      Jit.nodeMeaning]
    simp only [hadd, Jit.opValue, meaning_const hP hc, hleft, Option.elim_some]
    exact add_comm _ _

end Weights

/-- **Where the totals are the meanings, the operands are what they are taken for**: any row can be
in a buffer, and the totals of one row more differ by that row. -/
theorem AddsMeanings.weighted {count : (ℕ → Bool) → ℕ → Word} {P : NodePool} (hP : Built P)
    {root : ℕ} (hlt : root < P.nextIdx) (hfresh : Fresh P root) (htyped : WellTyped P.storage root)
    (hA : AddsMeanings count P root) (hcov : Coverable P.storage root) {a₁ : ℕ → Annot}
    (hmark : markSkip P.storage root P.annot = .ok a₁)
    (hcode : ∃ a nodes body code, Jit.prepare P.storage a₁ root = (a, .ok nodes) ∧
      Jit.emitNodes P.storage a 64 nodes .init = .ok body ∧
      Jit.compileExpression (fun _ => true) P.storage a₁ root 64 = (a, .ok code)) :
    Weighted count P.storage root := by
  intro s hs
  obtain ⟨a, -, -, code, -, -, hcomp⟩ := hcode
  have hmeta := sumMeta_engine hs (htyped root (Reach.refl _ _))
    (fun op hop => htyped op (reach_maskNode htyped hs hop).1) a
  set names := Jit.fieldOrder P.storage root with hnames
  have hreg : ∀ n, Reach P.storage root n → (P.storage n).kind = .LOAD →
      (P.storage n).fieldName ∈ names := fun n hn hk =>
    (Jit.mem_fieldOrder hP hlt _).2 ⟨n, hn, hk, rfl⟩
  have hreg' : ∀ n, Reach P.storage root n → (P.storage n).kind = .LOAD →
      ∃ d ∈ wordFields names, d.name = (P.storage n).fieldName := fun n hn hk =>
    ⟨_, List.mem_map_of_mem (hreg n hn hk), rfl⟩
  obtain ⟨E, hset, hacc⟩ := setExpression_accepts_of .standard
    (init.registerSchema ['t'] (wordFields names) (wordStride names)) ['t'] hmark hmeta hcomp
  have htotal := hA s hs .standard init ['t'] (wordFields names) (wordStride names) rfl rfl hreg' a E
    hset hacc
  have hadds : ¬AddsLeaf P.storage root := by
    rintro ⟨s', hs', op, hop, hleaf⟩
    obtain ⟨L, names', hI, hmode, -, -, -, hcomp', hsum, hkind, -⟩ :=
      setExpression_root hP hlt hmark rfl rfl hreg' hset hacc
    obtain ⟨hL, hmd⟩ := hI.logic_eq (setExpression_keys rfl hset hacc)
    obtain ⟨E', hE'⟩ := htotal (fun _ => 0) 1
    rw [execute_none hL hmd (by rw [hmode]; decide) (leaf_total hP hlt htyped hcomp' hkind hsum
      ((Usable.of_fresh hP hfresh).rootMarks hmark) hs' hop hleaf) _ (by decide)] at hE'
    cases hE'
  refine ⟨hadds, fun rows r hr => ?_⟩
  -- the rows in a buffer, and the totals of `n` of them
  set data := rowBytes names rows
  have hsum : ∀ n, ∑ i ∈ Finset.range n, sumValue P.storage root s (meaning count P.storage
      (blockRows (wordFields names) data (wordStride names) (i / 64)) (i % 64)) =
      ∑ i ∈ Finset.range n, meaning count P.storage
        (blockRows (wordFields names) data (wordStride names) (i / 64)) (i % 64) root := fun n => by
    obtain ⟨E₁, h₁⟩ := hcov.execute_eq count hP hlt hfresh htyped hs hadds rfl rfl hreg' hset
      hacc data n
    obtain ⟨E₂, h₂⟩ := htotal data n
    exact congrArg Prod.fst (Option.some.inj (h₁.symm.trans h₂))
  have hlast := hsum (r + 1)
  rw [Finset.sum_range_succ, Finset.sum_range_succ, hsum r, add_right_inj, Nat.div_eq_of_lt hr,
    Nat.mod_eq_of_lt hr] at hlast
  have hrows : ∀ n, Reach P.storage root n → meaning count P.storage
      (blockRows (wordFields names) data (wordStride names) 0) r n =
      meaning count P.storage rows r n := fun n hn =>
    Jit.meaning_congr hP (fun x hx hk i => by
      rw [blockRows, Nat.mul_zero, Nat.zero_add, rowOf_rowBytes rows (hreg x hx hk)]) hn r
  rwa [hrows root (Reach.refl _ _), sumValue_congr fun op hop =>
    hrows _ (reach_maskNode htyped hs hop).2] at hlast

/-- **No silent miscompilation, exactly**: with the marks of `set_expression`, a well-typed root of
new nodes gets a null pointer, or a kernel that computes the meaning of every node it uses and, if
the engine handles the root, the sum of its meanings from `execute`, if and only if it does not
fit, or is coverable and what is taken of its operands stands for their meanings.  That is so
where all operands of the sum are masks or `SELECT`s of two constants. -/
theorem faithful_marked_iff (count : (ℕ → Bool) → ℕ → Word) {P : NodePool} (hP : Built P) {root : ℕ}
    (hroot : root < P.nextIdx) (hfresh : Fresh P root) (htyped : WellTyped P.storage root) :
    ∃ a₀, markMode P.storage .BIT_SLICED root P.annot = .ok a₀ ∧
      (Faithful count P.storage a₀ root ∧ AddsMeanings count P root ↔
        ¬Fits P.storage root ∨ Coverable P.storage root ∧ Weighted count P.storage root) ∧
      ((∀ s, engineSum P.storage root = some s → (P.storage s).operands ≠ [] ∧
          ∀ op ∈ (P.storage s).operands, (P.storage op).kind.isMask = true ∨
            (P.storage op).kind = .SELECT ∧ (constOf P.storage (P.storage op).left).isSome = true ∧
              (constOf P.storage (P.storage op).right).isSome = true) →
        Weighted count P.storage root) := by
  obtain ⟨a₀, hmark, hsame, hskip⟩ := markSkip_handled (htyped root (Reach.refl _ _)) P.annot
  have hskip' : ∀ x, Reach P.storage root x → (P.storage x).kind.isLeaf = false ∨ x = root →
      ((a₀ x).skipJit = true ↔ Handled P.storage root x) :=
    fun x hx hleaf => hskip x hleaf (hfresh.skipJit hx)
  have hkernel : Faithful count P.storage a₀ root ↔ ¬Fits P.storage root ∨ Coverable P.storage root := by
    rw [Jit.faithful_iff hP hroot htyped (marked_of_fresh hskip' hP hfresh hsame),
      covered_iff htyped hskip']
  refine ⟨a₀, hmark, ⟨fun ⟨hF, hA⟩ => ?_, fun h => ?_⟩, weighted_of_shapes hP htyped⟩
  · by_cases hfits : Fits P.storage root
    · have hcov := (hkernel.1 hF).resolve_left (not_not.2 hfits)
      exact Or.inr ⟨hcov, AddsMeanings.weighted hP hroot hfresh htyped hA hcov hmark
        (hF.code hP hroot hfits)⟩
    · exact Or.inl hfits
  · refine ⟨hkernel.2 (h.imp_right And.left), fun s hs PF E₀ schemaName fields rowStride hnew honly hreg
      a E hset hacc data rowCount => ?_⟩
    rcases h with hfits | ⟨hcov, hweights⟩
    · -- a root that does not fit is not accepted
      obtain ⟨L, names, -, -, -, -, -, hcomp, -⟩ :=
        setExpression_root hP hroot hmark hnew honly hreg hset hacc
      obtain ⟨nodes, body, hprep, -, -⟩ := Jit.compileExpression_ok hcomp
      exact absurd ((Jit.prepare_isOk_iff hP a₀ hroot).1 ⟨a, nodes, hprep⟩) hfits
    · obtain ⟨hadds, hvalue⟩ := hweights s hs
      obtain ⟨E', hrun⟩ := hcov.execute_eq count hP hroot hfresh htyped hs hadds hnew honly
        hreg hset hacc data rowCount
      refine ⟨E', hrun.trans ?_⟩
      rw [Finset.sum_congr rfl fun i _ => hvalue _ (i % 64) (Nat.mod_lt _ (by decide))]

/-- `Add(Sum({Select(c, 7, 2), c}), 100)` with `c = GT(Load("a"), 5)` is not miscompiled. -/
theorem faithful_forest :
    ∃ a₀, markMode forestPool.storage .BIT_SLICED 8 forestPool.annot = .ok a₀ ∧
      Faithful (fun p r => bit (p r)) forestPool.storage a₀ 8 ∧
      AddsMeanings (fun p r => bit (p r)) forestPool 8 := by
  have hle : ∀ {n}, Reach forestPool.storage 8 n → n ≤ 8 := fun hn =>
    forestPool_pristine.built.reach_le hn
  have hsum := forestPool_root.engineSum_eq.1
  have hhandled : ∀ n, n = 8 ∨ n = 6 ∨ n ∈ [5, 2] ∧ (forestPool.storage n).kind = .SELECT →
      Handled forestPool.storage 8 n := fun n h => ⟨6, hsum, h⟩
  have hcov : Coverable forestPool.storage 8 := by
    refine ⟨rfl, fun n hn hnot => ?_, fun n hn hnot c hc hcH => ?_, fun ns _ hns => ?_⟩
    · have := hle hn
      interval_cases n <;> first | decide | exact absurd (hhandled _ (by decide)) hnot
    · -- only the comparison reads anything, two leaves
      refine absurd hcH.not_leaf ?_
      clear hcH
      have := hle hn
      revert c
      interval_cases n <;> first | decide | exact absurd (hhandled _ (by decide)) hnot
    · cases ns with
      | nil => exact Nat.zero_le _
      | cons n ns =>
        obtain ⟨hn, hk, hnot⟩ := hns n (List.mem_cons_self ..)
        have := hle hn
        interval_cases n <;> first
          | exact absurd hk (by decide)
          | exact absurd (hhandled _ (by decide)) hnot
  obtain ⟨a₀, hmark, hiff, hweights⟩ := faithful_marked_iff (fun p r => bit (p r))
    forestPool_pristine.built (by decide) (forestPool_pristine.fresh 8)
    (forestPool_root.wellTyped forestPool_summand)
  refine ⟨a₀, hmark, hiff.2 (Or.inr ⟨hcov, hweights fun s hs => ?_⟩)⟩
  obtain rfl := Option.some.inj (hsum.symm.trans hs)
  decide

/-- The pool of `Mul(Load("a"), Load("b"))`. -/
def mulPool : NodePool :=
  ((do
    let x ← Builder.Load ['a']
    let y ← Builder.Load ['b']
    Builder.Mul x y : StateM NodePool (Option ℕ)) .empty).2

theorem mulPool_pristine : Pristine mulPool :=
  ((Pristine.empty.emplace { kind := .LOAD, fieldName := ['a'] } .BITPLANE (by decide)).emplace
    { kind := .LOAD, fieldName := ['b'] } .BITPLANE (by decide)).emplace
      { kind := .MUL, left := some 0, right := some 1 } .BITPLANE (by decide)

theorem mulPool_typed : WellTyped mulPool.storage 2 := fun n hn => by
  have := mulPool_pristine.built.reach_le hn
  interval_cases n
  · exact rfl
  · exact rfl
  · exact ⟨0, 1, ⟨rfl, rfl, rfl, rfl, rfl⟩, rfl, rfl⟩

/-- With `a = b = 7` in all rows and a scratchpad of zeros, the kernel of `Mul(a, b)`
returns and delivers 0 and not 49. -/
theorem mul_delivers_zero :
    ∃ a code m', markMode mulPool.storage .BIT_SLICED 2 mulPool.annot = .ok mulPool.annot ∧
      Jit.compileExpression (fun _ => true) mulPool.storage mulPool.annot 2 64 = (a, .ok code) ∧
      A64.call code (Jit.Abi.standard.enter (fun i => some (Jit.constColumns 7 i)) fun _ => 0) =
        some m' ∧
      Planes (pad Jit.Layout.standard m') (fun _ => (0 : Word)) ∧
      ¬Planes (pad Jit.Layout.standard m') fun _ => (7 : Word) * 7 := by
  have hok : (Jit.compileExpression (fun _ => true) mulPool.storage mulPool.annot 2 64).2.isOk =
      true := by decide
  cases hcomp : Jit.compileExpression (fun _ => true) mulPool.storage mulPool.annot 2 64 with
  | mk a res =>
    rw [hcomp] at hok
    cases res with
    | error f => simp [Except.isOk, Except.toBool] at hok
    | ok code =>
      have hF : Jit.FieldPlanes Jit.Layout.standard (Jit.constColumns 7) mulPool.storage a 2
          fun _ _ => 7 := fun n hn hk =>
        ⟨Jit.compile_fieldIdx_lt mulPool_pristine.built (by decide) hcomp hn hk, Jit.planes_constColumns 7 _⟩
      have hm := Jit.Abi.standard.args_some (Jit.constColumns 7) fun _ => 0
      obtain ⟨V, hV⟩ := Jit.exists_flow mulPool_pristine.built a (fun _ _ => 7)
        (Jit.residue a (pad Jit.Layout.standard
          (Jit.Abi.standard.enter (fun i => some (Jit.constColumns 7 i)) fun _ => 0)))
      obtain ⟨m', hcall, -, hnum, -⟩ := Jit.compile_root mulPool_pristine.built (by decide) hcomp
        mulPool_pristine.built.eqSlotId (fun n hn _ => (mulPool_typed n hn).sorted)
        (fun n hn _ => (mulPool_pristine.fresh 2).skipJit hn) hF hm hV rfl rfl
      obtain ⟨nodes, body, hprep, -, -⟩ := Jit.compileExpression_ok hcomp
      have hp := Jit.prepare_spec mulPool_pristine.built (show 2 < mulPool.nextIdx by decide) hprep
      have hblock := (hp.block ((hp.mem_iff 2).2 (Reach.refl _ _)) rfl rfl).2
      -- no instruction writes the block of the product
      have hzero : ∀ r, V r 2 = 0 := fun r => by
        rw [(hV r).left_over rfl
          (by rw [Jit.coded, show Jit.emitted (mulPool.storage 2).kind = false from rfl]; rfl)]
        exact Jit.residue_zero fun b hb => Jit.Abi.standard.scratch _ _ _ (by omega)
      have hplanes : Planes (pad Jit.Layout.standard m') fun _ => (0 : Word) :=
        (hnum rfl).lanes fun r _ => (hzero r).symm
      refine ⟨a, code, m', rfl, rfl, hcall, hplanes, fun h => ?_⟩
      exact absurd (hplanes.lane_unique h (show 0 < 64 by decide)) (by decide)

end ApexEngine
end Engine
end AarchGate
