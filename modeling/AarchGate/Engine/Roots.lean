/-
# What a root is worth

The roots `set_expression` installs in the `BIT_SLICED` mode are delivered in one of three
ways.  A boolean root is a mask in `x0`.  An arithmetic root is delivered in the first 64
words of the scratchpad.  Of a `SUM`, or a `SUM` plus a constant, the engine adds up the
operands itself (`engineSum`): step 1.5 marks the root, the sum and the `SELECT`s below it,
the compiler leaves the marked nodes out (`markSkip_spec`), step 4 takes a weight and a mask for
every operand (`sumMeta_engine`), and the aggregation puts them together.

`rootValue` is what comes out in a lane, for every well-typed root and whatever earlier
calls have left in its nodes.  A node without code has no word of its own: it reads what stands
in its block of the scratchpad, and that is zero in all blocks but the first.  **The first
block is where the previous call has delivered its planes.**  It belongs to the first operation of
the root (`firstOp`), and if that operation has no code, the value of a row goes into the row 64
further on.  `root_totals` says so for the chunks that share a scratchpad.
-/

import AarchGate.Engine.Correct
import Mathlib.Tactic.LinearCombination

namespace AarchGate
namespace Engine
namespace ApexEngine

open A64 Ir AarchGate.Core Compute BitPlane
open Jit (Columns Fault deref TypedNode WellTyped compileExpression pad subLane truth truth_bit firstOp
  prepare_spec)

/-! ### The sum of the engine -/

/-- The `SUM` the engine adds up itself. -/
def engineSum (g : ℕ → Node) (root : ℕ) : Option ℕ :=
  match (g root).kind, (g root).left, (g root).right with
  | .SUM, _, _ => some root
  | .ADD, some l, some r => if (g l).kind = .SUM ∧ (g r).kind = .CONST then some l else none
  | _, _, _ => none

/-- The nodes the engine handles itself, but for a constant. -/
def Handled (g : ℕ → Node) (root n : ℕ) : Prop :=
  ∃ s, engineSum g root = some s ∧ (n = root ∨ n = s ∨ n ∈ (g s).operands ∧ (g n).kind = .SELECT)

/-- The nodes step 1.5 marks: also the constant that is added to the sum. -/
def MarksSkip (g : ℕ → Node) (root n : ℕ) : Prop :=
  Handled g root n ∨ ∃ s, engineSum g root = some s ∧ s ≠ root ∧ (g root).right = some n

section Marks

variable {g : ℕ → Node} {root : ℕ}

/-- The kind of the sum, and of a root above it. -/
theorem engineSum_kind {s : ℕ} (h : engineSum g root = some s) : (g s).kind = .SUM ∧
    (s = root ∨ (g root).kind = .ADD) := by
  unfold engineSum at h
  split at h
  · next hk =>
    obtain rfl := Option.some.inj h
    exact ⟨hk, Or.inl rfl⟩
  · next hk _ _ =>
    split_ifs at h with hs
    obtain rfl := Option.some.inj h
    exact ⟨hs.1, Or.inr hk⟩
  · cases h

/-- The sum is a node of the root. -/
theorem engineSum_reach {s : ℕ} (h : engineSum g root = some s) : Reach g root s := by
  unfold engineSum at h
  split at h
  · exact Option.some.inj h ▸ Reach.refl _ _
  · next hl _ =>
    split_ifs at h
    exact (Reach.refl _ _).child (Option.some.inj h ▸ left_mem_children hl)
  · cases h

/-- The operand beside the sum is a constant. -/
theorem engineSum_const {s c : ℕ} (h : engineSum g root = some s) (hne : s ≠ root)
    (hc : (g root).right = some c) : (g c).kind = .CONST := by
  unfold engineSum at h
  split at h
  · exact absurd (Option.some.inj h).symm hne
  · next hr =>
    split_ifs at h with hs
    rw [hc] at hr
    exact Option.some.inj hr ▸ hs.2
  · cases h

/-- The engine handles sums, their `SELECT`s and the root. -/
theorem Handled.kind {n : ℕ} (h : Handled g root n) : (g n).kind = .SUM ∨ (g n).kind = .SELECT ∨
    n = root ∧ (g n).kind = .ADD := by
  obtain ⟨s, hs, hn⟩ := h
  obtain ⟨hk, hroot⟩ := engineSum_kind hs
  rcases hn with rfl | rfl | ⟨-, hsel⟩
  · rcases hroot with rfl | hadd
    · exact Or.inl hk
    · exact Or.inr (Or.inr ⟨rfl, hadd⟩)
  · exact Or.inl hk
  · exact Or.inr (Or.inl hsel)

/-- It is no leaf. -/
theorem Handled.not_leaf {n : ℕ} (h : Handled g root n) : (g n).kind.isLeaf = false := by
  rcases h.kind with h | h | ⟨-, h⟩ <;> rw [h] <;> rfl

/-- Nor a mask. -/
theorem Handled.not_mask {n : ℕ} (h : Handled g root n) : (g n).kind.isMask = false := by
  rcases h.kind with h | h | ⟨-, h⟩ <;> rw [h] <;> rfl

/-- A sum only at the root. -/
theorem Handled.addSub {n : ℕ} (h : Handled g root n) (hk : Jit.isAddSub (g n).kind = true) :
    n = root := by
  rcases h.kind with h | h | ⟨h, -⟩
  · rw [h] at hk; exact absurd hk (by decide)
  · rw [h] at hk; exact absurd hk (by decide)
  · exact h

/-- One node is marked. -/
theorem setSkip_apply (a : ℕ → Annot) (n x : ℕ) :
    setSkip true a n x = if x = n then { a x with skipJit := true } else a x := by
  by_cases h : x = n
  · subst h; simp [setSkip, Jit.setAnnot]
  · simp [setSkip, Jit.setAnnot, h]

/-- The loop over the operands marks the `SELECT`s. -/
theorem foldl_setSkip (g : ℕ → Node) (ops : List ℕ) (a : ℕ → Annot) (x : ℕ) :
    ops.foldl (fun a op => if (g op).kind = .SELECT then setSkip true a op else a) a x =
      if x ∈ ops ∧ (g x).kind = .SELECT then { a x with skipJit := true } else a x := by
  induction ops generalizing a with
  | nil => simp
  | cons op ops ih =>
    rw [List.foldl_cons, ih]
    by_cases hx : x = op
    · subst hx
      by_cases hk : (g x).kind = .SELECT
      · simp [hk, setSkip_apply]
      · simp [hk]
    · by_cases hk : (g op).kind = .SELECT
      · simp [hk, setSkip_apply, hx]
      · simp [hk, hx]

/-- **What step 1.5 marks**: the nodes the engine handles and the constant, for any metadata;
an `ADD` without operands is undefined. -/
theorem markSkip_spec (g : ℕ → Node) (root : ℕ) :
    ((g root).kind = .ADD ∧ ((g root).left = none ∨ (g root).right = none) ∧
      ∀ a, markSkip g root a = .error .undefined) ∨
    ∀ a, ∃ a₀, markSkip g root a = .ok a₀ ∧ (∀ x, a₀ x = { a x with skipJit := (a₀ x).skipJit }) ∧
      ∀ x, (a₀ x).skipJit = true ↔ (a x).skipJit = true ∨ MarksSkip g root x := by
  by_cases hsum : (g root).kind = .SUM
  · have heng : engineSum g root = some root := by simp [engineSum, hsum]
    refine Or.inr fun a => ⟨_, by simp only [markSkip, effectiveRoot, isSumPlusConst, hsum, reduceCtorEq,
      if_false, if_true, bind, Except.bind, Bool.false_eq_true]; rfl, fun x => ?_, fun x => ?_⟩
    · simp only [foldl_setSkip, setSkip_apply]
      split_ifs <;> rfl
    · simp only [foldl_setSkip, setSkip_apply, MarksSkip, Handled, heng, Option.some.injEq,
        exists_eq_left', ne_eq, not_true_eq_false, false_and, or_false]
      split_ifs with h h' <;> grind
  by_cases hadd : (g root).kind = .ADD
  swap
  · have heng : engineSum g root = none := by
      unfold engineSum
      split <;> simp_all
    refine Or.inr fun a => ⟨a, by simp only [markSkip, effectiveRoot, isSumPlusConst, if_neg hadd, bind,
      Except.bind, Bool.false_eq_true, if_false, if_neg hsum], fun _ => rfl, fun x => ?_⟩
    simp [MarksSkip, Handled, heng]
  have hfail : isSumPlusConst g root = .error .undefined → ∀ a, markSkip g root a = .error .undefined :=
    fun h a => by simp only [markSkip, h, bind, Except.bind]
  have hplain : isSumPlusConst g root = .ok false → engineSum g root = none →
      ∀ a, ∃ a₀, markSkip g root a = .ok a₀ ∧ (∀ x, a₀ x = { a x with skipJit := (a₀ x).skipJit }) ∧
        ∀ x, (a₀ x).skipJit = true ↔ (a x).skipJit = true ∨ MarksSkip g root x := fun hplus heng a =>
    ⟨a, by simp only [markSkip, effectiveRoot, hplus, bind, Except.bind, Bool.false_eq_true, if_false,
      if_neg hsum], fun _ => rfl, fun x => by simp [MarksSkip, Handled, heng]⟩
  cases hl : (g root).left with
  | none =>
    exact Or.inl ⟨hadd, Or.inl rfl, hfail (by
      simp only [isSumPlusConst, hadd, hl, deref, if_true, bind, Except.bind])⟩
  | some l =>
    by_cases hsl : (g l).kind = .SUM
    swap
    · refine Or.inr (hplain ?_ ?_)
      · simp only [isSumPlusConst, hadd, hl, deref, if_true, bind, Except.bind, if_neg hsl]
      · cases hr : (g root).right <;> simp [engineSum, hadd, hl, hr, hsl]
    cases hr : (g root).right with
    | none =>
      exact Or.inl ⟨hadd, Or.inr rfl, hfail (by
        simp only [isSumPlusConst, hadd, hl, hr, deref, if_true, bind, Except.bind, hsl])⟩
    | some r =>
      by_cases hc : (g r).kind = .CONST
      · have heng : engineSum g root = some l := by simp [engineSum, hadd, hl, hr, hsl, hc]
        have hne : l ≠ root := by rintro rfl; exact hsum hsl
        refine Or.inr fun a => ⟨_, by simp only [markSkip, effectiveRoot, isSumPlusConst, hadd, hl, hr,
          deref, hsl, hc, if_true, bind, Except.bind, decide_true]; rfl, fun x => ?_, fun x => ?_⟩
        · simp only [foldl_setSkip, setSkip_apply]
          split_ifs <;> rfl
        · simp only [foldl_setSkip, setSkip_apply, MarksSkip, Handled, heng, Option.some.injEq,
            exists_eq_left', hr]
          split_ifs with h h' h'' <;> grind
      · refine Or.inr (hplain ?_ ?_)
        · simp only [isSumPlusConst, hadd, hl, hr, deref, if_true, bind, Except.bind, hsl, hc,
            decide_false]
        · simp [engineSum, hadd, hl, hr, hc]

/-- On a well-typed root step 1.5 is defined. -/
theorem markSkip_handled (ht : TypedNode g root) (a : ℕ → Annot) :
    ∃ a₀, markSkip g root a = .ok a₀ ∧ (∀ x, a₀ x = { a x with skipJit := (a₀ x).skipJit }) ∧
      ∀ x, (g x).kind.isLeaf = false ∨ x = root → (a x).skipJit = false →
        ((a₀ x).skipJit = true ↔ Handled g root x) := by
  rcases markSkip_spec g root with ⟨hk, hnull, -⟩ | h
  · rw [TypedNode, hk] at ht
    obtain ⟨l, r, hb, -, -⟩ := ht
    rw [hb.left, hb.right] at hnull
    simp at hnull
  · obtain ⟨a₀, hmark, hsame, hskip⟩ := h a
    refine ⟨a₀, hmark, hsame, fun x hx hs => ?_⟩
    rw [hskip x, hs, MarksSkip]
    refine ⟨fun h => ?_, fun h => Or.inr (Or.inl h)⟩
    rcases h with h | h | ⟨s, hs, hne, hr⟩
    · exact absurd h (by decide)
    · exact h
    -- the constant is a leaf below the root
    · have hc := engineSum_const hs hne hr
      rcases hx with hx | rfl
      · rw [hc] at hx; exact absurd hx (by decide)
      · exact ⟨s, hs, Or.inl rfl⟩

/-- The three shapes of a well-typed root. -/
theorem engineSum_cases (ht : TypedNode g root) :
    (engineSum g root = none ∧ isSumPlusConst g root = .ok false ∧ (g root).kind ≠ .SUM) ∨
    (engineSum g root = some root ∧ isSumPlusConst g root = .ok false ∧ (g root).kind = .SUM) ∨
    ∃ l c, engineSum g root = some l ∧ l ≠ root ∧ isSumPlusConst g root = .ok true ∧
      (g root).left = some l ∧ (g root).right = some c ∧ (g l).kind = .SUM ∧
      (g c).kind = .CONST ∧ (g root).kind = .ADD := by
  by_cases hsum : (g root).kind = .SUM
  · exact Or.inr (Or.inl ⟨by simp [engineSum, hsum], by simp [isSumPlusConst, hsum], hsum⟩)
  by_cases hadd : (g root).kind = .ADD
  swap
  · refine Or.inl ⟨?_, by rw [isSumPlusConst, if_neg hadd], hsum⟩
    unfold engineSum
    split <;> simp_all
  rw [TypedNode, hadd] at ht
  obtain ⟨l, c, hb, -, -⟩ := ht
  by_cases hl : (g l).kind = .SUM ∧ (g c).kind = .CONST
  · refine Or.inr (Or.inr ⟨l, c, ?_, ?_, ?_, hb.left, hb.right, hl.1, hl.2, hadd⟩)
    · simp [engineSum, hadd, hb.left, hb.right, hl]
    · rintro rfl
      exact hsum hl.1
    · simp [isSumPlusConst, hadd, hb.left, hb.right, deref, bind, Except.bind, hl]
  · refine Or.inl ⟨?_, ?_, hsum⟩
    · simp [engineSum, hadd, hb.left, hb.right, hl]
    · by_cases hk : (g l).kind = .SUM
      · have hc : (g c).kind ≠ .CONST := fun h => hl ⟨hk, h⟩
        simp [isSumPlusConst, hadd, hb.left, hb.right, deref, bind, Except.bind, hk, hc]
      · simp [isSumPlusConst, hadd, hb.left, deref, bind, Except.bind, hk]

/-- **The nodes of a root the engine handles**: the root, the sum, a constant, and the nodes
of the operands. -/
theorem reach_engineSum {s : ℕ} (h : engineSum g root = some s) (htyped : WellTyped g root) {n : ℕ}
    (hn : Reach g root n) :
    n = root ∨ n = s ∨ (g n).kind = .CONST ∨ ∃ op ∈ (g s).operands, Reach g op n := by
  have hsum : Reach g s n → TypedNode g s → n = s ∨ ∃ op ∈ (g s).operands, Reach g op n := by
    intro hn ht
    rw [TypedNode, (engineSum_kind h).1] at ht
    rcases hn.cases_head with rfl | ⟨op, hop, hopn⟩
    · exact Or.inl rfl
    · exact Or.inr ⟨op, by simpa [Node.children, ht.1, ht.2.1, ht.2.2] using hop, hopn⟩
  rcases engineSum_cases (htyped root (Reach.refl _ _)) with ⟨hnone, -⟩ | ⟨hself, -⟩ |
    ⟨l, c, hl, -, -, hleft, hright, -, hconst, hadd⟩
  · rw [hnone] at h
    cases h
  · obtain rfl := Option.some.inj (hself.symm.trans h)
    rcases hsum hn (htyped _ (Reach.refl _ _)) with h | h
    · exact Or.inl h
    · exact Or.inr (Or.inr (Or.inr h))
  · obtain rfl := Option.some.inj (hl.symm.trans h)
    have ht := htyped root (Reach.refl _ _)
    rw [TypedNode, hadd] at ht
    obtain ⟨x, y, hb, -, -⟩ := ht
    obtain rfl := Option.some.inj (hb.left.symm.trans hleft)
    obtain rfl := Option.some.inj (hb.right.symm.trans hright)
    rcases hn.cases_head with rfl | ⟨z, hz, hzn⟩
    · exact Or.inl rfl
    simp only [hb.children, List.mem_cons, List.not_mem_nil, or_false] at hz
    rcases hz with rfl | rfl
    · rcases hsum hzn (htyped _ ((Reach.refl _ _).child (by simp [hb.children]))) with h | h
      · exact Or.inr (Or.inl h)
      · exact Or.inr (Or.inr (Or.inr h))
    · rcases hzn.cases_head with rfl | ⟨y, hy, -⟩
      · exact Or.inr (Or.inr (Or.inl hconst))
      · have hleaf := htyped z ((Reach.refl _ _).child (by simp [hb.children]))
        rw [TypedNode, hconst] at hleaf
        rw [hleaf] at hy
        exact absurd hy List.not_mem_nil

/-! ### The metadata of the sum -/

/-- The node whose mask is counted for an operand. -/
def maskNode (g : ℕ → Node) (n : ℕ) : ℕ :=
  if (g n).kind = .SELECT then (g n).cond.getD 0 else n

/-- What step 4 takes for the value of an operand where its mask is set. -/
def thenOf (g : ℕ → Node) (op : ℕ) : Word :=
  if (g op).kind = .SELECT then (constOf g (g op).left).getD (g op).weight else (g op).weight

/-- What it takes for the value where the mask is not set. -/
def elseOf (g : ℕ → Node) (op : ℕ) : Word :=
  if (g op).kind = .SELECT then (constOf g (g op).right).getD 0 else 0

/-- The constant beside the sum. -/
def rootConst (g : ℕ → Node) (root : ℕ) : Word :=
  if (g root).kind = .SUM then 0 else (constOf g (g root).right).getD 0

/-- What an operand adds. -/
theorem operandMeta_eq {op : ℕ} (ht : TypedNode g op) (a : ℕ → Annot) :
    operandMeta g a op = .ok (elseOf g op, thenOf g op - elseOf g op, (a (maskNode g op)).slotId) := by
  unfold operandMeta elseOf thenOf maskNode
  split_ifs with hk
  · rw [TypedNode, hk] at ht
    obtain ⟨i, l, r, hs, -⟩ := ht
    rw [hs.cond]
    rfl
  · rw [sub_zero]

theorem mapM_ok {α β : Type} {f : α → Except Fault β} {v : α → β} {l : List α}
    (h : ∀ x ∈ l, f x = .ok (v x)) : l.mapM f = .ok (l.map v) :=
  (mapM_congr h).trans List.mapM_pure

/-- **The base sum, the weights and the masks** of the sum of the engine. -/
theorem sumMeta_engine {s : ℕ} (h : engineSum g root = some s) (ht : TypedNode g root)
    (hops : ∀ op ∈ (g s).operands, TypedNode g op) (a : ℕ → Annot) :
    sumMeta g a root = .ok (rootConst g root + ((g s).operands.map (elseOf g)).sum,
      (g s).operands.map fun op => thenOf g op - elseOf g op,
      (g s).operands.map fun op => (a (maskNode g op)).slotId) := by
  have hmeta := mapM_ok fun op hop => operandMeta_eq (hops op hop) a
  rcases engineSum_cases ht with ⟨hnone, -⟩ | ⟨hself, hplus, hk⟩ |
    ⟨l, c, hl, -, hplus, hleft, hright, hk, hconst, hadd⟩
  · rw [hnone] at h
    cases h
  · obtain rfl := Option.some.inj (hself.symm.trans h)
    simp only [sumMeta, effectiveRoot, hplus, bind, Except.bind, Bool.false_eq_true, if_false,
      if_pos hk, hmeta, rootConst]
    simp [Function.comp_def]
  · obtain rfl := Option.some.inj (hl.symm.trans h)
    have hc : rootConst g root = (g c).constValue := by
      rw [rootConst, if_neg (by rw [hadd]; decide), hright, constOf, Option.bind_some, if_pos hconst]
      rfl
    simp only [sumMeta, effectiveRoot, hplus, bind, Except.bind, if_true, hleft, hright, deref,
      if_pos hk, hmeta, hc]
    simp [Function.comp_def]

/-- The other roots have no weights. -/
theorem sumMeta_plain (h : engineSum g root = none) (ht : TypedNode g root) (a : ℕ → Annot) :
    sumMeta g a root = .ok (0, [], []) := by
  rcases engineSum_cases ht with ⟨-, hplus, hk⟩ | ⟨hself, -⟩ | ⟨l, c, hl, -⟩
  · simp only [sumMeta, effectiveRoot, hplus, bind, Except.bind, Bool.false_eq_true, if_false,
      if_neg hk]
  · rw [hself] at h
    cases h
  · rw [hl] at h
    cases h

end Marks

/-! ### Putting the counts together -/

/-- The hybrid aggregator counts the rows of every mask. -/
theorem weightedSum_masks {scratchpad : ℕ → Word} {b : Word} {rows : ℕ} (hb : Below b rows)
    (hrows : rows ≤ 64) {slot : ℕ → ℤ} {w : ℕ → Word} {p : ℕ → ℕ → Bool} {ops : List ℕ}
    (h : ∀ op ∈ ops, 0 ≤ slot op ∧ Mask (scratchpad (slot op).toNat) (p op)) :
    weightedSum scratchpad b (ops.map fun op => (w op, slot op)) =
      some (ops.map fun op => (∑ r ∈ Finset.range rows, bit (p op r)) * w op).sum := by
  induction ops with
  | nil => rfl
  | cons op ops ih =>
    obtain ⟨h0, hmask⟩ := h op (List.mem_cons_self ..)
    rw [List.map_cons, weightedSum, if_neg (by omega), hmask.cpop_and hb hrows,
      ih fun x hx => h x (List.mem_cons_of_mem _ hx)]
    rfl

/-- A count with the weight `t - e`, on top of `e` for every row. -/
theorem count_mul_sub (rows : ℕ) (t e : Word) (p : ℕ → Bool) :
    e * (rows : Word) + (∑ r ∈ Finset.range rows, bit (p r)) * (t - e) =
      ∑ r ∈ Finset.range rows, if p r then t else e := by
  have hrow : ∀ r, (if p r then t else e) = e + bit (p r) * (t - e) := by
    intro r
    cases p r <;> simp
  simp only [hrow, Finset.sum_add_distrib, Finset.sum_const, Finset.card_range, nsmul_eq_mul,
    Finset.sum_mul]
  ring

/-- **Base sum and weighted counts add up the selected values.** -/
theorem base_add_weighted (rows : ℕ) (k : Word) (t e : ℕ → Word) (p : ℕ → ℕ → Bool) (ops : List ℕ) :
    (k + (ops.map e).sum) * (rows : Word) +
        (ops.map fun op => (∑ r ∈ Finset.range rows, bit (p op r)) * (t op - e op)).sum =
      ∑ r ∈ Finset.range rows, (k + (ops.map fun op => if p op r then t op else e op).sum) := by
  induction ops with
  | nil => simp [mul_comm]
  | cons op ops ih =>
    have hop := count_mul_sub rows (t op) (e op) (p op)
    simp only [Finset.sum_add_distrib, List.map_cons, List.sum_cons] at ih ⊢
    linear_combination ih + hop

/-! ### The value of a root -/

/-- The root is arithmetic and not handled: its planes are delivered in the first block of the
scratchpad. -/
def DeliversPlanes (g : ℕ → Node) (root : ℕ) : Prop :=
  engineSum g root = none ∧ (g root).kind.isMask = false

instance (g : ℕ → Node) (root : ℕ) : Decidable (DeliversPlanes g root) := by
  unfold DeliversPlanes
  infer_instance

/-- The word of a node in lane `r`.  Nothing is left in the blocks of the nodes without code but
in the first one, where the call before has delivered `carry`. -/
def rootWord (g : ℕ → Node) (a : ℕ → Annot) (root : ℕ) (carry : Word) (r : ℕ) (row : Name → Word)
    (n : ℕ) : Word :=
  Jit.laneWord g a row (subLane r)
    (fun x => if DeliversPlanes g root ∧ firstOp g root = some x then carry else 0) (n + 1) n

/-- What is counted for the operands of the sum `s`, if `W` has the words of their masks; a sum
of nothing is not aggregated at all. -/
def sumValue (g : ℕ → Node) (root s : ℕ) (W : ℕ → Word) : Word :=
  if (g s).operands = [] then 0
  else rootConst g root + ((g s).operands.map fun op =>
    if (W (maskNode g op)).getLsbD 0 then thenOf g op else elseOf g op).sum

/-- A bare leaf is an operand of the sum the engine adds up. -/
def AddsLeaf (g : ℕ → Node) (root : ℕ) : Prop :=
  ∃ s, engineSum g root = some s ∧ ∃ op ∈ (g s).operands, (g op).kind.isLeaf = true

/-- **What a root is worth** in lane `r`, on the row in the lane. -/
def rootValue (g : ℕ → Node) (a : ℕ → Annot) (root : ℕ) (carry : Word) (r : ℕ)
    (row : Name → Word) : Word :=
  match engineSum g root with
  | some s => sumValue g root s (rootWord g a root carry r row)
  | none => rootWord g a root carry r row root

/-- The first operation has no code and reads what the call before has delivered. -/
def Carries (g : ℕ → Node) (a : ℕ → Annot) (root : ℕ) : Prop :=
  DeliversPlanes g root ∧ ∃ x, firstOp g root = some x ∧ Jit.coded g a x = false

/-- The masks of the operands are nodes of the root. -/
theorem reach_maskNode {g : ℕ → Node} {root : ℕ} (htyped : WellTyped g root) {s : ℕ} (hs : engineSum g root = some s) {op : ℕ}
    (hop : op ∈ (g s).operands) :
    Reach g root op ∧ Reach g root (maskNode g op) := by
  have hreach : Reach g root op := (engineSum_reach hs).child (by simp [Node.children, hop])
  refine ⟨hreach, ?_⟩
  unfold maskNode
  split_ifs with hk
  · have ht := htyped op hreach
    rw [TypedNode, hk] at ht
    obtain ⟨i, l, r, hsel, -⟩ := ht
    rw [hsel.cond]
    exact hreach.child (cond_mem_children hsel.cond)
  · exact hreach

/-- Its mask is no leaf. -/
theorem maskNode_not_leaf {g : ℕ → Node} {root : ℕ} (htyped : WellTyped g root) {s : ℕ} (hs : engineSum g root = some s) {op : ℕ}
    (hop : op ∈ (g s).operands) (hleaf : (g op).kind.isLeaf = false) :
    (g (maskNode g op)).kind.isLeaf = false := by
  unfold maskNode
  split_ifs with hk
  · have ht := htyped op (reach_maskNode htyped hs hop).1
    rw [TypedNode, hk] at ht
    obtain ⟨i, l, r, hsel, hi, -⟩ := ht
    rw [hsel.cond]
    exact NodeKind.not_isLeaf_of_isMask hi
  · exact hleaf

/-- Only the masks matter. -/
theorem sumValue_congr {g : ℕ → Node} {root s : ℕ} {W W' : ℕ → Word}
    (h : ∀ op ∈ (g s).operands, W (maskNode g op) = W' (maskNode g op)) :
    sumValue g root s W = sumValue g root s W' := by
  simp only [sumValue]
  rw [List.map_congr_left fun op hop => by rw [h op hop]]

theorem not_leaf_of_adds {g : ℕ → Node} {root s op : ℕ} (h : ¬AddsLeaf g root)
    (hs : engineSum g root = some s) (hop : op ∈ (g s).operands) : (g op).kind.isLeaf = false := by
  by_contra hleaf
  exact h ⟨s, hs, op, hop, by simpa using hleaf⟩

section Value

variable {P : NodePool} (hP : Built P) {root : ℕ}

include hP

/-- Its words follow the kernel. -/
theorem words_rootWord (a : ℕ → Annot) (root : ℕ) (carry : Word) (r : ℕ) (row : Name → Word) :
    Jit.Words P.storage a row (subLane r)
      (fun x => if DeliversPlanes P.storage root ∧ firstOp P.storage root = some x then carry else 0)
      (rootWord P.storage a root carry r row) :=
  Jit.words_laneWord hP a row (subLane r) _

variable (htyped : WellTyped P.storage root)

include htyped

/-- **The value of a root depends on its words only**, that is on its fields, and on the carry
where the first operation has no code. -/
theorem rootValue_congr {a : ℕ → Annot} {carry carry' : Word} {r : ℕ} {row row' : Name → Word}
    (hrow : ∀ n, Reach P.storage root n → (P.storage n).kind = .LOAD →
      row (P.storage n).fieldName = row' (P.storage n).fieldName)
    (hcarry : Carries P.storage a root → carry = carry') :
    rootValue P.storage a root carry r row = rootValue P.storage a root carry' r row' := by
  have hword : ∀ n, Reach P.storage root n →
      rootWord P.storage a root carry r row n = rootWord P.storage a root carry' r row' n :=
    fun n hn => (words_rootWord hP a root carry r row).congr hP (words_rootWord hP a root carry' r row')
      (fun _ _ => rfl) hrow (fun x _ _ hc => ite_congr rfl (fun h => hcarry ⟨h.1, x, h.2, hc⟩) fun _ => rfl) hn
  unfold rootValue
  cases hs : engineSum P.storage root with
  | none => exact hword root (Reach.refl _ _)
  | some s => exact sumValue_congr fun op hop => hword _ (reach_maskNode htyped hs hop).2

end Value

/-! ### The kernel of a root -/

/-- What `set_expression` may find in the nodes of a root, on new nodes as well as after earlier
calls: masks are never marked, a root that is not handled carries no mark, and a leaf that is
added up has no slot of a shader. -/
structure Usable (g : ℕ → Node) (a₀ : ℕ → Annot) (root : ℕ) : Prop where
  eqSlotId : ∀ n, (g n).kind.isComparison = false → (a₀ n).eqSlotId = -1
  masks : ∀ n, Reach g root n → (g n).kind.isMask = true → (a₀ n).skipJit = false
  unhandled : engineSum g root = none → (a₀ root).skipJit = false
  leaves : ∀ s, engineSum g root = some s → ∀ op ∈ (g s).operands, (g op).kind.isLeaf = true →
    (a₀ op).slotId = -1

/-- What the compiler finds in the nodes of a root after step 1.5. -/
structure RootMarks (g : ℕ → Node) (a₁ : ℕ → Annot) (root : ℕ) : Prop where
  eqSlotId : ∀ n, (g n).kind.isComparison = false → (a₁ n).eqSlotId = -1
  masks : ∀ n, Reach g root n → (g n).kind.isMask = true → (a₁ n).skipJit = false
  handled : ∀ n, Handled g root n → (a₁ n).skipJit = true
  unhandled : engineSum g root = none → (a₁ root).skipJit = false
  leaves : ∀ s, engineSum g root = some s → ∀ op ∈ (g s).operands, (g op).kind.isLeaf = true →
    (a₁ op).slotId = -1

/-- A fresh pool. -/
theorem Usable.of_fresh {P : NodePool} (hP : Built P) {root : ℕ} (hfresh : Fresh P root) :
    Usable P.storage P.annot root where
  eqSlotId := hP.eqSlotId
  masks _ hn _ := hfresh.skipJit hn
  unhandled _ := hfresh.skipJit (Reach.refl _ _)
  leaves s hs op hop _ :=
    hfresh.slotId ((engineSum_reach hs).child (by simp [Node.children, hop]))

/-- Marking leaves the marks. -/
theorem Usable.rootMarks {g : ℕ → Node} {a₀ a₁ : ℕ → Annot} {root : ℕ} (h : Usable g a₀ root)
    (hmark : markSkip g root a₀ = .ok a₁) : RootMarks g a₁ root := by
  rcases markSkip_spec g root with ⟨-, -, herr⟩ | hspec
  · rw [herr] at hmark
    cases hmark
  obtain ⟨a₁', hmark', hsame, hskip⟩ := hspec a₀
  obtain rfl := Except.ok.inj (hmark'.symm.trans hmark)
  refine ⟨fun n hn => ?_, fun n hn hk => ?_, fun n hn => (hskip n).2 (Or.inr (Or.inl hn)),
    fun hnone => ?_, fun s hs op hop hleaf => ?_⟩
  · rw [hsame]
    exact h.eqSlotId n hn
  · rw [← Bool.not_eq_true, hskip, h.masks n hn hk, MarksSkip]
    rintro (hs | hs | ⟨s, hs, hne, hr⟩)
    · exact absurd hs (by decide)
    · exact absurd (hs.not_mask.symm.trans hk) (by decide)
    · rw [engineSum_const hs hne hr] at hk
      exact absurd hk (by decide)
  · rw [← Bool.not_eq_true, hskip, h.unhandled hnone, MarksSkip, Handled, hnone]
    simp
  · rw [hsame]
    exact h.leaves s hs op hop hleaf

/-- What a call has delivered, if `V` has the words of the lanes: the mask of a boolean root,
the planes of an arithmetic one, or the masks of the operands of the sum. -/
structure Delivered (g : ℕ → Node) (a : ℕ → Annot) (root : ℕ) (V : ℕ → ℕ → Word) (result : Word)
    (scratchpad : ℕ → Word) : Prop where
  mask : engineSum g root = none → (g root).kind.isMask = true →
    Mask result fun r => truth (V r root)
  planes : DeliversPlanes g root → Planes scratchpad fun r => V r root
  masks : ∀ s, engineSum g root = some s → ∀ op ∈ (g s).operands, (g op).kind.isLeaf = false →
    0 ≤ (a (maskNode g op)).slotId ∧ Mask (scratchpad (a (maskNode g op)).slotId.toNat) fun r =>
      (V r (maskNode g op)).getLsbD 0
  empty : ∀ s, engineSum g root = some s → (g s).operands = [] → ∀ b < 64, scratchpad b = 0

/-- A scratchpad that calls share: the words no code writes are zero, but for the first block
if planes are delivered there, the last time those of the values `c`. -/
structure Shares (g : ℕ → Node) (a : ℕ → Annot) (root : ℕ) (nodes : List ℕ)
    (scratchpad c : ℕ → Word) : Prop where
  zero : ∀ i < Jit.maxSlots, Jit.Unwritten g a nodes i → ¬DeliversPlanes g root ∨ 64 ≤ i →
    scratchpad i = 0
  planes : DeliversPlanes g root → Planes scratchpad c

section Kernel

variable {PF : Platform} {P : NodePool} (hP : Built P) {root : ℕ} (hlt : root < P.nextIdx)
  (htyped : WellTyped P.storage root) {a₁ a : ℕ → Annot} (hmarks : RootMarks P.storage a₁ root)

include hmarks

/-- What stands in the block of a node without code. -/
theorem Shares.residue_eq {nodes : List ℕ} (hp : Jit.Prepared P.storage a₁ root a nodes)
    {p p' c : ℕ → Word} (h : Shares P.storage a root nodes p c)
    (hp' : ∀ i < Jit.maxSlots, p' i = p i) {n : ℕ} (hn : Reach P.storage root n)
    (hleaf : (P.storage n).kind.isLeaf = false) (hc : Jit.coded P.storage a n = false) {r : ℕ}
    (hr : r < 64) : Jit.residue a p' r n =
      if DeliversPlanes P.storage root ∧ firstOp P.storage root = some n then c r else 0 := by
  have hmem := (hp.mem_iff n).2 hn
  have hmask : (P.storage n).kind.isMask = false := by
    by_contra hk
    rw [Bool.not_eq_false] at hk
    rw [Jit.coded, hp.skipJit, hmarks.masks n hn hk, Jit.emitted, hk] at hc
    simp at hc
  have hblock := hp.toSlots.block hmem hleaf hmask
  split_ifs with hfirst
  · -- the first block holds the planes of the call before
    have h0 : (a n).slotId = 0 := (hp.firstSlot n hmem hleaf).2 hfirst.2
    refine (planes_laneOf (w := 64) _).lane_unique ((h.planes hfirst.1).congr fun b hb => ?_) hr
    rw [h0, Int.toNat_zero, Nat.zero_add, hp' b (Nat.lt_of_lt_of_le hb (by decide))]
  · refine Jit.residue_zero fun b hb => ?_
    rw [hp' _ (by omega)]
    refine h.zero _ (by omega) (hp.toSlots.unwritten hmem hleaf hmask hc hb) ?_
    -- any other block starts behind the first
    by_cases hd : DeliversPlanes P.storage root
    · have hne : (a n).slotId ≠ 0 := fun h0 => hfirst ⟨hd, (hp.firstSlot n hmem hleaf).1 h0⟩
      have haligned := (hp.placed n hmem).aligned hleaf hmask
      exact Or.inr (by omega)
    · exact Or.inl hd

variable {kernel : List Instr}
  (hcomp : compileExpression PF.rt P.storage a₁ root 64 = (a, .ok kernel))
  {names : List Name} (hN : Numbered P.storage a root names) (hlen : names.length ≤ 128)

include hP hlt htyped hcomp hN hlen

/-- **The kernel of a root delivers its words**, from the scratchpads that calls share, and
leaves such a scratchpad behind. -/
theorem root_delivers (hleaf : (P.storage root).kind.isLeaf = false) :
    ∃ J : (ℕ → Word) → (ℕ → Word) → Prop, J (fun _ => 0) (fun _ => 0) ∧
      ∀ R cols p c, J p c → HoldsPlanes names R cols →
        ∃ m, call kernel (PF.abi.enter cols p) = some m ∧
          J (pad PF.abi.layout m) (fun r => rootValue P.storage a₁ root (c r) r (R r)) ∧
          Delivered P.storage a root (fun r => rootWord P.storage a₁ root (c r) r (R r))
            (m.read (.x 0)) (pad PF.abi.layout m) := by
  obtain ⟨nodes, body, hprep, -, -⟩ := Jit.compileExpression_ok hcomp
  have hp := prepare_spec hP hlt hprep
  have hsorted : ∀ n, Reach P.storage root n → (a₁ n).skipJit = false → Jit.Sorted P.storage n :=
    fun n hn _ => (htyped n hn).sorted
  refine ⟨Shares P.storage a root nodes, ⟨fun _ _ _ _ => rfl, fun _ b _ r _ => by simp⟩,
    fun R cols p c hJ hcols => ?_⟩
  obtain ⟨V, hV⟩ := Jit.exists_flow hP a R (Jit.residue a (pad PF.abi.layout (PF.abi.enter cols p)))
  have hscratch : ∀ i < Jit.maxSlots, pad PF.abi.layout (PF.abi.enter cols p) i = p i :=
    fun i hi => PF.abi.scratch cols p i hi
  have hword : ∀ r < 64, ∀ n, Reach P.storage root n →
      V r n = rootWord P.storage a₁ root (c r) r (R r) n := fun r hr n hn =>
    (hV r).congr hP (words_rootWord hP a₁ root (c r) r (R r))
      (fun x _ => by rw [Jit.coded, Jit.coded, hp.skipJit]) (fun _ _ _ => rfl) (fun x hx hxl hc => hJ.residue_eq hmarks hp hscratch hx hxl hc hr) hn
  cases hs : engineSum P.storage root with
  | none =>
    obtain ⟨m, hcall, hmask, hplanes, hkeep⟩ := Jit.compile_root hP hlt hcomp hmarks.eqSlotId hsorted
      hmarks.masks (hcols.fieldPlanes PF hN hlen) (hcols.args PF hlen p) hV hleaf (hmarks.unhandled hs)
    have hvalue : ∀ r, rootValue P.storage a₁ root (c r) r (R r) =
        rootWord P.storage a₁ root (c r) r (R r) root := fun r => by rw [rootValue, hs]
    have hdel : DeliversPlanes P.storage root → Planes (pad PF.abi.layout m) fun r =>
        rootWord P.storage a₁ root (c r) r (R r) root := fun hd =>
      (hplanes hd.2).lanes fun r hr => (hword r hr root (Reach.refl _ _)).symm
    refine ⟨m, hcall, ⟨fun i hi hun hd => ?_, fun hd => ?_⟩, ⟨fun _ hk => ?_, hdel, ?_, ?_⟩⟩
    · refine (hkeep i hi (hd.imp_left fun h => ?_) fun n hn => hun n ((hp.mem_iff n).2 hn)).trans
        ((hscratch i hi).trans (hJ.zero i hi hun hd))
      by_contra hk
      exact h ⟨hs, by simpa using hk⟩
    · simp only [hvalue]
      exact hdel hd
    · exact (hmask hk).congr fun r hr => by rw [hword r hr root (Reach.refl _ _)]
    · exact fun s hs' => absurd (hs.symm.trans hs') (by simp)
    · exact fun s hs' => absurd (hs.symm.trans hs') (by simp)
  | some s =>
    have hnot : ¬DeliversPlanes P.storage root := fun hd => by
      rw [hd.1] at hs
      cases hs
    obtain ⟨m, hcall, hmask, hkeep⟩ := Jit.compile_skipped hP hlt hcomp hmarks.eqSlotId hsorted
      hmarks.masks (hcols.fieldPlanes PF hN hlen) (hcols.args PF hlen p) hV
      (hmarks.handled root ⟨s, hs, Or.inl rfl⟩)
    have hzero : ∀ i < Jit.maxSlots, Jit.Unwritten P.storage a nodes i → pad PF.abi.layout m i = 0 :=
      fun i hi hun => (hkeep i hi fun n hn => hun n ((hp.mem_iff n).2 hn)).trans
        ((hscratch i hi).trans (hJ.zero i hi hun (Or.inl hnot)))
    refine ⟨m, hcall, ⟨fun i hi hun _ => hzero i hi hun, fun hd => absurd hd hnot⟩,
      ⟨fun h => absurd (hs.symm.trans h) (by simp), fun hd => absurd hd hnot, fun s' hs' op hop hop' => ?_,
        fun s' hs' hnil b hb => ?_⟩⟩
    · have hreach := (reach_maskNode htyped hs' hop).2
      obtain ⟨h0, hm⟩ := hmask _ hreach (maskNode_not_leaf htyped hs' hop hop')
      exact ⟨h0, hm.congr fun r hr => by rw [hword r hr _ hreach]⟩
    · -- without operands no node has code
      refine hzero b (Nat.lt_of_lt_of_le hb (by decide)) fun n hn hc => ?_
      have hskip : ∀ n, Handled P.storage root n → Jit.coded P.storage a n = false := fun n hn => by
        rw [Jit.coded, hp.skipJit, hmarks.handled n hn, Bool.not_true, Bool.and_false]
      rcases reach_engineSum hs' htyped ((hp.mem_iff n).1 hn) with rfl | rfl | hk | ⟨op, hop, -⟩
      · rw [hskip _ ⟨s', hs', Or.inl rfl⟩] at hc
        exact absurd hc (by decide)
      · rw [hskip _ ⟨_, hs', Or.inr (Or.inl rfl)⟩] at hc
        exact absurd hc (by decide)
      · rw [Jit.coded, hk] at hc
        cases hc
      · rw [hnil] at hop
        exact absurd hop List.not_mem_nil

end Kernel


/-! ### The totals of the chunks -/

/-- The kernel adds up `w` over the lanes of a chunk and carries the values into the next one,
from the scratchpads that calls share. -/
def CarriedTotals (PF : Platform) (L : ExprCompiledLogic) (names : List Name)
    (w : Word → ℕ → (Name → Word) → Word) : Prop :=
  ∃ J : (ℕ → Word) → (ℕ → Word) → Prop, J (fun _ => 0) (fun _ => 0) ∧
    ∀ R cols p c, J p c → HoldsPlanes names R cols →
      ∃ m, call L.kernel (PF.abi.enter cols p) = some m ∧
        J (pad PF.abi.layout m) (fun r => w (c r) r (R r)) ∧
        ∀ rows ≤ 64, chunkTotal L rows (m.read (.x 0)) (pad PF.abi.layout m) =
          some (∑ r ∈ Finset.range rows, w (c r) r (R r))

/-- Where nothing is carried, the chunks do not matter. -/
theorem CarriedTotals.laneTotals {PF : Platform} {L : ExprCompiledLogic} {names : List Name}
    {w : Word → ℕ → (Name → Word) → Word} (h : CarriedTotals PF L names w)
    {v : ℕ → (Name → Word) → Word} (hw : ∀ c r row, w c r row = v r row) :
    LaneTotals PF L names v := by
  obtain ⟨J, h0, hcall⟩ := h
  refine ⟨fun p => ∃ c, J p c, ⟨_, h0⟩, fun R cols p ⟨c, hJ⟩ hcols => ?_⟩
  obtain ⟨m, hm, hJ', htotal⟩ := hcall R cols p c hJ hcols
  exact ⟨m, hm, ⟨_, hJ'⟩, fun rows hrows => by simpa only [hw] using htotal rows hrows⟩

section Totals

variable {PF : Platform} {P : NodePool} (hP : Built P) {root : ℕ} (hlt : root < P.nextIdx)
  (htyped : WellTyped P.storage root) {a₁ a : ℕ → Annot} (hmarks : RootMarks P.storage a₁ root)
  {L : ExprCompiledLogic}
  (hcomp : compileExpression PF.rt P.storage a₁ root 64 = (a, .ok L.kernel))
  (hkind : L.resultKind = (a root).resultKind)
  (hsum : sumMeta P.storage a root = .ok (L.baseSum, L.deltaWeights, L.masksToPopcount))

include hP hlt htyped hcomp

omit htyped in
/-- The result kind in the logic is the sort of the root. -/
theorem root_resultKind :
    (a root).resultKind = if (P.storage root).kind.isMask then .BITMASK else .BITPLANE := by
  obtain ⟨nodes, body, hprep, -, -⟩ := Jit.compileExpression_ok hcomp
  have hp := prepare_spec hP hlt hprep
  rw [hp.resultKind root ((hp.mem_iff root).2 (Reach.refl _ _)), NodeKind.resultKind]

include hkind hsum

omit hP hlt hcomp hkind in
/-- What `set_expression` keeps for the aggregation of a sum. -/
theorem engineSum_weights {s : ℕ} (hs : engineSum P.storage root = some s) :
    L.baseSum = rootConst P.storage root + ((P.storage s).operands.map (elseOf P.storage)).sum ∧
      L.deltaWeights.zip L.masksToPopcount = (P.storage s).operands.map (fun op =>
        (thenOf P.storage op - elseOf P.storage op, (a (maskNode P.storage op)).slotId)) ∧
      (L.deltaWeights = [] ↔ (P.storage s).operands = []) := by
  rw [sumMeta_engine hs (htyped root (Reach.refl _ _))
    (fun op hop => htyped op (reach_maskNode htyped hs hop).1) a, Except.ok.injEq, Prod.mk.injEq,
    Prod.mk.injEq] at hsum
  obtain ⟨hbase, hweights, hmasks⟩ := hsum
  exact ⟨hbase.symm, by rw [← hweights, ← hmasks, List.zip_map'],
    by rw [← hweights, List.map_eq_nil_iff]⟩

/-- **A bare leaf that is added up has no mask**: its slot is -1, and the aggregation reads the
word in front of the scratchpad. -/
theorem leaf_total (hmarks : RootMarks P.storage a₁ root) {s op : ℕ}
    (hs : engineSum P.storage root = some s) (hop : op ∈ (P.storage s).operands)
    (hleaf : (P.storage op).kind.isLeaf = true) (rows : ℕ) (result : Word) (scratchpad : ℕ → Word) :
    chunkTotal L rows result scratchpad = none := by
  obtain ⟨nodes, body, hprep, -, -⟩ := Jit.compileExpression_ok hcomp
  have hp := prepare_spec hP hlt hprep
  obtain ⟨-, hzip, hnil⟩ := engineSum_weights htyped hsum hs
  have hreach := (reach_maskNode htyped hs hop).1
  have hsel : (P.storage op).kind ≠ .SELECT := fun hk => by
    rw [hk] at hleaf
    cases hleaf
  have hslot : (a (maskNode P.storage op)).slotId = -1 := by
    rw [maskNode, if_neg hsel, hp.leafSlot op ((hp.mem_iff op).2 hreach) hleaf,
      hmarks.leaves s hs op hop hleaf]
  have hnone : ∀ (mask : Word) (l : List (Word × ℤ)), (∃ w ∈ l, w.2 < 0) →
      weightedSum scratchpad mask l = none := by
    rintro mask l ⟨w, hw, hneg⟩
    induction l with
    | nil => exact absurd hw List.not_mem_nil
    | cons x l ih =>
      rw [weightedSum]
      rcases List.mem_cons.1 hw with rfl | hw
      · rw [if_pos hneg]
      · rw [ih hw, Option.map_none, ite_self]
  rw [root_resultKind hP hlt hcomp, show (P.storage root).kind.isMask = false from
    Handled.not_mask ⟨s, hs, Or.inl rfl⟩] at hkind
  rw [chunkTotal, if_neg (by rw [hkind]; decide),
    if_pos (mt hnil.1 (List.ne_nil_of_mem hop)), hzip, hnone _ _ ⟨_, List.mem_map_of_mem hop, ?_⟩,
    Option.map_none]
  rw [hslot]
  exact Int.negSucc_lt_zero 0

/-- **The chunks of every root add up what it is worth**, if no bare leaf is added up. -/
theorem root_totals (hmarks : RootMarks P.storage a₁ root)
    (hleaf : (P.storage root).kind.isLeaf = false)
    (hops : ¬AddsLeaf P.storage root) {names : List Name}
    (hN : Numbered P.storage a root names) (hlen : names.length ≤ 128) :
    CarriedTotals PF L names (rootValue P.storage a₁ root) := by
  obtain ⟨J, h0, hcall⟩ := root_delivers hP hlt htyped hmarks hcomp hN hlen hleaf
  refine ⟨J, h0, fun R cols p c hJ hcols => ?_⟩
  obtain ⟨m, hm, hJ', hdel⟩ := hcall R cols p c hJ hcols
  refine ⟨m, hm, hJ', fun rows hrows => ?_⟩
  rw [root_resultKind hP hlt hcomp] at hkind
  cases hs : engineSum P.storage root with
  | none =>
    simp only [rootValue, hs]
    cases hmask : (P.storage root).kind.isMask with
    | true =>
      rw [hmask] at hkind
      have hbit : ∀ r, bit (truth (rootWord P.storage a₁ root (c r) r (R r) root)) =
          rootWord P.storage a₁ root (c r) r (R r) root := fun r =>
        (words_rootWord hP a₁ root (c r) r (R r)).bit_truth hmask (hmarks.unhandled hs)
      rw [chunkTotal_mask hkind hrows (hdel.mask hs hmask)]
      simp only [hbit]
    | false =>
      rw [hmask] at hkind
      rw [sumMeta_plain hs (htyped root (Reach.refl _ _)), Except.ok.injEq, Prod.mk.injEq,
        Prod.mk.injEq] at hsum
      exact chunkTotal_planes hkind hsum.2.1.symm hrows _ (hdel.planes ⟨hs, hmask⟩)
  | some s =>
    obtain ⟨hbase, hzip, hnil⟩ := engineSum_weights htyped hsum hs
    rw [show (P.storage root).kind.isMask = false from
      Handled.not_mask ⟨s, hs, Or.inl rfl⟩] at hkind
    simp only [rootValue, hs, sumValue]
    by_cases hne : (P.storage s).operands = []
    · -- no weights: the first 64 words are taken for planes
      simp only [if_pos hne]
      refine chunkTotal_planes hkind (hnil.2 hne) hrows _ fun b hb r _ => ?_
      rw [hdel.empty s hs hne b hb]
      simp
    · simp only [if_neg hne]
      rw [chunkTotal, if_neg (by rw [hkind]; decide), if_pos (mt hnil.1 hne), hzip,
        weightedSum_masks (rowsMask_below hrows) hrows fun op hop =>
          hdel.masks s hs op hop (not_leaf_of_adds hops hs hop), hbase]
      exact congrArg some (base_add_weighted rows (rootConst P.storage root) (thenOf P.storage)
        (elseOf P.storage) _ _)

end Totals

end ApexEngine
end Engine
end AarchGate
