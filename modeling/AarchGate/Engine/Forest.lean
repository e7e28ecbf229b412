/-
# Sums of conditions

A root `SUM(operands)`, or `ADD(SUM(operands), CONST k)`, is never evaluated by a
kernel.  `set_expression` marks it `skip_jit` together with the `SELECT`s it adds
up, so that the kernel only leaves the masks of the conditions behind; the arms
of the `SELECT`s become a base sum and a weight for every mask, and `execute` puts
the three together (`sumMeta_forest`, `rootValue_forest`).

Of the arms only constants are looked at.  That is all there is to a `SELECT` of
two constants, and `execute` is correct on sums of those (`execute_forest_correct`).
-/

import AarchGate.Engine.Roots

namespace AarchGate
namespace Engine
namespace ApexEngine

open A64 Ir AarchGate.Core Compute BitPlane
open Jit (TypedNode WellTyped compileExpression subLane truth truth_bit AtMostSix gtFive)

/-! ### Summands -/

/-- The operands of a sum: a `SELECT`, or a condition that counts with the weight
of its node. -/
inductive Summand where
  | select (c : Expr .bool) (x y : Expr .num) (w : Word)
  | mask (c : Expr .bool) (w : Word)

/-- The constant an expression is, if it is one. -/
def constVal : {t : Ty} → Expr t → Option Word
  | _, .const v => some v
  | _, _ => none

namespace Summand

/-- The condition whose mask is counted. -/
def cond : Summand → Expr .bool
  | select c _ _ _ => c
  | mask c _ => c

/-- What the operand is on a row. -/
def value (row : Name → Word) : Summand → Word
  | select c x y _ => (Expr.select c x y).eval row
  | mask c w => if c.eval row then w else 0

/-- What `set_expression` takes for the value where the condition holds. -/
def thenVal : Summand → Word
  | select _ x _ w => (constVal x).getD w
  | mask _ w => w

/-- What `set_expression` takes for the value where the condition fails. -/
def elseVal : Summand → Word
  | select _ _ y _ => (constVal y).getD 0
  | mask _ _ => 0

/-- What is counted for the operand on a row. -/
def counted (row : Name → Word) (s : Summand) : Word :=
  if s.cond.eval row then s.thenVal else s.elseVal

/-- The fields the operand loads. -/
def fields : Summand → List Name
  | select c x y _ => (Expr.select c x y).fields
  | mask c _ => c.fields

/-- There is no `SUB` in the operand. -/
def subFree : Summand → Bool
  | select c x y _ => (Expr.select c x y).subFree
  | mask c _ => c.subFree

/-- The arms of a `SELECT` are constants. -/
def flat : Summand → Bool
  | select _ x y _ => (constVal x).isSome && (constVal y).isSome
  | mask _ _ => true

theorem subFree_cond {s : Summand} (h : s.subFree = true) : s.cond.subFree = true := by
  cases s with
  | select c x y w =>
    simp only [subFree, Expr.subFree, Expr.all, Bool.and_eq_true] at h
    exact h.1.1.2
  | mask c w => exact h

end Summand

/-- A constant has its value. -/
theorem eval_of_constVal {x : Expr .num} {v : Word} (h : constVal x = some v) (row : Name → Word) :
    x.eval row = v := by
  cases x <;> simp only [constVal, reduceCtorEq, Option.some.injEq] at h
  exact h

/-- Constant arms are counted as they are. -/
theorem Summand.counted_eq_value {s : Summand} (h : s.flat = true) (row : Name → Word) :
    s.counted row = s.value row := by
  cases s with
  | mask c w => rfl
  | select c x y w =>
    simp only [flat, Bool.and_eq_true, Option.isSome_iff_exists] at h
    obtain ⟨⟨u, hu⟩, v, hv⟩ := h
    have hx := eval_of_constVal hu row
    have hy := eval_of_constVal hv row
    show (if c.eval row then (constVal x).getD w else (constVal y).getD 0) =
      if c.eval row then x.eval row else y.eval row
    rw [hu, hv, hx, hy]
    rfl

/-- Node `n` is the operand `s` of a sum. -/
def IsSummand (g : ℕ → Node) (s : Summand) (n : ℕ) : Prop :=
  match s with
  | .select c x y w => Represents g (.select c x y) n ∧ (g n).weight = w
  | .mask c w => Represents g c n ∧ (g n).weight = w

section Summand

variable {g : ℕ → Node} {s : Summand} {n : ℕ}

/-- A summand is an expression. -/
theorem IsSummand.typed (h : IsSummand g s n) : ∃ (t : Ty) (e : Expr t), Represents g e n ∧
    e.fields = s.fields ∧ e.subFree = s.subFree := by
  cases s with
  | select c x y w => exact ⟨_, _, h.1, rfl, rfl⟩
  | mask c w => exact ⟨_, _, h.1, rfl, rfl⟩

theorem not_select_of_bool {c : Expr .bool} (h : Represents g c n) : (g n).kind ≠ .SELECT := by
  intro hk
  have := h.isMask
  rw [hk] at this
  exact absurd this (by decide)

/-- Its mask is its condition. -/
theorem IsSummand.cond (h : IsSummand g s n) : Represents g s.cond (maskNode g n) := by
  unfold maskNode
  cases s with
  | select c x y w =>
    obtain ⟨⟨i, l, r, hb, hc, -⟩, -⟩ := h
    rw [if_pos hb.kind, hb.cond]
    exact hc
  | mask c w =>
    rw [if_neg (not_select_of_bool h.1)]
    exact h.1

theorem IsSummand.reach (h : IsSummand g s n) : Reach g n (maskNode g n) := by
  unfold maskNode
  cases s with
  | select c x y w =>
    obtain ⟨⟨i, l, r, hb, -⟩, -⟩ := h
    rw [if_pos hb.kind, hb.cond]
    exact (Reach.refl g n).child (by simp [hb.children])
  | mask c w =>
    rw [if_neg (not_select_of_bool h.1)]
    exact Reach.refl g n

theorem constOf_represents {x : Expr .num} (h : Represents g x n) :
    constOf g (some n) = constVal x := by
  have hk := h.kind
  cases x with
  | const v =>
    rw [constOf, Option.bind_some, if_pos h.1.kind, h.2]
    rfl
  | load | add | sub | select =>
    rw [constOf, Option.bind_some, if_neg (by rw [hk]; simp [Expr.kind])]
    rfl

/-- **What step 4 takes for the values of an operand.** -/
theorem IsSummand.thenOf_eq (h : IsSummand g s n) : thenOf g n = s.thenVal := by
  unfold thenOf
  cases s with
  | select c x y w =>
    obtain ⟨⟨i, l, r, hb, -, hx, -⟩, rfl⟩ := h
    rw [if_pos hb.kind, hb.left, constOf_represents hx]
    rfl
  | mask c w =>
    obtain ⟨hc, rfl⟩ := h
    rw [if_neg (not_select_of_bool hc)]
    rfl

/-- Its value without the mask. -/
theorem IsSummand.elseOf_eq (h : IsSummand g s n) : elseOf g n = s.elseVal := by
  unfold elseOf
  cases s with
  | select c x y w =>
    obtain ⟨⟨i, l, r, hb, -, -, hy⟩, -⟩ := h
    rw [if_pos hb.kind, hb.right, constOf_represents hy]
    rfl
  | mask c w =>
    rw [if_neg (not_select_of_bool h.1)]
    rfl

/-- It is no leaf. -/
theorem IsSummand.not_leaf (h : IsSummand g s n) : (g n).kind.isLeaf = false := by
  cases s with
  | select c x y w => rw [h.1.kind]; rfl
  | mask c w => exact NodeKind.not_isLeaf_of_isMask h.1.isMask

end Summand

/-! ### The root -/

/-- A node of the shape `builder::Sum` gives it. -/
structure IsSum (nd : Node) (ops : List ℕ) : Prop where
  kind : nd.kind = .SUM
  left : nd.left = none
  right : nd.right = none
  cond : nd.cond = none
  operands : nd.operands = ops

/-- The root is `SUM(ops)`, or `ADD(SUM(ops), CONST k)`; `sum` is the node of the sum. -/
inductive ForestRoot (g : ℕ → Node) (sum : ℕ) (ops : List ℕ) : ℕ → Word → Prop where
  | sum (hs : IsSum (g sum) ops) : ForestRoot g sum ops sum 0
  | plus {root c : ℕ} {k : Word} (hs : IsSum (g sum) ops) (hb : IsBinary (g root) .ADD sum c)
      (hc : Represents g (.const k) c) : ForestRoot g sum ops root k

section Root

variable {g : ℕ → Node} {sum root : ℕ} {ops : List ℕ} {k : Word}

/-- The root has a sum. -/
theorem ForestRoot.isSum (h : ForestRoot g sum ops root k) : IsSum (g sum) ops := by
  cases h with
  | sum hs => exact hs
  | plus hs => exact hs

/-- The operands of a sum. -/
theorem IsSum.children {nd : Node} (h : IsSum nd ops) : nd.children = ops := by
  simp [Node.children, h.left, h.right, h.cond, h.operands]

/-- The nodes of a forest: the root, the sum, the constant, and the nodes of the
operands. -/
theorem ForestRoot.reach (h : ForestRoot g sum ops root k) {n : ℕ} (hn : Reach g root n) :
    n = root ∨ n = sum ∨ (∃ v : Word, Represents g (.const v) n) ∨ ∃ op ∈ ops, Reach g op n := by
  have hsum : Reach g sum n → n = sum ∨ ∃ op ∈ ops, Reach g op n := by
    intro hn
    rcases hn.cases_head with rfl | ⟨op, hop, hopn⟩
    · exact Or.inl rfl
    · exact Or.inr ⟨op, h.isSum.children ▸ hop, hopn⟩
  cases h with
  | sum hs => exact Or.inr ((hsum hn).imp_right Or.inr)
  | @plus root c k hs hb hc =>
    rcases hn.cases_head with rfl | ⟨x, hx, hxn⟩
    · exact Or.inl rfl
    · simp only [hb.children, List.mem_cons, List.not_mem_nil, or_false] at hx
      rcases hx with rfl | rfl
      · exact Or.inr ((hsum hxn).imp_right Or.inr)
      · rcases hxn.cases_head with rfl | ⟨y, hy, -⟩
        · exact Or.inr (Or.inr (Or.inl ⟨_, hc⟩))
        · simp [hc.1.children] at hy

/-- They are below the root. -/
theorem ForestRoot.reach_op (h : ForestRoot g sum ops root k) {op : ℕ} (hop : op ∈ ops) :
    Reach g root op := by
  have hsum : Reach g sum op := (Reach.refl g sum).child (by rwa [h.isSum.children])
  cases h with
  | sum hs => exact hsum
  | plus hs hb hc => exact Reach.of_child (by simp [hb.children]) hsum

/-- The engine adds the forest up itself. -/
theorem ForestRoot.engineSum_eq (h : ForestRoot g sum ops root k) :
    engineSum g root = some sum ∧ rootConst g root = k := by
  cases h with
  | sum hs => simp [engineSum, rootConst, hs.kind]
  | plus hs hb hc =>
    simp [engineSum, rootConst, constOf, hb.kind, hb.left, hb.right, hs.kind, hc.1.kind, hc.2]

/-- The nodes of a forest are well-typed. -/
theorem ForestRoot.wellTyped (h : ForestRoot g sum ops root k) {s : ℕ → Summand}
    (hs : ∀ op ∈ ops, IsSummand g (s op) op) : WellTyped g root := by
  have hsum : TypedNode g sum := by
    rw [TypedNode, h.isSum.kind]
    exact ⟨h.isSum.left, h.isSum.right, h.isSum.cond⟩
  intro n hn
  rcases h.reach hn with rfl | rfl | ⟨v, hv⟩ | ⟨op, hop, hopn⟩
  · cases h with
    | sum => exact hsum
    | plus hs' hb hc =>
      rw [TypedNode, hb.kind]
      exact ⟨_, _, hb, by rw [hs'.kind]; rfl, hc.isMask⟩
  · exact hsum
  · exact Jit.typed_of_represents hv
  · obtain ⟨t, e, he, -⟩ := (hs op hop).typed
    exact Jit.wellTyped_of_represents he n hopn

/-- No bare leaf is added up. -/
theorem ForestRoot.not_addsLeaf (h : ForestRoot g sum ops root k) {s : ℕ → Summand}
    (hs : ∀ op ∈ ops, IsSummand g (s op) op) : ¬AddsLeaf g root := by
  rintro ⟨s', hs', op, hop, hleaf⟩
  rw [h.engineSum_eq.1] at hs'
  obtain rfl := Option.some.inj hs'
  rw [(hs op (h.isSum.operands ▸ hop)).not_leaf] at hleaf
  cases hleaf

/-- What a forest loads is registered if its operands are. -/
theorem ForestRoot.registered (h : ForestRoot g sum ops root k) {s : ℕ → Summand}
    (hs : ∀ op ∈ ops, IsSummand g (s op) op) {fields : List FieldDescriptor}
    (hreg : ∀ op ∈ ops, ∀ f ∈ (s op).fields, ∃ d ∈ fields, d.name = f) {n : ℕ}
    (hn : Reach g root n) (hk : (g n).kind = .LOAD) : ∃ d ∈ fields, d.name = (g n).fieldName := by
  rcases h.reach hn with rfl | rfl | ⟨v, hv⟩ | ⟨op, hop, hopn⟩
  · cases h with
    | sum h => rw [h.kind] at hk; exact absurd hk (by decide)
    | plus _ hb => rw [hb.kind] at hk; exact absurd hk (by decide)
  · rw [h.isSum.kind] at hk; exact absurd hk (by decide)
  · rw [hv.1.kind] at hk; exact absurd hk (by decide)
  · obtain ⟨t, e, he, hfields, -⟩ := (hs op hop).typed
    exact hreg op hop _ (hfields ▸ he.mem_fields hopn hk)

/-- **The base sum, the weights and the masks** of a forest. -/
theorem sumMeta_forest (h : ForestRoot g sum ops root k) {s : ℕ → Summand}
    (hs : ∀ op ∈ ops, IsSummand g (s op) op) (a : ℕ → Annot) :
    sumMeta g a root = .ok (k + (ops.map fun op => (s op).elseVal).sum,
      ops.map fun op => (s op).thenVal - (s op).elseVal,
      ops.map fun op => (a (maskNode g op)).slotId) := by
  have htyped := h.wellTyped hs
  have helse : ops.map (elseOf g) = ops.map fun op => (s op).elseVal :=
    List.map_congr_left fun op hop => (hs op hop).elseOf_eq
  have hdelta : (ops.map fun op => thenOf g op - elseOf g op) =
      ops.map fun op => (s op).thenVal - (s op).elseVal :=
    List.map_congr_left fun op hop => by rw [(hs op hop).thenOf_eq, (hs op hop).elseOf_eq]
  rw [sumMeta_engine h.engineSum_eq.1 (htyped root (Reach.refl _ _)) (fun op hop => htyped op
    (reach_maskNode htyped h.engineSum_eq.1 hop).1), h.engineSum_eq.2, h.isSum.operands, helse, hdelta]

end Root

/-! ### The kernel of a forest -/

/-- No `SELECT` that is added up stands in a condition. -/
def OpsApart (g : ℕ → Node) (ops : List ℕ) : Prop :=
  ∀ op ∈ ops, ∀ x ∈ ops, (g x).kind = .SELECT → ¬Reach g (maskNode g op) x

/-- What is counted for the operands, if `W` has the words of the conditions; a sum of
nothing is not aggregated at all. -/
def countedSum (g : ℕ → Node) (ops : List ℕ) (k : Word) (s : ℕ → Summand) (W : ℕ → Word) : Word :=
  if ops = [] then 0
  else k + (ops.map fun op =>
    if truth (W (maskNode g op)) then (s op).thenVal else (s op).elseVal).sum

/-- The word of a node of a forest: where a marked node is read, it is zero. -/
def forestWord (g : ℕ → Node) (a : ℕ → Annot) (row : Name → Word) (sub : Word → Word → Word)
    (n : ℕ) : Word :=
  Jit.laneWord g a row sub (fun _ => 0) (n + 1) n

/-- Its words follow the kernel. -/
theorem words_forestWord {P : NodePool} (hP : Built P) (a : ℕ → Annot) (row : Name → Word)
    (sub : Word → Word → Word) :
    Jit.Words P.storage a row sub (fun _ => 0) (forestWord P.storage a row sub) :=
  Jit.words_laneWord hP a row sub fun _ => 0

/-- Only the masks matter. -/
theorem countedSum_congr {g : ℕ → Node} {ops : List ℕ} {k : Word} {s : ℕ → Summand}
    {W W' : ℕ → Word} (h : ∀ op ∈ ops, W (maskNode g op) = W' (maskNode g op)) :
    countedSum g ops k s W = countedSum g ops k s W' := by
  have hmap : (ops.map fun op =>
      if truth (W (maskNode g op)) then (s op).thenVal else (s op).elseVal) =
      ops.map fun op => if truth (W' (maskNode g op)) then (s op).thenVal else (s op).elseVal :=
    List.map_congr_left fun op hop => by rw [h op hop]
  rw [countedSum, countedSum, hmap]

section Forest

variable {PF : Platform} {P : NodePool} (hP : Built P) {sum root : ℕ} {ops : List ℕ} {k : Word}
  (hroot : ForestRoot P.storage sum ops root k) {s : ℕ → Summand}
  (hs : ∀ op ∈ ops, IsSummand P.storage (s op) op)

include hP hroot

/-- The sum comes first. -/
theorem ForestRoot.sum_le : sum ≤ root := by
  cases hroot with
  | sum => exact Nat.le_refl _
  | plus _ hb => exact Nat.le_of_lt (hP.ordered.2 root sum (by simp [hb.children])).1

/-- And its operands before it. -/
theorem ForestRoot.op_lt {op : ℕ} (hop : op ∈ ops) : op < sum :=
  (hP.ordered.2 sum op (by rwa [hroot.isSum.children])).1

theorem ForestRoot.lt_nextIdx (hne : ops ≠ []) : root < P.nextIdx := by
  obtain ⟨op, hop⟩ := List.exists_mem_of_ne_nil ops hne
  cases hroot with
  | sum hsum => exact (hP.ordered.2 sum op (by rwa [hsum.children])).2
  | plus _ hb => exact (hP.ordered.2 root sum (by simp [hb.children])).2

include hs

/-- The conditions are not touched by the marks. -/
theorem ForestRoot.live (hapart : OpsApart P.storage ops) (hfresh : Fresh P root) {a₁ : ℕ → Annot}
    (hmark : markSkip P.storage root P.annot = .ok a₁) {op : ℕ} (hop : op ∈ ops) :
    Jit.Live P.storage a₁ (maskNode P.storage op) := by
  intro x hx hleaf
  have hopx : Reach P.storage op x := Relation.ReflTransGen.trans (hs op hop).reach hx
  have hlt : x < sum := Nat.lt_of_le_of_lt (hP.reach_le hopx) (hroot.op_lt hP hop)
  have hle := hroot.sum_le hP
  obtain ⟨a₁', hmark', -, hskip⟩ := markSkip_handled
    (hroot.wellTyped hs root (Reach.refl _ _)) P.annot
  obtain rfl := Except.ok.inj (hmark'.symm.trans hmark)
  rw [← Bool.not_eq_true, hskip x (Or.inl hleaf)
    (hfresh.skipJit (Relation.ReflTransGen.trans (hroot.reach_op hop) hopx))]
  rintro ⟨s', hs', rfl | rfl | ⟨hmem, hsel⟩⟩
  · omega
  · rw [hroot.engineSum_eq.1] at hs'
    exact absurd (Option.some.inj hs') (by omega)
  · rw [hroot.engineSum_eq.1] at hs'
    obtain rfl := Option.some.inj hs'
    rw [hroot.isSum.operands] at hmem
    exact hapart op hop x hmem hsel hx

/-- **What a forest is worth in a lane** is what is counted for its operands.  A `SELECT` that is
added up and also stands in a condition is not computed there: it reads as zero. -/
theorem rootValue_forest {a₁ : ℕ → Annot} (hmarks : RootMarks P.storage a₁ root) (carry : Word)
    (r : ℕ) (row : Name → Word) : rootValue P.storage a₁ root carry r row =
      countedSum P.storage ops k s (forestWord P.storage a₁ row (subLane r)) := by
  obtain ⟨hsum, hconst⟩ := hroot.engineSum_eq
  have hnot : ¬DeliversPlanes P.storage root := fun hd => by
    rw [hd.1] at hsum
    cases hsum
  have hword : rootWord P.storage a₁ root carry r row = forestWord P.storage a₁ row (subLane r) := by
    funext n
    simp only [rootWord, hnot, false_and, if_false]
    rfl
  rw [rootValue, hsum]
  simp only [sumValue, countedSum, hconst, hroot.isSum.operands, hword]
  rw [List.map_congr_left fun op hop => by
    rw [(hs op hop).thenOf_eq, (hs op hop).elseOf_eq,
      ← (words_forestWord hP a₁ row (subLane r)).truth_mask (hs op hop).cond.isMask
        (hmarks.masks _ (Relation.ReflTransGen.trans (hroot.reach_op hop) (hs op hop).reach)
          (hs op hop).cond.isMask)]]

omit hP hroot in
/-- Where no `SELECT` that is added up stands in a condition, the conditions are
computed as they are. -/
theorem countedSum_eq (hne : ops ≠ []) (hsub : ∀ op ∈ ops, (s op).subFree = true)
    (hlive : ∀ op ∈ ops, Jit.Live P.storage a (maskNode P.storage op)) {row : Name → Word}
    {sub : Word → Word → Word} {residue W : ℕ → Word} (hW : Jit.Words P.storage a row sub residue W) :
    countedSum P.storage ops k s W = k + (ops.map fun op => (s op).counted row).sum := by
  rw [countedSum, if_neg hne]
  refine congrArg (k + ·) (congrArg List.sum (List.map_congr_left fun op hop => ?_))
  rw [hW.represents (hs op hop).cond (hlive op hop),
    Expr.evalWith_subFree _ (Summand.subFree_cond (hsub op hop))]
  show (if truth (bit _) then _ else _) = _
  rw [truth_bit]
  rfl

/-- **The aggregator makes the sum** out of the masks of the conditions. -/
theorem forest_laneTotals (hlt : root < P.nextIdx) {a₁ a : ℕ → Annot} (hfresh : Fresh P root)
    (hmark : markSkip P.storage root P.annot = .ok a₁) {L : ExprCompiledLogic}
    (hcomp : compileExpression PF.rt P.storage a₁ root 64 = (a, .ok L.kernel))
    (hkind : L.resultKind = (a root).resultKind)
    (hsum : sumMeta P.storage a root = .ok (L.baseSum, L.deltaWeights, L.masksToPopcount))
    {names : List Name} (hN : Numbered P.storage a root names) (hlen : names.length ≤ 128) :
    LaneTotals PF L names fun r row =>
      countedSum P.storage ops k s (forestWord P.storage a₁ row (subLane r)) := by
  have hmarks := (Usable.of_fresh hP hfresh).rootMarks hmark
  exact (root_totals hP hlt (hroot.wellTyped hs) hcomp hkind hsum hmarks
    (Handled.not_leaf ⟨sum, hroot.engineSum_eq.1, Or.inl rfl⟩) (hroot.not_addsLeaf hs) hN
    hlen).laneTotals (rootValue_forest hP hroot hs hmarks)

/-- **What `execute` makes of a forest**: the sum of what is counted for the operands. -/
theorem forest_execute (hne : ops ≠ []) (hsub : ∀ op ∈ ops, (s op).subFree = true)
    (hapart : OpsApart P.storage ops) (hfresh : Fresh P root) {E₀ : ApexEngine} {schemaName : Name}
    {fields : List FieldDescriptor} {rowStride : ℕ} (hnew : E₀.registry.schemas schemaName = none)
    (honly : E₀.exprLogic = []) (hreg : ∀ op ∈ ops, ∀ f ∈ (s op).fields, ∃ d ∈ fields, d.name = f)
    {a : ℕ → Annot} {E : ApexEngine}
    (hset : setExpression PF (E₀.registerSchema schemaName fields rowStride) schemaName P.storage
      P.annot (some root) .BIT_SLICED = .ok (a, E)) (hacc : E.exprLogic ≠ [])
    (bufs : ℕ → ColumnBuffer) (data : ℕ → BitVec 8) (rowCount : ℕ) :
    ∃ E', execute PF { E with fieldBuffers := bufs } data rowCount =
      some (∑ r ∈ Finset.range rowCount,
        (k + (ops.map fun op => (s op).counted (rowOf fields data rowStride r)).sum), E') := by
  have hlt := hroot.lt_nextIdx hP hne
  obtain ⟨a₁, L, hmark, hcomp, hsum, hmode, hkind, hbits, hinst⟩ :=
    setExpression_installed hP hlt (by decide) hnew honly hset hacc
  rw [compileMode, if_neg (by decide)] at hcomp
  obtain ⟨hlen, hN⟩ := Numbered.ofCompiled hP hlt hcomp
  generalize Jit.fieldOrder P.storage root = names at hlen hN
  have hI := hinst names hN hlen (hN.forall_names fun n hn hk => hroot.registered hs hreg hn hk)
  have htotals := forest_laneTotals hP hroot hs hlt hfresh hmark hcomp hkind hsum hN hlen
  have hlive : ∀ op ∈ ops, Jit.Live P.storage a₁ (maskNode P.storage op) := fun op hop =>
    hroot.live hP hs hapart hfresh hmark hop
  refine hI.execute (by rw [hmode]; decide) (fun row row' h => ?_) (htotals.addsUp hmode hbits
    fun r row => countedSum_eq hs hne hsub hlive (words_forestWord hP a₁ row (subLane r))) bufs data rowCount
  -- the conditions load fields of the table only
  refine congrArg (k + ·) (congrArg List.sum (List.map_congr_left fun op hop => ?_))
  have hcond : (s op).cond.eval row = (s op).cond.eval row' := Expr.evalWith_congr _ fun f hf => h f <| by
    obtain ⟨n, hn, hk, hname⟩ := (hs op hop).cond.exists_load hf
    exact (hN.mem f).2 ⟨n, Relation.ReflTransGen.trans (hroot.reach_op hop)
      (Relation.ReflTransGen.trans (hs op hop).reach hn), hk, hname⟩
  rw [Summand.counted, Summand.counted, hcond]

/-- Six additions in the operands are not too many, even with an `ADD` at the root. -/
theorem forest_ne_undefined (hne : ops ≠ []) (hsub : ∀ op ∈ ops, (s op).subFree = true)
    (hsix : AtMostSix P.storage sum (· = .ADD)) (E : ApexEngine) (schemaName : Name) :
    setExpression PF E schemaName P.storage P.annot (some root) .BIT_SLICED ≠
      .error .undefined := by
  have htyped := hroot.wellTyped hs
  rcases markSkip_spec P.storage root with ⟨hk, hnull, -⟩ | hspec
  · cases hroot with
    | sum h => rw [h.kind] at hk; cases hk
    | plus _ hb => simp [hb.left, hb.right] at hnull
  obtain ⟨a₁, hmark, -, hskip⟩ := hspec P.annot
  have hskip₁ : (a₁ root).skipJit = true :=
    (hskip root).2 (Or.inr (Or.inl ⟨sum, hroot.engineSum_eq.1, Or.inl rfl⟩))
  have hcomp := Jit.compile_ne_undefined hP PF.rt (hroot.lt_nextIdx hP hne)
    (fun n hn _ => (htyped n hn).sorted) (fun ns hnd hns => hsix ns hnd fun n hn => by
      obtain ⟨hr, hadd, hself⟩ := hns n hn
      rcases hroot.reach hr with h | h | ⟨v, hv⟩ | ⟨op, hop, hopn⟩
      · rw [← h, hself h] at hskip₁; exact absurd hskip₁ (by decide)
      · rw [h, hroot.isSum.kind] at hadd; exact absurd hadd (by decide)
      · rw [hv.1.kind] at hadd; exact absurd hadd (by decide)
      · obtain ⟨t, e, he, -, hfree⟩ := (hs op hop).typed
        obtain ⟨u, d, hd, hpart⟩ := he.reach hopn
        have hk := hd.all_kind (hpart.all _ (hfree.trans (hsub op hop)))
        refine ⟨Reach.of_child (by rwa [hroot.isSum.children]) hopn, ?_⟩
        simp only [Jit.isAddSub, Bool.or_eq_true, decide_eq_true_eq, bne_iff_ne, ne_eq] at hadd hk ⊢
        tauto) 64
  exact setExpression_ne_undefined_of hmark (fun a => ⟨_, sumMeta_forest hroot hs a⟩) hcomp

end Forest

/-- **Forest aggregation is correct.**  A sum of `SELECT`s of two constants and of
conditions with weights, or such a sum plus a constant, on fresh nodes and over the
fields of a schema registered once: `set_expression` does not run into undefined
behaviour, and when it accepts the root, `execute` sums over all rows the constant
and the values of the operands, modulo `2^64`. -/
theorem execute_forest_correct (PF : Platform) {P : NodePool} (hP : Built P) {sum root : ℕ}
    {ops : List ℕ} {k : Word} (hroot : ForestRoot P.storage sum ops root k) (hne : ops ≠ [])
    {s : ℕ → Summand} (hs : ∀ op ∈ ops, IsSummand P.storage (s op) op)
    (hflat : ∀ op ∈ ops, (s op).flat = true) (hsub : ∀ op ∈ ops, (s op).subFree = true)
    (hapart : OpsApart P.storage ops) (hsix : AtMostSix P.storage sum (· = .ADD))
    (hfresh : Fresh P root) (E₀ : ApexEngine) (schemaName : Name) (fields : List FieldDescriptor)
    (rowStride : ℕ) (hnew : E₀.registry.schemas schemaName = none) (honly : E₀.exprLogic = [])
    (hreg : ∀ op ∈ ops, ∀ f ∈ (s op).fields, ∃ d ∈ fields, d.name = f) :
    setExpression PF (E₀.registerSchema schemaName fields rowStride) schemaName P.storage P.annot
        (some root) .BIT_SLICED ≠ .error .undefined ∧
      ∀ a E, setExpression PF (E₀.registerSchema schemaName fields rowStride) schemaName P.storage
          P.annot (some root) .BIT_SLICED = .ok (a, E) → E.exprLogic ≠ [] →
        ∀ (bufs : ℕ → ColumnBuffer) (data : ℕ → BitVec 8) (rowCount : ℕ),
          ∃ E', execute PF { E with fieldBuffers := bufs } data rowCount =
            some (∑ r ∈ Finset.range rowCount,
              (k + (ops.map fun op => (s op).value (rowOf fields data rowStride r)).sum), E') := by
  refine ⟨forest_ne_undefined hP hroot hs hne hsub hsix _ _, fun a E hset hacc bufs data rowCount => ?_⟩
  obtain ⟨E', hrun⟩ := forest_execute hP hroot hs hne hsub hapart hfresh hnew honly hreg hset hacc bufs
    data rowCount
  refine ⟨E', hrun.trans ?_⟩
  have hvals : ∀ r, (ops.map fun op => (s op).counted (rowOf fields data rowStride r)) =
      ops.map fun op => (s op).value (rowOf fields data rowStride r) := fun r =>
    List.map_congr_left fun op hop => Summand.counted_eq_value (hflat op hop) _
  simp only [hvals]

/-- The pool of `Add(Sum({Select(c, 7, 2), c}), 100)` with `c = GT(Load("a"), 5)` of
weight 3. -/
def forestPool : NodePool :=
  (((do
    let x ← Builder.Load ['a']
    let c ← Builder.GT x (← Builder.Const 5)
    let t ← Builder.Select c (← Builder.Const 7) (← Builder.Const 2)
    let sum ← Builder.Sum (t.toList ++ c.toList)
    Builder.Add sum (← Builder.Const 100) : StateM NodePool (Option ℕ)) .empty).2).setWeight 2 3

theorem forestPool_pristine : Pristine forestPool :=
  ((((Pristine.build (.select gtFive (.const 7) (.const 2)) (by decide) .empty).emplace
    { kind := .SUM, operands := [5, 2] } .BITPLANE (by decide)).emplace
      { kind := .CONST, constValue := 100 } .BITPLANE (by decide)).emplace
        { kind := .ADD, left := some 6, right := some 7 } .BITPLANE (by decide)).setWeight 2 3

/-- The operands of the sum. -/
def forestSummand (n : ℕ) : Summand :=
  if n = 5 then .select gtFive (.const 7) (.const 2) 0 else .mask gtFive 3

theorem forestPool_root : ForestRoot forestPool.storage 6 [5, 2] 8 100 :=
  .plus ⟨rfl, rfl, rfl, rfl, rfl⟩ (c := 7) ⟨rfl, rfl, rfl, rfl, rfl⟩
    ⟨⟨rfl, rfl, rfl, rfl, rfl⟩, rfl⟩

theorem forestPool_summand : ∀ op ∈ [5, 2], IsSummand forestPool.storage (forestSummand op) op := by
  have hc : Represents forestPool.storage gtFive 2 :=
    ⟨0, 1, ⟨rfl, rfl, rfl, rfl, rfl⟩, ⟨⟨rfl, rfl, rfl, rfl, rfl⟩, rfl⟩,
      ⟨⟨rfl, rfl, rfl, rfl, rfl⟩, rfl⟩⟩
  simp only [List.mem_cons, List.not_mem_nil, or_false, forall_eq_or_imp, forall_eq]
  exact ⟨⟨⟨2, 3, 4, ⟨rfl, rfl, rfl, rfl, rfl⟩, hc, ⟨⟨rfl, rfl, rfl, rfl, rfl⟩, rfl⟩,
    ⟨⟨rfl, rfl, rfl, rfl, rfl⟩, rfl⟩⟩, rfl⟩, hc, rfl⟩

theorem forestPool_accepted :
    ∃ a E, setExpression .standard oneFieldEngine ['t'] forestPool.storage forestPool.annot (some 8)
      .BIT_SLICED = .ok (a, E) ∧ E.exprLogic ≠ [] :=
  accepted_iff.1 (by decide +kernel)

/-- Three rows with `a = 10`: `100 + 7 + 3` in each. -/
theorem execute_forest_correct_select :
    ∃ a E E', setExpression .standard oneFieldEngine ['t'] forestPool.storage
        forestPool.annot (some 8) .BIT_SLICED = .ok (a, E) ∧ E.exprLogic ≠ [] ∧
      execute .standard E tens 3 = some (330, E') := by
  have hapart : OpsApart forestPool.storage [5, 2] := by
    intro op hop x hx hk hr
    have hmask : ∀ op ∈ [5, 2], maskNode forestPool.storage op = 2 := by decide
    have hsel : ∀ x ∈ [5, 2], (forestPool.storage x).kind = .SELECT → x = 5 := by decide
    have hle := forestPool_pristine.built.reach_le hr
    rw [hmask op hop, hsel x hx hk] at hle
    exact absurd hle (by decide)
  have hsix : AtMostSix forestPool.storage 6 (· = .ADD) := .of_none fun n hn => by
    have := forestPool_pristine.built.reach_le hn
    interval_cases n <;> rfl
  obtain ⟨-, hcorrect⟩ := execute_forest_correct .standard forestPool_pristine.built forestPool_root (by decide)
    forestPool_summand (by decide) (by decide) hapart hsix (forestPool_pristine.fresh 8) init ['t']
    oneField 8 rfl rfl (by decide)
  obtain ⟨a, E, hset, hacc⟩ := forestPool_accepted
  obtain ⟨E', hrun⟩ := hcorrect a E hset hacc E.fieldBuffers tens 3
  refine ⟨a, E, E', hset, hacc, hrun.trans ?_⟩
  have htotal : ∑ r ∈ Finset.range 3, ((100 : Word) + ([5, 2].map fun op => (forestSummand op).value
      (rowOf oneField tens 8 r)).sum) = 330 := by
    decide
  rw [htotal]

end ApexEngine
end Engine
end AarchGate
