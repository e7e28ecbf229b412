/-
# Sums of decision trees

A decision tree is a `SELECT` whose arms are constants or trees again.  Step 4 of
`set_expression` looks one `SELECT` deep: of an arm that is a tree it takes the weight of the
node, which is zero on a new one, and the value the kernel computes for the arm is never added.

The arm at the top is chosen by the condition as the kernel finds it (`condOn`).  That is not
always the condition of the tree: a `SUB` in it is one too small in all lanes but the first of a
chunk, and a tree of the sum that also stands in a condition is marked and reads as zero there.
**`execute` returns the sum of the selected leaves exactly when the differences add up to zero**
(`execute_trees_iff`).
-/

import AarchGate.Engine.Lanes

namespace AarchGate
namespace Engine
namespace ApexEngine

open A64 Ir AarchGate.Core Compute BitPlane
open Jit (subLane truth truth_bit gtFive)

/-- Decision trees. -/
inductive Tree where
  | leaf (v : Word)
  | node (c : Expr .bool) (x y : Tree)

namespace Tree

/-- The tree as an expression. -/
def expr : Tree → Expr .num
  | leaf v => .const v
  | node c x y => .select c x.expr y.expr

/-- The leaf a row selects. -/
def leafOn (row : Name → Word) : Tree → Word
  | leaf v => v
  | node c x y => if c.eval row then x.leafOn row else y.leafOn row

/-- What step 4 takes for an arm: its constant, and nothing for a tree. -/
def armConst : Tree → Word
  | leaf v => v
  | node _ _ _ => 0

/-- The selected leaf less what is counted for the tree, if the condition at its top is
found to be `seen`. -/
def dropped (row : Name → Word) (seen : Bool) : Tree → Word
  | leaf _ => 0
  | node c x y => (node c x y).leafOn row - if seen then x.armConst else y.armConst

/-- The leaf a row selects inside an arm of the tree that is a tree again, and 0 if
the selected arm is a leaf. -/
def nested (row : Name → Word) : Tree → Word
  | leaf _ => 0
  | node c x y => if c.eval row then x.leafOn row - x.armConst else y.leafOn row - y.armConst

theorem constVal_expr (t : Tree) : (constVal t.expr).getD 0 = t.armConst := by cases t <;> rfl

/-- Where the condition is found as it is, the nested leaves are dropped. -/
theorem dropped_eval (row : Name → Word) (c : Expr .bool) (x y : Tree) :
    (node c x y).dropped row (c.eval row) = (node c x y).nested row := by
  rw [dropped, leafOn, nested]
  split_ifs <;> rfl

end Tree

/-! ### The conditions in the kernel -/

/-- The marks on the nodes of a sum of trees. -/
def summed (ops : List ℕ) (n : ℕ) : Annot := { skipJit := decide (n ∈ ops) }

/-- The condition of the tree `op` as the kernel finds it in a lane: with the `SUB` of the
lane, and with zero for the trees that are added up. -/
def condOn (g : ℕ → Node) (ops : List ℕ) (lane : ℕ) (row : Name → Word) (op : ℕ) : Bool :=
  truth (forestWord g (summed ops) row (subLane lane) (maskNode g op))

section Trees

variable {P : NodePool} (hP : Built P) {root : ℕ} {ops : List ℕ} (hsum : IsSum (P.storage root) ops)
  {c : ℕ → Expr .bool} {x y : ℕ → Tree}
  (htree : ∀ op ∈ ops, Represents P.storage (Tree.node (c op) (x op) (y op)).expr op)
  (hweight : ∀ op ∈ ops, (P.storage op).weight = 0)

include htree

/-- The operands of the sum. -/
theorem tree_kind {op : ℕ} (hop : op ∈ ops) : (P.storage op).kind = .SELECT := (htree op hop).kind

include hweight

theorem tree_summand : ∀ op ∈ ops,
    IsSummand P.storage (.select (c op) (x op).expr (y op).expr 0) op :=
  fun op hop => ⟨htree op hop, hweight op hop⟩

include hP hsum

/-- **The marks of step 1.5 are those on the trees**, as far as the conditions go. -/
theorem forestWord_summed (hfresh : Fresh P root) {a₁ : ℕ → Annot}
    (hmark : markSkip P.storage root P.annot = .ok a₁) {op : ℕ} (hop : op ∈ ops) (lane : ℕ)
    (row : Name → Word) : truth (forestWord P.storage a₁ row (subLane lane) (maskNode P.storage op)) =
      condOn P.storage ops lane row op := by
  have hs := tree_summand htree hweight
  have hroot : ForestRoot P.storage root ops root 0 := .sum hsum
  obtain ⟨a₁', hmark', -, hskip⟩ := markSkip_handled
    (hroot.wellTyped hs root (Reach.refl _ _)) P.annot
  obtain rfl := Except.ok.inj (hmark'.symm.trans hmark)
  refine congrArg truth ((words_forestWord hP a₁' row (subLane lane)).congr hP
    (words_forestWord hP (summed ops) row (subLane lane)) (fun n hn => ?_) (fun _ _ _ => rfl)
    (fun _ _ _ _ => rfl) (Reach.refl _ _))
  have hopn : Reach P.storage op n := Relation.ReflTransGen.trans (hs op hop).reach hn
  have hlt : n < root := Nat.lt_of_le_of_lt (hP.reach_le hopn) (hroot.op_lt hP hop)
  cases hleaf : (P.storage n).kind.isLeaf with
  | true => rcases NodeKind.eq_of_isLeaf hleaf with hk | hk <;> rw [Jit.coded, Jit.coded, hk] <;> rfl
  | false =>
    have hmem : (a₁' n).skipJit = decide (n ∈ ops) := by
      rw [Bool.eq_iff_iff, hskip n (Or.inl hleaf)
        (hfresh.skipJit (Relation.ReflTransGen.trans (hroot.reach_op hop) hopn)), decide_eq_true_iff]
      constructor
      · rintro ⟨s', hs', rfl | rfl | ⟨hmem, -⟩⟩
        · exact absurd hlt (Nat.lt_irrefl _)
        · rw [hroot.engineSum_eq.1] at hs'
          exact absurd (Option.some.inj hs') (by omega)
        · rw [hroot.engineSum_eq.1] at hs'
          rwa [← Option.some.inj hs', hsum.operands] at hmem
      · exact fun hmem => ⟨root, hroot.engineSum_eq.1, Or.inr (Or.inr
          ⟨by rwa [hsum.operands], tree_kind htree hmem⟩)⟩
    rw [Jit.coded, Jit.coded, hmem]
    rfl

/-- A condition without `SUB` and without a tree of the sum is found as it is. -/
theorem condOn_eval (hfresh : Fresh P root) (hsub : ∀ op ∈ ops, (c op).subFree = true)
    (hapart : OpsApart P.storage ops) {op : ℕ} (hop : op ∈ ops) (lane : ℕ) (row : Name → Word) :
    condOn P.storage ops lane row op = (c op).eval row := by
  have hs := tree_summand htree hweight
  have hroot : ForestRoot P.storage root ops root 0 := .sum hsum
  obtain ⟨a₁, hmark, -⟩ := markSkip_handled (hroot.wellTyped hs root (Reach.refl _ _)) P.annot
  have hword : forestWord P.storage a₁ row (subLane lane) (maskNode P.storage op) =
      bit ((c op).evalWith (subLane lane) row) :=
    (words_forestWord hP a₁ row (subLane lane)).represents (hs op hop).cond
      (hroot.live hP hs hapart hfresh hmark hop)
  rw [← forestWord_summed hP hsum htree hweight hfresh hmark hop, hword, truth_bit,
    Expr.evalWith_subFree _ (hsub op hop)]

/-- **What `execute` makes of a sum of trees**: at the top of each tree the constant of the arm that
the condition in the kernel chooses. -/
theorem trees_execute {PF : Platform} (hne : ops ≠ []) (hfresh : Fresh P root) {E₀ : ApexEngine}
    {schemaName : Name} {fields : List FieldDescriptor} {rowStride : ℕ}
    (hnew : E₀.registry.schemas schemaName = none) (honly : E₀.exprLogic = [])
    (hreg : ∀ op ∈ ops, ∀ f ∈ (Tree.node (c op) (x op) (y op)).expr.fields, ∃ d ∈ fields, d.name = f)
    {a : ℕ → Annot} {E : ApexEngine}
    (hset : setExpression PF (E₀.registerSchema schemaName fields rowStride) schemaName P.storage
      P.annot (some root) .BIT_SLICED = .ok (a, E)) (hacc : E.exprLogic ≠ [])
    (bufs : ℕ → ColumnBuffer) (data : ℕ → BitVec 8) (rowCount : ℕ) :
    ∃ E', execute PF { E with fieldBuffers := bufs } data rowCount =
      some (∑ r ∈ Finset.range rowCount, (ops.map fun op =>
        if condOn P.storage ops (r % 64) (rowOf fields data rowStride r) op then (x op).armConst
        else (y op).armConst).sum, E') := by
  have hs := tree_summand htree hweight
  have hroot : ForestRoot P.storage root ops root 0 := .sum hsum
  obtain ⟨a₁, hmark, -⟩ := markSkip_handled (hroot.wellTyped hs root (Reach.refl _ _)) P.annot
  have hvalue : RootValue P root _ := .forest hroot hs hmark
  obtain ⟨L, names, hI, hmode, hbits, hrefs, hw⟩ := setExpression_laneTotals hP
    (hroot.lt_nextIdx hP hne) hvalue hfresh hnew honly
    (fun n hn hk => hroot.registered hs hreg hn hk) hset hacc
  obtain ⟨E', hrun⟩ := hI.execute_lanes hmode hbits hw (hvalue.dependsOn hP hrefs) bufs data rowCount
  refine ⟨E', hrun.trans (congrArg (fun v => some (v, E')) (Finset.sum_congr rfl fun r _ => ?_))⟩
  rw [rowValue, countedSum, if_neg hne, zero_add]
  refine congrArg List.sum (List.map_congr_left fun op hop => ?_)
  rw [forestWord_summed hP hsum htree hweight hfresh hmark hop]
  simp only [Summand.thenVal, Summand.elseVal, Tree.constVal_expr]
  rfl

end Trees

/-- `Select(a > 5, Select(a > 5, 7, 1), 2)`. -/
def innerTree : Tree := .node gtFive (.leaf 7) (.leaf 1)

/-- The tree around it as an expression. -/
def treeExpr : Expr .num := (Tree.node gtFive innerTree (.leaf 2)).expr

/-- The pool of the sum of the tree alone. -/
def treePool : NodePool := (Builder.Sum [10] treeExpr.pool).2

theorem treePool_pristine : Pristine treePool :=
  (treeExpr.pool_pristine (by decide)).emplace { kind := .SUM, operands := [10] } .BITPLANE
    (by decide +kernel)

theorem treePool_isSum : IsSum (treePool.storage 11) [10] :=
  ⟨by decide +kernel, by decide +kernel, by decide +kernel, by decide +kernel, by decide +kernel⟩

theorem treePool_weight : ∀ op ∈ [10], (treePool.storage op).weight = 0 := by decide +kernel

theorem treePool_stands : Stands treePool treeExpr (treeExpr.nodeCount - 1) :=
  (treeExpr.pool_stands (by decide) (by decide)).emplace (treeExpr.pool_pristine (by decide)).built
    { kind := .SUM, operands := [10] } .BITPLANE (by decide +kernel)

theorem treePool_represents : ∀ op ∈ [10],
    Represents treePool.storage (Tree.node gtFive innerTree (.leaf 2)).expr op := fun op hop => by
  rw [List.mem_singleton.1 hop, show 10 = treeExpr.nodeCount - 1 from rfl]
  exact treePool_stands.represents

theorem treePool_apart : OpsApart treePool.storage [10] := by
  intro op hop z hz _ hr
  obtain rfl := List.mem_singleton.1 hop
  obtain rfl := List.mem_singleton.1 hz
  exact absurd (treePool_pristine.built.reach_le hr) (by decide +kernel)

theorem treePool_accepted : accepted (setExpression .standard
    oneFieldEngine ['t'] treePool.storage treePool.annot
    (some 11) .BIT_SLICED) = true := by decide +kernel

end ApexEngine
end Engine
end AarchGate
