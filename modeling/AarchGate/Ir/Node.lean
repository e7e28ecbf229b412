/-
# Expression nodes and their builder

`include/apex/jit/ir.hpp` and `src/jit/jit.cpp`.

An expression is a graph of `ir::Node`s in one global pool, `builder::NodePool`.
A node pointer is the index of the node in the pool, a null pointer is `none`.
The content of a node (kind, field name, constant, operands) is written once by
the builder; what later passes write into a node, the "compile-time metadata" of
the struct together with its `result_kind`, is kept beside it as an `Annot`.
`active_bits` of a node is left out: no pass reads it back into the code it
emits.

A builder function stores pointers to nodes that exist already, so every edge
of the pool goes to a smaller index (`Built.ordered`).
-/

import AarchGate.A64.Machine
import AarchGate.Graph.PostOrder
import Mathlib.Data.Int.Basic

namespace AarchGate
namespace Ir

open A64 (Word)

/-- A C string, by its characters before the terminating NUL. -/
abbrev Name := List Char

/-- `ir::NodeKind`. -/
inductive NodeKind where
  | LOAD | CONST | ADD | SUB | GT | LT | GE | LE | EQ | AND | OR | NOT | SELECT | MUL | POPCNT
  | LSL | LSR | SUM | INFERENCE_COUNT
  deriving DecidableEq, Repr

/-- `ir::ResultKind`. -/
inductive ResultKind where
  | BITPLANE | BITMASK
  deriving DecidableEq, Repr

/-- The content of an `ir::Node`. -/
structure Node where
  kind : NodeKind
  fieldName : Name := []
  constValue : Word := 0
  weight : Word := 0
  shiftAmount : ℤ := 0
  left : Option ℕ := none
  right : Option ℕ := none
  cond : Option ℕ := none
  operands : List ℕ := []
  deriving DecidableEq, Repr

/-- The metadata of an `ir::Node`, with the defaults of the struct. -/
@[ext] structure Annot where
  resultKind : ResultKind := .BITPLANE
  slotId : ℤ := -1
  eqSlotId : ℤ := -1
  fieldIdx : ℤ := -1
  carryReg : ℤ := -1
  skipJit : Bool := false
  deriving DecidableEq, Repr

/-- The nodes a node points to, in the order every pass visits them: `left`,
`right`, `cond`, `operands`. -/
def Node.children (n : Node) : List ℕ :=
  n.left.toList ++ n.right.toList ++ n.cond.toList ++ n.operands

/-- The left operand is a child. -/
theorem left_mem_children {nd : Node} {l : ℕ} (h : nd.left = some l) : l ∈ nd.children := by
  simp [Node.children, h]

/-- So is the right one. -/
theorem right_mem_children {nd : Node} {r : ℕ} (h : nd.right = some r) : r ∈ nd.children := by
  simp [Node.children, h]

/-- And the condition. -/
theorem cond_mem_children {nd : Node} {i : ℕ} (h : nd.cond = some i) : i ∈ nd.children := by
  simp [Node.children, h]

/-- The comparisons: the kinds that own an `eq_slot_id`. -/
def NodeKind.isComparison : NodeKind → Bool
  | .GT | .LT | .GE | .LE | .EQ => true
  | _ => false

/-- The leaves: the kinds without a slot. -/
def NodeKind.isLeaf : NodeKind → Bool
  | .LOAD | .CONST => true
  | _ => false

/-- The kinds whose result is one mask. -/
def NodeKind.isMask : NodeKind → Bool
  | .GT | .LT | .GE | .LE | .EQ | .AND | .OR | .NOT => true
  | _ => false

/-- The leaves. -/
theorem NodeKind.eq_of_isLeaf {k : NodeKind} (h : k.isLeaf = true) : k = .LOAD ∨ k = .CONST := by
  cases k <;> simp [NodeKind.isLeaf] at h ⊢

/-- A leaf is no mask. -/
theorem NodeKind.not_isMask_of_isLeaf {k : NodeKind} (h : k.isLeaf = true) : k.isMask = false := by
  rcases NodeKind.eq_of_isLeaf h with rfl | rfl <;> rfl

/-- A mask is no leaf. -/
theorem NodeKind.not_isLeaf_of_isMask {k : NodeKind} (h : k.isMask = true) : k.isLeaf = false := by
  cases k <;> simp [NodeKind.isMask, NodeKind.isLeaf] at h ⊢

/-- A comparison is a mask. -/
theorem NodeKind.isMask_of_isComparison {k : NodeKind} (h : k.isComparison = true) :
    k.isMask = true := by
  cases k <;> simp [NodeKind.isMask, NodeKind.isComparison] at h ⊢

/-- What is no mask is no comparison. -/
theorem NodeKind.not_isComparison_of_not_isMask {k : NodeKind} (h : k.isMask = false) :
    k.isComparison = false := by
  cases k <;> simp [NodeKind.isMask, NodeKind.isComparison] at h ⊢

/-- `ExpressionAnalyzer::analyze` sets the `result_kind` by the kind alone. -/
def NodeKind.resultKind (k : NodeKind) : ResultKind := if k.isMask then .BITMASK else .BITPLANE

/-- `builder::NodePool`. -/
structure NodePool where
  storage : ℕ → Node
  annot : ℕ → Annot
  nextIdx : ℕ

namespace NodePool

/-- `NodePool::MAX_NODES`. -/
def maxNodes : ℕ := 2097152

/-- The pool before any builder call. -/
def empty : NodePool where
  storage := fun _ => { kind := .LOAD }
  annot := fun _ => {}
  nextIdx := 0

end NodePool

namespace Builder

/-- What all builder functions do: `g_pool->alloc()`, then fill in the new
node.  A full pool gives a null pointer. -/
def emplace (n : Node) (rk : ResultKind) : StateM NodePool (Option ℕ) := fun P =>
  if P.nextIdx ≥ NodePool.maxNodes then (none, P)
  else
    (some P.nextIdx,
      { storage := fun i => if i = P.nextIdx then n else P.storage i
        annot := fun i => if i = P.nextIdx then { resultKind := rk } else P.annot i
        nextIdx := P.nextIdx + 1 })

/-- `builder::Load`: `strncpy` keeps the first 63 characters of the name. -/
def Load (fieldName : Name) := emplace { kind := .LOAD, fieldName := fieldName.take 63 } .BITPLANE

/-- `builder::Const`. -/
def Const (value : Word) := emplace { kind := .CONST, constValue := value } .BITPLANE

/-- A node with two operands. -/
def binary (k : NodeKind) (rk : ResultKind) (a b : Option ℕ) :=
  emplace { kind := k, left := a, right := b } rk

/-- `builder::Add`. -/
def Add := binary .ADD .BITPLANE

/-- `builder::Sub`. -/
def Sub := binary .SUB .BITPLANE

/-- `builder::GT`. -/
def GT := binary .GT .BITMASK

/-- `builder::LT`. -/
def LT := binary .LT .BITMASK

/-- `builder::GE`. -/
def GE := binary .GE .BITMASK

/-- `builder::LE`. -/
def LE := binary .LE .BITMASK

/-- `builder::EQ`. -/
def EQ := binary .EQ .BITMASK

/-- `builder::And`. -/
def And := binary .AND .BITMASK

/-- `builder::Or`. -/
def Or := binary .OR .BITMASK

/-- `builder::Mul`. -/
def Mul := binary .MUL .BITPLANE

/-- `builder::Not`. -/
def Not (a : Option ℕ) := emplace { kind := .NOT, left := a } .BITMASK

/-- `builder::Select`. -/
def Select (cond a b : Option ℕ) :=
  emplace { kind := .SELECT, cond := cond, left := a, right := b } .BITPLANE

/-- `builder::Popcnt`. -/
def Popcnt (a : Option ℕ) := emplace { kind := .POPCNT, left := a } .BITPLANE

/-- `builder::LSL`. -/
def LSL (a : Option ℕ) (shift : ℤ) :=
  emplace { kind := .LSL, left := a, shiftAmount := shift } .BITPLANE

/-- `builder::LSR`. -/
def LSR (a : Option ℕ) (shift : ℤ) :=
  emplace { kind := .LSR, left := a, shiftAmount := shift } .BITPLANE

/-- `builder::Sum`. -/
def Sum (operands : List ℕ) := emplace { kind := .SUM, operands := operands } .BITPLANE

/-- `builder::InferenceCount`. -/
def InferenceCount (cond : Option ℕ) :=
  emplace { kind := .INFERENCE_COUNT, cond := cond } .BITPLANE

end Builder

/-- A caller sets the `weight` of a node it has built. -/
def NodePool.setWeight (P : NodePool) (i : ℕ) (w : Word) : NodePool :=
  { P with storage := fun j => if j = i then { P.storage i with weight := w } else P.storage j }

/-- The pools a program can hold: built by builder calls on pointers into the
pool, with weights set and with metadata written by any earlier passes, which
write `eq_slot_id` for comparisons only. -/
inductive Built : NodePool → Prop where
  | empty : Built NodePool.empty
  | emplace {P : NodePool} (h : Built P) (n : Node) (rk : ResultKind)
      (hc : ∀ c ∈ n.children, c < P.nextIdx) : Built (Builder.emplace n rk P).2
  | setWeight {P : NodePool} (h : Built P) (i : ℕ) (w : Word) : Built (P.setWeight i w)
  | annotate {P : NodePool} (h : Built P) (a : ℕ → Annot)
      (ha : ∀ i, (P.storage i).kind.isComparison = false → (a i).eqSlotId = -1) :
      Built { P with annot := a }

/-- **Every edge goes to an earlier node**, and the pool keeps its bound. -/
theorem Built.ordered {P : NodePool} (h : Built P) :
    P.nextIdx ≤ NodePool.maxNodes ∧ ∀ i, ∀ c ∈ (P.storage i).children, c < i ∧ i < P.nextIdx := by
  induction h with
  | empty => exact ⟨Nat.zero_le _, fun i c hc => by simp [NodePool.empty, Node.children] at hc⟩
  | @emplace P h n rk hc ih =>
    unfold Builder.emplace
    split_ifs with hfull
    · exact ih
    · refine ⟨show P.nextIdx + 1 ≤ _ by omega, fun i c hci => ?_⟩
      show c < i ∧ i < P.nextIdx + 1
      simp only at hci
      split_ifs at hci with hi
      · exact ⟨hi ▸ hc c hci, by omega⟩
      · have := ih.2 i c hci
        omega
  | @setWeight P h i w ih =>
    refine ⟨ih.1, fun j c hc => ih.2 j c ?_⟩
    simp only [NodePool.setWeight] at hc
    split_ifs at hc with hj
    · subst hj; exact hc
    · exact hc
  | annotate _ _ _ ih => exact ih

/-- Nodes that are no comparisons have no second slot. -/
theorem Built.eqSlotId {P : NodePool} (h : Built P) :
    ∀ i, (P.storage i).kind.isComparison = false → (P.annot i).eqSlotId = -1 := by
  induction h with
  | empty => exact fun _ _ => rfl
  | @emplace P h n rk hc ih =>
    unfold Builder.emplace
    split_ifs with hfull
    · exact ih
    · intro i hi
      simp only at hi ⊢
      split_ifs at hi ⊢
      · rfl
      · exact ih i hi
  | @setWeight P h i w ih =>
    intro j hj
    refine ih j ?_
    simp only [NodePool.setWeight] at hj
    split_ifs at hj with hji
    · subst hji; exact hj
    · exact hj
  | annotate _ _ ha _ => exact ha

/-- The nodes of an expression: those reachable from its root. -/
def Reach (g : ℕ → Node) (root n : ℕ) : Prop :=
  Graph.Reach (fun i => (g i).children) root n

/-- A node is below itself. -/
theorem Reach.refl (g : ℕ → Node) (n : ℕ) : Reach g n n := Relation.ReflTransGen.refl

/-- So are the children of what is below. -/
theorem Reach.child {g : ℕ → Node} {root n c : ℕ} (h : Reach g root n)
    (hc : c ∈ (g n).children) : Reach g root c := Relation.ReflTransGen.tail h hc

/-- What is below a child is below the node. -/
theorem Reach.of_child {g : ℕ → Node} {n c x : ℕ} (hc : c ∈ (g n).children)
    (h : Reach g c x) : Reach g n x := Relation.ReflTransGen.head hc h

/-- Below a node are itself and what is below its children. -/
theorem Reach.cases_head {g : ℕ → Node} {n x : ℕ} (h : Reach g n x) :
    n = x ∨ ∃ c ∈ (g n).children, Reach g c x := Relation.ReflTransGen.cases_head h

/-- The nodes of an expression lie in the pool. -/
theorem Built.reach_lt {P : NodePool} (h : Built P) {root n : ℕ} (hroot : root < P.nextIdx)
    (hn : Reach P.storage root n) : n < P.nextIdx := by
  induction hn with
  | refl => exact hroot
  | tail _ hc ih => exact Nat.lt_trans (h.ordered.2 _ _ hc).1 ih

/-- Operands are allocated before the node. -/
theorem Built.reach_le {P : NodePool} (h : Built P) {n x : ℕ} (hx : Reach P.storage n x) : x ≤ n := by
  induction hx with
  | refl => exact Nat.le_refl n
  | tail _ hc ih => exact Nat.le_trans (Nat.le_of_lt (h.ordered.2 _ _ hc).1) ih

/-- No pass has written to the nodes of the expression: their metadata are the
defaults of the struct. -/
def Fresh (P : NodePool) (root : ℕ) : Prop :=
  ∀ n, Reach P.storage root n → P.annot n = { resultKind := (P.annot n).resultKind }

/-- No slot has been given out. -/
theorem Fresh.slotId {P : NodePool} {root n : ℕ} (h : Fresh P root) (hn : Reach P.storage root n) :
    (P.annot n).slotId = -1 := by rw [h n hn]

/-- No node is marked. -/
theorem Fresh.skipJit {P : NodePool} {root n : ℕ} (h : Fresh P root)
    (hn : Reach P.storage root n) : (P.annot n).skipJit = false := by rw [h n hn]

end Ir
end AarchGate
