/-
# Well-typed expressions and the graphs that represent them

The node kinds the row language is made of, as a typed syntax: arithmetic
expressions over `LOAD`, `CONST`, `ADD`, `SUB` and `SELECT`, and boolean ones over
the comparisons, `AND`, `OR` and `NOT`.  `Expr.eval` is what an expression is
for: its value on one row, with arithmetic modulo `2^64` and unsigned
comparisons.

`Represents g e n` says that the graph below node `n` unfolds to `e`.  The graph
may share nodes, so one expression has many representations, while a node
represents at most one expression (`Represents.unique`).
-/

import AarchGate.Ir.Node

namespace AarchGate
namespace Ir

open A64 (Word)

/-- The two sorts of expressions: 64-bit values and truth values. -/
inductive Ty where
  | num | bool
  deriving DecidableEq, Repr

/-- The values of a sort. -/
@[reducible] def Ty.Value : Ty → Type
  | .num => Word
  | .bool => Bool

/-- The comparison operators. -/
inductive Cmp where
  | gt | lt | ge | le | eq
  deriving DecidableEq, Repr

/-- The node kind of a comparison. -/
def Cmp.kind : Cmp → NodeKind
  | .gt => .GT
  | .lt => .LT
  | .ge => .GE
  | .le => .LE
  | .eq => .EQ

/-- The comparison of two unsigned values. -/
def Cmp.holds : Cmp → Word → Word → Bool
  | .gt, a, b => decide (b < a)
  | .lt, a, b => decide (a < b)
  | .ge, a, b => decide (b ≤ a)
  | .le, a, b => decide (a ≤ b)
  | .eq, a, b => decide (a = b)

/-- The well-typed expressions. -/
inductive Expr : Ty → Type where
  | load (f : Name) : Expr .num
  | const (v : Word) : Expr .num
  | add (a b : Expr .num) : Expr .num
  | sub (a b : Expr .num) : Expr .num
  | select (c : Expr .bool) (a b : Expr .num) : Expr .num
  | cmp (op : Cmp) (a b : Expr .num) : Expr .bool
  | and (a b : Expr .bool) : Expr .bool
  | or (a b : Expr .bool) : Expr .bool
  | not (a : Expr .bool) : Expr .bool

namespace Expr

/-- The value of an expression on a row, for a given meaning of `SUB`. -/
def evalWith (sub : Word → Word → Word) (row : Name → Word) : {t : Ty} → Expr t → t.Value
  | _, load f => row f
  | _, const v => v
  | _, add a b => evalWith sub row a + evalWith sub row b
  | _, Expr.sub a b => sub (evalWith sub row a) (evalWith sub row b)
  | _, select c a b => if evalWith sub row c then evalWith sub row a else evalWith sub row b
  | _, cmp op a b => op.holds (evalWith sub row a) (evalWith sub row b)
  | _, and a b => evalWith sub row a && evalWith sub row b
  | _, or a b => evalWith sub row a || evalWith sub row b
  | _, not a => !evalWith sub row a

/-- **The value of an expression on a row**: arithmetic modulo `2^64`. -/
def eval (row : Name → Word) {t : Ty} (e : Expr t) : t.Value := evalWith (· - ·) row e

/-- Every node of the expression is of a kind in `p`. -/
def all (p : NodeKind → Bool) : {t : Ty} → Expr t → Bool
  | _, load _ => p .LOAD
  | _, const _ => p .CONST
  | _, add a b => p .ADD && all p a && all p b
  | _, Expr.sub a b => p .SUB && all p a && all p b
  | _, select c a b => p .SELECT && all p c && all p a && all p b
  | _, cmp op a b => p op.kind && all p a && all p b
  | _, and a b => p .AND && all p a && all p b
  | _, or a b => p .OR && all p a && all p b
  | _, not a => p .NOT && all p a

/-- The expressions without `SUB`. -/
def subFree {t : Ty} (e : Expr t) : Bool := e.all (· != .SUB)

/-- The expressions without `NOT`. -/
def notFree {t : Ty} (e : Expr t) : Bool := e.all (· != .NOT)

/-- The field names an expression loads. -/
def fields : {t : Ty} → Expr t → List Name
  | _, load f => [f]
  | _, const _ => []
  | _, add a b => fields a ++ fields b
  | _, Expr.sub a b => fields a ++ fields b
  | _, select c a b => fields c ++ fields a ++ fields b
  | _, cmp _ a b => fields a ++ fields b
  | _, and a b => fields a ++ fields b
  | _, or a b => fields a ++ fields b
  | _, not a => fields a

/-- The roots of kernels: everything but a bare `LOAD` or `CONST`. -/
def compound : {t : Ty} → Expr t → Bool
  | _, load _ => false
  | _, const _ => false
  | _, _ => true

/-- The meaning of `SUB` does not matter to an expression without it. -/
theorem evalWith_subFree {sub : Word → Word → Word} {row : Name → Word} {t : Ty} (e : Expr t)
    (h : e.subFree = true) : e.evalWith sub row = e.eval row := by
  unfold eval
  unfold subFree at h
  induction e with
  | load f => rfl
  | const v => rfl
  | add a b iha ihb | cmp op a b iha ihb | and a b iha ihb | or a b iha ihb =>
    simp only [all, Bool.and_eq_true] at h
    rw [evalWith, evalWith, iha h.1.2, ihb h.2]
  | sub a b => simp [all] at h
  | select c a b ihc iha ihb =>
    simp only [all, Bool.and_eq_true] at h
    rw [evalWith, evalWith, ihc h.1.1.2, iha h.1.2, ihb h.2]
  | not a iha =>
    simp only [all, Bool.and_eq_true] at h
    rw [evalWith, evalWith, iha h.2]

/-- Rows that agree on the fields of an expression give it one value. -/
theorem evalWith_congr {sub : Word → Word → Word} {row row' : Name → Word} {t : Ty} (e : Expr t)
    (h : ∀ f ∈ e.fields, row f = row' f) : e.evalWith sub row = e.evalWith sub row' := by
  induction e with
  | load f => exact h f (List.mem_singleton_self f)
  | const v => rfl
  | add a b iha ihb | sub a b iha ihb | cmp op a b iha ihb | and a b iha ihb | or a b iha ihb =>
    rw [fields] at h
    rw [evalWith, evalWith, iha fun f hf => h f (List.mem_append_left _ hf),
      ihb fun f hf => h f (List.mem_append_right _ hf)]
  | select c a b ihc iha ihb =>
    rw [fields] at h
    rw [evalWith, evalWith,
      ihc fun f hf => h f (List.mem_append_left _ (List.mem_append_left _ hf)),
      iha fun f hf => h f (List.mem_append_left _ (List.mem_append_right _ hf)),
      ihb fun f hf => h f (List.mem_append_right _ hf)]
  | not a iha =>
    rw [fields] at h
    rw [evalWith, evalWith, iha h]

end Expr

/-- A node of the shape the two-operand builder functions give it. -/
structure IsBinary (nd : Node) (k : NodeKind) (l r : ℕ) : Prop where
  kind : nd.kind = k
  left : nd.left = some l
  right : nd.right = some r
  cond : nd.cond = none
  operands : nd.operands = []

/-- A node of the shape `builder::Select` gives it. -/
structure IsSelect (nd : Node) (c l r : ℕ) : Prop where
  kind : nd.kind = .SELECT
  cond : nd.cond = some c
  left : nd.left = some l
  right : nd.right = some r
  operands : nd.operands = []

/-- A node of the shape `builder::Not` gives it. -/
structure IsNot (nd : Node) (l : ℕ) : Prop where
  kind : nd.kind = .NOT
  left : nd.left = some l
  right : nd.right = none
  cond : nd.cond = none
  operands : nd.operands = []

/-- A node without operands. -/
structure IsLeafNode (nd : Node) (k : NodeKind) : Prop where
  kind : nd.kind = k
  left : nd.left = none
  right : nd.right = none
  cond : nd.cond = none
  operands : nd.operands = []

/-- The graph below node `n` unfolds to the expression. -/
def Represents (g : ℕ → Node) : {t : Ty} → Expr t → ℕ → Prop
  | _, .load f, n => IsLeafNode (g n) .LOAD ∧ (g n).fieldName = f
  | _, .const v, n => IsLeafNode (g n) .CONST ∧ (g n).constValue = v
  | _, .add a b, n => ∃ l r, IsBinary (g n) .ADD l r ∧ Represents g a l ∧ Represents g b r
  | _, .sub a b, n => ∃ l r, IsBinary (g n) .SUB l r ∧ Represents g a l ∧ Represents g b r
  | _, .select c a b, n => ∃ i l r, IsSelect (g n) i l r ∧ Represents g c i ∧ Represents g a l ∧
      Represents g b r
  | _, .cmp op a b, n => ∃ l r, IsBinary (g n) op.kind l r ∧ Represents g a l ∧ Represents g b r
  | _, .and a b, n => ∃ l r, IsBinary (g n) .AND l r ∧ Represents g a l ∧ Represents g b r
  | _, .or a b, n => ∃ l r, IsBinary (g n) .OR l r ∧ Represents g a l ∧ Represents g b r
  | _, .not a, n => ∃ l, IsNot (g n) l ∧ Represents g a l

/-- The children of a binary node. -/
theorem IsBinary.children {nd : Node} {k : NodeKind} {l r : ℕ} (h : IsBinary nd k l r) :
    nd.children = [l, r] := by
  simp [Node.children, h.left, h.right, h.cond, h.operands]

/-- Those of a `SELECT`. -/
theorem IsSelect.children {nd : Node} {c l r : ℕ} (h : IsSelect nd c l r) :
    nd.children = [l, r, c] := by
  simp [Node.children, h.left, h.right, h.cond, h.operands]

/-- That of a `NOT`. -/
theorem IsNot.children {nd : Node} {l : ℕ} (h : IsNot nd l) : nd.children = [l] := by
  simp [Node.children, h.left, h.right, h.cond, h.operands]

/-- A leaf has none. -/
theorem IsLeafNode.children {nd : Node} {k : NodeKind} (h : IsLeafNode nd k) :
    nd.children = [] := by
  simp [Node.children, h.left, h.right, h.cond, h.operands]

/-- The constructor of an expression, by the kind of its node. -/
def Expr.kind : {t : Ty} → Expr t → NodeKind
  | _, .load _ => .LOAD
  | _, .const _ => .CONST
  | _, .add _ _ => .ADD
  | _, .sub _ _ => .SUB
  | _, .select _ _ _ => .SELECT
  | _, .cmp op _ _ => op.kind
  | _, .and _ _ => .AND
  | _, .or _ _ => .OR
  | _, .not _ => .NOT

/-- The node is of the kind of its expression. -/
theorem Represents.kind {g : ℕ → Node} {t : Ty} {e : Expr t} {n : ℕ} (h : Represents g e n) :
    (g n).kind = e.kind := by
  cases e with
  | load f => exact h.1.kind
  | const v => exact h.1.kind
  | add a b | sub a b | and a b | or a b | cmp op a b => obtain ⟨l, r, hn, -⟩ := h; exact hn.kind
  | select c a b => obtain ⟨i, l, r, hn, -⟩ := h; exact hn.kind
  | not a => obtain ⟨l, hn, -⟩ := h; exact hn.kind

/-- The root of a representation is a leaf exactly for a bare `LOAD` or `CONST`. -/
theorem Represents.isLeaf {g : ℕ → Node} {t : Ty} {e : Expr t} {n : ℕ} (h : Represents g e n) :
    (g n).kind.isLeaf = !e.compound := by
  rw [h.kind]
  cases e with
  | cmp op => cases op <;> rfl
  | _ => rfl

/-- Boolean expressions are the nodes whose result is a mask. -/
theorem Represents.isMask {g : ℕ → Node} {t : Ty} {e : Expr t} {n : ℕ} (h : Represents g e n) :
    (g n).kind.isMask = decide (t = .bool) := by
  rw [h.kind]
  cases e with
  | cmp op => cases op <;> rfl
  | _ => rfl

/-- A node is binary in one way. -/
theorem IsBinary.operands_eq {nd : Node} {k k' : NodeKind} {l r l' r' : ℕ}
    (h : IsBinary nd k l r) (h' : IsBinary nd k' l' r') : k = k' ∧ l = l' ∧ r = r' :=
  ⟨h.kind.symm.trans h'.kind, Option.some.inj (h.left.symm.trans h'.left),
    Option.some.inj (h.right.symm.trans h'.right)⟩

/-- A comparison is known by its kind. -/
theorem Cmp.kind_injective {op op' : Cmp} (h : op.kind = op'.kind) : op = op' := by
  cases op <;> cases op' <;> first | rfl | simp [Cmp.kind] at h

/-- An expression is no `SUM`. -/
theorem Expr.kind_ne_sum {t : Ty} (e : Expr t) : e.kind ≠ .SUM := by
  cases e with
  | cmp op => cases op <;> simp [Expr.kind, Cmp.kind]
  | _ => simp [Expr.kind]

/-- The operands of a binary node, if its operands represent one expression each. -/
theorem operands_unique {g : ℕ → Node} {s t : Ty} {a a' : Expr s} {b b' : Expr t} {n : ℕ}
    {k k' : NodeKind} (h : ∃ l r, IsBinary (g n) k l r ∧ Represents g a l ∧ Represents g b r)
    (h' : ∃ l r, IsBinary (g n) k' l r ∧ Represents g a' l ∧ Represents g b' r)
    (iha : ∀ {l}, Represents g a l → Represents g a' l → a = a')
    (ihb : ∀ {r}, Represents g b r → Represents g b' r → b = b') : k = k' ∧ a = a' ∧ b = b' := by
  obtain ⟨l, r, hn, ha, hb⟩ := h
  obtain ⟨l', r', hn', ha', hb'⟩ := h'
  obtain ⟨hk, rfl, rfl⟩ := hn.operands_eq hn'
  exact ⟨hk, iha ha ha', ihb hb hb'⟩

/-- **A node represents at most one expression.** -/
theorem Represents.unique {g : ℕ → Node} {t : Ty} {e e' : Expr t} {n : ℕ} (h : Represents g e n)
    (h' : Represents g e' n) : e = e' := by
  induction e generalizing n with
  | load f =>
    have hk := h.kind.symm.trans h'.kind
    cases e' <;> simp only [Expr.kind, reduceCtorEq] at hk
    rw [← h.2, ← h'.2]
  | const v =>
    have hk := h.kind.symm.trans h'.kind
    cases e' <;> simp only [Expr.kind, reduceCtorEq] at hk
    rw [← h.2, ← h'.2]
  | add a b iha ihb =>
    have hk := h.kind.symm.trans h'.kind
    cases e' <;> simp only [Expr.kind, reduceCtorEq] at hk
    obtain ⟨-, rfl, rfl⟩ := operands_unique h h' iha ihb
    rfl
  | sub a b iha ihb =>
    have hk := h.kind.symm.trans h'.kind
    cases e' <;> simp only [Expr.kind, reduceCtorEq] at hk
    obtain ⟨-, rfl, rfl⟩ := operands_unique h h' iha ihb
    rfl
  | select c a b ihc iha ihb =>
    have hk := h.kind.symm.trans h'.kind
    cases e' <;> simp only [Expr.kind, reduceCtorEq] at hk
    obtain ⟨i, l, r, hn, hc, ha, hb⟩ := h
    obtain ⟨i', l', r', hn', hc', ha', hb'⟩ := h'
    obtain rfl := Option.some.inj (hn.cond.symm.trans hn'.cond)
    obtain rfl := Option.some.inj (hn.left.symm.trans hn'.left)
    obtain rfl := Option.some.inj (hn.right.symm.trans hn'.right)
    rw [ihc hc hc', iha ha ha', ihb hb hb']
  | cmp op a b iha ihb =>
    have hk := h.kind.symm.trans h'.kind
    cases e' with
    | cmp op' a' b' =>
      obtain ⟨hop, rfl, rfl⟩ := operands_unique h h' iha ihb
      rw [Cmp.kind_injective hop]
    | and a' b' | or a' b' => cases op <;> simp [Expr.kind, Cmp.kind] at hk
    | not a' => cases op <;> simp [Expr.kind, Cmp.kind] at hk
  | and a b iha ihb =>
    have hk := h.kind.symm.trans h'.kind
    cases e' with
    | cmp op' a' b' => cases op' <;> simp [Expr.kind, Cmp.kind] at hk
    | and a' b' =>
      obtain ⟨-, rfl, rfl⟩ := operands_unique h h' iha ihb
      rfl
    | or a' b' => simp [Expr.kind] at hk
    | not a' => simp [Expr.kind] at hk
  | or a b iha ihb =>
    have hk := h.kind.symm.trans h'.kind
    cases e' with
    | cmp op' a' b' => cases op' <;> simp [Expr.kind, Cmp.kind] at hk
    | or a' b' =>
      obtain ⟨-, rfl, rfl⟩ := operands_unique h h' iha ihb
      rfl
    | and a' b' => simp [Expr.kind] at hk
    | not a' => simp [Expr.kind] at hk
  | not a iha =>
    have hk := h.kind.symm.trans h'.kind
    cases e' with
    | cmp op' a' b' => cases op' <;> simp [Expr.kind, Cmp.kind] at hk
    | not a' =>
      obtain ⟨l, hn, ha⟩ := h
      obtain ⟨l', hn', ha'⟩ := h'
      obtain rfl := Option.some.inj (hn.left.symm.trans hn'.left)
      rw [iha ha ha']
    | and a' b' => simp [Expr.kind] at hk
    | or a' b' => simp [Expr.kind] at hk

/-- The part of an expression: it loads no other fields and has no other kinds
of nodes. -/
structure Part {t s : Ty} (e : Expr t) (d : Expr s) : Prop where
  fields : ∀ f ∈ d.fields, f ∈ e.fields
  all : ∀ p, e.all p = true → d.all p = true

/-- An expression is a part of itself. -/
theorem Part.refl {t : Ty} (e : Expr t) : Part e e := ⟨fun _ h => h, fun _ h => h⟩

/-- A part of a part is a part. -/
theorem Part.trans {t s u : Ty} {e : Expr t} {d : Expr s} {b : Expr u} (h : Part e d)
    (h' : Part d b) : Part e b :=
  ⟨fun f hf => h.fields f (h'.fields f hf), fun p hp => h'.all p (h.all p hp)⟩

/-- What holds of all kinds holds of that of the root. -/
theorem Represents.all_kind {g : ℕ → Node} {t : Ty} {e : Expr t} {n : ℕ} (h : Represents g e n)
    {p : NodeKind → Bool} (ha : e.all p = true) : p (g n).kind = true := by
  rw [h.kind]
  cases e <;> simp only [Expr.all, Bool.and_eq_true] at ha <;> simp only [Expr.kind] <;> tauto

/-- **Every node below the root of a representation represents a part of it.** -/
theorem Represents.reach {g : ℕ → Node} {t : Ty} {e : Expr t} {root : ℕ}
    (h : Represents g e root) {n : ℕ} (hr : Reach g root n) :
    ∃ (s : Ty) (d : Expr s), Represents g d n ∧ Part e d := by
  -- at the root itself, or below one of its operands
  have split : ∀ {t : Ty} {e : Expr t} {root : ℕ}, Represents g e root → Reach g root n →
      (∀ c ∈ (g root).children, Reach g c n →
        ∃ (s : Ty) (d : Expr s), Represents g d n ∧ Part e d) →
      ∃ (s : Ty) (d : Expr s), Represents g d n ∧ Part e d := by
    intro t e root h hr hc
    rcases hr.cases_head with rfl | ⟨c, hcm, hcn⟩
    · exact ⟨_, _, h, .refl e⟩
    · exact hc c hcm hcn
  induction e generalizing root with
  | load f | const v =>
    refine split h hr fun c hc _ => ?_
    simp [h.1.children] at hc
  | add a b iha ihb | sub a b iha ihb | cmp op a b iha ihb | and a b iha ihb | or a b iha ihb =>
    refine split h hr fun c hc hcn => ?_
    obtain ⟨l, r, hn, ha, hb⟩ := h
    simp only [hn.children, List.mem_cons, List.not_mem_nil, or_false] at hc
    rcases hc with rfl | rfl
    · obtain ⟨s, d, hd, hpart⟩ := iha ha hcn
      exact ⟨s, d, hd, Part.trans ⟨fun f hf => List.mem_append_left _ hf, fun p hp => by
        simp only [Expr.all, Bool.and_eq_true] at hp; exact hp.1.2⟩ hpart⟩
    · obtain ⟨s, d, hd, hpart⟩ := ihb hb hcn
      exact ⟨s, d, hd, Part.trans ⟨fun f hf => List.mem_append_right _ hf, fun p hp => by
        simp only [Expr.all, Bool.and_eq_true] at hp; exact hp.2⟩ hpart⟩
  | select c a b ihc iha ihb =>
    refine split h hr fun x hx hxn => ?_
    obtain ⟨i, l, r, hn, hc, ha, hb⟩ := h
    simp only [hn.children, List.mem_cons, List.not_mem_nil, or_false] at hx
    rcases hx with rfl | rfl | rfl
    · obtain ⟨s, d, hd, hpart⟩ := iha ha hxn
      exact ⟨s, d, hd, Part.trans ⟨fun f hf =>
        List.mem_append_left _ (List.mem_append_right _ hf), fun p hp => by
        simp only [Expr.all, Bool.and_eq_true] at hp; exact hp.1.2⟩ hpart⟩
    · obtain ⟨s, d, hd, hpart⟩ := ihb hb hxn
      exact ⟨s, d, hd, Part.trans ⟨fun f hf => List.mem_append_right _ hf, fun p hp => by
        simp only [Expr.all, Bool.and_eq_true] at hp; exact hp.2⟩ hpart⟩
    · obtain ⟨s, d, hd, hpart⟩ := ihc hc hxn
      exact ⟨s, d, hd, Part.trans ⟨fun f hf =>
        List.mem_append_left _ (List.mem_append_left _ hf), fun p hp => by
        simp only [Expr.all, Bool.and_eq_true] at hp; exact hp.1.1.2⟩ hpart⟩
  | not a iha =>
    refine split h hr fun x hx hxn => ?_
    obtain ⟨l, hn, ha⟩ := h
    simp only [hn.children, List.mem_singleton] at hx
    subst hx
    obtain ⟨s, d, hd, hpart⟩ := iha ha hxn
    have hnot : Part (.not a) a := ⟨fun f hf => hf, fun p hp => by
      simp only [Expr.all, Bool.and_eq_true] at hp; exact hp.2⟩
    exact ⟨s, d, hd, hnot.trans hpart⟩

/-- The operands of a typed node. -/
theorem Represents.child_cases {g : ℕ → Node} {t : Ty} {e : Expr t} {n c : ℕ}
    (he : Represents g e n) (hc : c ∈ (g n).children) :
    (g n).left = some c ∨ (g n).right = some c ∨ (g n).kind = .SELECT ∧ (g n).cond = some c := by
  cases e with
  | load | const => simp [he.1.children] at hc
  | add x y | sub x y | cmp op x y | and x y | or x y =>
    obtain ⟨l, r, hb, -, -⟩ := he
    rw [hb.children, List.mem_pair] at hc
    exact hc.elim (fun h => .inl (h ▸ hb.left)) fun h => .inr (.inl (h ▸ hb.right))
  | not x =>
    obtain ⟨l, hb, -⟩ := he
    rw [hb.children, List.mem_singleton] at hc
    exact .inl (hc ▸ hb.left)
  | select k x y =>
    obtain ⟨i, l, r, hb, -, -, -⟩ := he
    simp only [hb.children, List.mem_cons, List.not_mem_nil, or_false] at hc
    rcases hc with rfl | rfl | rfl
    · exact .inl hb.left
    · exact .inr (.inl hb.right)
    · exact .inr (.inr ⟨hb.kind, hb.cond⟩)

/-- A root above an operand is no leaf. -/
theorem Represents.not_isLeaf_of_reach {g : ℕ → Node} {t : Ty} {e : Expr t} {root n c : ℕ}
    (he : Represents g e root) (hn : Reach g root n) (hc : c ∈ (g n).children) :
    (g root).kind.isLeaf = false := by
  have hne : (g root).children ≠ [] := by
    rcases hn.cases_head with rfl | ⟨x, hx, -⟩
    · exact List.ne_nil_of_mem hc
    · exact List.ne_nil_of_mem hx
  rw [he.isLeaf]
  cases e with
  | load | const => exact absurd he.1.children hne
  | add | sub | cmp | and | or | not | select => rfl

/-- The condition of a `SELECT` is no leaf. -/
theorem Represents.cond_not_leaf {g : ℕ → Node} {t : Ty} {e : Expr t} {n c : ℕ}
    (he : Represents g e n) (hc : (g n).cond = some c) : (g c).kind.isLeaf = false := by
  cases e with
  | load | const => simp [he.1.cond] at hc
  | add x y | sub x y | cmp op x y | and x y | or x y =>
    obtain ⟨l, r, hb, -, -⟩ := he
    simp [hb.cond] at hc
  | not x =>
    obtain ⟨l, hb, -⟩ := he
    simp [hb.cond] at hc
  | select k x y =>
    obtain ⟨i, l, r, hb, hi, -, -⟩ := he
    rw [hb.cond] at hc
    obtain rfl := Option.some.inj hc
    rw [hi.isLeaf]
    cases k <;> rfl

/-- The names at the `LOAD` nodes are the fields of the expression. -/
theorem Represents.mem_fields {g : ℕ → Node} {t : Ty} {e : Expr t} {root n : ℕ}
    (he : Represents g e root) (hn : Reach g root n) (hk : (g n).kind = .LOAD) :
    (g n).fieldName ∈ e.fields := by
  obtain ⟨s, d, hd, hpart⟩ := he.reach hn
  refine hpart.fields _ ?_
  have hkd := hd.kind.symm.trans hk
  cases d with
  | load f => rw [← hd.2]; exact List.mem_singleton_self _
  | cmp op => cases op <;> simp [Expr.kind, Cmp.kind] at hkd
  | _ => simp [Expr.kind] at hkd

/-- Every field of the expression stands at a `LOAD` node. -/
theorem Represents.exists_load {g : ℕ → Node} {t : Ty} {e : Expr t} {root : ℕ}
    (he : Represents g e root) {f : Name} (hf : f ∈ e.fields) :
    ∃ n, Reach g root n ∧ (g n).kind = .LOAD ∧ (g n).fieldName = f := by
  -- below the operand that loads the field
  have lift : ∀ {root c : ℕ}, c ∈ (g root).children →
      (∃ n, Reach g c n ∧ (g n).kind = .LOAD ∧ (g n).fieldName = f) →
      ∃ n, Reach g root n ∧ (g n).kind = .LOAD ∧ (g n).fieldName = f :=
    fun hc ⟨n, hn, h⟩ => ⟨n, Reach.of_child hc hn, h⟩
  induction e generalizing root with
  | load f' =>
    obtain rfl := List.mem_singleton.1 hf
    exact ⟨root, Reach.refl _ _, he.1.kind, he.2⟩
  | const v => simp [Expr.fields] at hf
  | add a b iha ihb | sub a b iha ihb | cmp op a b iha ihb | and a b iha ihb | or a b iha ihb =>
    obtain ⟨l, r, hn, ha, hb⟩ := he
    rcases List.mem_append.1 hf with hf | hf
    · exact lift (by simp [hn.children]) (iha ha hf)
    · exact lift (by simp [hn.children]) (ihb hb hf)
  | select c a b ihc iha ihb =>
    obtain ⟨i, l, r, hn, hc, ha, hb⟩ := he
    rw [Expr.fields, List.mem_append, List.mem_append] at hf
    rcases hf with (hf | hf) | hf
    · exact lift (by simp [hn.children]) (ihc hc hf)
    · exact lift (by simp [hn.children]) (iha ha hf)
    · exact lift (by simp [hn.children]) (ihb hb hf)
  | not a iha =>
    obtain ⟨l, hn, ha⟩ := he
    exact lift (by simp [hn.children]) (iha ha hf)

/-- The root of a compound expression lies in the pool. -/
theorem Represents.lt_nextIdx {P : NodePool} (hP : Built P) {t : Ty} {e : Expr t} {n : ℕ}
    (h : Represents P.storage e n) (hc : e.compound = true) : n < P.nextIdx := by
  have hchild : ∀ c, c ∈ (P.storage n).children → n < P.nextIdx :=
    fun c hcn => (hP.ordered.2 n c hcn).2
  cases e with
  | load | const => simp [Expr.compound] at hc
  | add | sub | cmp | and | or =>
    obtain ⟨l, r, hn, -⟩ := h
    exact hchild l (by simp [hn.children])
  | select =>
    obtain ⟨i, l, r, hn, -⟩ := h
    exact hchild l (by simp [hn.children])
  | not =>
    obtain ⟨l, hn, -⟩ := h
    exact hchild l (by simp [hn.children])

end Ir
end AarchGate
