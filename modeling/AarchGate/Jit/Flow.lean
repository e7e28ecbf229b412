/-
# The words of the nodes of a graph

What the bit-sliced code makes of every node in one lane, for a graph of any
nodes.  A leaf has the word of its field or its constant, and a node the compiler
emits code for makes one from those of its operands (`opValue`).  For the other
nodes, those that are marked `skip_jit` and those of a kind the emission has no
case for, a block of the scratchpad is reserved and never written: they have the
word that was left there (`nodeWord`).

`Words` says that `W` gives every node such a word, and `Flow` that `V` does so in
every lane.  Every pool has its words (`words_laneWord`), they depend on the row and
the residue of the nodes below only (`Words.congr`), and on a node below which
nothing is skipped they are the value of the expression the node represents
(`Words.represents`).
-/

import AarchGate.Jit.Blocks

namespace AarchGate
namespace Jit

open A64 Ir BitPlane

/-- A value as a word: a truth value is 0 or 1. -/
def encode : {t : Ty} → t.Value → Word
  | .num, v => v
  | .bool, b => bit b

/-- The truth value of a word. -/
def truth (w : Word) : Bool := w != 0

/-- A bit is its truth value. -/
@[simp] theorem truth_bit (b : Bool) : truth (bit b) = b := by cases b <;> rfl

/-- The kinds the single pass emits code for. -/
def emitted (k : NodeKind) : Bool := isAddSub k || k.isMask || decide (k = .SELECT)

/-- The node has code. -/
def coded (g : ℕ → Node) (a : ℕ → Annot) (n : ℕ) : Bool := emitted (g n).kind && !(a n).skipJit

/-- The word an emitted node makes of those of its condition and operands. -/
def opValue (sub : Word → Word → Word) (k : NodeKind) (i x y : Word) : Word :=
  match k with
  | .ADD => x + y
  | .SUB => sub x y
  | .SELECT => if truth i then x else y
  | .GT => bit (Cmp.gt.holds x y)
  | .LT => bit (Cmp.lt.holds x y)
  | .GE => bit (Cmp.ge.holds x y)
  | .LE => bit (Cmp.le.holds x y)
  | .EQ => bit (Cmp.eq.holds x y)
  | .AND => bit (truth x && truth y)
  | .OR => bit (truth x || truth y)
  | .NOT => bit (!truth x)
  | _ => 0

/-- The value of a comparison. -/
theorem opValue_cmp (sub : Word → Word → Word) (op : Cmp) (i x y : Word) :
    opValue sub op.kind i x y = bit (op.holds x y) := by cases op <;> rfl

/-- Of a sum or a difference. -/
theorem opValue_addSub {k : NodeKind} (hk : isAddSub k = true) (sub : Word → Word → Word)
    (i x y : Word) : opValue sub k i x y = if k = .SUB then sub x y else x + y := by
  revert hk
  cases k <;> simp [isAddSub, opValue]

/-- What is emitted. -/
theorem emitted_cases {k : NodeKind} (h : emitted k = true) : isAddSub k = true ∨
    (∃ op : Cmp, k = op.kind) ∨ (k = .AND ∨ k = .OR) ∨ k = .NOT ∨ k = .SELECT := by
  cases k <;> first
    | exact absurd h (by decide)
    | exact Or.inl rfl
    | exact Or.inr (Or.inl ⟨.gt, rfl⟩)
    | exact Or.inr (Or.inl ⟨.lt, rfl⟩)
    | exact Or.inr (Or.inl ⟨.ge, rfl⟩)
    | exact Or.inr (Or.inl ⟨.le, rfl⟩)
    | exact Or.inr (Or.inl ⟨.eq, rfl⟩)
    | simp

/-- Nothing is emitted for the other nodes. -/
theorem emitNode_uncoded {g : ℕ → Node} {a : ℕ → Annot} {n bits : ℕ} {c : ScratchpadCache}
    (h : coded g a n = false) : emitNode g a bits n c = .ok ([], c) := by
  cases hs : (a n).skipJit with
  | true => exact emitNode_skip hs
  | false =>
    rw [coded, hs, Bool.not_false, Bool.and_true] at h
    rw [emitNode, hs, if_neg Bool.false_ne_true]
    revert h
    cases (g n).kind <;> simp [emitted, isAddSub, NodeKind.isMask]

/-- The word of a node in one lane; `residue` is what the scratchpad held. -/
def nodeWord (g : ℕ → Node) (a : ℕ → Annot) (row : Name → Word) (sub : Word → Word → Word)
    (residue V : ℕ → Word) (n : ℕ) : Word :=
  if (g n).kind = .LOAD then row (g n).fieldName
  else if (g n).kind = .CONST then (g n).constValue
  else if coded g a n then
    opValue sub (g n).kind ((g n).cond.elim 0 V) ((g n).left.elim 0 V) ((g n).right.elim 0 V)
  else residue n

/-- `W n` is the word of node `n`. -/
def Words (g : ℕ → Node) (a : ℕ → Annot) (row : Name → Word) (sub : Word → Word → Word)
    (residue W : ℕ → Word) : Prop :=
  ∀ n, W n = nodeWord g a row sub residue W n

/-- `V r n` is the word of node `n` in lane `r`. -/
def Flow (g : ℕ → Node) (a : ℕ → Annot) (rows : ℕ → Name → Word) (residue V : ℕ → ℕ → Word) :
    Prop :=
  ∀ r, Words g a (rows r) (subLane r) (residue r) (V r)

section Word

variable {g : ℕ → Node} {a : ℕ → Annot} {n : ℕ}

/-- The word of an operand that may be missing. -/
theorem elim_congr {V V' : ℕ → Word} {o : Option ℕ} (h : ∀ c, o = some c → V c = V' c) :
    o.elim 0 V = o.elim 0 V' := by
  cases o with
  | none => rfl
  | some c => exact h c rfl

/-- The word of a node depends on those of its operands only. -/
theorem nodeWord_congr (row : Name → Word) (sub : Word → Word → Word) (residue : ℕ → Word)
    {V V' : ℕ → Word} (h : ∀ c ∈ (g n).children, V c = V' c) :
    nodeWord g a row sub residue V n = nodeWord g a row sub residue V' n := by
  unfold nodeWord
  rw [elim_congr fun c hc => h c (cond_mem_children hc), elim_congr fun c hc => h c (left_mem_children hc),
    elim_congr fun c hc => h c (right_mem_children hc)]

/-- The word of a node, computed from the leaves upwards. -/
def laneWord (g : ℕ → Node) (a : ℕ → Annot) (row : Name → Word) (sub : Word → Word → Word)
    (residue : ℕ → Word) : ℕ → ℕ → Word
  | 0, _ => 0
  | fuel + 1, n => nodeWord g a row sub residue (laneWord g a row sub residue fuel) n

/-- The operands of a node come before it, so its index is fuel enough. -/
theorem laneWord_fuel {P : NodePool} (hP : Built P) (a : ℕ → Annot) (row : Name → Word)
    (sub : Word → Word → Word) (residue : ℕ → Word) {n : ℕ} :
    ∀ {fuel fuel' : ℕ}, n < fuel → n < fuel' →
      laneWord P.storage a row sub residue fuel n = laneWord P.storage a row sub residue fuel' n := by
  induction n using Nat.strongRecOn with
  | ind n ih =>
    intro fuel fuel' h h'
    obtain ⟨k, rfl⟩ := Nat.exists_eq_succ_of_ne_zero (show fuel ≠ 0 by omega)
    obtain ⟨k', rfl⟩ := Nat.exists_eq_succ_of_ne_zero (show fuel' ≠ 0 by omega)
    refine nodeWord_congr _ _ _ fun c hc => ?_
    have hlt := (hP.ordered.2 n c hc).1
    exact ih c hlt (by omega) (by omega)

/-- **The nodes of a pool have their words.** -/
theorem words_laneWord {P : NodePool} (hP : Built P) (a : ℕ → Annot) (row : Name → Word)
    (sub : Word → Word → Word) (residue : ℕ → Word) :
    Words P.storage a row sub residue fun n => laneWord P.storage a row sub residue (n + 1) n :=
  fun n => nodeWord_congr _ _ _ fun c hc =>
    laneWord_fuel hP a row sub residue (hP.ordered.2 n c hc).1 (Nat.lt_succ_self c)

/-- There is a flow over every pool. -/
theorem exists_flow {P : NodePool} (hP : Built P) (a : ℕ → Annot) (rows : ℕ → Name → Word)
    (residue : ℕ → ℕ → Word) : ∃ V, Flow P.storage a rows residue V :=
  ⟨_, fun r => words_laneWord hP a (rows r) (subLane r) (residue r)⟩

/-- No node below `n` is skipped; leaves have no code to skip. -/
def Live (g : ℕ → Node) (a : ℕ → Annot) (n : ℕ) : Prop :=
  ∀ x, Reach g n x → (g x).kind.isLeaf = false → (a x).skipJit = false

/-- The operands of a live node are live. -/
theorem Live.child {c : ℕ} (h : Live g a n) (hc : c ∈ (g n).children) : Live g a c :=
  fun x hx => h x (Reach.of_child hc hx)

variable {row : Name → Word} {sub : Word → Word → Word} {residue W : ℕ → Word}

/-- The word of a `LOAD`. -/
theorem Words.load (hW : Words g a row sub residue W) (hk : (g n).kind = .LOAD) :
    W n = row (g n).fieldName := by rw [hW, nodeWord, if_pos hk]

/-- Of a `CONST`. -/
theorem Words.const (hW : Words g a row sub residue W) (hk : (g n).kind = .CONST) :
    W n = (g n).constValue := by
  rw [hW, nodeWord, if_neg (by rw [hk]; decide), if_pos hk]

/-- A node with code is no leaf. -/
theorem not_leaf_of_emitted {k : NodeKind} (h : emitted k = true) : k ≠ .LOAD ∧ k ≠ .CONST := by
  constructor <;> rintro rfl <;> exact absurd h (by decide)

/-- The leaves are two kinds. -/
theorem not_leaf_of_isLeaf {k : NodeKind} (h : k.isLeaf = false) : k ≠ .LOAD ∧ k ≠ .CONST := by
  constructor <;> rintro rfl <;> exact absurd h (by decide)

/-- A node with code has the value of its operator. -/
theorem Words.coded (hW : Words g a row sub residue W) (hk : emitted (g n).kind = true)
    (hs : (a n).skipJit = false) :
    W n = opValue sub (g n).kind ((g n).cond.elim 0 W) ((g n).left.elim 0 W)
      ((g n).right.elim 0 W) := by
  obtain ⟨h1, h2⟩ := not_leaf_of_emitted hk
  rw [hW, nodeWord, if_neg h1, if_neg h2, if_pos (by rw [Jit.coded, hk, hs]; rfl)]

/-- One without has what its slot held. -/
theorem Words.left_over (hW : Words g a row sub residue W) (hleaf : (g n).kind.isLeaf = false)
    (hc : Jit.coded g a n = false) : W n = residue n := by
  obtain ⟨h1, h2⟩ := not_leaf_of_isLeaf hleaf
  rw [hW, nodeWord, if_neg h1, if_neg h2, if_neg (by rw [hc]; decide)]

/-- The word of a mask is 0 or 1. -/
theorem Words.exists_bit (hW : Words g a row sub residue W) (hk : (g n).kind.isMask = true)
    (hs : (a n).skipJit = false) : ∃ b, W n = bit b := by
  rw [hW.coded (by rw [emitted, hk, Bool.or_true, Bool.true_or]) hs]
  revert hk
  cases (g n).kind <;> simp [NodeKind.isMask, opValue]

/-- A mask is a bit. -/
theorem Words.truth_mask (hW : Words g a row sub residue W) (hk : (g n).kind.isMask = true)
    (hs : (a n).skipJit = false) : truth (W n) = (W n).getLsbD 0 := by
  obtain ⟨b, hb⟩ := hW.exists_bit hk hs
  rw [hb]
  cases b <;> rfl

/-- And is known by its truth value. -/
theorem Words.bit_truth (hW : Words g a row sub residue W) (hk : (g n).kind.isMask = true)
    (hs : (a n).skipJit = false) : bit (truth (W n)) = W n := by
  obtain ⟨b, hb⟩ := hW.exists_bit hk hs
  rw [hb, truth_bit]

/-- **The words below a root** depend on its fields, on which of its nodes have code and on what
was left in the blocks of those that have none. -/
theorem Words.congr {P : NodePool} (hP : Built P) {a' : ℕ → Annot} {row' : Name → Word}
    {residue' W' : ℕ → Word} (hW : Words P.storage a row sub residue W)
    (hW' : Words P.storage a' row' sub residue' W') {root : ℕ}
    (hcoded : ∀ n, Reach P.storage root n → Jit.coded P.storage a' n = Jit.coded P.storage a n)
    (hrow : ∀ n, Reach P.storage root n → (P.storage n).kind = .LOAD →
      row (P.storage n).fieldName = row' (P.storage n).fieldName)
    (hres : ∀ n, Reach P.storage root n → (P.storage n).kind.isLeaf = false →
      Jit.coded P.storage a n = false → residue n = residue' n)
    {n : ℕ} (hn : Reach P.storage root n) : W n = W' n := by
  induction n using Nat.strongRecOn with
  | ind n ih =>
    have hchild : ∀ c ∈ (P.storage n).children, W c = W' c := fun c hc =>
      ih c (hP.ordered.2 n c hc).1 (hn.child hc)
    cases hleaf : (P.storage n).kind.isLeaf with
    | true =>
      rcases NodeKind.eq_of_isLeaf hleaf with hk | hk
      · rw [hW.load hk, hW'.load hk, hrow n hn hk]
      · rw [hW.const hk, hW'.const hk]
    | false =>
      cases hc : Jit.coded P.storage a n with
      | false =>
        rw [hW.left_over hleaf hc, hW'.left_over hleaf ((hcoded n hn).trans hc), hres n hn hleaf hc]
      | true =>
        obtain ⟨h1, h2⟩ := not_leaf_of_isLeaf hleaf
        rw [hW n, nodeWord_congr _ _ _ hchild, hW' n, nodeWord, nodeWord]
        simp only [if_neg h1, if_neg h2, hcoded n hn, if_pos hc]

/-- **Where nothing is skipped, the word of a node is the value of its expression.** -/
theorem Words.represents (hW : Words g a row sub residue W) {t : Ty} {e : Expr t}
    (he : Represents g e n) (hlive : Live g a n) : W n = encode (e.evalWith sub row) := by
  induction e generalizing n with
  | load f => rw [hW.load he.1.kind, he.2]; rfl
  | const v => rw [hW.const he.1.kind, he.2]; rfl
  | add x y ihx ihy | sub x y ihx ihy | and x y ihx ihy | or x y ihx ihy =>
    obtain ⟨l, k, hb, hx, hy⟩ := he
    have hs := hlive n (Reach.refl _ _) (by rw [hb.kind]; rfl)
    rw [hW.coded (by rw [hb.kind]; rfl) hs, hb.kind, hb.left, hb.right, Option.elim_some,
      Option.elim_some, ihx hx (hlive.child (by simp [hb.children])),
      ihy hy (hlive.child (by simp [hb.children]))]
    first
    | rfl
    | (simp only [opValue, encode, truth_bit]; rfl)
  | cmp op x y ihx ihy =>
    obtain ⟨l, k, hb, hx, hy⟩ := he
    have hs := hlive n (Reach.refl _ _) (by rw [hb.kind]; cases op <;> rfl)
    rw [hW.coded (by rw [hb.kind]; cases op <;> rfl) hs, hb.kind, hb.left, hb.right,
      Option.elim_some, Option.elim_some, ihx hx (hlive.child (by simp [hb.children])),
      ihy hy (hlive.child (by simp [hb.children])), opValue_cmp]
    rfl
  | select c x y ihc ihx ihy =>
    obtain ⟨i, l, k, hb, hc, hx, hy⟩ := he
    have hs := hlive n (Reach.refl _ _) (by rw [hb.kind]; rfl)
    rw [hW.coded (by rw [hb.kind]; rfl) hs, hb.kind, hb.left, hb.right, hb.cond, Option.elim_some,
      Option.elim_some, Option.elim_some, ihc hc (hlive.child (by simp [hb.children])),
      ihx hx (hlive.child (by simp [hb.children])), ihy hy (hlive.child (by simp [hb.children]))]
    simp only [opValue, encode, truth_bit]
    rfl
  | not x ihx =>
    obtain ⟨l, hb, hx⟩ := he
    have hs := hlive n (Reach.refl _ _) (by rw [hb.kind]; rfl)
    rw [hW.coded (by rw [hb.kind]; rfl) hs, hb.kind, hb.left, Option.elim_some,
      ihx hx (hlive.child (by simp [hb.children]))]
    simp only [opValue, encode, truth_bit]
    rfl

end Word

/-! ### Sorts -/

/-- The operands of a node are of the sorts its code reads: bit-planes for
arithmetic and comparisons, masks for the logical operations and the condition. -/
structure Sorted (g : ℕ → Node) (n : ℕ) : Prop where
  arith : isAddSub (g n).kind = true ∨ (g n).kind.isComparison = true → ∃ l r,
    (g n).left = some l ∧ (g n).right = some r ∧ (g l).kind.isMask = false ∧
      (g r).kind.isMask = false
  logic : (g n).kind = .AND ∨ (g n).kind = .OR → ∃ l r,
    (g n).left = some l ∧ (g n).right = some r ∧ (g l).kind.isMask = true ∧ (g r).kind.isMask = true
  not : (g n).kind = .NOT → ∃ l, (g n).left = some l ∧ (g n).right = none ∧ (g l).kind.isMask = true
  select : (g n).kind = .SELECT → ∃ i l r,
    (g n).cond = some i ∧ (g n).left = some l ∧ (g n).right = some r ∧ (g i).kind.isMask = true ∧
      (g l).kind.isMask = false ∧ (g r).kind.isMask = false

/-- A node of the shape the one-operand builder functions give it. -/
structure IsUnary (nd : Node) (l : ℕ) : Prop where
  left : nd.left = some l
  right : nd.right = none
  cond : nd.cond = none
  operands : nd.operands = []

/-- A node as the builder functions make it, of operands of the right sorts. -/
def TypedNode (g : ℕ → Node) (n : ℕ) : Prop :=
  match (g n).kind with
  | .LOAD | .CONST => (g n).children = []
  | .ADD | .SUB | .MUL | .GT | .LT | .GE | .LE | .EQ => ∃ l r, IsBinary (g n) (g n).kind l r ∧
      (g l).kind.isMask = false ∧ (g r).kind.isMask = false
  | .AND | .OR => ∃ l r, IsBinary (g n) (g n).kind l r ∧ (g l).kind.isMask = true ∧
      (g r).kind.isMask = true
  | .NOT | .POPCNT => ∃ l, IsUnary (g n) l ∧ (g l).kind.isMask = true
  | .LSL | .LSR => ∃ l, IsUnary (g n) l ∧ (g l).kind.isMask = false
  | .SELECT => ∃ i l r, IsSelect (g n) i l r ∧ (g i).kind.isMask = true ∧
      (g l).kind.isMask = false ∧ (g r).kind.isMask = false
  -- the operands of a `SUM` are values or masks with weights
  | .SUM => (g n).left = none ∧ (g n).right = none ∧ (g n).cond = none
  | .INFERENCE_COUNT => ∃ i, (g n).cond = some i ∧ (g n).left = none ∧ (g n).right = none ∧
      (g n).operands = [] ∧ (g i).kind.isMask = true

/-- All nodes below `root` are well-typed. -/
def WellTyped (g : ℕ → Node) (root : ℕ) : Prop := ∀ n, Reach g root n → TypedNode g n

/-- A node with code is well-sorted. -/
theorem TypedNode.sorted {g : ℕ → Node} {n : ℕ} (h : TypedNode g n) : Sorted g n := by
  unfold TypedNode at h
  constructor <;> intro hk
  · cases hkind : (g n).kind <;> rw [hkind] at h hk <;>
      simp only [isAddSub, NodeKind.isComparison] at hk <;>
      first
      | (obtain ⟨l, r, hb, hl, hr⟩ := h; exact ⟨l, r, hb.left, hb.right, hl, hr⟩)
      | simp at hk
  · cases hkind : (g n).kind <;> rw [hkind] at h hk <;>
      first
      | (obtain ⟨l, r, hb, hl, hr⟩ := h; exact ⟨l, r, hb.left, hb.right, hl, hr⟩)
      | simp at hk
  · rw [hk] at h
    obtain ⟨l, hu, hl⟩ := h
    exact ⟨l, hu.left, hu.right, hl⟩
  · rw [hk] at h
    obtain ⟨i, l, r, hs, hi, hl, hr⟩ := h
    exact ⟨i, l, r, hs.cond, hs.left, hs.right, hi, hl, hr⟩

/-- A node that represents an expression is well-typed. -/
theorem typed_of_represents {g : ℕ → Node} {n : ℕ} {t : Ty} {e : Expr t} (he : Represents g e n) :
    TypedNode g n := by
  rw [TypedNode, he.kind]
  cases e with
  | load | const => exact he.1.children
  | add | sub | and | or =>
    obtain ⟨l, r, hb, hx, hy⟩ := he
    exact ⟨l, r, hb, hx.isMask, hy.isMask⟩
  | cmp op =>
    obtain ⟨l, r, hb, hx, hy⟩ := he
    cases op <;> exact ⟨l, r, hb, hx.isMask, hy.isMask⟩
  | not =>
    obtain ⟨l, hb, hx⟩ := he
    exact ⟨l, ⟨hb.left, hb.right, hb.cond, hb.operands⟩, hx.isMask⟩
  | select =>
    obtain ⟨i, l, r, hb, hc, hx, hy⟩ := he
    exact ⟨i, l, r, hb, hc.isMask, hx.isMask, hy.isMask⟩

/-- An expression is well typed. -/
theorem wellTyped_of_represents {g : ℕ → Node} {root : ℕ} {t : Ty} {e : Expr t}
    (he : Represents g e root) : WellTyped g root := fun n hn => by
  obtain ⟨s, d, hd, -⟩ := he.reach hn
  exact typed_of_represents hd

/-- And so is every node of it. -/
theorem sorted_of_reach {g : ℕ → Node} {t : Ty} {e : Expr t} {root n : ℕ}
    (he : Represents g e root) (hn : Reach g root n) : Sorted g n :=
  (wellTyped_of_represents he n hn).sorted

end Jit
end AarchGate
