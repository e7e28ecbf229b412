/-
# Rules for builder programs

A program builds an expression by a sequence of builder calls in a pool that may
hold other nodes already.  `Holds P e n` says that pointer `n` stands for `e` on
nodes of the pool that no pass has written to, and there is one rule for each
builder function: with room in the pool the call succeeds, what was held stays
held, and the new node stands for the expression the function is named after.
-/

import AarchGate.Ir.Expr

namespace AarchGate
namespace Ir

open A64 (Word)

/-- The step of a program in the state monad. -/
theorem bind_run {σ α β : Type} {x : StateM σ α} {f : α → StateM σ β} {s s' : σ} {v : α}
    (h : x s = (v, s')) : (x >>= f) s = f v s' := by
  show (let (a, s) := x s; f a s) = f v s'
  rw [h]

/-- A pool with room for `k` more nodes. -/
structure Ready (P : NodePool) (k : ℕ) : Prop where
  built : Built P
  room : P.nextIdx + k ≤ NodePool.maxNodes

/-- The pointer `n` stands for the expression, on fresh nodes. -/
structure Holds (P : NodePool) {t : Ty} (e : Expr t) (n : ℕ) : Prop where
  lt : n < P.nextIdx
  represents : Represents P.storage e n
  fresh : Fresh P n

/-- A pool that no pass has written to. -/
structure Pristine (P : NodePool) : Prop where
  built : Built P
  annot : ∀ i, P.annot i = { resultKind := (P.annot i).resultKind }

namespace Pristine

variable {P : NodePool}

/-- All its expressions are fresh. -/
theorem fresh (h : Pristine P) (root : ℕ) : Fresh P root := fun n _ => h.annot n

/-- The pool of a new process. -/
theorem empty : Pristine .empty := ⟨.empty, fun _ => rfl⟩

/-- A builder call. -/
theorem emplace (h : Pristine P) (nd : Node) (rk : ResultKind)
    (hc : ∀ c ∈ nd.children, c < P.nextIdx) : Pristine (Builder.emplace nd rk P).2 := by
  refine ⟨h.built.emplace nd rk hc, fun i => ?_⟩
  unfold Builder.emplace
  split_ifs
  · exact h.annot i
  · dsimp only
    split_ifs
    · rfl
    · exact h.annot i

/-- The weight of a node is set. -/
theorem setWeight (h : Pristine P) (i : ℕ) (w : Word) : Pristine (P.setWeight i w) :=
  ⟨h.built.setWeight i w, h.annot⟩

end Pristine

/-- What is held stays held. -/
def Kept (P P' : NodePool) : Prop := ∀ {t : Ty} {e : Expr t} {n : ℕ}, Holds P e n → Holds P' e n

section Agree

variable {P : NodePool} {g : ℕ → Node} (hP : Built P) (hg : ∀ i < P.nextIdx, g i = P.storage i)

include hP hg

/-- The nodes below one that was there were there. -/
theorem Reach.of_agree {n x : ℕ} (hn : n < P.nextIdx) (h : Reach g n x) : Reach P.storage n x := by
  have hlt : Reach P.storage n x ∧ x < P.nextIdx := by
    induction h with
    | refl => exact ⟨Reach.refl _ _, hn⟩
    | @tail y z _ hc ih =>
      have hc' : z ∈ (P.storage y).children := hg y ih.2 ▸ hc
      exact ⟨ih.1.child hc', Nat.lt_trans (hP.ordered.2 _ _ hc').1 ih.2⟩
  exact hlt.1

/-- And it stands for what it stood for. -/
theorem Represents.of_agree {t : Ty} {e : Expr t} {n : ℕ} (hn : n < P.nextIdx)
    (h : Represents P.storage e n) : Represents g e n := by
  have hchild : ∀ {n c : ℕ}, n < P.nextIdx → c ∈ (P.storage n).children → c < P.nextIdx :=
    fun hn hc => Nat.lt_trans (hP.ordered.2 _ _ hc).1 hn
  induction e generalizing n with
  | load f | const v => rw [Represents, hg n hn]; exact h
  | add a b iha ihb | sub a b iha ihb | cmp op a b iha ihb | and a b iha ihb | or a b iha ihb =>
    obtain ⟨l, r, hb, ha, hb'⟩ := h
    have hcs := hb.children
    rw [Represents, hg n hn]
    exact ⟨l, r, hb, iha (hchild hn (by rw [hcs]; simp)) ha, ihb (hchild hn (by rw [hcs]; simp)) hb'⟩
  | select c a b ihc iha ihb =>
    obtain ⟨i, l, r, hs, hc, ha, hb⟩ := h
    have hcs := hs.children
    rw [Represents, hg n hn]
    exact ⟨i, l, r, hs, ihc (hchild hn (by rw [hcs]; simp)) hc,
      iha (hchild hn (by rw [hcs]; simp)) ha, ihb (hchild hn (by rw [hcs]; simp)) hb⟩
  | not a iha =>
    obtain ⟨l, hnot, ha⟩ := h
    have hcs := hnot.children
    rw [Represents, hg n hn]
    exact ⟨l, hnot, iha (hchild hn (by rw [hcs]; simp)) ha⟩

end Agree

namespace Builder

variable {P : NodePool} {k : ℕ}

/-- **The rule of `emplace`.** -/
theorem emplace_rule (hP : Ready P (k + 1)) (nd : Node) (rk : ResultKind)
    (hc : ∀ c ∈ nd.children, c < P.nextIdx ∧ Fresh P c) :
    ∃ P', emplace nd rk P = (some P.nextIdx, P') ∧ Ready P' k ∧ Kept P P' ∧
      P.nextIdx < P'.nextIdx ∧ P'.storage P.nextIdx = nd ∧ Fresh P' P.nextIdx := by
  have hroom := hP.room
  have hbuilt := hP.built.emplace nd rk fun c h => (hc c h).1
  have hnot : ¬ NodePool.maxNodes ≤ P.nextIdx := by omega
  refine ⟨(emplace nd rk P).2, ?_⟩
  unfold emplace at hbuilt ⊢
  simp only [ge_iff_le, if_neg hnot] at hbuilt ⊢
  have hg : ∀ i < P.nextIdx, (if i = P.nextIdx then nd else P.storage i) = P.storage i :=
    fun i hi => if_neg (by omega)
  -- an old node has its old metadata
  have hold : ∀ {c : ℕ}, c < P.nextIdx → Fresh P c → ∀ x,
      Reach (fun i => if i = P.nextIdx then nd else P.storage i) c x →
        (if x = P.nextIdx then ({ resultKind := rk } : Annot) else P.annot x) =
          { resultKind := (if x = P.nextIdx then ({ resultKind := rk } : Annot)
            else P.annot x).resultKind } := by
    intro c hlt hfresh x hx
    have hx' := Reach.of_agree hP.built hg hlt hx
    have hxlt := hP.built.reach_lt hlt hx'
    rw [if_neg (by omega)]
    exact hfresh x hx'
  refine ⟨trivial, ⟨hbuilt, show P.nextIdx + 1 + k ≤ _ by omega⟩, ?_, Nat.lt_succ_self _,
    if_pos trivial, ?_⟩
  · intro t e n hn
    exact ⟨Nat.lt_succ_of_lt hn.lt, hn.represents.of_agree hP.built hg hn.lt, hold hn.lt hn.fresh⟩
  · intro x hx
    rcases hx.cases_head with rfl | ⟨c, hcm, hcx⟩
    · simp
    · simp only [if_true] at hcm
      exact hold (hc c hcm).1 (hc c hcm).2 x hcx

/-- Without room for its `k` nodes the program ends with a null pointer. -/
def FailsWithout (k : ℕ) (x : StateM NodePool (Option ℕ)) : Prop :=
  ∀ P, NodePool.maxNodes < P.nextIdx + k → (x P).1 = none

/-- A node needs a place. -/
theorem emplace_fails (nd : Node) (rk : ResultKind) : FailsWithout 1 (emplace nd rk) := by
  intro P hP
  unfold emplace
  rw [if_pos (show P.nextIdx ≥ NodePool.maxNodes by omega)]

/-- A node before others needs one place more. -/
theorem emplace_bind_fails {nd : Node} {rk : ResultKind} {f : Option ℕ → StateM NodePool (Option ℕ)}
    (hf : ∀ v, FailsWithout (k + 1) (f v)) : FailsWithout (k + 2) (emplace nd rk >>= f) := by
  intro P hP
  have hnext : NodePool.maxNodes < (emplace nd rk P).2.nextIdx + (k + 1) := by
    unfold emplace
    split_ifs with hfull
    · show _ < P.nextIdx + (k + 1)
      omega
    · show _ < P.nextIdx + 1 + (k + 1)
      omega
  exact hf _ _ hnext

/-- `Load`. -/
theorem load_rule (hP : Ready P (k + 1)) (f : Name) :
    ∃ i P', Load f P = (some i, P') ∧ Ready P' k ∧ Kept P P' ∧ Holds P' (.load (f.take 63)) i := by
  obtain ⟨P', hrun, hready, hkept, hlt, hnd, hfresh⟩ := emplace_rule hP
    { kind := .LOAD, fieldName := f.take 63 } .BITPLANE (by simp [Node.children])
  refine ⟨_, P', hrun, hready, hkept, hlt, ?_, hfresh⟩
  rw [Represents, hnd]
  exact ⟨⟨rfl, rfl, rfl, rfl, rfl⟩, rfl⟩

/-- `Const`. -/
theorem const_rule (hP : Ready P (k + 1)) (v : Word) :
    ∃ i P', Const v P = (some i, P') ∧ Ready P' k ∧ Kept P P' ∧ Holds P' (.const v) i := by
  obtain ⟨P', hrun, hready, hkept, hlt, hnd, hfresh⟩ := emplace_rule hP
    { kind := .CONST, constValue := v } .BITPLANE (by simp [Node.children])
  refine ⟨_, P', hrun, hready, hkept, hlt, ?_, hfresh⟩
  rw [Represents, hnd]
  exact ⟨⟨rfl, rfl, rfl, rfl, rfl⟩, rfl⟩

/-- The functions with two operands. -/
theorem binary_rule (hP : Ready P (k + 1)) (kind : NodeKind) (rk : ResultKind) {s t : Ty}
    {a b : Expr s} {l r : ℕ} (ha : Holds P a l) (hb : Holds P b r) {e : Expr t}
    (he : ∀ {g : ℕ → Node} {n : ℕ}, IsBinary (g n) kind l r → Represents g a l → Represents g b r →
      Represents g e n) :
    ∃ i P', binary kind rk (some l) (some r) P = (some i, P') ∧ Ready P' k ∧ Kept P P' ∧
      Holds P' e i := by
  obtain ⟨P', hrun, hready, hkept, hlt, hnd, hfresh⟩ := emplace_rule hP
    { kind := kind, left := some l, right := some r } rk (by
      simp only [Node.children, Option.toList_some, Option.toList_none, List.append_nil,
        List.mem_append, List.mem_singleton]
      rintro c (rfl | rfl)
      · exact ⟨ha.lt, ha.fresh⟩
      · exact ⟨hb.lt, hb.fresh⟩)
  refine ⟨_, P', hrun, hready, hkept, hlt, he ?_ (hkept ha).represents (hkept hb).represents, hfresh⟩
  rw [hnd]
  exact ⟨rfl, rfl, rfl, rfl, rfl⟩

/-- `EQ`. -/
theorem eq_rule (hP : Ready P (k + 1)) {a b : Expr .num} {l r : ℕ} (ha : Holds P a l)
    (hb : Holds P b r) :
    ∃ i P', EQ (some l) (some r) P = (some i, P') ∧ Ready P' k ∧ Kept P P' ∧
      Holds P' (.cmp .eq a b) i :=
  binary_rule hP .EQ .BITMASK ha hb fun h ha hb => ⟨l, r, h, ha, hb⟩

/-- `GT`. -/
theorem gt_rule (hP : Ready P (k + 1)) {a b : Expr .num} {l r : ℕ} (ha : Holds P a l)
    (hb : Holds P b r) :
    ∃ i P', GT (some l) (some r) P = (some i, P') ∧ Ready P' k ∧ Kept P P' ∧
      Holds P' (.cmp .gt a b) i :=
  binary_rule hP .GT .BITMASK ha hb fun h ha hb => ⟨l, r, h, ha, hb⟩

/-- `And`. -/
theorem and_rule (hP : Ready P (k + 1)) {a b : Expr .bool} {l r : ℕ} (ha : Holds P a l)
    (hb : Holds P b r) :
    ∃ i P', And (some l) (some r) P = (some i, P') ∧ Ready P' k ∧ Kept P P' ∧
      Holds P' (.and a b) i :=
  binary_rule hP .AND .BITMASK ha hb fun h ha hb => ⟨l, r, h, ha, hb⟩

/-- `Or`. -/
theorem or_rule (hP : Ready P (k + 1)) {a b : Expr .bool} {l r : ℕ} (ha : Holds P a l)
    (hb : Holds P b r) :
    ∃ i P', Or (some l) (some r) P = (some i, P') ∧ Ready P' k ∧ Kept P P' ∧
      Holds P' (.or a b) i :=
  binary_rule hP .OR .BITMASK ha hb fun h ha hb => ⟨l, r, h, ha, hb⟩

end Builder

end Ir
end AarchGate
