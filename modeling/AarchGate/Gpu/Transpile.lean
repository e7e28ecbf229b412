/-
# The shader computes the expression

**Transpiler correctness.**  The statements `generate_msl_source` emits for a
well-typed expression without `SUB` leave in slot `slot_id` of thread `i`, for every
node: plane `i` of the value of the node on the 64 rows of the block, if the node is
arithmetic, and the mask of the rows on which it holds, if it is boolean
(`generateMslSource_correct`).

The slots are numbered one after the other over the post-order, so no two nodes share
one, and the statement of a node writes no slot but its own.  So the values of the
nodes that are done stay, and one statement is added to them at a time
(`emitNode_holds`, `emitBody_run`).  Nodes that represent no expression, such as the
`SUM` of a forest, may stand in between.

`SUB` is left out because its statement is wrong: the carry into the lowest plane is the
word `1`, a carry for row 0 alone (`sub_plane_iff`).
-/

import AarchGate.Gpu.Group
import AarchGate.Ir.Program

namespace AarchGate
namespace Gpu

open A64 Ir BitPlane
open Jit (Fault deref setAnnot setAnnot_self setAnnot_ne succs bind_ok)

/-! ### The post-order -/

/-- Marking a node before its operands are visited makes no difference: those on the
path to a node are above it. -/
theorem dfs_eq {g : ℕ → Node} (hord : ∀ n, ∀ c ∈ (g n).children, c < n) (fuel : ℕ) :
    ∀ (n : ℕ) (path : List ℕ) (st : List ℕ × List ℕ), (∀ x ∈ path, n < x) →
      (∀ x, x ∈ st.1 ↔ x ∈ st.2 ∨ x ∈ path) →
        (dfs g fuel n st).2 = Graph.visit (succs g) fuel n st.2 ∧
          ∀ x, x ∈ (dfs g fuel n st).1 ↔ x ∈ (dfs g fuel n st).2 ∨ x ∈ path := by
  induction fuel with
  | zero => exact fun n path st _ hst => ⟨rfl, hst⟩
  | succ fuel ih =>
    intro n path st hpath hst
    -- the operands, one after the other, with `n` on the path
    have hfold : ∀ (cs : List ℕ) (s : List ℕ × List ℕ), (∀ c ∈ cs, c < n) →
        (∀ x, x ∈ s.1 ↔ x ∈ s.2 ∨ x ∈ n :: path) →
        (cs.foldl (fun s c => dfs g fuel c s) s).2 =
            cs.foldl (fun s c => Graph.visit (succs g) fuel c s) s.2 ∧
          ∀ x, x ∈ (cs.foldl (fun s c => dfs g fuel c s) s).1 ↔
            x ∈ (cs.foldl (fun s c => dfs g fuel c s) s).2 ∨ x ∈ n :: path := by
      intro cs
      induction cs with
      | nil => exact fun s _ hs => ⟨rfl, hs⟩
      | cons c cs ihcs =>
        intro s hcs hs
        have hc := hcs c (List.mem_cons_self ..)
        obtain ⟨h₁, h₂⟩ := ih c (n :: path) s (fun x hx => by
          rcases List.mem_cons.1 hx with rfl | hx
          · exact hc
          · exact Nat.lt_trans hc (hpath x hx)) hs
        rw [List.foldl_cons, List.foldl_cons, ← h₁]
        exact ihcs _ (fun x hx => hcs x (List.mem_cons_of_mem _ hx)) h₂
    have hn : n ∈ st.1 ↔ n ∈ st.2 := by
      rw [hst, or_iff_left fun h => Nat.lt_irrefl n (hpath n h)]
    rw [dfs, Graph.visit]
    by_cases hmem : n ∈ st.2
    · rw [if_pos (hn.2 hmem), if_pos hmem]
      exact ⟨rfl, hst⟩
    · rw [if_neg (mt hn.1 hmem), if_neg hmem]
      obtain ⟨h₁, h₂⟩ := hfold (g n).children (n :: st.1, st.2) (hord n) fun x => by
        simp only [List.mem_cons, hst]
        tauto
      refine ⟨congrArg (· ++ [n]) h₁, fun x => ?_⟩
      simp only [h₂, List.mem_append, List.mem_cons, List.not_mem_nil, or_false]
      tauto

/-- The nodes of the expression, every one after its operands. -/
structure IsPostOrder (g : ℕ → Node) (root : ℕ) (order : List ℕ) : Prop where
  post : Graph.PostOrdered (succs g) order
  mem_iff : ∀ n, n ∈ order ↔ Reach g root n

/-- **The order of the nodes.** -/
theorem postOrder_spec {P : NodePool} (hP : Built P) {root : ℕ} (hroot : root < P.nextIdx) :
    IsPostOrder P.storage root (postOrder P.storage root) := by
  obtain ⟨hmax, hord⟩ := hP.ordered
  have hrank : ∀ i, ∀ c ∈ succs P.storage i, id c < id i := fun i c hc => (hord i c hc).1
  have hfuel : id root < NodePool.maxNodes + 1 := by simp only [id]; omega
  have hall : postOrder P.storage root =
      Graph.visit (succs P.storage) (NodePool.maxNodes + 1) root [] :=
    (dfs_eq (fun i c hc => (hord i c hc).1) _ root [] ([], []) (fun x hx => absurd hx List.not_mem_nil)
      fun x => by simp).1
  constructor
  · rw [hall]; exact (Graph.visit_visited hrank _ root [] hfuel .nil).post
  · intro n
    rw [hall]
    exact Graph.mem_visit_iff hrank hfuel n

/-! ### The slots -/

/-- What the numbering gives: every node of the list that is not skipped has a slot of its
own between `lo` and `hi`. -/
structure Slots (a : ℕ → Annot) (ns : List ℕ) (lo : ℕ) (a' : ℕ → Annot) (hi : ℕ) : Prop where
  le : lo ≤ hi
  others : ∀ n, a' n = { a n with slotId := (a' n).slotId }
  frame : ∀ n, n ∉ ns → a' n = a n
  range : ∀ n ∈ ns, (a n).skipJit = false → (lo : ℤ) ≤ (a' n).slotId ∧ (a' n).slotId < hi
  inj : ∀ n ∈ ns, ∀ m ∈ ns, (a n).skipJit = false → (a m).skipJit = false →
    (a' n).slotId = (a' m).slotId → n = m

/-- **The slots of the nodes.** -/
theorem assignSlots_spec {ns : List ℕ} (hnd : ns.Nodup) (a : ℕ → Annot) (lo : ℕ) :
    Slots a ns lo (assignSlots ns (a, lo)).1 (assignSlots ns (a, lo)).2 := by
  induction ns generalizing a lo with
  | nil => exact ⟨Nat.le_refl _, fun _ => rfl, fun _ _ => rfl, by simp, by simp⟩
  | cons n ns ih =>
    obtain ⟨hn, hnd⟩ := List.nodup_cons.1 hnd
    rw [assignSlots]
    by_cases hs : (a n).skipJit = true
    · rw [if_pos hs]
      have h := ih hnd a lo
      refine ⟨h.le, h.others, fun m hm => h.frame m fun hm' => hm (List.mem_cons_of_mem _ hm'), ?_, ?_⟩
      · intro m hm hsm
        rcases List.mem_cons.1 hm with rfl | hm
        · rw [hs] at hsm; cases hsm
        · exact h.range m hm hsm
      · intro m hm k hk hsm hsk he
        rcases List.mem_cons.1 hm with rfl | hm
        · rw [hs] at hsm; cases hsm
        · rcases List.mem_cons.1 hk with rfl | hk
          · rw [hs] at hsk; cases hsk
          · exact h.inj m hm k hk hsm hsk he
    · rw [if_neg hs]
      have h := ih hnd (setAnnot a n fun x => { x with slotId := lo }) (lo + 1)
      generalize assignSlots ns (setAnnot a n fun x => { x with slotId := lo }, lo + 1) = r at h ⊢
      -- the rest of the list leaves the slot of `n` alone
      have hself : (r.1 n).slotId = lo := by rw [h.frame n hn, setAnnot_self]
      have hother : ∀ m ∈ ns, setAnnot a n (fun x => { x with slotId := lo }) m = a m := fun m hm =>
        setAnnot_ne _ _ fun he => hn (he ▸ hm)
      have hle := h.le
      have hrange : ∀ m ∈ ns, (a m).skipJit = false → (lo : ℤ) + 1 ≤ (r.1 m).slotId ∧
          (r.1 m).slotId < r.2 := fun m hm hsm => by
        have := h.range m hm (by rwa [hother m hm])
        rwa [Nat.cast_add, Nat.cast_one] at this
      refine ⟨by omega, fun m => ?_, fun m hm => ?_, fun m hm hsm => ?_, fun m hm k hk hsm hsk he => ?_⟩
      · rw [h.others m]
        by_cases hmn : m = n
        · subst hmn; simp
        · rw [setAnnot_ne _ _ hmn]
      · simp only [List.mem_cons, not_or] at hm
        rw [h.frame m hm.2, setAnnot_ne _ _ hm.1]
      · rcases List.mem_cons.1 hm with rfl | hm
        · rw [hself]; omega
        · have := hrange m hm hsm
          omega
      · rcases List.mem_cons.1 hm with rfl | hm'
        · rcases List.mem_cons.1 hk with rfl | hk'
          · rfl
          · have := (hrange k hk' hsk).1
            omega
        · rcases List.mem_cons.1 hk with rfl | hk'
          · have := (hrange m hm' hsm).1
            omega
          · exact h.inj m hm' k hk' (by rwa [hother m hm']) (by rwa [hother k hk']) he

/-! ### One statement -/

/-- What the threads hold of a node with the values `v` on the rows: thread `i` holds
plane `i` of a number, and every thread the mask of a truth value. -/
def NodeHolds : {t : Ty} → (ℕ → Word) → (ℕ → t.Value) → Prop
  | .num, w, v => Planes w v
  | .bool, w, v => ∀ i < 64, Mask (w i) v

theorem NodeHolds.congr {t : Ty} {w w' : ℕ → Word} {v : ℕ → t.Value} (h : NodeHolds w v)
    (hw : ∀ i < 64, w' i = w i) : NodeHolds w' v := by
  cases t with
  | num => exact Planes.congr h hw
  | bool => exact fun i hi => by rw [hw i hi]; exact h i hi

/-- The `LOAD`s of the expression find the planes of the rows of the block. -/
def ReadsRows (g : ℕ → Node) (a : ℕ → Annot) (root numFields : ℕ) (columns : ℕ → Word) (block : ℕ)
    (rows : ℕ → Name → Word) : Prop :=
  ∀ n, Reach g root n → (g n).kind = .LOAD →
    Planes (fun i => columns (columnIndex numFields (a n).fieldIdx block i))
      fun r => rows r (g n).fieldName

@[simp] theorem setAll_self (G : Group) (dst : ℤ) (w : ℕ → Word) (i : ℕ) :
    (G.setAll dst w).scratchpad i dst = w i := by simp [Group.setAll]

theorem setAll_ne (G : Group) {dst slot : ℤ} (w : ℕ → Word) (i : ℕ) (h : slot ≠ dst) :
    (G.setAll dst w).scratchpad i slot = G.scratchpad i slot := by simp [Group.setAll, h]

section Stmt

variable (S : Simd) (columns : ℕ → Word) (block : ℕ)

/-- **A statement writes its own slot only.** -/
theorem exec_frame (s : Stmt) (G : Group) (i : ℕ) {slot : ℤ} (h : slot ≠ s.dst) :
    (s.exec S columns block G).scratchpad i slot = G.scratchpad i slot := by
  cases s <;> exact setAll_ne _ _ _ h

/-- Addition over the planes. -/
theorem exec_add {G : Group} {dst l r : ℤ} {x y : ℕ → Word}
    (hx : Planes (fun i => G.scratchpad i l) x) (hy : Planes (fun i => G.scratchpad i r) y) :
    Planes (fun i => ((Stmt.add dst l r).exec S columns block G).scratchpad i dst)
      fun r => x r + y r := by
  refine ((Planes.add hx hy 0).congr fun i hi => ?_).lanes fun r _ => by simp
  refine (addCarries_eq S G dst (c := 0) (by simp [carryInto]) (fun _ _ _ => ⟨rfl, rfl⟩) hi).trans ?_
  by_cases h0 : i = 0
  · subst h0; simp [carryInto]
  · rw [if_neg h0]

/-- Subtraction over the planes.  All rows get the carry into plane 1; the carry word `1`
of plane 0 is a carry for row 0 alone. -/
theorem exec_sub {G : Group} {dst l r : ℤ} {x y : ℕ → Word}
    (hx : Planes (fun i => G.scratchpad i l) x) (hy : Planes (fun i => G.scratchpad i r) y) {i row : ℕ}
    (hi : i < 64) (hrow : row < 64) :
    (((Stmt.sub dst l r).exec S columns block G).scratchpad i dst).getLsbD row =
      ((x row - y row).getLsbD i ^^ decide (i = 0 ∧ row ≠ 0)) := by
  -- the adder that starts with a carry in every row gives the difference
  have hdiff := ((Planes.add hx hy.not (BitVec.allOnes 64)).lanes (u := fun r => x r - y r)
    fun r hr => by
      rw [BitVec.sub_eq_add_neg, BitVec.neg_eq_not_add, BitVec.add_assoc, BitVec.getLsbD_allOnes,
        decide_eq_true hr]
      rfl) i hi row hrow
  rw [← hdiff, Stmt.exec]
  simp only
  rw [addCarries_eq S G dst (c := BitVec.allOnes 64)
    (by rw [if_pos ⟨rfl, rfl⟩, carryInto, carryInto, BitVec.and_allOnes])
    (fun j hj hj' => ⟨if_neg fun h => ?_, rfl⟩) hi]
  · by_cases h0 : i = 0
    · subst h0
      simp only [if_true, carryInto, BitVec.getLsbD_xor, BitVec.getLsbD_allOnes, hrow,
        decide_true, Bool.xor_assoc, true_and]
      by_cases hr0 : row = 0 <;> simp [hr0]
    · simp [h0]
  · have := thread_eq j
    omega

variable {g : ℕ → Node} {a : ℕ → Annot} {numFields n : ℕ} {rows : ℕ → Name → Word}

/-- **The subtraction of the shader** is right in all planes above the lowest and in row 0.
In the lowest plane it is wrong in each of the other 63 rows, whatever the operands. -/
theorem sub_plane_iff {l r : ℕ} (hk : (g n).kind = .SUB) (hl : (g n).left = some l)
    (hr : (g n).right = some r) (hskip : (a n).skipJit = false) {G : Group} {x y : ℕ → Word}
    (hx : Planes (fun i => G.scratchpad i (a l).slotId) x)
    (hy : Planes (fun i => G.scratchpad i (a r).slotId) y) :
    ∃ s, emitNode g a numFields n = .ok [s] ∧ ∀ i < 64, ∀ row < 64,
      (((s.exec S columns block G).scratchpad i (a n).slotId).getLsbD row =
        (x row - y row).getLsbD i ↔ i ≠ 0 ∨ row = 0) := by
  refine ⟨.sub (a n).slotId (a l).slotId (a r).slotId, ?_, fun i hi row hrow => ?_⟩
  · simp only [emitNode, emitBinary, hskip, hk, hl, hr, deref, bind, Except.bind, Bool.false_eq_true,
      if_false]
  · rw [exec_sub S columns block hx hy hi hrow]
    by_cases h0 : i = 0 <;> by_cases hr0 : row = 0 <;> simp [h0, hr0]

/-- **The statement of a node computes its expression** from what the threads hold of its
operands. -/
theorem emitNode_holds {t : Ty} {d : Expr t} (hd : Represents g d n) (hsub : d.subFree = true)
    (hskip : (a n).skipJit = false) {G : Group}
    (hload : (g n).kind = .LOAD → Planes (fun i => columns (columnIndex numFields (a n).fieldIdx block i))
      fun r => rows r (g n).fieldName)
    (hch : ∀ c ∈ (g n).children, ∀ {s : Ty} (x : Expr s), Represents g x c → x.subFree = true →
      NodeHolds (fun i => G.scratchpad i (a c).slotId) fun r => x.eval (rows r)) :
    ∃ s, emitNode g a numFields n = .ok [s] ∧
      NodeHolds (fun i => (s.exec S columns block G).scratchpad i (a n).slotId)
        fun r => d.eval (rows r) := by
  cases d with
  | load f =>
    refine ⟨.load (a n).slotId numFields (a n).fieldIdx, by
      simp only [emitNode, hskip, hd.1.kind, Bool.false_eq_true, if_false], ?_⟩
    simp only [Stmt.exec, setAll_self, ← hd.2]
    exact hload hd.1.kind
  | const v =>
    refine ⟨.const (a n).slotId (g n).constValue, by
      simp only [emitNode, hskip, hd.1.kind, Bool.false_eq_true, if_false], ?_⟩
    simp only [Stmt.exec, setAll_self, shiftRight_and_one, bit_ne_zero, hd.2]
    exact planes_const v
  | add x y =>
    obtain ⟨l, r, hb, hx, hy⟩ := hd
    simp only [Expr.subFree, Expr.all, Bool.and_eq_true] at hsub
    refine ⟨.add (a n).slotId (a l).slotId (a r).slotId, by
      simp only [emitNode, emitBinary, hskip, hb.kind, hb.left, hb.right, deref, bind, Except.bind,
        Bool.false_eq_true, if_false], ?_⟩
    exact exec_add S columns block (hch l (by simp [hb.children]) x hx hsub.1.2)
      (hch r (by simp [hb.children]) y hy hsub.2)
  | sub x y => simp [Expr.subFree, Expr.all] at hsub
  | select c x y =>
    obtain ⟨k, l, r, hb, hc, hx, hy⟩ := hd
    simp only [Expr.subFree, Expr.all, Bool.and_eq_true] at hsub
    refine ⟨.select (a n).slotId (a k).slotId (a l).slotId (a r).slotId, by
      simp only [emitNode, hskip, hb.kind, hb.cond, hb.left, hb.right, deref, bind, Except.bind,
        Bool.false_eq_true, if_false], ?_⟩
    have hc' := hch k (by simp [hb.children]) c hc hsub.1.1.2
    have hx' := hch l (by simp [hb.children]) x hx hsub.1.2
    have hy' := hch r (by simp [hb.children]) y hy hsub.2
    simp only [Stmt.exec, setAll_self]
    -- every thread has the same mask, so it may be that of thread 0
    refine (Planes.mux (hc' 0 (by decide)) hx' hy').congr fun i hi => ?_
    have hmask : G.scratchpad i (a k).slotId = G.scratchpad 0 (a k).slotId :=
      Mask.eq (hc' i hi) (hc' 0 (by decide))
    rw [hmask, BitVec.and_comm (~~~G.scratchpad 0 (a k).slotId)]
  | cmp op x y =>
    obtain ⟨l, r, hb, hx, hy⟩ := hd
    simp only [Expr.subFree, Expr.all, Bool.and_eq_true] at hsub
    refine ⟨.compare op (a n).slotId (a l).slotId (a r).slotId, by
      cases op <;> simp only [emitNode, emitBinary, hskip, hb.kind, Cmp.kind, hb.left, hb.right, deref,
        bind, Except.bind, Bool.false_eq_true, if_false], ?_⟩
    intro i _
    simp only [Stmt.exec, setAll_self]
    exact compareMask_holds op (hch l (by simp [hb.children]) x hx hsub.1.2)
      (hch r (by simp [hb.children]) y hy hsub.2)
  | and x y =>
    obtain ⟨l, r, hb, hx, hy⟩ := hd
    simp only [Expr.subFree, Expr.all, Bool.and_eq_true] at hsub
    refine ⟨.and (a n).slotId (a l).slotId (a r).slotId, by
      simp only [emitNode, emitBinary, hskip, hb.kind, hb.left, hb.right, deref, bind, Except.bind,
        Bool.false_eq_true, if_false], ?_⟩
    intro i hi
    simp only [Stmt.exec, setAll_self]
    exact (hch l (by simp [hb.children]) x hx hsub.1.2 i hi).and
      (hch r (by simp [hb.children]) y hy hsub.2 i hi)
  | or x y =>
    obtain ⟨l, r, hb, hx, hy⟩ := hd
    simp only [Expr.subFree, Expr.all, Bool.and_eq_true] at hsub
    refine ⟨.or (a n).slotId (a l).slotId (a r).slotId, by
      simp only [emitNode, emitBinary, hskip, hb.kind, hb.left, hb.right, deref, bind, Except.bind,
        Bool.false_eq_true, if_false], ?_⟩
    intro i hi
    simp only [Stmt.exec, setAll_self]
    exact (hch l (by simp [hb.children]) x hx hsub.1.2 i hi).or
      (hch r (by simp [hb.children]) y hy hsub.2 i hi)
  | not x =>
    obtain ⟨l, hb, hx⟩ := hd
    simp only [Expr.subFree, Expr.all, Bool.and_eq_true] at hsub
    refine ⟨.not (a n).slotId (a l).slotId, by
      simp only [emitNode, hskip, hb.kind, hb.left, deref, bind, Except.bind, Bool.false_eq_true,
        if_false], ?_⟩
    intro i hi
    simp only [Stmt.exec, setAll_self]
    exact (hch l (by simp [hb.children]) x hx hsub.2 i hi).not

/-- What a node emits is about the slots of the node and its operands. -/
theorem emitNode_slots {ss : List Stmt} (h : emitNode g a numFields n = .ok ss) :
    ss = [] ∨ ∃ s, ss = [s] ∧ (a n).skipJit = false ∧ s.dst = (a n).slotId ∧
      ∀ slot ∈ s.slots, slot = (a n).slotId ∨ ∃ c ∈ (g n).children, slot = (a c).slotId := by
  have hbinary : ∀ {stmt : ℤ → ℤ → ℤ → Stmt}, (∀ d l r, (stmt d l r).dst = d) →
      (∀ d l r, (stmt d l r).slots = [d, l, r]) → emitBinary g a stmt n = .ok ss → ∃ s, ss = [s] ∧
        s.dst = (a n).slotId ∧
        ∀ slot ∈ s.slots, slot = (a n).slotId ∨ ∃ c ∈ (g n).children, slot = (a c).slotId := by
    intro stmt hdst hslots h
    obtain ⟨l, hl, h⟩ := bind_ok h
    obtain ⟨r, hr, h⟩ := bind_ok h
    refine ⟨_, (Except.ok.inj h).symm, hdst _ _ _, fun slot hslot => ?_⟩
    rw [hslots] at hslot
    simp only [List.mem_cons, List.not_mem_nil, or_false] at hslot
    rcases hslot with rfl | rfl | rfl
    · exact Or.inl rfl
    · exact Or.inr ⟨l, left_mem_children (Jit.deref_ok hl), rfl⟩
    · exact Or.inr ⟨r, right_mem_children (Jit.deref_ok hr), rfl⟩
  rw [emitNode] at h
  by_cases hs : (a n).skipJit = true
  · rw [if_pos hs] at h
    exact Or.inl (Except.ok.inj h).symm
  rw [if_neg hs] at h
  rw [Bool.not_eq_true] at hs
  cases hk : (g n).kind <;> rw [hk] at h <;> simp only at h
  case LOAD | CONST =>
    exact Or.inr ⟨_, (Except.ok.inj h).symm, hs, rfl, fun slot hslot =>
      Or.inl (by simpa [Stmt.slots] using hslot)⟩
  case NOT =>
    obtain ⟨l, hl, h⟩ := bind_ok h
    refine Or.inr ⟨_, (Except.ok.inj h).symm, hs, rfl, fun slot hslot => ?_⟩
    simp only [Stmt.slots, List.mem_cons, List.not_mem_nil, or_false] at hslot
    rcases hslot with rfl | rfl
    · exact Or.inl rfl
    · exact Or.inr ⟨l, left_mem_children (Jit.deref_ok hl), rfl⟩
  case SELECT =>
    obtain ⟨c, hc, h⟩ := bind_ok h
    obtain ⟨l, hl, h⟩ := bind_ok h
    obtain ⟨r, hr, h⟩ := bind_ok h
    refine Or.inr ⟨_, (Except.ok.inj h).symm, hs, rfl, fun slot hslot => ?_⟩
    simp only [Stmt.slots, List.mem_cons, List.not_mem_nil, or_false] at hslot
    rcases hslot with rfl | rfl | rfl | rfl
    · exact Or.inl rfl
    · exact Or.inr ⟨c, cond_mem_children (Jit.deref_ok hc), rfl⟩
    · exact Or.inr ⟨l, left_mem_children (Jit.deref_ok hl), rfl⟩
    · exact Or.inr ⟨r, right_mem_children (Jit.deref_ok hr), rfl⟩
  case MUL | POPCNT | LSL | LSR | SUM | INFERENCE_COUNT => exact Or.inl (Except.ok.inj h).symm
  all_goals
    obtain ⟨s, hss, hdst, hslots⟩ := hbinary (fun _ _ _ => rfl) (fun _ _ _ => rfl) h
    exact Or.inr ⟨s, hss, hs, hdst, hslots⟩

/-- One list after the other. -/
theorem runStmts_append (size : ℕ) (ss ts : List Stmt) (G : Group) :
    runStmts S columns block size (ss ++ ts) G =
      (runStmts S columns block size ss G).bind (runStmts S columns block size ts) := by
  induction ss generalizing G with
  | nil => rfl
  | cons s ss ih =>
    rw [List.cons_append, runStmts, runStmts, Option.bind_assoc]
    exact congrArg _ (funext ih)

/-- The threads hold the values of the nodes that are done. -/
def Done (g : ℕ → Node) (a : ℕ → Annot) (rows : ℕ → Name → Word) (ns : List ℕ) (G : Group) : Prop :=
  ∀ n ∈ ns, ∀ {t : Ty} (d : Expr t), Represents g d n → d.subFree = true →
    NodeHolds (fun i => G.scratchpad i (a n).slotId) fun r => d.eval (rows r)

/-- A node whose operands are there has its text. -/
def Emits (g : ℕ → Node) (n : ℕ) : Prop := ∀ a numFields, ∃ ss, emitNode g a numFields n = .ok ss

/-- There is code for all nodes. -/
theorem emitBody_ok {ns : List ℕ} (h : ∀ n ∈ ns, ∃ ss, emitNode g a numFields n = .ok ss) :
    ∃ body, emitBody g a numFields ns = .ok body := by
  induction ns with
  | nil => exact ⟨[], rfl⟩
  | cons n ns ih =>
    obtain ⟨ss, hss⟩ := h n (List.mem_cons_self ..)
    obtain ⟨body, hbody⟩ := ih fun m hm => h m (List.mem_cons_of_mem _ hm)
    exact ⟨ss ++ body, by rw [emitBody, hss, hbody]; rfl⟩

variable (numFields rows) in
/-- **The statements of the nodes** in post-order, each with a slot of its own below `size`:
they can all be emitted and run, and leave the values of all nodes. -/
theorem emitBody_run {size : ℕ} {order : List ℕ} (hpost : Graph.PostOrdered (succs g) order)
    (hrange : ∀ n ∈ order, 0 ≤ (a n).slotId ∧ (a n).slotId < size)
    (hinj : ∀ n ∈ order, ∀ m ∈ order, (a n).slotId = (a m).slotId → n = m)
    (hskip : ∀ n ∈ order, (a n).skipJit = false) (hemit : ∀ n ∈ order, Emits g n)
    (hload : ∀ n ∈ order, (g n).kind = .LOAD →
      Planes (fun i => columns (columnIndex numFields (a n).fieldIdx block i))
        fun r => rows r (g n).fieldName) :
    ∀ (ns pre : List ℕ) (G : Group), order = pre ++ ns → Done g a rows pre G →
      ∃ body G', emitBody g a numFields ns = .ok body ∧
        runStmts S columns block size body G = some G' ∧ Done g a rows order G' := by
  intro ns
  induction ns with
  | nil =>
    intro pre G hpre hdone
    rw [List.append_nil] at hpre
    exact ⟨[], G, rfl, rfl, hpre ▸ hdone⟩
  | cons n ns ih =>
    intro pre G hpre hdone
    obtain ⟨hnew, hch⟩ := hpost.split hpre
    have hsub : ∀ m ∈ pre, m ∈ order := fun m hm => hpre ▸ List.mem_append_left _ hm
    have hn : n ∈ order := hpre ▸ List.mem_append_right _ (List.mem_cons_self ..)
    obtain ⟨ss, hss⟩ := hemit n hn a numFields
    -- after the text of `n` its value is there too
    have hstep : ∃ G₁, runStmts S columns block size ss G = some G₁ ∧
        Done g a rows (pre ++ [n]) G₁ := by
      rcases emitNode_slots hss with rfl | ⟨s, rfl, -, hdst, hslots⟩
      · refine ⟨G, rfl, fun m hm t d hd hfree => ?_⟩
        rcases List.mem_append.1 hm with hm | hm
        · exact hdone m hm d hd hfree
        · obtain rfl := List.mem_singleton.1 hm
          obtain ⟨s, hs, -⟩ := emitNode_holds S columns block hd hfree (hskip m hn) (hload m hn)
            fun c hc => hdone c (hch c hc)
          rw [hss] at hs
          cases hs
      · refine ⟨s.exec S columns block G, ?_, fun m hm t d hd hfree => ?_⟩
        · rw [runStmts, Stmt.run, if_pos fun slot hslot => ?_]
          · rfl
          · rcases hslots slot hslot with rfl | ⟨c, hc, rfl⟩
            · exact hrange n hn
            · exact hrange c (hsub c (hch c hc))
        · rcases List.mem_append.1 hm with hm | hm
          · refine (hdone m hm d hd hfree).congr fun i _ => exec_frame S columns block s G i ?_
            rw [hdst]
            exact fun he => hnew (hinj m (hsub m hm) n hn he ▸ hm)
          · obtain rfl := List.mem_singleton.1 hm
            obtain ⟨s', hs', hholds⟩ := emitNode_holds S columns block hd hfree (hskip m hn)
              (hload m hn) fun c hc => hdone c (hch c hc)
            rw [hss, Except.ok.injEq, List.cons.injEq] at hs'
            rw [hs'.1]
            exact hholds
    obtain ⟨G₁, hrun, hdone₁⟩ := hstep
    obtain ⟨body, G', hbody, hrun', hdone'⟩ := ih (pre ++ [n]) G₁ (by rw [hpre]; simp) hdone₁
    refine ⟨ss ++ body, G', by rw [emitBody, hss, hbody]; rfl, ?_, hdone'⟩
    rw [runStmts_append, hrun]
    exact hrun'

end Stmt

/-! ### The whole kernel -/

/-- **The generated kernel**, whatever the root: if every node has its text and the
aggregator its data, the kernel is generated, and on rows that its `LOAD`s find it
leaves the value of every expression below the root in the slot of its node. -/
theorem generateMslSource_run {P : NodePool} (hP : Built P) {root : ℕ} (hroot : root < P.nextIdx)
    {a : ℕ → Annot} (hskip : ∀ n, Reach P.storage root n → (a n).skipJit = false)
    (hemit : ∀ n, Reach P.storage root n → Emits P.storage n) (numFields : ℕ) {base : Word}
    {weights : List Word} {masks : (ℕ → Annot) → List ℤ}
    (hsum : ∀ a', Engine.ApexEngine.sumMeta P.storage a' root = .ok (base, weights, masks a')) :
    ∃ a' K, generateMslSource P.storage a numFields root = .ok (a', K) ∧ K.baseSum = base ∧
      K.leaves = (masks a').zip weights ∧ (∀ n, a' n = { a n with slotId := (a' n).slotId }) ∧
      (∀ n, Reach P.storage root n → 0 ≤ (a' n).slotId ∧ (a' n).slotId < K.scratchpadSize) ∧
      ∀ (S : Simd) (columns : ℕ → Word) (block : ℕ) (rows : ℕ → Name → Word) (G : Group),
        ReadsRows P.storage a root numFields columns block rows →
          ∃ G', K.runBody S columns block G = some G' ∧
            ∀ n, Reach P.storage root n → ∀ {t : Ty} (d : Expr t), Represents P.storage d n →
              d.subFree = true →
                NodeHolds (fun i => G'.scratchpad i (a' n).slotId) fun r => d.eval (rows r) := by
  obtain ⟨hpost, hmem⟩ := postOrder_spec hP hroot
  have hslots := assignSlots_spec hpost.nodup a 0
  generalize hr : assignSlots (postOrder P.storage root) (a, 0) = r at hslots
  obtain ⟨a', next⟩ := r
  replace hslots : Slots a (postOrder P.storage root) 0 a' next := hslots
  have hskip' : ∀ n ∈ postOrder P.storage root, (a n).skipJit = false := fun n hn =>
    hskip n ((hmem n).1 hn)
  let size := if next = 0 then 1 else next
  have hrange : ∀ n ∈ postOrder P.storage root, 0 ≤ (a' n).slotId ∧ (a' n).slotId < (size : ℕ) := by
    intro n hn
    have h := hslots.range n hn (hskip' n hn)
    have hsize : next ≤ size := by simp only [size]; split_ifs <;> omega
    omega
  obtain ⟨body, hbody⟩ := emitBody_ok fun n (hn : n ∈ postOrder P.storage root) =>
    hemit n ((hmem n).1 hn) a' numFields
  refine ⟨a', ⟨size, body, base, (masks a').zip weights⟩, ?_, rfl, rfl, hslots.others,
    fun n hn => hrange n ((hmem n).2 hn), fun S columns block rows G hcols => ?_⟩
  · simp only [generateMslSource, hr, hbody, hsum, bind, Except.bind, size]
  · obtain ⟨body', G', hbody', hrun, hdone⟩ := emitBody_run S columns block numFields rows hpost hrange
      (fun n hn m hm he => hslots.inj n hn m hm (hskip' n hn) (hskip' m hm) he)
      (fun n hn => by rw [hslots.others n]; exact hskip' n hn) (fun n hn => hemit n ((hmem n).1 hn))
      (fun n hn hk => by rw [hslots.others n]; exact hcols n ((hmem n).1 hn) hk)
      (postOrder P.storage root) [] { G with scratchpad := fun _ _ => 0 } (List.nil_append _).symm
      fun n hn => absurd hn List.not_mem_nil
    rw [hbody, Except.ok.injEq] at hbody'
    subst hbody'
    exact ⟨G', hrun, fun n hn => hdone n ((hmem n).2 hn)⟩

/-- What `generate_msl_source` changes in the nodes. -/
theorem generateMslSource_others {P : NodePool} (hP : Built P) {root : ℕ} (hroot : root < P.nextIdx)
    {a a' : ℕ → Annot} {numFields : ℕ} {K : MslSource}
    (h : generateMslSource P.storage a numFields root = .ok (a', K)) (n : ℕ) :
    a' n = { a n with slotId := (a' n).slotId } := by
  have hothers := (assignSlots_spec (postOrder_spec hP hroot).post.nodup a 0).others n
  obtain ⟨body, -, h⟩ := Jit.bind_ok h
  obtain ⟨⟨base, weights, masks⟩, -, h⟩ := Jit.bind_ok h
  obtain ⟨rfl, rfl⟩ := Prod.mk.inj (Except.ok.inj h)
  exact hothers

/-- A node that is not in the expression keeps its metadata. -/
theorem generateMslSource_frame {P : NodePool} (hP : Built P) {root : ℕ} (hroot : root < P.nextIdx)
    {a a' : ℕ → Annot} {numFields : ℕ} {K : MslSource}
    (h : generateMslSource P.storage a numFields root = .ok (a', K)) {n : ℕ}
    (hn : ¬Reach P.storage root n) : a' n = a n := by
  have horder := postOrder_spec hP hroot
  have hframe := (assignSlots_spec horder.post.nodup a 0).frame n fun hm => hn ((horder.mem_iff n).1 hm)
  obtain ⟨body, -, h⟩ := Jit.bind_ok h
  obtain ⟨⟨base, weights, masks⟩, -, h⟩ := Jit.bind_ok h
  obtain ⟨rfl, rfl⟩ := Prod.mk.inj (Except.ok.inj h)
  exact hframe

/-- A node that represents an expression has its text. -/
theorem emits_represents {g : ℕ → Node} {n : ℕ} {t : Ty} {d : Expr t} (hd : Represents g d n) :
    Emits g n := by
  intro a numFields
  rw [emitNode]
  by_cases hs : (a n).skipJit = true
  · exact ⟨[], if_pos hs⟩
  rw [if_neg hs]
  cases d with
  | load | const => rw [hd.1.kind]; exact ⟨_, rfl⟩
  | add | sub | and | or =>
    obtain ⟨l, r, hb, -⟩ := hd
    rw [hb.kind]
    simp only [emitBinary, hb.left, hb.right]
    exact ⟨_, rfl⟩
  | cmp op =>
    obtain ⟨l, r, hb, -⟩ := hd
    rw [hb.kind]
    cases op <;> simp only [Cmp.kind, emitBinary, hb.left, hb.right] <;> exact ⟨_, rfl⟩
  | select =>
    obtain ⟨k, l, r, hb, -⟩ := hd
    rw [hb.kind]
    simp only [hb.cond, hb.left, hb.right]
    exact ⟨_, rfl⟩
  | not =>
    obtain ⟨l, hb, -⟩ := hd
    rw [hb.kind]
    simp only [hb.left]
    exact ⟨_, rfl⟩

/-- **The transpiler is correct.**  For a well-typed expression without `SUB` none of whose
nodes is skipped, a kernel is generated.  On any block whose rows its `LOAD`s find, its
statements run through and leave the value of every node on the 64 rows in the slot of
the node: plane `i` in thread `i` for an arithmetic node, the mask of the rows in every
thread for a boolean one. -/
theorem generateMslSource_correct {P : NodePool} (hP : Built P) {root : ℕ} (hroot : root < P.nextIdx)
    {t : Ty} {e : Expr t} (he : Represents P.storage e root) (hsub : e.subFree = true) {a : ℕ → Annot}
    (hskip : ∀ n, Reach P.storage root n → (a n).skipJit = false) (numFields : ℕ) :
    ∃ a' K, generateMslSource P.storage a numFields root = .ok (a', K) ∧
      ∀ (S : Simd) (columns : ℕ → Word) (block : ℕ) (rows : ℕ → Name → Word) (G : Group),
        ReadsRows P.storage a root numFields columns block rows →
          ∃ G', K.runBody S columns block G = some G' ∧
            ∀ n, Reach P.storage root n → ∃ (s : Ty) (d : Expr s), Represents P.storage d n ∧
              NodeHolds (fun i => G'.scratchpad i (a' n).slotId) fun r => d.eval (rows r) := by
  obtain ⟨a', K, hgen, -, -, -, -, hrun⟩ := generateMslSource_run hP hroot hskip
    (fun n hn => by
      obtain ⟨s, d, hd, -⟩ := he.reach hn
      exact emits_represents hd) numFields (fun a' => Engine.ApexEngine.sumMeta_typed he a')
  refine ⟨a', K, hgen, fun S columns block rows G hcols => ?_⟩
  obtain ⟨G', hbody, hholds⟩ := hrun S columns block rows G hcols
  refine ⟨G', hbody, fun n hn => ?_⟩
  obtain ⟨s, d, hd, hpart⟩ := he.reach hn
  exact ⟨s, d, hd, hholds n hn d hd (hpart.all _ hsub)⟩

/-- `a + 7`. -/
abbrev addSeven : Expr .num := .add (.load ['a']) (.const 7)

/-- `a + 7` on 64 rows with `a = 10`, in columns that are the planes of 10. -/
theorem generateMslSource_correct_add :
    ∃ a' K G', generateMslSource addSeven.pool.storage (fun _ => { fieldIdx := 0 }) 1 2 = .ok (a', K) ∧
      K.runBody .standard (fun k => if (10 : Word).getLsbD k then BitVec.allOnes 64 else 0) 0
        ⟨fun _ _ => 0, fun _ => 0, fun _ => 0, 0⟩ = some G' ∧
      Planes (fun i => G'.scratchpad i (a' 2).slotId) fun _ => (17 : Word) := by
  have hpool : Represents addSeven.pool.storage addSeven 2 :=
    (addSeven.pool_stands (by decide) (by decide)).represents
  obtain ⟨a', K, hgen, hrun⟩ := generateMslSource_correct
    (addSeven.pool_pristine (by decide)).built (by decide) hpool rfl (a := fun _ => { fieldIdx := 0 }) (fun _ _ => rfl) 1
  obtain ⟨G', hbody, hholds⟩ := hrun .standard
    (fun k => if (10 : Word).getLsbD k then BitVec.allOnes 64 else 0) 0 (fun _ _ => 10)
    ⟨fun _ _ => 0, fun _ => 0, fun _ => 0, 0⟩ fun n _ _ => by
      refine (planes_const (10 : Word)).congr fun i hi => ?_
      have hidx : columnIndex 1 0 0 i = i := by
        rw [columnIndex, Int.emod_eq_of_lt (by omega) (by omega)]
        omega
      rw [hidx]
  obtain ⟨s, d, hd, hval⟩ := hholds 2 (Reach.refl _ _)
  refine ⟨a', K, G', hgen, hbody, ?_⟩
  cases s with
  | bool => exact absurd hd.isMask (by decide)
  | num =>
    obtain rfl := hd.unique hpool
    exact hval

/-- The pool of `Sub(Load("a"), 7)`. -/
def subPool : NodePool := (Expr.sub (.load ['a']) (.const 7)).pool

/-- The metadata of its nodes, with the slots one after the other. -/
def subAnnot (n : ℕ) : Annot := { fieldIdx := 0, slotId := n }

/-- The threads hold the planes of `v` in slot 0 and those of 7 in the others. -/
def subGroup (v : Word) : Group where
  scratchpad i slot := if slot = 0 then (if v.getLsbD i then BitVec.allOnes 64 else 0)
    else if (7 : Word).getLsbD i then BitVec.allOnes 64 else 0
  sharedA _ := 0
  sharedB _ := 0
  sharedCarry := 0

/-- `a - 7` with `a = 10`: plane 1 of the difference in row 5. -/
theorem sub_plane_iff_ten :
    ∃ s, emitNode subPool.storage subAnnot 1 2 = .ok [s] ∧
      ((s.exec .standard (fun _ => 0) 0 (subGroup 10)).scratchpad 1 2).getLsbD 5 = true := by
  obtain ⟨s, hs, hiff⟩ := sub_plane_iff .standard (fun _ => 0) 0 (g := subPool.storage) (a := subAnnot)
    (n := 2) rfl rfl rfl rfl (G := subGroup 10) (planes_const 10) (planes_const 7)
  exact ⟨s, hs, (hiff 1 (by decide) 5 (by decide)).2 (by decide)⟩

/-- `a - 7` with `a = 7`: the lowest plane of the difference is set in all rows but row 0. -/
theorem sub_lowest_plane :
    ∃ s, emitNode subPool.storage subAnnot 1 2 = .ok [s] ∧
      (s.exec .standard (fun _ => 0) 0 (subGroup 7)).scratchpad 0 2 = 0xFFFFFFFFFFFFFFFE :=
  ⟨.sub 2 0 1, rfl, by decide⟩

end Gpu
end AarchGate
