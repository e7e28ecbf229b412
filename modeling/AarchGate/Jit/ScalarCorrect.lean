/-
# Correctness of the scalar compiler

The loop of a scalar kernel runs 64 times.  Iteration `r` computes the words of
row `r` (`RowSim.run`) and adds the word of the last node, shifted to bit `r`, to the
result, so a call returns `rowMask` of these words and leaves the words of row 63
in the slots (`scalarKernel_call`).

Without `NOT` the words of a row are the values of the nodes, and the result is
the mask of the rows on which the root is true (`compileScalarExpression_correct`).
-/

import AarchGate.Jit.Correct
import AarchGate.Jit.ScalarNodes

namespace AarchGate
namespace Jit

open A64 Ir BitPlane

/-! ### The loop over the rows -/

/-- The words of the rows below `r`, each shifted to the bit of its row. -/
def rowMask (w : ℕ → Word) : ℕ → Word
  | 0 => 0
  | r + 1 => rowMask w r ||| (w r <<< r)

/-- The code of the nodes has no branches and binds no labels. -/
theorem scalarNode_plain {g : ℕ → Node} {a : ℕ → Annot} {n : ℕ} {code : List Instr}
    (h : scalarNode g a n = .ok code) : Straight code ∧ ∀ l, .bind l ∉ code := by
  have hget : ∀ o p, Straight (getOperand g a o (.x p)) ∧
      ∀ l, Instr.bind l ∉ getOperand g a o (.x p) := by
    intro o p
    unfold getOperand
    cases o with
    | none => simp
    | some o => simp only; split <;> simp [Instr.branches, movWide]
  obtain ⟨op, hop, h⟩ := bind_ok h
  have hop' : Straight op ∧ ∀ l, Instr.bind l ∉ op := by
    rcases scalarOp_cases hop with ⟨o, rfl⟩ | ⟨c, rfl⟩ | rfl | ⟨i, -, rfl⟩ <;>
      simp [scalarCompare, Instr.branches]
  obtain rfl := Except.ok.inj h
  have hl := hget (g n).left 16
  have hr := hget (g n).right 17
  split_ifs <;> simp [hl, hr, hop', Instr.branches]

/-- The code has no branch and no label. -/
theorem scalarNodes_plain {g : ℕ → Node} {a : ℕ → Annot} {ns : List ℕ} :
    ∀ {code : List Instr}, scalarNodes g a ns = .ok code → Straight code ∧ ∀ l, .bind l ∉ code := by
  induction ns with
  | nil =>
    intro code h
    obtain rfl := Except.ok.inj h
    simp
  | cons n ns ih =>
    intro code h
    obtain ⟨c, hn, h⟩ := bind_ok h
    obtain ⟨rest, hrest, h⟩ := bind_ok h
    obtain rfl := Except.ok.inj h
    simp [scalarNode_plain hn, ih hrest]

section Loop

variable {L : Layout} {F : ℕ → ℕ → Word} {g : ℕ → Node} {a : ℕ → Annot}
  {rows : ℕ → Name → Word} {nodes : List ℕ} {saved p : ℕ → Word} {r : ℕ} {m : Machine}

/-- The words of row `r` are in the slots, and the rest of the scratchpad is `p`. -/
structure RowStored (L : Layout) (g : ℕ → Node) (a : ℕ → Annot) (nodes : List ℕ) (p : ℕ → Word)
    (row : Name → Word) (m : Machine) : Prop where
  owned : ∀ n ∈ nodes, (g n).kind.isLeaf = false →
    pad L m (a n).slotId.toNat = (rowPass g row nodes).val n
  rest : ∀ s < maxSlots, (∀ n ∈ nodes, (g n).kind.isLeaf = false → (a n).slotId.toNat ≠ s) →
    pad L m s = p s

/-- The invariant of the loop: `r` rows are done. -/
structure RowsDone (L : Layout) (F : ℕ → ℕ → Word) (g : ℕ → Node) (a : ℕ → Annot)
    (rows : ℕ → Name → Word) (nodes : List ℕ) (saved p : ℕ → Word) (r : ℕ) (m : Machine) :
    Prop where
  sim : RowSim L F g a rows nodes saved p r
    (rowMask (fun r => (rowPass g (rows r) nodes).last) r) [] m
  stored : 0 < r → RowStored L g a nodes p (rows (r - 1)) m

/-- The test at the head of the loop. -/
theorem scalarHead_exec (h : RowsDone L F g a rows nodes saved p r m) (hr : r ≤ 64) :
    let m' := execs [.cmpImm rowIndex 64] m
    Cond.hs.holds m'.flags = decide (64 ≤ r) ∧ m'.mem = m.mem ∧ ∀ q, m'.read q = m.read q := by
  refine ⟨?_, by simp, by simp⟩
  have hlt : r < 2 ^ 64 := by omega
  have hnat : (BitVec.ofNat 64 r).toNat = r := Nat.mod_eq_of_lt hlt
  simp only [execs_cons, execs_nil, exec, Machine.flags_setFlags, cmpFlags, Cond.holds,
    h.sim.row, hnat]
  rfl

/-- **One iteration.** -/
theorem RowsDone.step (H : ScalarMeta L F g a rows nodes) {body : List Instr}
    (hbody : scalarNodes g a nodes = .ok body) (hroot : ∃ n ∈ nodes, (g n).kind.isLeaf = false)
    (hr : r < 64) (h : RowsDone L F g a rows nodes saved p r m) :
    RowsDone L F g a rows nodes saved p (r + 1)
      (execs (body ++ scalarTail) (execs [.cmpImm rowIndex 64] m)) := by
  obtain ⟨-, hmem, hregs⟩ := scalarHead_exec h (by omega)
  have h₁ := h.sim.of_mem_eq (fun q _ => hregs q) hmem
  have h₂ := RowSim.run H hr (show nodes = [] ++ nodes from rfl) h₁ hbody
  rw [execs_append]
  generalize execs body (execs [.cmpImm rowIndex 64] m) = m₂ at h₂ ⊢
  have hres := h₂.res hroot
  have hrow := h₂.row
  have hacc := h₂.acc
  have htail : execs scalarTail m₂ = ((m₂.write tempReg (m₂.read valRes <<< r)).write finalMask
      (m₂.read finalMask ||| m₂.read valRes <<< r)).write rowIndex (BitVec.ofNat 64 (r + 1)) := by
    have hnext : BitVec.ofNat 64 r + 1 = BitVec.ofNat 64 (r + 1) := (BitVec.ofNat_add ..).symm
    rw [← hnext]
    simp [scalarTail, Alu.eval, hrow, Nat.mod_eq_of_lt hr]
  have hstored : RowStored L g a nodes p (rows r) m₂ := ⟨h₂.holds, h₂.rest⟩
  rw [htail]
  refine ⟨⟨?_, by simp, ?_, by simp, by simp, fun s hs hne => ?_⟩, fun _ => ⟨fun n hn hl => ?_,
    fun s hs hne => ?_⟩⟩
  · exact ((h₂.env.write (by decide) (by decide) _).write (by decide) (by decide) _).write
      (by decide) (by decide) _
  · simp [rowMask, hacc, hres]
  · exact hstored.rest s hs hne
  · exact hstored.owned n hn hl
  · exact hstored.rest s hs hne

/-- The prologue starts the loop. -/
theorem scalarPrologue_exec {F : ℕ → ℕ → Word} (h : Args L F m)
    (g : ℕ → Node) (a : ℕ → Annot) (rows : ℕ → Name → Word) (nodes : List ℕ) :
    RowsDone L F g a rows nodes (fun j => m.read (.x (savedReg j))) (pad L m) 0
      (execs scalarPrologue m) := by
  obtain ⟨hE, hpad⟩ := (pushed_eight h).env h
  have hsplit : execs scalarPrologue m = execs [.movImm finalMask 0, .movImm rowIndex 0]
      (execs [.mov fieldPlanesPtr (.x 0), .mov scratchPtr (.x 1)] (execs [pushPair 29 30,
        .mov (.x 29) .sp, pushPair 19 20, pushPair 21 22, pushPair 23 24] m)) := by
    rw [← execs_append, ← execs_append]
    rfl
  rw [hsplit]
  generalize execs [.mov fieldPlanesPtr (.x 0), .mov scratchPtr (.x 1)] _ = m₁ at hE hpad ⊢
  refine ⟨⟨?_, by simp, by simp [rowMask], by simp, by simp, fun s hs _ => ?_⟩, fun h0 => by omega⟩
  · simp only [execs_cons, execs_nil, exec]
    exact (hE.write (by decide) (by decide) _).write (by decide) (by decide) _
  · rw [← hpad s hs]
    simp [pad]

/-- The code after the loop, without its label. -/
def scalarExit : List Instr :=
  [.mov (.x 0) finalMask, popPair 23 24, popPair 21 22, popPair 19 20, popPair 29 30]

/-- The exit returns the mask and pops the registers. -/
theorem scalarExit_exec (h : Env L F 8 saved m) :
    Popped L saved 8 (m.write (.x 0) (m.read finalMask)) 0 (execs scalarExit m) := by
  have hE : Env L F 8 saved (m.write (.x 0) (m.read finalMask)) := h.write (by decide) (by decide) _
  rw [scalarExit, execs_cons, exec]
  exact (Popped.init hE).last_eight hE (Nat.le_refl _)

/-- **A call of a scalar kernel** returns the words of the last node on the 64
rows, each shifted to its row, and leaves the words of row 63 in the slots. -/
theorem scalarKernel_call (H : ScalarMeta L F g a rows nodes) {body : List Instr}
    (hbody : scalarNodes g a nodes = .ok body) (hroot : ∃ n ∈ nodes, (g n).kind.isLeaf = false)
    (hm : Args L F m) :
    ∃ m', call (scalarKernel body) m = some m' ∧
      m'.read (.x 0) = rowMask (fun r => (rowPass g (rows r) nodes).last) 64 ∧
      RowStored L g a nodes (pad L m) (rows 63) m' := by
  have hplain := scalarNodes_plain hbody
  -- the machine at the exit of the loop
  have hexit : ∀ {m₁}, RowsDone L F g a rows nodes (fun j => m.read (.x (savedReg j))) (pad L m) 64 m₁ →
      Env L F 8 (fun j => m.read (.x (savedReg j))) (execs [.cmpImm rowIndex 64] m₁) := by
    intro m₁ h₁
    obtain ⟨-, hmem, hregs⟩ := scalarHead_exec h₁ (Nat.le_refl _)
    exact h₁.sim.env.of_mem_eq (fun q _ => hregs q : Keeps [] m₁ _) (by decide) hmem
  obtain ⟨m₁, h₁, hcall⟩ : ∃ m₁,
      RowsDone L F g a rows nodes (fun j => m.read (.x (savedReg j))) (pad L m) 64 m₁ ∧
        call (scalarKernel body) m = some (execs scalarExit (execs [.cmpImm rowIndex 64] m₁)) := by
    refine call_while (N := 64)
      (I := RowsDone L F g a rows nodes (fun j => m.read (.x (savedReg j))) (pad L m))
      ?_ ?_ ?_ ?_ (fun l => ?_) (Nat.le_refl _) (scalarPrologue_exec hm g a rows nodes)
      (fun k hk m₁ h₁ => ⟨?_, h₁.step H hbody hroot hk⟩) (fun m₁ h₁ => ?_)
      (fun m₁ h₁ => (scalarExit_exec (hexit h₁)).restored 11 (by decide) (by decide))
    · simp [scalarPrologue, pushPair, Instr.branches]
    · simp [Instr.branches]
    · simp [hplain, scalarTail, Instr.branches]
    · simp [popPair, Instr.branches]
    · simp [scalarPrologue, pushPair, hplain, scalarTail]
    · rw [(scalarHead_exec h₁ (by omega)).1]
      simpa using hk
    · rw [(scalarHead_exec h₁ (Nat.le_refl _)).1]
      rfl
  have hpop := scalarExit_exec (hexit h₁)
  obtain ⟨-, hmem₁, hregs⟩ := scalarHead_exec h₁ (Nat.le_refl _)
  have hmem := hpop.mem.trans hmem₁
  refine ⟨_, hcall, ?_, fun n hn hl => ?_, fun s hs hne => ?_⟩
  · rw [hpop.others 0 (by decide), Machine.read_write_x, if_pos rfl, hregs, h₁.sim.acc]
  · rw [pad, hmem]
    exact (h₁.stored (by omega)).owned n hn hl
  · rw [pad, hmem]
    exact (h₁.stored (by omega)).rest s hs hne

end Loop

/-! ### The words of a row are values -/

/-- An operand has the value of its expression. -/
theorem operandWord_eval {g : ℕ → Node} {row : Name → Word} {s : RowState} {o : ℕ} {t : Ty}
    {e : Expr t} (he : Represents g e o)
    (hs : e.compound = true → s.val o = encode (e.eval row)) :
    operandWord g row s o = encode (e.eval row) := by
  unfold operandWord
  rw [he.kind]
  cases e with
  | load f => exact congrArg row he.2
  | const v => exact he.2
  | cmp op => cases op <;> exact hs rfl
  | add | sub | select | and | or | not => exact hs rfl

/-- `csel` on a bit. -/
theorem select_bit (c : Bool) (x y : Word) :
    (if (bit c : Word) = 0 then y else x) = if c then x else y := by
  cases c <;> rfl

/-- One node: from the values of the operands to the value of the node. -/
theorem rowOp_eval {g : ℕ → Node} {row : Name → Word} {s : RowState} {n : ℕ} {t : Ty} {e : Expr t}
    (he : Represents g e n) (hc : e.compound = true) (hnot : (g n).kind ≠ .NOT)
    (hs : ∀ c ∈ (g n).children, ∀ {u : Ty} (d : Expr u), Represents g d c → d.compound = true →
      s.val c = encode (d.eval row)) :
    rowOp g row s n = encode (e.eval row) := by
  have hop : ∀ c ∈ (g n).children, ∀ {u : Ty} (d : Expr u), Represents g d c →
      operandWord g row s c = encode (d.eval row) := fun c hcn u d hd =>
    operandWord_eval hd (hs c hcn d hd)
  cases e with
  | load | const => simp [Expr.compound] at hc
  | cmp op ea eb =>
    obtain ⟨l, k, hn, ha, hb⟩ := he
    rw [rowOp_cmp hn, hop l (by simp [hn.children]) ea ha, hop k (by simp [hn.children]) eb hb]
    rfl
  | add ea eb | sub ea eb =>
    obtain ⟨l, k, hn, ha, hb⟩ := he
    rw [rowOp, hn.kind, hn.left, hn.right, Option.elim_some, Option.elim_some,
      hop l (by simp [hn.children]) ea ha, hop k (by simp [hn.children]) eb hb]
    rfl
  | and ea eb | or ea eb =>
    obtain ⟨l, k, hn, ha, hb⟩ := he
    rw [rowOp, hn.kind, hn.left, hn.right, Option.elim_some, Option.elim_some,
      hop l (by simp [hn.children]) ea ha, hop k (by simp [hn.children]) eb hb]
    simp only [Expr.eval, Expr.evalWith]
    generalize Expr.evalWith _ _ ea = va
    generalize Expr.evalWith _ _ eb = vb
    cases va <;> cases vb <;> rfl
  | select ec ea eb =>
    obtain ⟨i, l, k, hn, hi, ha, hb⟩ := he
    rw [rowOp, hn.kind, hn.left, hn.right, hn.cond, Option.elim_some, Option.elim_some,
      Option.elim_some, hop l (by simp [hn.children]) ea ha, hop k (by simp [hn.children]) eb hb,
      hs i (by simp [hn.children]) ec hi (by cases ec <;> rfl)]
    exact select_bit (ec.eval row) (ea.eval row) (eb.eval row)
  | not ea =>
    obtain ⟨l, hn, -⟩ := he
    exact absurd hn.kind hnot

/-- **Without `NOT` the words of a row are the values of the nodes.** -/
theorem rowPass_eval {g : ℕ → Node} {row : Name → Word} {ns : List ℕ}
    (h : Graph.PostOrdered (succs g) ns) (hnot : ∀ n ∈ ns, (g n).kind ≠ .NOT) :
    ∀ n ∈ ns, ∀ {t : Ty} (e : Expr t), Represents g e n → e.compound = true →
      (rowPass g row ns).val n = encode (e.eval row) := by
  induction h with
  | nil => exact fun n hn => absurd hn List.not_mem_nil
  | @snoc ns x _ hnew hsuccs ih =>
    intro n hn t e he hc
    have ih := ih fun n hn => hnot n (List.mem_append_left _ hn)
    rw [rowPass_append_singleton]
    rcases List.mem_append.1 hn with hn | hn
    · have hne : n ≠ x := fun h => hnew (h ▸ hn)
      rw [rowStep_val_ne hne]
      exact ih n hn e he hc
    · obtain rfl := List.mem_singleton.1 hn
      have hleaf : (g n).kind.isLeaf = false := by rw [he.isLeaf, hc]; rfl
      rw [rowStep_val_self hleaf]
      exact rowOp_eval he hc (hnot n (by simp)) fun c hcn u d hd hdc => ih c (hsuccs c hcn) d hd hdc

/-- The mask of the truth values. -/
theorem rowMask_bit (v : ℕ → Bool) {k : ℕ} (hk : k ≤ 64) (j : ℕ) :
    (rowMask (fun r => bit (v r)) k).getLsbD j = (decide (j < k) && v j) := by
  induction k with
  | zero => simp [rowMask]
  | succ k ih =>
    have hbit : ∀ i, (bit (v k) : Word).getLsbD i = (decide (i = 0) && v k) := by
      intro i
      unfold bit
      cases v k <;> cases i <;> simp [BitVec.getLsbD_one]
    rw [rowMask, BitVec.getLsbD_or, ih (by omega), BitVec.getLsbD_shiftLeft, hbit]
    rcases Nat.lt_trichotomy j k with h | rfl | h
    · simp [h, Nat.lt_succ_of_lt h]
    · simp [show j < 64 by omega]
    · simp [show ¬j < k by omega, show ¬j < k + 1 by omega, show j - k ≠ 0 by omega]

/-! ### The compiler -/

/-- The rows of a block of 64, as the arrays `F` of the fields of an expression. -/
def FieldRows (L : Layout) (F : ℕ → ℕ → Word) (g : ℕ → Node) (a : ℕ → Annot) (root : ℕ)
    (rows : ℕ → Name → Word) : Prop :=
  ∀ n, Reach g root n → (g n).kind = .LOAD → (a n).fieldIdx.toNat < L.numFields ∧
    ∀ r < 64, F (a n).fieldIdx.toNat r = rows r (g n).fieldName

/-- A larger bound. -/
theorem AtMostCompound.mono {g : ℕ → Node} {root j k : ℕ} (h : AtMostCompound g root j)
    (hjk : j ≤ k) : AtMostCompound g root k := fun ns hnd hns => Nat.le_trans (h ns hnd hns) hjk

/-- A pool of `k` nodes. -/
theorem AtMostCompound.of_nextIdx {P : NodePool} (hP : Built P) {root k : ℕ}
    (hroot : root < P.nextIdx) (hk : P.nextIdx ≤ k) : AtMostCompound P.storage root k := by
  intro ns hnd hns
  have hsub : ns ⊆ List.range P.nextIdx := fun n hn =>
    List.mem_range.2 (hP.reach_lt hroot (hns n hn).1)
  have hlen := List.Nodup.length_le_of_subset hnd hsub
  rw [List.length_range] at hlen
  omega

/-- The emission of a well-typed node does not dereference a null pointer. -/
theorem scalarNodes_isOk {g : ℕ → Node} (a : ℕ → Annot) (ns : List ℕ)
    (h : ∀ n ∈ ns, ∃ (t : Ty) (e : Expr t), Represents g e n) : ∃ code, scalarNodes g a ns = .ok code := by
  induction ns with
  | nil => exact ⟨[], rfl⟩
  | cons n ns ih =>
    obtain ⟨rest, hrest⟩ := ih fun m hm => h m (List.mem_cons_of_mem _ hm)
    have hop : ∃ op, scalarOp g a n = .ok op := by
      obtain ⟨t, e, he⟩ := h n (List.mem_cons_self ..)
      unfold scalarOp
      cases hk : (g n).kind
      case SELECT =>
        cases e with
        | select ec ea eb =>
          obtain ⟨i, l, k, hn, -⟩ := he
          rw [hn.cond]
          exact ⟨_, rfl⟩
        | cmp op => rw [he.kind] at hk; cases op <;> simp [Expr.kind, Cmp.kind] at hk
        | load | const | add | sub | and | or | not => rw [he.kind] at hk; simp [Expr.kind] at hk
      all_goals exact ⟨_, rfl⟩
    obtain ⟨op, hop⟩ := hop
    exact ⟨_, by rw [scalarNodes, scalarNode, hop, hrest]; rfl⟩

/-- What the passes establish for a well-typed expression. -/
theorem ScalarPrepared.scalarMeta {g : ℕ → Node} {a₀ a : ℕ → Annot} {root : ℕ} {nodes : List ℕ}
    (hp : ScalarPrepared g a₀ root a nodes) {t : Ty} {e : Expr t} (he : Represents g e root)
    (hleaf : ∀ n, Reach g root n → (a₀ n).slotId = -1) {L : Layout} {F : ℕ → ℕ → Word}
    {rows : ℕ → Name → Word} (hF : FieldRows L F g a root rows) :
    ScalarMeta L F g a rows nodes where
  post := hp.post
  slot := hp.word
  inj := hp.inj
  leaf n hn hl := by rw [hp.leaf n hl, hleaf n ((hp.mem_iff n).1 hn)]
  fields n hn hk := by
    obtain ⟨names, -, -, hidx⟩ := hp.names
    obtain ⟨hlt, hrow⟩ := hF n ((hp.mem_iff n).1 hn) hk
    exact ⟨by rw [hidx n hn hk]; exact Int.natCast_nonneg _, hlt, hrow⟩
  typed n hn := by
    obtain ⟨s, d, hd, -⟩ := he.reach ((hp.mem_iff n).1 hn)
    exact ⟨s, d, hd⟩

/-- **A call of a compiled scalar kernel**, for every well-typed root. -/
theorem compileScalar_call {P : NodePool} (hP : Built P) {rt : List Instr → Bool} {t : Ty}
    {e : Expr t} {root : ℕ} (he : Represents P.storage e root) (hc : e.compound = true)
    (hfresh : Fresh P root) (hcount : AtMostCompound P.storage root maxSlots) {a : ℕ → Annot}
    {code : List Instr} (hcomp : compileScalarExpression rt P.storage P.annot root = (a, .ok code))
    {L : Layout} {F : ℕ → ℕ → Word} {rows : ℕ → Name → Word}
    (hF : FieldRows L F P.storage a root rows) {m : Machine} (hm : Args L F m) :
    let nodes := (prepareScalar P.storage P.annot root).2
    ∃ m', ScalarPrepared P.storage P.annot root a nodes ∧ call code m = some m' ∧
      m'.read (.x 0) = rowMask (fun r => (rowPass P.storage (rows r) nodes).last) 64 ∧
      RowStored L P.storage a nodes (pad L m) (rows 63) m' := by
  have hp := prepareScalar_spec hP P.annot (Represents.lt_nextIdx hP he hc) hcount
  unfold compileScalarExpression at hcomp
  simp only [Prod.mk.injEq] at hcomp
  obtain ⟨rfl, hcomp⟩ := hcomp
  obtain ⟨body, hbody, hcomp⟩ := bind_ok hcomp
  split_ifs at hcomp
  obtain rfl := Except.ok.inj hcomp
  have H := hp.scalarMeta he (fun n hn => hfresh.slotId hn) hF
  have hroot : ∃ n ∈ (prepareScalar P.storage P.annot root).2, (P.storage n).kind.isLeaf = false :=
    ⟨root, (hp.mem_iff root).2 (Reach.refl _ _), by rw [he.isLeaf, hc]; rfl⟩
  obtain ⟨m', hcall, hres, hst⟩ := scalarKernel_call H hbody hroot hm
  exact ⟨m', hp, hcall, hres, hst⟩

/-- The word of the root is the last of a row. -/
theorem rowPass_last {g : ℕ → Node} {row : Name → Word} {ns : List ℕ} {root : ℕ}
    (h : ∃ t, ns = t ++ [root]) (hleaf : (g root).kind.isLeaf = false) :
    (rowPass g row ns).last = (rowPass g row ns).val root := by
  obtain ⟨t, rfl⟩ := h
  rw [rowPass_append_singleton, rowStep_last hleaf, rowStep_val_self hleaf]

/-- **A scalar kernel without `NOT`** returns the mask of the rows on which its root
is true. -/
theorem compileScalar_mask {P : NodePool} (hP : Built P) {rt : List Instr → Bool} {e : Expr .bool}
    {root : ℕ} (he : Represents P.storage e root) (hnot : e.notFree = true) (hfresh : Fresh P root)
    (hcount : AtMostCompound P.storage root 4096) {a : ℕ → Annot} {code : List Instr}
    (hcomp : compileScalarExpression rt P.storage P.annot root = (a, .ok code)) {L : Layout}
    {F : ℕ → ℕ → Word} {rows : ℕ → Name → Word} (hF : FieldRows L F P.storage a root rows)
    {m : Machine} (hm : Args L F m) :
    ∃ m', call code m = some m' ∧ Mask (m'.read (.x 0)) fun r => e.eval (rows r) := by
  have hc : e.compound = true := by cases e <;> rfl
  obtain ⟨m', hp, hcall, hres, -⟩ := compileScalar_call hP he hc hfresh (hcount.mono (by decide)) hcomp
    hF hm
  refine ⟨m', hcall, fun r hr => ?_⟩
  generalize (prepareScalar P.storage P.annot root).2 = nodes at hp hres
  have hmem : root ∈ nodes := (hp.mem_iff root).2 (Reach.refl _ _)
  have hkind : ∀ n ∈ nodes, (P.storage n).kind ≠ .NOT := by
    intro n hn
    obtain ⟨s, d, hd, hpart⟩ := he.reach ((hp.mem_iff n).1 hn)
    simpa using hd.all_kind (hpart.all _ hnot)
  have hword : ∀ r, (rowPass P.storage (rows r) nodes).last = bit (e.eval (rows r)) := by
    intro r
    rw [rowPass_last hp.last (by rw [he.isLeaf, hc]; rfl)]
    exact rowPass_eval hp.post hkind root hmem e he hc
  rw [hres]
  simp only [hword]
  rw [rowMask_bit _ (Nat.le_refl _)]
  simp [hr]

/-- **Correctness of the scalar compiler.**  For a boolean expression without `NOT`
the compilation has no undefined behaviour, and a kernel it returns computes the
mask of the rows on which the expression is true. -/
theorem compileScalarExpression_correct {P : NodePool} (hP : Built P) {e : Expr .bool} {root : ℕ}
    (he : Represents P.storage e root) (hnot : e.notFree = true) (hfresh : Fresh P root)
    (hcount : AtMostCompound P.storage root 4096) (rt : List Instr → Bool) :
    (compileScalarExpression rt P.storage P.annot root).2 ≠ .error .undefined ∧
      ∀ a code, compileScalarExpression rt P.storage P.annot root = (a, .ok code) →
        ∀ (L : Layout) (F : ℕ → ℕ → Word) (rows : ℕ → Name → Word) (m : Machine),
          FieldRows L F P.storage a root rows → Args L F m →
            ∃ m', call code m = some m' ∧ Mask (m'.read (.x 0)) fun r => e.eval (rows r) := by
  have hc : e.compound = true := by cases e <;> rfl
  refine ⟨?_, fun a code hcomp L F rows m hF hm =>
    compileScalar_mask hP he hnot hfresh hcount hcomp hF hm⟩
  have hp := prepareScalar_spec hP P.annot (Represents.lt_nextIdx hP he hc) (hcount.mono (by decide))
  obtain ⟨body, hbody⟩ := scalarNodes_isOk (prepareScalar P.storage P.annot root).1
    (prepareScalar P.storage P.annot root).2 fun n hn => by
      obtain ⟨s, d, hd, -⟩ := he.reach ((hp.mem_iff n).1 hn)
      exact ⟨s, d, hd⟩
  rw [compileScalarExpression]
  simp only [hbody]
  show (if rt _ then Except.ok _ else Except.error Fault.nullptr) ≠ _
  split_ifs <;> simp

/-- `a > 5` on the rows `a = 0, 1, 2, …`. -/
theorem compileScalarExpression_correct_gt :
    ∃ a code m', compileScalarExpression (fun _ => true) gtPool.storage gtPool.annot 2 =
        (a, .ok code) ∧
      call code (Abi.standard.enter (fun _ => some fun r => BitVec.ofNat 64 r) fun _ => 0) = some m' ∧
      Mask (m'.read (.x 0)) fun r => decide (5 < BitVec.ofNat 64 r) := by
  have hcount : AtMostCompound gtPool.storage 2 4096 := .of_nextIdx gtPool_built (by decide) (by decide)
  obtain ⟨-, hcorrect⟩ := compileScalarExpression_correct gtPool_built gtPool_represents rfl
    gtPool_fresh hcount fun _ => true
  have hF : FieldRows Layout.standard (fun _ r => BitVec.ofNat 64 r) gtPool.storage
      (compileScalarExpression (fun _ => true) gtPool.storage gtPool.annot 2).1 2
      fun r _ => BitVec.ofNat 64 r := by
    intro n hn hk
    have hlt : n < 3 := gtPool_built.reach_lt (by decide) hn
    refine ⟨?_, fun _ _ => rfl⟩
    interval_cases n
    · decide
    · exact absurd hk (by decide)
    · exact absurd hk (by decide)
  obtain ⟨m', hcall, hmask⟩ := hcorrect _ _ rfl _ _ _ _ hF (Abi.standard.args_some _ fun _ => 0)
  exact ⟨_, _, m', rfl, hcall, hmask⟩

end Jit
end AarchGate
