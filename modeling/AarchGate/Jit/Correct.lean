/-
# Correctness of the bit-sliced compiler

**A kernel computes the expression it was compiled from.**  For every pool the
builder can produce, every well-typed expression in it and every block of 64
rows, the kernel `compile_expression` returns delivers the value of the
expression on all rows: in `x0` for a boolean root, in the first 64 words of the
scratchpad for an arithmetic one (`compileExpression_correct`).

Subtraction is the exception.  The adder is started with the carry word `1`, so
only row 0 gets the `+ 1` of the two's complement and every other row is off by
one (`emitSub_planes_ne`).
-/

import AarchGate.Ir.Program
import AarchGate.Jit.Abi

namespace AarchGate
namespace Jit

open A64 Ir BitPlane

/-- Where a kernel delivers the values of its root: a mask in `x0`, or the planes
at the start of the scratchpad. -/
def Delivers (L : Layout) (m : Machine) : {t : Ty} → (ℕ → t.Value) → Prop
  | .bool, v => Mask (m.read (.x 0)) v
  | .num, v => Planes (pad L m) v

/-! ### What a call leaves behind -/

section Call

variable {P : NodePool} (hP : Built P) {rt : List Instr → Bool} {a₀ a : ℕ → Annot} {root : ℕ}
  (hroot : root < P.nextIdx) {code : List Instr}
  (hcomp : compileExpression rt P.storage a₀ root 64 = (a, .ok code))
  (heq : ∀ n, (P.storage n).kind.isComparison = false → (a₀ n).eqSlotId = -1)
  (hsorted : ∀ n, Reach P.storage root n → (a₀ n).skipJit = false → Sorted P.storage n)
  (hmasks : ∀ n, Reach P.storage root n → (P.storage n).kind.isMask = true → (a₀ n).skipJit = false)
  {L : Layout} {F : ℕ → ℕ → Word} {rows : ℕ → Name → Word}
  (hF : FieldPlanes L F P.storage a root rows) {m : Machine} (hm : Args L F m) {V : ℕ → ℕ → Word}
  (hV : Flow P.storage a rows (residue a (pad L m)) V)

include hP hroot hcomp heq hsorted hmasks hF hm hV

/-- **A root that is not skipped is delivered**: its word of the flow, in every lane.  The
words no node with code owns are as the call found them, but for those that planes are
delivered in. -/
theorem compile_root (hleaf : (P.storage root).kind.isLeaf = false)
    (hskip : (a₀ root).skipJit = false) :
    ∃ m', call code m = some m' ∧
      ((P.storage root).kind.isMask = true → Mask (m'.read (.x 0)) fun r => truth (V r root)) ∧
      ((P.storage root).kind.isMask = false → Planes (pad L m') fun r => V r root) ∧
      ∀ k < maxSlots, (P.storage root).kind.isMask = true ∨ 64 ≤ k →
        (∀ n, Reach P.storage root n → coded P.storage a n = true →
          ¬Owns (P.storage n).kind (a n) k) → pad L m' k = pad L m k := by
  obtain ⟨nodes, c, m₁, -, hp, H, hsim, hcall⟩ :=
    compile_call hP hroot hcomp heq hsorted hmasks hF hm hV
  have hmem : root ∈ nodes := (hp.mem_iff root).2 (Reach.refl _ _)
  have hs : (a root).skipJit = false := by rw [hp.skipJit, hskip]
  have h0 := (H.placed root hmem).slot_nonneg hleaf
  have hrk := hp.resultKind root hmem
  rw [NodeKind.resultKind] at hrk
  rcases Bool.eq_false_or_eq_true (P.storage root).kind.isMask with hmask | hmask
  · rw [if_pos hmask] at hrk
    obtain ⟨hE, hmem', hx0⟩ := emitResult_mask hsim.ready.env hs hrk h0
    refine ⟨_, hcall hE, fun _ => ?_, fun h => by rw [hmask] at h; exact absurd h (by decide),
      fun k hk _ hun => ?_⟩
    · rw [(epilogue_exec hE).others 0 (by decide), hx0]
      exact (hsim.holds root hmem).mask hmask
    · rw [pad, (epilogue_exec hE).mem, hmem']
      exact hsim.untouched k hk fun n hn => hun n ((hp.mem_iff n).1 hn)
  · rw [hmask, if_neg Bool.false_ne_true] at hrk
    obtain ⟨hE, hkeep, hpad⟩ :=
      emitResult_planes hsim.ready.env hs hrk h0 (H.block hmem hleaf hmask).2
    refine ⟨_, hcall hE, fun h => by rw [hmask] at h; exact absurd h (by decide), fun _ => ?_,
      fun k hk h64 hun => ?_⟩
    · refine ((hsim.holds root hmem).planes hmask).congr fun b hb => ?_
      rw [opWord_block hleaf, ← hpad b hb, pad, pad, (epilogue_exec hE).mem]
    · rw [pad, (epilogue_exec hE).mem, ← pad,
        hkeep.pad_eq hk (by rw [hmask] at h64; simpa using h64)]
      exact hsim.untouched k hk fun n hn => hun n ((hp.mem_iff n).1 hn)

/-- **A skipped root leaves its operands behind**: in the first word of a node, which is its
mask or its lowest plane, the lowest bit of the words of the flow.  The words no node with code
owns are as the call found them. -/
theorem compile_skipped (hskip : (a₀ root).skipJit = true) :
    ∃ m', call code m = some m' ∧
      (∀ n, Reach P.storage root n → (P.storage n).kind.isLeaf = false →
        0 ≤ (a n).slotId ∧ Mask (pad L m' (a n).slotId.toNat) fun r => (V r n).getLsbD 0) ∧
      ∀ k < maxSlots, (∀ n, Reach P.storage root n → coded P.storage a n = true →
        ¬Owns (P.storage n).kind (a n) k) → pad L m' k = pad L m k := by
  obtain ⟨nodes, c, m₁, -, hp, H, hsim, hcall⟩ :=
    compile_call hP hroot hcomp heq hsorted hmasks hF hm hV
  have hs : (a root).skipJit = true := by rw [hp.skipJit, hskip]
  -- the result code only clears `x0`
  have hres : execs (emitResult a root) m₁ = m₁.write (.x 0) 0 := by
    rw [emitResult, if_pos hs]
    rfl
  have hE := hsim.ready.env.write (n := 0) (by decide) (by decide) 0
  rw [← hres] at hE
  have hpad : ∀ i, pad L (execs epilogue (execs (emitResult a root) m₁)) i = pad L m₁ i := by
    intro i
    rw [pad, (epilogue_exec hE).mem, hres]
    rfl
  refine ⟨_, hcall hE, fun n hn hleaf => ?_, fun k hk hun => ?_⟩
  · have hmem := (hp.mem_iff n).2 hn
    rw [hpad]
    refine ⟨(H.placed n hmem).slot_nonneg hleaf, ?_⟩
    rcases Bool.eq_false_or_eq_true (P.storage n).kind.isMask with hk | hk
    · refine ((hsim.holds n hmem).mask hk).congr fun r _ => ?_
      exact ((hV r).truth_mask hk (by rw [hp.skipJit, hmasks n hn hk])).symm
    · intro r hr
      have hplane := (hsim.holds n hmem).planes hk 0 (by decide) r hr
      rwa [opWord_block hleaf, Nat.add_zero] at hplane
  · rw [hpad, hsim.untouched k hk fun n hn => hun n ((hp.mem_iff n).1 hn)]

end Call

/-- **A compiled kernel delivers its root**, whatever the root is made of; `SUB`
computes `subLane`. -/
theorem compile_delivers {P : NodePool} (hP : Built P) {rt : List Instr → Bool}
    {a₀ a : ℕ → Annot} {t : Ty} {e : Expr t} {root : ℕ} (he : Represents P.storage e root)
    (hc : e.compound = true) {code : List Instr}
    (hcomp : compileExpression rt P.storage a₀ root 64 = (a, .ok code))
    (heq : ∀ n, (P.storage n).kind.isComparison = false → (a₀ n).eqSlotId = -1)
    (hskip : ∀ n, Reach P.storage root n → (a₀ n).skipJit = false)
    {L : Layout} {F : ℕ → ℕ → Word} {rows : ℕ → Name → Word}
    (hF : FieldPlanes L F P.storage a root rows) {m : Machine} (hm : Args L F m) :
    ∃ m', call code m = some m' ∧ Delivers L m' fun r => e.evalWith (subLane r) (rows r) := by
  obtain ⟨V, hV⟩ := exists_flow hP a rows (residue a (pad L m))
  obtain ⟨nodes, body, hprep, -, -⟩ := compileExpression_ok hcomp
  have hroot := he.lt_nextIdx hP hc
  have hp := prepare_spec hP hroot hprep
  have hlive : Live P.storage a root := fun x hx _ => by rw [hp.skipJit, hskip x hx]
  have hval := fun r => (hV r).represents he hlive
  obtain ⟨m', hcall, hbool, hnum, -⟩ := compile_root hP hroot hcomp heq
    (fun n hn _ => sorted_of_reach he hn) (fun n hn _ => hskip n hn) hF hm hV
    (by rw [he.isLeaf, hc]; rfl) (hskip root (Reach.refl _ _))
  refine ⟨m', hcall, ?_⟩
  have hmask := he.isMask
  cases t with
  | bool => exact (hbool hmask).congr fun r _ => by rw [hval r]; exact (truth_bit _).symm
  | num => exact (hnum hmask).lanes fun r _ => (hval r).symm

/-! ### No undefined behaviour -/

/-- A well-sorted node with a carry register, where it needs one, is emitted. -/
theorem emitNode_isOk {g : ℕ → Node} {a : ℕ → Annot} {n : ℕ} (hsort : Sorted g n)
    (hcarry : isAddSub (g n).kind = true → ∃ k < 6, (a n).carryReg = (k : ℕ)) (bits : ℕ)
    (c : ScratchpadCache) : ∃ rc, emitNode g a bits n c = .ok rc := by
  cases hc : coded g a n with
  | false => exact ⟨_, emitNode_uncoded hc⟩
  | true =>
    obtain ⟨hem, hs⟩ : emitted (g n).kind = true ∧ (a n).skipJit = false := by simpa [coded] using hc
    rcases emitted_cases hem with hk | ⟨op, hk⟩ | hk | hk | hk
    · obtain ⟨l, r, hl, hr, -⟩ := hsort.arith (Or.inl hk)
      obtain ⟨k, hlt, hck⟩ := hcarry hk
      rw [emitNode_addSub hs (by simpa [isAddSub] using hk) hl hr, if_pos (by omega)]
      exact ⟨_, rfl⟩
    · have hcmp : (g n).kind.isComparison = true := by rw [hk]; cases op <;> rfl
      obtain ⟨l, r, hl, hr, -⟩ := hsort.arith (Or.inr hcmp)
      exact ⟨_, emitNode_compare hs hcmp hl hr⟩
    · obtain ⟨l, r, hl, -⟩ := hsort.logic hk
      exact ⟨_, emitNode_logic hs (by tauto) hl⟩
    · obtain ⟨l, hl, -⟩ := hsort.not hk
      exact ⟨_, emitNode_logic hs (by tauto) hl⟩
    · obtain ⟨i, l, r, hi, hl, hr, -⟩ := hsort.select hk
      exact ⟨_, emitNode_select hs hk hi hl hr⟩

/-- There is code if there is for every node. -/
theorem emitNodes_isOk {g : ℕ → Node} {a : ℕ → Annot} (bits : ℕ) {ns : List ℕ}
    (h : ∀ n ∈ ns, ∀ c, ∃ rc, emitNode g a bits n c = .ok rc) :
    ∀ c, ∃ code, emitNodes g a bits ns c = .ok code := by
  induction ns with
  | nil => exact fun c => ⟨[], rfl⟩
  | cons n ns ih =>
    intro c
    obtain ⟨rc, hrc⟩ := h n (List.mem_cons_self ..) c
    obtain ⟨rest, hrest⟩ := ih (fun x hx => h x (List.mem_cons_of_mem _ hx)) rc.2
    refine ⟨rc.1 ++ rest, ?_⟩
    rw [emitNodes, hrc]
    simp only [bind, Except.bind, hrest]

/-- At most six nodes of an expression are of the given kinds. -/
def AtMostSix (g : ℕ → Node) (root : ℕ) (p : NodeKind → Bool) : Prop :=
  ∀ ns : List ℕ, ns.Nodup → (∀ n ∈ ns, Reach g root n ∧ p (g n).kind = true) → ns.length ≤ 6

/-- The passes fail with a null pointer only. -/
theorem prepare_error {g : ℕ → Node} {a₀ a : ℕ → Annot} {root : ℕ} {f : Fault}
    (h : prepare g a₀ root = (a, .error f)) : f = .nullptr := by
  simp only [prepare] at h
  split at h
  · cases h
    rfl
  · split at h
    · cases h
      rfl
    · cases h

/-- **Six carry registers are enough for six additions**, a skipped root apart. -/
theorem Prepared.carry_of_six {g : ℕ → Node} {a₀ a : ℕ → Annot} {root : ℕ} {nodes : List ℕ}
    (hp : Prepared g a₀ root a nodes)
    (hsix : ∀ ns : List ℕ, ns.Nodup → (∀ n ∈ ns, Reach g root n ∧ isAddSub (g n).kind = true ∧
      (n = root → (a₀ n).skipJit = false)) → ns.length ≤ 6)
    {n : ℕ} (hn : n ∈ nodes) (hs : n = root → (a₀ n).skipJit = false)
    (hadd : isAddSub (g n).kind = true) : ∃ c < 6, (a n).carryReg = (c : ℕ) := by
  obtain ⟨pre, post, hsplit⟩ := List.append_of_mem hn
  refine hp.carry pre n post hsplit (Nat.lt_of_succ_le ?_) hadd
  have hnd : (pre ++ n :: post).Nodup := hsplit ▸ hp.post.nodup
  have hpre : ∀ x ∈ pre, x ∈ nodes := fun x hx => by rw [hsplit]; simp [hx]
  -- the root comes last, so it is not among the nodes before `n`
  have hlast : root ∉ pre := by
    obtain ⟨t, ht⟩ := hp.last
    have hmem : root ∈ n :: post := by
      have := congrArg List.getLast? (hsplit.symm.trans ht)
      rw [List.getLast?_append, List.getLast?_append] at this
      exact List.mem_of_getLast? (by simpa using this)
    exact fun hx => (List.nodup_append.1 hnd).2.2 root hx root hmem rfl
  refine hsix (n :: pre.filter fun x => isAddSub (g x).kind)
    (List.nodup_cons.2 ⟨fun hx => ?_, (List.nodup_append.1 hnd).1.filter _⟩) fun x hx => ?_
  · exact (List.nodup_append.1 hnd).2.2 n (List.mem_of_mem_filter hx) n (by simp) rfl
  · rcases List.mem_cons.1 hx with rfl | hx
    · exact ⟨(hp.mem_iff x).1 hn, hadd, hs⟩
    · obtain ⟨hx, hxadd⟩ := List.mem_filter.1 hx
      exact ⟨(hp.mem_iff x).1 (hpre x hx), hxadd, fun he => absurd (he ▸ hx) hlast⟩

/-- The nodes are emitted if those that are not skipped are well-sorted and at most six, a
skipped root apart, need a carry. -/
theorem emit_isOk {P : NodePool} (hP : Built P) {a₀ a : ℕ → Annot} {root : ℕ}
    (hroot : root < P.nextIdx) {nodes : List ℕ}
    (hprep : prepare P.storage a₀ root = (a, .ok nodes))
    (hsorted : ∀ n, Reach P.storage root n → (a₀ n).skipJit = false → Sorted P.storage n)
    (hsix : ∀ ns : List ℕ, ns.Nodup → (∀ n ∈ ns, Reach P.storage root n ∧
      isAddSub (P.storage n).kind = true ∧ (n = root → (a₀ n).skipJit = false)) → ns.length ≤ 6)
    (bits : ℕ) : ∃ body, emitNodes P.storage a bits nodes .init = .ok body := by
  have hp := prepare_spec hP hroot hprep
  refine emitNodes_isOk bits (fun n hn c => ?_) .init
  cases hs : (a n).skipJit with
  | true => exact ⟨_, emitNode_skip hs⟩
  | false =>
    rw [hp.skipJit] at hs
    exact emitNode_isOk (hsorted n ((hp.mem_iff n).1 hn) hs)
      (hp.carry_of_six hsix hn fun _ => hs) bits c

/-- Such a compilation does not run into undefined behaviour. -/
theorem compile_ne_undefined {P : NodePool} (hP : Built P) (rt : List Instr → Bool)
    {a₀ : ℕ → Annot} {root : ℕ} (hroot : root < P.nextIdx)
    (hsorted : ∀ n, Reach P.storage root n → (a₀ n).skipJit = false → Sorted P.storage n)
    (hsix : ∀ ns : List ℕ, ns.Nodup → (∀ n ∈ ns, Reach P.storage root n ∧
      isAddSub (P.storage n).kind = true ∧ (n = root → (a₀ n).skipJit = false)) → ns.length ≤ 6)
    (bits : ℕ) : (compileExpression rt P.storage a₀ root bits).2 ≠ .error .undefined := by
  unfold compileExpression
  cases h : prepare P.storage a₀ root with
  | mk a res =>
    cases res with
    | error f => simp [prepare_error h]
    | ok nodes =>
      obtain ⟨body, hbody⟩ := emit_isOk hP hroot h hsorted hsix bits
      simp only [hbody, bind, Except.bind]
      split_ifs <;> simp

/-- In an expression without `SUB` the nodes that need a carry are the `ADD`s. -/
theorem AtMostSix.of_subFree {g : ℕ → Node} {t : Ty} {e : Expr t} {root : ℕ}
    (he : Represents g e root) (hsub : e.subFree = true)
    (h : AtMostSix g root (· = .ADD)) : AtMostSix g root isAddSub := by
  intro ns hnd hns
  refine h ns hnd fun n hn => ⟨(hns n hn).1, ?_⟩
  obtain ⟨s, d, hd, hpart⟩ := he.reach (hns n hn).1
  have hk := hd.all_kind (hpart.all _ hsub)
  have hadd := (hns n hn).2
  simp only [isAddSub, Bool.or_eq_true, decide_eq_true_eq, bne_iff_ne, ne_eq] at hadd hk ⊢
  tauto

/-- No node at all. -/
theorem AtMostSix.of_none {g : ℕ → Node} {root : ℕ} {p : NodeKind → Bool}
    (h : ∀ n, Reach g root n → p (g n).kind = false) : AtMostSix g root p := by
  intro ns _ hns
  cases ns with
  | nil => exact Nat.zero_le _
  | cons n ns =>
    obtain ⟨hr, hk⟩ := hns n (List.mem_cons_self ..)
    rw [h n hr] at hk
    exact absurd hk Bool.false_ne_true

/-- None in the expression. -/
theorem AtMostSix.of_all {g : ℕ → Node} {t : Ty} {e : Expr t} {root : ℕ}
    (he : Represents g e root) {p : NodeKind → Bool} (h : e.all (fun k => !p k) = true) :
    AtMostSix g root p := .of_none fun n hn => by
  obtain ⟨s, d, hd, hpart⟩ := he.reach hn
  simpa using hd.all_kind (hpart.all _ h)

/-- A well-typed expression without `SUB` and with at most six additions. -/
theorem compile_typed_ne_undefined {P : NodePool} (hP : Built P) (rt : List Instr → Bool)
    (a₀ : ℕ → Annot) {t : Ty} {e : Expr t} {root : ℕ} (he : Represents P.storage e root)
    (hc : e.compound = true) (hsub : e.subFree = true)
    (hsix : AtMostSix P.storage root (· = .ADD)) (bits : ℕ) :
    (compileExpression rt P.storage a₀ root bits).2 ≠ .error .undefined := by
  refine compile_ne_undefined hP rt (he.lt_nextIdx hP hc) (fun n hn _ => sorted_of_reach he hn)
    (fun ns hnd hns => ?_) bits
  exact AtMostSix.of_subFree he hsub hsix ns hnd fun n hn => ⟨(hns n hn).1, (hns n hn).2.1⟩

/-- **Correctness of the bit-sliced compiler.**  For every expression without
`SUB` and with at most six additions, on nodes no earlier pass has marked
`skip_jit`: the compilation does not run into undefined behaviour, and a kernel
it returns delivers the value of the expression on each of the 64 rows, for all
contents of the scratchpad. -/
theorem compileExpression_correct {P : NodePool} (hP : Built P) {t : Ty} {e : Expr t} {root : ℕ}
    (he : Represents P.storage e root) (hc : e.compound = true) (hsub : e.subFree = true)
    (hsix : AtMostSix P.storage root (· = .ADD))
    (hskip : ∀ n, Reach P.storage root n → (P.annot n).skipJit = false)
    (rt : List Instr → Bool) :
    (compileExpression rt P.storage P.annot root 64).2 ≠ .error .undefined ∧
      ∀ a code, compileExpression rt P.storage P.annot root 64 = (a, .ok code) →
        ∀ (L : Layout) (F : ℕ → ℕ → Word) (rows : ℕ → Name → Word) (m : Machine),
          FieldPlanes L F P.storage a root rows → Args L F m →
            ∃ m', call code m = some m' ∧ Delivers L m' fun r => e.eval (rows r) := by
  refine ⟨compile_typed_ne_undefined hP rt _ he hc hsub hsix 64, ?_⟩
  intro a code hcomp L F rows m hF hm
  obtain ⟨m', hcall, hdel⟩ := compile_delivers hP he hc hcomp hP.eqSlotId hskip hF hm
  refine ⟨m', hcall, ?_⟩
  simpa only [Expr.evalWith_subFree e hsub] using hdel

/-- The field numbers of a compiled expression fit the table of a call. -/
theorem compile_fieldIdx_lt {P : NodePool} (hP : Built P) {rt : List Instr → Bool}
    {a₀ a : ℕ → Annot} {root bits : ℕ} (hroot : root < P.nextIdx) {code : List Instr}
    (hcomp : compileExpression rt P.storage a₀ root bits = (a, .ok code)) {n : ℕ}
    (hn : Reach P.storage root n) (hk : (P.storage n).kind = .LOAD) :
    (a n).fieldIdx.toNat < 128 := by
  obtain ⟨nodes, body, hprep, -, -⟩ := compileExpression_ok hcomp
  have hp := prepare_spec hP hroot hprep
  exact hp.fieldIdx_lt ((hp.mem_iff n).2 hn) hk

/-- `a > 5`. -/
abbrev gtFive : Expr .bool := .cmp .gt (.load ['a']) (.const 5)

/-- The pool of `GT(Load("a"), Const(5))`. -/
def gtPool : NodePool := gtFive.pool

/-- The pool was built. -/
theorem gtPool_built : Built gtPool := (gtFive.pool_pristine (by decide)).built

/-- Its root stands for the comparison. -/
theorem gtPool_represents : Represents gtPool.storage gtFive 2 :=
  (gtFive.pool_stands (by decide) (by decide)).represents

/-- And is not compiled. -/
theorem gtPool_fresh : Fresh gtPool 2 := (gtFive.pool_pristine (by decide)).fresh 2

/-- The columns of 64 rows with the value `v` in every field. -/
def constColumns (v : Word) (_ b : ℕ) : Word := if v.getLsbD b then BitVec.allOnes 64 else 0

/-- The planes of one value in all lanes. -/
theorem planes_constColumns (v : Word) (i : ℕ) : Planes (constColumns v i) (fun _ => v) :=
  planes_const v

/-- `a > 5` on 64 rows with `a = 10`. -/
theorem compileExpression_correct_gt :
    ∃ a code m', compileExpression (fun _ => true) gtPool.storage gtPool.annot 2 64 =
        (a, .ok code) ∧
      call code (Abi.standard.enter (fun i => some (constColumns 10 i)) fun _ => 0) = some m' ∧
      Mask (m'.read (.x 0)) fun _ => true := by
  obtain ⟨-, hcorrect⟩ := compileExpression_correct gtPool_built gtPool_represents rfl rfl
    (.of_all gtPool_represents rfl) (fun n hn => gtPool_fresh.skipJit hn) fun _ => true
  have hok : (compileExpression (fun _ => true) gtPool.storage gtPool.annot 2 64).2.isOk = true := by
    decide
  cases hcomp : compileExpression (fun _ => true) gtPool.storage gtPool.annot 2 64 with
  | mk a res =>
    cases res with
    | error f => simp [hcomp, Except.isOk, Except.toBool] at hok
    | ok code =>
      have hF : FieldPlanes Layout.standard (constColumns 10) gtPool.storage a 2 fun _ _ => 10 :=
        fun n hn hk => ⟨compile_fieldIdx_lt gtPool_built (by decide) hcomp hn hk,
          planes_constColumns 10 _⟩
      obtain ⟨m', hcall, hdel⟩ := hcorrect a code hcomp _ _ _ _ hF (Abi.standard.args_some _ fun _ => 0)
      exact ⟨a, code, m', rfl, hcall, hdel⟩

/-! ### Subtraction -/

/-- **The code of `SUB` never leaves the planes of the difference.**  Whatever the
operands and the machine: every row but row 0 is off by one. -/
theorem emitSub_planes_ne {P : NodePool} (hP : Built P) {a₀ a : ℕ → Annot} {root : ℕ}
    (hroot : root < P.nextIdx) {nodes : List ℕ}
    (hprep : prepare P.storage a₀ root = (a, .ok nodes)) {n l r : ℕ} (hn : n ∈ nodes)
    (hk : (P.storage n).kind = .SUB) (hl : (P.storage n).left = some l)
    (hr : (P.storage n).right = some r) (hlk : (P.storage l).kind.isMask = false)
    (hrk : (P.storage r).kind.isMask = false) (hs : (a n).skipJit = false) {c : ScratchpadCache}
    {rc : List Instr × ScratchpadCache} (hemit : emitNode P.storage a 64 n c = .ok rc) {L : Layout}
    (hL : 128 ≤ L.numFields) {F : ℕ → ℕ → Word} {depth : ℕ} {saved : ℕ → Word} {m : Machine}
    (hE : Env L F depth saved m) {va vb : ℕ → Word} (hA : Planes (opWord L F P.storage a m l) va)
    (hB : Planes (opWord L F P.storage a m r) vb) :
    ¬Planes (fun b => pad L (execs rc.1 m) ((a n).slotId.toNat + b)) (fun i => va i - vb i) := by
  have hp := prepare_spec hP hroot hprep
  have hkid : ∀ x ∈ (P.storage n).children, x ∈ nodes ∧ x ≠ n := fun x hx =>
    ⟨hp.post.closed hn hx, fun he => Nat.lt_irrefl n (he ▸ (hP.ordered.2 n x hx).1)⟩
  obtain ⟨hln, hlne⟩ := hkid l (left_mem_children hl)
  obtain ⟨hrn, hrne⟩ := hkid r (right_mem_children hr)
  have hleaf : (P.storage n).kind.isLeaf = false := by rw [hk]; rfl
  have hmask : (P.storage n).kind.isMask = false := by rw [hk]; rfl
  have hop : ∀ x ∈ nodes, (P.storage x).kind.isMask = false → OperandOk L P.storage a x :=
    fun x hx hxm => ⟨fun h => ⟨hp.fieldIdx_nonneg hx h,
      Nat.lt_of_lt_of_le (hp.fieldIdx_lt hx h) hL⟩, fun h => hp.block hx h hxm⟩
  obtain ⟨h0, hslot⟩ := hp.block hn hleaf hmask
  rw [emitNode_addSub hs (Or.inr hk) hl hr] at hemit
  split_ifs at hemit with hc
  obtain rfl := Except.ok.inj hemit
  obtain ⟨hout, -, -⟩ := emitAddSub_exec hE (hop l hln hlk) (hop r hrn hrk) h0 hslot
    (hp.apart hn hleaf hmask hln hlk hlne) (hp.apart hn hleaf hmask hrn hrk hrne)
    (show (a n).carryReg.toNat < 6 by omega) hA hB
  -- row 1 tells the two apart
  intro hdiff
  have h1 := hout.lane_unique hdiff (show 1 < 64 by decide)
  simp only [hk, if_true] at h1
  exact subLane_ne _ _ h1

/-- The pool of `Sub(Load("a"), Load("b"))`. -/
def subPool : NodePool := (Expr.sub (.load ['a']) (.load ['b'])).pool

/-- Nothing was compiled in it. -/
theorem subPool_pristine : Pristine subPool := Expr.pool_pristine _ (by decide)

/-- `a - b` at the entry of the kernel with `a = b = 7`. -/
theorem emitSub_planes_ne_sub :
    ∃ a rc, prepare subPool.storage subPool.annot 2 = (a, .ok [0, 1, 2]) ∧
      emitNode subPool.storage a 64 2 .init = .ok rc ∧
      ¬Planes (fun b => pad Layout.standard (execs rc.1
        (execs prologue (Abi.standard.enter (fun i => some (constColumns 7 i)) fun _ => 0))) ((a 2).slotId.toNat + b))
        (fun _ => (7 : Word) - 7) := by
  have hprep : prepare subPool.storage subPool.annot 2 =
      ((prepare subPool.storage subPool.annot 2).1, .ok [0, 1, 2]) := Prod.ext rfl (by rfl)
  obtain ⟨hE, -⟩ := prologue_exec (Abi.standard.args_some (constColumns 7) fun _ => 0)
  obtain ⟨rc, hrc⟩ : ∃ rc, emitNode subPool.storage (prepare subPool.storage subPool.annot 2).1 64 2
      .init = .ok rc := ⟨_, rfl⟩
  have hload : ∀ x, (subPool.storage x).kind = .LOAD → Planes (opWord Layout.standard
      (constColumns 7) subPool.storage (prepare subPool.storage subPool.annot 2).1
      (execs prologue (Abi.standard.enter (fun i => some (constColumns 7 i)) fun _ => 0)) x) (fun _ => 7) :=
    fun x hx => (planes_constColumns 7 _).congr fun b _ => opWord_load hx b
  refine ⟨_, rc, hprep, hrc, ?_⟩
  exact emitSub_planes_ne (l := 0) (r := 1) subPool_pristine.built (by decide) hprep (by decide) rfl rfl rfl
    rfl rfl rfl hrc (Nat.le_refl _) hE (hload 0 rfl) (hload 1 rfl)

/-- With `a = b = 7` in all rows the kernel of `Sub(a, b)` leaves bit 0 of row 1
set, as if `7 - 7` were odd. -/
theorem compile_sub_row_one :
    ∃ a code m', compileExpression (fun _ => true) subPool.storage subPool.annot 2 64 =
        (a, .ok code) ∧ (a 2).slotId = 0 ∧
      call code (Abi.standard.enter (fun i => some (constColumns 7 i)) fun _ => 0) = some m' ∧
      (pad Layout.standard m' 0).getLsbD 1 ≠ ((7 : Word) - 7).getLsbD 0 := by
  have he : Represents subPool.storage (.sub (.load ['a']) (.load ['b'])) 2 :=
    (Expr.pool_stands _ (by decide) (by decide)).represents
  have hok : (compileExpression (fun _ => true) subPool.storage subPool.annot 2 64).2.isOk =
      true := by decide
  have hslot : ((compileExpression (fun _ => true) subPool.storage subPool.annot 2 64).1 2).slotId =
      0 := by decide
  cases hcomp : compileExpression (fun _ => true) subPool.storage subPool.annot 2 64 with
  | mk a res =>
    rw [hcomp] at hslot hok
    cases res with
    | error f => simp [Except.isOk, Except.toBool] at hok
    | ok code =>
      have hF : FieldPlanes Layout.standard (constColumns 7) subPool.storage a 2 fun _ _ => 7 :=
        fun n hn hk => ⟨compile_fieldIdx_lt subPool_pristine.built (by decide) hcomp hn hk,
          planes_constColumns 7 _⟩
      obtain ⟨m', hcall, hdel⟩ := compile_delivers subPool_pristine.built he rfl hcomp
        subPool_pristine.built.eqSlotId (fun _ hn => (subPool_pristine.fresh 2).skipJit hn) hF
        (Abi.standard.args_some _ fun _ => 0)
      refine ⟨a, code, m', rfl, hslot, hcall, ?_⟩
      have hbit := hdel 0 (by decide) 1 (by decide)
      rw [hbit]
      decide

end Jit
end AarchGate
