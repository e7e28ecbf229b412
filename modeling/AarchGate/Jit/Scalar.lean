/-
# The scalar expression compiler

`JitCompiler::compile_scalar_expression` in `src/jit/compiler.cpp`.  The kernel
loops over the 64 rows of a block; `field_arrays[i][row]` are the values of the
fields.  In each iteration every node is computed in post-order into `x5` and
stored to the slot of the node, and bit `row` of the result mask is taken from
the last node, the root.

There is one result register for all nodes.  A kind without a case in the
`switch` (`NOT` among them) emits no computation, so what an earlier node left in
`x5` is stored again.
-/

import AarchGate.Jit.Compile

namespace AarchGate
namespace Jit

open A64 Ir

/-- `final_mask`. -/
abbrev finalMask : Gp := .x 21
/-- `row_index`. -/
abbrev rowIndex : Gp := .x 22
/-- `temp_reg`. -/
abbrev tempReg : Gp := .x 23
/-- `val_left`. -/
abbrev valLeft : Gp := .x 16
/-- `val_right`. -/
abbrev valRight : Gp := .x 17
/-- `val_res`. -/
abbrev valRes : Gp := .x 5

/-- The slot allocation: one word for every node that is not a leaf.  A full
scratchpad is not checked for. -/
def allocScalar (g : ℕ → Node) : List ℕ → ScratchpadManager → (ℕ → Annot) → (ℕ → Annot)
  | [], _, a => a
  | n :: ns, mgr, a =>
      if (g n).kind.isLeaf then allocScalar g ns mgr a
      else
        let r := mgr.allocSlot
        allocScalar g ns r.2 (setAnnot a n fun x => { x with slotId := r.1 })

section Emit

variable (g : ℕ → Node) (a : ℕ → Annot)

/-- `get_operand`. -/
def getOperand (op : Option ℕ) (out : Gp) : List Instr :=
  match op with
  | none => []
  | some o =>
      match (g o).kind with
      | .LOAD =>
          [.ldr tempReg (.off fieldPlanesPtr (byteOffset (a o).fieldIdx)),
            .ldr out (.idxLsl tempReg rowIndex 3)]
      | .CONST => movWide out (g o).constValue
      | _ => [.ldr out (.off scratchPtr (byteOffset (a o).slotId))]

/-- `cmp` and `cset` of a comparison. -/
def scalarCompare (c : Cond) : List Instr := [.cmp valLeft valRight, .cset valRes c]

/-- The `switch` over the kinds. -/
def scalarOp (n : ℕ) : Except Fault (List Instr) :=
  match (g n).kind with
  | .ADD => .ok [.alu .add valRes valLeft valRight]
  | .SUB => .ok [.alu .sub valRes valLeft valRight]
  | .GT => .ok (scalarCompare .hi)
  | .LT => .ok (scalarCompare .lo)
  | .GE => .ok (scalarCompare .hs)
  | .LE => .ok (scalarCompare .ls)
  | .EQ => .ok (scalarCompare .eq)
  | .AND => .ok [.alu .and valRes valLeft valRight]
  | .OR => .ok [.alu .orr valRes valLeft valRight]
  | .SELECT => do
      let i ← deref (g n).cond
      .ok [.ldr tempReg (.off scratchPtr (byteOffset (a i).slotId)), .cmpImm tempReg 0,
        .csel valRes valLeft valRight .ne]
  | _ => .ok []

/-- The code of one node: the operands, the operation, the store. -/
def scalarNode (n : ℕ) : Except Fault (List Instr) := do
  let op ← scalarOp g a n
  .ok (getOperand g a (g n).left valLeft ++ getOperand g a (g n).right valRight ++ op ++
    (if 0 ≤ (a n).slotId then [.str valRes (.off scratchPtr (byteOffset (a n).slotId))] else []))

/-- The nodes of one row. -/
def scalarNodes : List ℕ → Except Fault (List Instr)
  | [] => .ok []
  | n :: ns => do
      let code ← scalarNode g a n
      let rest ← scalarNodes ns
      .ok (code ++ rest)

end Emit

/-- The prologue. -/
def scalarPrologue : List Instr :=
  [pushPair 29 30, .mov (.x 29) .sp, pushPair 19 20, pushPair 21 22, pushPair 23 24,
    .mov fieldPlanesPtr (.x 0), .mov scratchPtr (.x 1), .movImm finalMask 0, .movImm rowIndex 0]

/-- The head of the loop; label 0 is `loop_start`, label 1 is `loop_end`. -/
def scalarHead : List Instr := [.bind 0, .cmpImm rowIndex 64]

/-- The end of an iteration: the bit of the row. -/
def scalarTail : List Instr :=
  [.alu .lsl tempReg valRes rowIndex, .alu .orr finalMask finalMask tempReg,
    .addImm rowIndex rowIndex 1]

/-- After the loop: the result, the saved registers. -/
def scalarEpilogue : List Instr :=
  [.bind 1, .mov (.x 0) finalMask, popPair 23 24, popPair 21 22, popPair 19 20, popPair 29 30]

/-- The kernel around the code of one row. -/
def scalarKernel (body : List Instr) : List Instr :=
  scalarPrologue ++ scalarHead ++ [.bcond .hs 1] ++ (body ++ scalarTail) ++ [.b 0] ++
    scalarEpilogue ++ [.ret (.x 30)]

/-- The passes before the emission. -/
def prepareScalar (g : ℕ → Node) (a₀ : ℕ → Annot) (root : ℕ) : (ℕ → Annot) × List ℕ :=
  let an := ExpressionAnalyzer.ofRoot g a₀ root
  let a₁ := (assignFields g none an.allNodes [] an.annot).1
  (allocScalar g an.allNodes .init a₁, an.allNodes)

/-- `JitCompiler::compile_scalar_expression`: the metadata left in the nodes, and
the kernel. -/
def compileScalarExpression (rt : List Instr → Bool) (g : ℕ → Node) (a₀ : ℕ → Annot) (root : ℕ) :
    (ℕ → Annot) × Except Fault (List Instr) :=
  let p := prepareScalar g a₀ root
  (p.1, do
    let body ← scalarNodes g p.1 p.2
    let code := scalarKernel body
    if rt code then .ok code else .error .nullptr)

/-! ### How a compilation fails -/

/-- The runtime only decides whether there is a kernel. -/
theorem compileScalarExpression_rt (rt : List Instr → Bool) (g : ℕ → Node) (a : ℕ → Annot)
    (root : ℕ) :
    compileScalarExpression rt g a root =
      ((compileScalarExpression (fun _ => true) g a root).1,
        (compileScalarExpression (fun _ => true) g a root).2.bind fun code =>
          if rt code then .ok code else .error .nullptr) := by
  simp only [compileScalarExpression, bind, Except.bind, if_true]
  cases scalarNodes g (prepareScalar g a root).1 (prepareScalar g a root).2 <;> rfl

/-- **The code of an operation**: one instruction, a comparison, nothing or a `SELECT`. -/
theorem scalarOp_cases {g : ℕ → Node} {a : ℕ → Annot} {n : ℕ} {op : List Instr}
    (h : scalarOp g a n = .ok op) :
    (∃ o, op = [.alu o valRes valLeft valRight]) ∨ (∃ c, op = scalarCompare c) ∨ op = [] ∨
      ∃ i, (g n).cond = some i ∧ op = [.ldr tempReg (.off scratchPtr (byteOffset (a i).slotId)),
        .cmpImm tempReg 0, .csel valRes valLeft valRight .ne] := by
  unfold scalarOp at h
  cases hk : (g n).kind <;> rw [hk] at h
  case SELECT =>
    obtain ⟨i, hi, h⟩ := bind_ok h
    exact .inr (.inr (.inr ⟨i, deref_ok hi, (Except.ok.inj h).symm⟩))
  all_goals
    obtain rfl := Except.ok.inj h
    simp [scalarCompare]

/-- The emission of a scalar node fails by undefined behaviour only. -/
theorem scalarNode_error {g : ℕ → Node} {a : ℕ → Annot} {n : ℕ} {f : Fault}
    (h : scalarNode g a n = .error f) : f = .undefined := by
  cases f with
  | undefined => rfl
  | nullptr =>
    unfold scalarNode scalarOp at h
    cases hi : (g n).cond <;> cases hk : (g n).kind <;>
      simp [hi, hk, deref, bind, Except.bind] at h

/-- It fails only on what is undefined. -/
theorem scalarNodes_error {g : ℕ → Node} {a : ℕ → Annot} {ns : List ℕ} {f : Fault}
    (h : scalarNodes g a ns = .error f) : f = .undefined := by
  induction ns with
  | nil => cases h
  | cons n ns ih =>
    rw [scalarNodes] at h
    cases hn : scalarNode g a n with
    | error f' =>
      rw [hn] at h
      obtain rfl := Except.error.inj h
      exact scalarNode_error hn
    | ok code =>
      cases hns : scalarNodes g a ns with
      | error f' =>
        simp only [hn, hns, bind, Except.bind] at h
        obtain rfl := Except.error.inj h
        exact ih hns
      | ok rest =>
        simp [hn, hns, bind, Except.bind] at h

/-- `compile_scalar_expression` has no limits of its own. -/
theorem compileScalarExpression_ne_null (g : ℕ → Node) (a : ℕ → Annot) (root : ℕ) :
    (compileScalarExpression (fun _ => true) g a root).2 ≠ .error .nullptr := by
  intro h
  simp only [compileScalarExpression, bind, Except.bind, if_true] at h
  cases hbody : scalarNodes g (prepareScalar g a root).1 (prepareScalar g a root).2 with
  | ok body => simp [hbody] at h
  | error f =>
    rw [scalarNodes_error hbody] at hbody
    simp [hbody] at h

/-! ### What the passes give -/

/-- The words below `k` are in use. -/
theorem ScratchpadManager.allocSlot_of_prefix {M : ScratchpadManager} {k : ℕ}
    (h : ∀ s, M.used s = decide (s < k)) (hk : k < maxSlots) : M.allocSlot = ((k : ℤ), M.mark k 1) := by
  unfold ScratchpadManager.allocSlot
  cases hf : M.findSlot maxSlots 0 with
  | none =>
    have := findSlot_eq_none hf k (by omega) (by omega)
    simp [h] at this
  | some i =>
    obtain ⟨-, -, hfree, hmin⟩ := findSlot_eq_some hf
    rw [h, decide_eq_false_iff_not] at hfree
    obtain rfl : i = k := by
      by_contra hne
      have := hmin k (Nat.zero_le _) (by omega)
      simp [h] at this
    rfl

/-- A full scratchpad answers `-1`. -/
theorem ScratchpadManager.allocSlot_of_full {M : ScratchpadManager}
    (h : ∀ s < maxSlots, M.used s = true) : M.allocSlot = (-1, M) := by
  unfold ScratchpadManager.allocSlot
  cases hf : M.findSlot maxSlots 0 with
  | none => rfl
  | some i =>
    obtain ⟨-, hlt, hfree, -⟩ := findSlot_eq_some hf
    rw [h i (by omega)] at hfree
    cases hfree

/-- The number of nodes that need a slot. -/
def compoundCount (g : ℕ → Node) (ns : List ℕ) : ℕ :=
  (ns.filter fun n => !(g n).kind.isLeaf).length

/-- What the slot allocation does: distinct words from `k` on for the nodes that
are no leaves, and nothing else. -/
structure ScalarAllocated (g : ℕ → Node) (ns : List ℕ) (k : ℕ) (a a' : ℕ → Annot) : Prop where
  frame : ∀ n, n ∉ ns ∨ (g n).kind.isLeaf = true → a' n = a n
  others : ∀ n, { a' n with slotId := (a n).slotId } = a n
  slot : ∀ n ∈ ns, (g n).kind.isLeaf = false →
    ∃ j : ℕ, k ≤ j ∧ j < k + compoundCount g ns ∧ (a' n).slotId = (j : ℤ)
  inj : ∀ m ∈ ns, ∀ n ∈ ns, (g m).kind.isLeaf = false → (g n).kind.isLeaf = false →
    (a' m).slotId = (a' n).slotId → m = n

/-- Leaves and other nodes keep their annotation. -/
theorem allocScalar_frame {g : ℕ → Node} {ns : List ℕ} {n : ℕ}
    (h : n ∉ ns ∨ (g n).kind.isLeaf = true) : ∀ (M : ScratchpadManager) (a : ℕ → Annot),
      allocScalar g ns M a n = a n := by
  induction ns with
  | nil => exact fun _ _ => rfl
  | cons m ns ih =>
    intro M a
    have ih := ih (h.imp_left fun h h' => h (List.mem_cons_of_mem _ h'))
    rw [allocScalar]
    split_ifs with hleaf
    · exact ih M a
    · have hmn : n ≠ m := by
        rintro rfl
        exact h.elim (fun h => h (List.mem_cons_self ..)) hleaf
      rw [ih, setAnnot_ne _ _ hmn]

/-- Only the slot is set. -/
theorem allocScalar_others (g : ℕ → Node) (ns : List ℕ) (n : ℕ) :
    ∀ (M : ScratchpadManager) (a : ℕ → Annot),
      { allocScalar g ns M a n with slotId := (a n).slotId } = a n := by
  induction ns with
  | nil => exact fun _ _ => rfl
  | cons m ns ih =>
    intro M a
    rw [allocScalar]
    split_ifs with hleaf
    · exact ih M a
    · have h := ih M.allocSlot.2 (setAnnot a m fun x => { x with slotId := M.allocSlot.1 })
      by_cases hmn : n = m
      · subst hmn
        rw [setAnnot_self, Annot.ext_iff] at h
        rw [Annot.ext_iff]
        simp only at h ⊢
        tauto
      · rwa [setAnnot_ne _ _ hmn] at h

/-- The word of the `j`-th node that needs one. -/
def scalarSlot (j : ℕ) : ℤ := if j < maxSlots then j else -1

/-- **The slots are handed out in post-order** as long as there are words left; a node for
which there is none gets `-1`. -/
theorem allocScalar_slot {g : ℕ → Node} {ns : List ℕ} :
    ∀ {M : ScratchpadManager} {k : ℕ} {a : ℕ → Annot}, ns.Nodup →
      (∀ s, M.used s = decide (s < k ∧ s < maxSlots)) → ∀ {n : ℕ}, n ∈ ns → (g n).kind.isLeaf = false →
        (allocScalar g ns M a n).slotId =
          scalarSlot (k + (ns.filter fun n => !(g n).kind.isLeaf).idxOf n) := by
  induction ns with
  | nil => exact fun _ _ _ hn => absurd hn List.not_mem_nil
  | cons m ns ih =>
    intro M k a hnd hM n hn hleaf
    obtain ⟨hm, hnd⟩ := List.nodup_cons.1 hnd
    rw [allocScalar]
    cases hml : (g m).kind.isLeaf with
    | true =>
      have hne : n ≠ m := by rintro rfl; rw [hml] at hleaf; cases hleaf
      rw [if_pos rfl, List.filter_cons_of_neg (by simp [hml])]
      exact ih hnd hM ((List.mem_cons.1 hn).resolve_left hne) hleaf
    | false =>
      rw [if_neg Bool.false_ne_true, List.filter_cons_of_pos (by simp [hml])]
      have halloc : M.allocSlot.1 = scalarSlot k ∧
          ∀ s, M.allocSlot.2.used s = decide (s < k + 1 ∧ s < maxSlots) := by
        unfold scalarSlot
        split_ifs with hk
        · rw [M.allocSlot_of_prefix (fun s => by rw [hM, decide_eq_decide]; omega) hk]
          refine ⟨rfl, fun s => ?_⟩
          rw [ScratchpadManager.mark_used, hM, ← Bool.decide_or, decide_eq_decide]
          omega
        · rw [M.allocSlot_of_full fun s hs => by rw [hM, decide_eq_true_eq]; omega]
          exact ⟨rfl, fun s => by rw [hM, decide_eq_decide]; omega⟩
      by_cases hne : n = m
      · subst hne
        rw [allocScalar_frame (Or.inl hm), setAnnot_self, List.idxOf_cons_self]
        exact halloc.1
      · rw [List.idxOf_cons_ne _ (Ne.symm hne), ih hnd halloc.2
          ((List.mem_cons.1 hn).resolve_left hne) hleaf]
        congr 1
        omega

/-- **The slots of the scalar kernel**, if there is room for them. -/
theorem allocScalar_spec {g : ℕ → Node} {ns : List ℕ} {M : ScratchpadManager} {k : ℕ}
    {a : ℕ → Annot} (hnd : ns.Nodup) (hM : ∀ s, M.used s = decide (s < k))
    (hk : k + compoundCount g ns ≤ maxSlots) : ScalarAllocated g ns k a (allocScalar g ns M a) := by
  have hslot : ∀ n ∈ ns, (g n).kind.isLeaf = false →
      n ∈ ns.filter (fun n => !(g n).kind.isLeaf) ∧
      (ns.filter fun n => !(g n).kind.isLeaf).idxOf n < compoundCount g ns ∧
        (allocScalar g ns M a n).slotId =
          (k + (ns.filter fun n => !(g n).kind.isLeaf).idxOf n : ℕ) := by
    intro n hn hleaf
    have hmem : n ∈ ns.filter fun n => !(g n).kind.isLeaf := List.mem_filter.2 ⟨hn, by simp [hleaf]⟩
    have hlt : (ns.filter fun n => !(g n).kind.isLeaf).idxOf n < compoundCount g ns :=
      List.idxOf_lt_length_of_mem hmem
    refine ⟨hmem, hlt, ?_⟩
    rw [allocScalar_slot (k := k) hnd (fun s => by rw [hM, decide_eq_decide]; omega) hn hleaf,
      scalarSlot, if_pos (by omega)]
  refine ⟨fun n hn => allocScalar_frame hn M a, fun n => allocScalar_others _ _ n M a,
    fun n hn hleaf => ?_, fun m hm n hn hml hnl heq => ?_⟩
  · obtain ⟨-, hlt, heq⟩ := hslot n hn hleaf
    exact ⟨_, Nat.le_add_right .., by omega, heq⟩
  · obtain ⟨hmem, -, hs⟩ := hslot m hm hml
    rw [hs, (hslot n hn hnl).2.2] at heq
    exact (List.idxOf_inj hmem).1 (by omega)

/-- Without a limit the numbering of the fields does not fail. -/
theorem assignFields_none_isSome (g : ℕ → Node) (ns : List ℕ) (names : List Name)
    (a : ℕ → Annot) : ∃ names', assignFields g none ns names a =
      ((assignFields g none ns names a).1, some names') := by
  induction ns generalizing names a with
  | nil => exact ⟨names, rfl⟩
  | cons n ns ih =>
    rw [assignFields]
    simp only [Option.any_none, Bool.false_eq_true, if_false]
    by_cases hk : (g n).kind = .LOAD
    · rw [if_pos hk]
      by_cases hf : (g n).fieldName ∈ names
      · rw [if_pos hf]; exact ih _ _
      · rw [if_neg hf]; exact ih _ _
    · rw [if_neg hk]; exact ih _ _

/-- What the passes before the emission establish, without a limit on the expression. -/
structure ScalarPasses (g : ℕ → Node) (a₀ : ℕ → Annot) (root : ℕ) (a : ℕ → Annot)
    (nodes : List ℕ) : Prop where
  post : Graph.PostOrdered (succs g) nodes
  mem_iff : ∀ n, n ∈ nodes ↔ Reach g root n
  last : ∃ t, nodes = t ++ [root]
  resultKind : ∀ n ∈ nodes, (a n).resultKind = (g n).kind.resultKind
  slot : ∀ n ∈ nodes, (g n).kind.isLeaf = false →
    (a n).slotId = scalarSlot ((nodes.filter fun n => !(g n).kind.isLeaf).idxOf n)
  leaf : ∀ n, (g n).kind.isLeaf = true → (a n).slotId = (a₀ n).slotId
  names : ∃ names : List Name, names.Nodup ∧
    (∀ f, f ∈ names ↔ ∃ n ∈ nodes, (g n).kind = .LOAD ∧ (g n).fieldName = f) ∧
    ∀ n ∈ nodes, (g n).kind = .LOAD → (a n).fieldIdx = (names.idxOf (g n).fieldName : ℕ)

/-- … with a word of its own for every operation. -/
structure ScalarPrepared (g : ℕ → Node) (a₀ : ℕ → Annot) (root : ℕ) (a : ℕ → Annot)
    (nodes : List ℕ) : Prop extends ScalarPasses g a₀ root a nodes where
  word : ∀ n ∈ nodes, (g n).kind.isLeaf = false → 0 ≤ (a n).slotId ∧ (a n).slotId.toNat < maxSlots
  inj : ∀ m ∈ nodes, ∀ n ∈ nodes, (g m).kind.isLeaf = false → (g n).kind.isLeaf = false →
    (a m).slotId = (a n).slotId → m = n

/-- The passes of the scalar compiler. -/
theorem prepareScalar_passes {P : NodePool} (hP : Built P) (a₀ : ℕ → Annot) {root : ℕ}
    (hroot : root < P.nextIdx) : ScalarPasses P.storage a₀ root (prepareScalar P.storage a₀ root).1
      (prepareScalar P.storage a₀ root).2 := by
  have hA := ofRoot_isAnalysis hP hroot a₀
  unfold prepareScalar
  simp only
  generalize ExpressionAnalyzer.ofRoot P.storage a₀ root = an at hA
  have hnd : an.allNodes.Nodup := hA.post.nodup
  obtain ⟨names, hf⟩ := assignFields_none_isSome P.storage an.allNodes [] an.annot
  have hN := assignFields_spec hf hnd
  generalize (assignFields P.storage none an.allNodes [] an.annot).1 = a₁ at hN
  have hothers := fun n => allocScalar_others P.storage an.allNodes n .init a₁
  refine ⟨hA.post, hA.mem_iff, hA.last, fun n hn => ?_, fun n hn hl => ?_, fun n hl => ?_,
    names, hN.nodup List.nodup_nil, fun f => ?_, fun n hn hk => ?_⟩
  · have h1 := congrArg Annot.resultKind (hothers n)
    have h2 := congrArg Annot.resultKind (hN.others n)
    rw [hA.listed n hn] at h2
    exact h1.trans h2
  · rw [allocScalar_slot (k := 0) hnd (fun s => by simp [ScratchpadManager.init]) hn hl, Nat.zero_add]
  · have h1 : (a₁ n).slotId = (an.annot n).slotId := by rw [← hN.others n]
    rw [allocScalar_frame (Or.inr hl), h1]
    by_cases hn : n ∈ an.allNodes
    · rw [hA.listed n hn]
    · rw [hA.unlisted n hn]
  · rw [hN.mem]
    simp
  · have h1 := hothers n
    rw [Annot.ext_iff] at h1
    rw [← hN.idx n hn hk]
    exact h1.2.2.2.1

/-- At most `k` nodes of an expression are no leaves. -/
def AtMostCompound (g : ℕ → Node) (root k : ℕ) : Prop :=
  ∀ ns : List ℕ, ns.Nodup → (∀ n ∈ ns, Reach g root n ∧ (g n).kind.isLeaf = false) → ns.length ≤ k

/-- There is a word for every node if there are no more nodes than words. -/
theorem prepareScalar_spec {P : NodePool} (hP : Built P) (a₀ : ℕ → Annot) {root : ℕ}
    (hroot : root < P.nextIdx) (hcount : AtMostCompound P.storage root maxSlots) :
    ScalarPrepared P.storage a₀ root (prepareScalar P.storage a₀ root).1
      (prepareScalar P.storage a₀ root).2 := by
  have hp := prepareScalar_passes hP a₀ hroot
  have hle : 0 + compoundCount P.storage (prepareScalar P.storage a₀ root).2 ≤ maxSlots := by
    rw [Nat.zero_add]
    refine hcount _ (hp.post.nodup.filter _) fun n hn => ?_
    rw [List.mem_filter] at hn
    exact ⟨(hp.mem_iff n).1 hn.1, by simpa using hn.2⟩
  have hal : ScalarAllocated P.storage (prepareScalar P.storage a₀ root).2 0 _
      (prepareScalar P.storage a₀ root).1 :=
    allocScalar_spec hp.post.nodup (fun s => by simp [ScratchpadManager.init]) hle
  refine ⟨hp, fun n hn hl => ?_, hal.inj⟩
  obtain ⟨j, -, hj, hs⟩ := hal.slot n hn hl
  rw [hs]
  exact ⟨Int.natCast_nonneg _, by rw [Int.toNat_natCast]; omega⟩

end Jit
end AarchGate
