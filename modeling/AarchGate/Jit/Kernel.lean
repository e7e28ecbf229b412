/-
# A run of the kernel

The pieces of a kernel put together: prologue, initial masks, the pass over the
nodes, the result and the epilogue.  The code has no branches, so a call runs it
from the first to the last instruction (`compile_call`): at the end of the pass
every node holds its word of the flow (`Sim`), `emitResult` delivers the root, and the
epilogue gives the saved registers back.
-/

import AarchGate.Jit.Prepare

namespace AarchGate
namespace Jit

open A64 Ir BitPlane

/-! ### The code is plain -/

/-- The entry of the table a `LOAD` is at. -/
def fieldEntry (a : ℕ → Annot) (n : ℕ) : ℕ := (byteOffset (a n).fieldIdx).toNat / 8

section Plain

variable (g : ℕ → Node) (a : ℕ → Annot) {S : ℕ → Prop} {l r : ℕ}

/-- The code of `hoist` is plain. -/
theorem plain_hoist (h : Gp) {op : ℕ} (hop : (g op).kind = .LOAD → S (fieldEntry a op)) :
    Plain S (hoist g a h op) := by
  unfold hoist
  split
  · rename_i hk
    simpa [Instr.branches, tableEntry, fieldEntry] using hop hk
  · simp
  · simp [Instr.branches, tableEntry]

/-- That of `loadPlane`. -/
theorem plain_loadPlane (reg : Gp) {h : Gp} (hh : h ≠ fieldPlanesPtr) (op bit : ℕ) :
    Plain S (loadPlane g reg h op bit) := by
  unfold loadPlane
  split
  · split_ifs <;> simp [Instr.branches, tableEntry]
  · simp [Instr.branches, tableEntry, hh]

/-- Of `emitAddSub`. -/
theorem plain_emitAddSub (bits : ℕ) (carry : Gp) (n : ℕ)
    (hl : (g l).kind = .LOAD → S (fieldEntry a l)) (hr : (g r).kind = .LOAD → S (fieldEntry a r)) :
    Plain S (emitAddSub g a bits carry n l r) := by
  have hbit : Plain S ((List.range bits).flatMap (addSubBit g ((g n).kind = .SUB) carry l r)) := by
    refine Plain.flatMap fun b _ => ?_
    unfold addSubBit
    split_ifs <;>
      simp [Instr.branches, tableEntry, plain_loadPlane g planeA (show hoistedLeft ≠ _ by decide),
        plain_loadPlane g planeB (show hoistedRight ≠ _ by decide)]
  simp [emitAddSub, hbit, Instr.branches, tableEntry, plain_hoist g a hoistedLeft hl,
    plain_hoist g a hoistedRight hr]

/-- Of the bits of a comparison. -/
theorem plain_compareBits (bits : ℕ) (k : NodeKind) (l r : ℕ) :
    Plain S (compareBits g bits k l r) := by
  have hbit : ∀ (opA opB : ℕ) (hA hB : Gp) (b : ℕ), hA ≠ fieldPlanesPtr → hB ≠ fieldPlanesPtr →
      Plain S (compareBit g opA opB hA hB b) := fun opA opB hA hB b h1 h2 => by
    simp [compareBit, Instr.branches, tableEntry, plain_loadPlane g planeA h1,
      plain_loadPlane g planeB h2]
  refine Plain.flatMap fun i _ => ?_
  split_ifs
  · exact hbit _ _ _ _ _ (by decide) (by decide)
  · exact hbit _ _ _ _ _ (by decide) (by decide)

/-- Of `emitCompare`. -/
theorem plain_emitCompare (bits n : ℕ) (c : ScratchpadCache)
    (hl : (g l).kind = .LOAD → S (fieldEntry a l)) (hr : (g r).kind = .LOAD → S (fieldEntry a r)) :
    Plain S (emitCompare g a bits n l r c).1 := by
  have h1 := plain_hoist g a hoistedLeft hl
  have h2 := plain_hoist g a hoistedRight hr
  have h3 : Plain S (compareBits g bits (g n).kind l r) := plain_compareBits g bits _ l r
  unfold emitCompare
  simp only
  split_ifs <;> simp [Instr.branches, tableEntry, h1, h2, h3]

/-- Of `emitLogic`. -/
theorem plain_emitLogic (n l : ℕ) (r : Option ℕ) (c : ScratchpadCache) :
    Plain S (emitLogic g a n l r c).1 := by
  cases r <;> simp [emitLogic, Instr.branches, tableEntry]

/-- Of `emitLoadOp`. -/
theorem plain_emitLoadOp {op : ℕ} (hop : (g op).kind = .LOAD → S (fieldEntry a op)) (reg : Gp) :
    Plain S (emitLoadOp g a op reg) := by
  unfold emitLoadOp
  split
  · rename_i hk
    simpa [Instr.branches, tableEntry, fieldEntry] using hop hk
  · simp [Instr.branches, tableEntry]
  · simp [Instr.branches, tableEntry]

/-- Of `emitSelect`. -/
theorem plain_emitSelect (bits n i : ℕ) (c : ScratchpadCache)
    (hl : (g l).kind = .LOAD → S (fieldEntry a l)) (hr : (g r).kind = .LOAD → S (fieldEntry a r)) :
    Plain S (emitSelect g a bits n i l r c).1 := by
  have hbit : Plain S ((List.range bits).flatMap (selectBit g a n l r)) :=
    Plain.flatMap fun b _ => by
      simp [selectBit, Instr.branches, tableEntry, plain_emitLoadOp g a hl planeA,
        plain_emitLoadOp g a hr planeB]
  simp [emitSelect, hbit]

variable {g a}

/-- So the code of every node is. -/
theorem plain_emitNode {bits n : ℕ} {c : ScratchpadCache} {rc : List Instr × ScratchpadCache}
    (h : emitNode g a bits n c = .ok rc)
    (hop : ∀ x ∈ (g n).children, (g x).kind = .LOAD → S (fieldEntry a x)) : Plain S rc.1 := by
  cases hs : (a n).skipJit with
  | true =>
    obtain rfl := Except.ok.inj ((emitNode_skip hs).symm.trans h)
    exact plain_nil
  | false =>
  rw [emitNode, hs, if_neg Bool.false_ne_true] at h
  cases hk : (g n).kind <;> rw [hk] at h
  case ADD | SUB =>
    obtain ⟨l, hl, h⟩ := bind_ok h
    obtain ⟨r, hr, h⟩ := bind_ok h
    split_ifs at h
    obtain rfl := Except.ok.inj h
    exact plain_emitAddSub g a bits _ n (hop l (left_mem_children (deref_ok hl)))
      (hop r (right_mem_children (deref_ok hr)))
  case GT | LT | EQ | GE | LE =>
    obtain ⟨l, hl, h⟩ := bind_ok h
    obtain ⟨r, hr, h⟩ := bind_ok h
    obtain rfl := Except.ok.inj h
    exact plain_emitCompare g a bits n c (hop l (left_mem_children (deref_ok hl)))
      (hop r (right_mem_children (deref_ok hr)))
  case AND | OR | NOT =>
    obtain ⟨l, -, h⟩ := bind_ok h
    obtain rfl := Except.ok.inj h
    exact plain_emitLogic g a n l _ c
  case SELECT =>
    obtain ⟨i, -, h⟩ := bind_ok h
    obtain ⟨l, hl, h⟩ := bind_ok h
    obtain ⟨r, hr, h⟩ := bind_ok h
    obtain rfl := Except.ok.inj h
    exact plain_emitSelect g a bits n i c (hop l (left_mem_children (deref_ok hl)))
      (hop r (right_mem_children (deref_ok hr)))
  all_goals
    obtain rfl := Except.ok.inj h
    exact plain_nil

/-- And that of all of them. -/
theorem plain_emitNodes {bits : ℕ} {ns : List ℕ}
    (hop : ∀ n ∈ ns, ∀ x ∈ (g n).children, (g x).kind = .LOAD → S (fieldEntry a x)) :
    ∀ {c : ScratchpadCache} {code : List Instr}, emitNodes g a bits ns c = .ok code →
      Plain S code := by
  induction ns with
  | nil =>
    intro c code h
    obtain rfl := Except.ok.inj h
    exact plain_nil
  | cons n ns ih =>
    intro c code h
    obtain ⟨rc, hn, h⟩ := bind_ok h
    obtain ⟨rest, hr, h⟩ := bind_ok h
    obtain rfl := Except.ok.inj h
    exact plain_append.2 ⟨plain_emitNode hn (hop n (List.mem_cons_self ..)),
      ih (fun x hx => hop x (List.mem_cons_of_mem _ hx)) hr⟩

variable (g a)

/-- Of the initialisation. -/
theorem plain_initNode (n : ℕ) : Plain S (initNode g a n) := by
  unfold initNode
  split_ifs <;> simp [Instr.branches, tableEntry]

/-- Of the result. -/
theorem plain_emitResult (root : ℕ) : Plain S (emitResult a root) := by
  unfold emitResult
  split_ifs
  · simp [Instr.branches, tableEntry]
  · have hcopy : Plain S ((List.range 64).flatMap fun i =>
        [.ldr result (.idx scratchPtr tempPtr),
          .str result (.off scratchPtr (BitVec.ofNat 64 (i * 8))), .addImm tempPtr tempPtr 8]) :=
      Plain.flatMap fun i _ => by simp [Instr.branches, tableEntry]
    exact plain_append.2 ⟨plain_append.2 ⟨plain_movWide _ _, hcopy⟩, by simp [Instr.branches, tableEntry]⟩
  · simp [Instr.branches, tableEntry]

/-- **A kernel has no branches, and loads the entries of its fields only.** -/
theorem plain_kernelBody (root : ℕ) (nodes : List ℕ) {body : List Instr} (hb : Plain S body) :
    Plain S (kernelBody g a root nodes body) := by
  have hcarry : Plain S initCarries := by
    simp [initCarries, List.range, List.range.loop, Instr.branches, tableEntry]
  have hinit : Plain S (nodes.flatMap (initNode g a)) :=
    Plain.flatMap fun n _ => plain_initNode g a n
  simp [kernelBody, prologue, epilogue, pushPair, popPair, Instr.branches, tableEntry, hb, hcarry,
    hinit, plain_emitResult]

end Plain

/-! ### The result -/

section Result

variable {L : Layout} {F : ℕ → ℕ → Word} {a : ℕ → Annot} {depth : ℕ} {saved : ℕ → Word}
  {m : Machine} {root : ℕ}

/-- The loop that copies the block of the root to the start of the scratchpad:
it reads ahead of what it writes, so the two may overlap. -/
theorem copyBlock_exec (hE : Env L F depth saved m) {s : ℕ} (hs : s + 64 ≤ maxSlots)
    (ht : m.read tempPtr = BitVec.ofNat 64 (8 * s)) :
    ∀ k ≤ 64,
      let m' := execs ((List.range k).flatMap fun i => [.ldr result (.idx scratchPtr tempPtr),
        .str result (.off scratchPtr (BitVec.ofNat 64 (i * 8))), .addImm tempPtr tempPtr 8]) m
      (∀ j < k, pad L m' j = pad L m (s + j)) ∧
        m'.read tempPtr = BitVec.ofNat 64 (8 * (s + k)) ∧ PadKeeps L (· < k) m m' ∧
        Keeps [result, tempPtr] m m' := by
  intro k hk
  induction k with
  | zero => exact ⟨fun j hj => absurd hj (Nat.not_lt_zero j), ht, .refl _ _ _, .refl _ _⟩
  | succ k ih =>
    obtain ⟨hval, htmp, hkeep, hregs⟩ := ih (by omega)
    rw [List.range_succ, List.flatMap_append, execs_append, List.flatMap_singleton]
    generalize execs ((List.range k).flatMap _) m = m₁ at hval htmp hkeep hregs
    have hE₁ : Env L F depth saved m₁ := hE.frame (hregs _ (by decide)) (hregs _ (by decide))
      (hregs _ (by decide)) hkeep.memKeeps
    -- the word read has not been overwritten: its number is at least `k`
    have hread : m₁.mem (L.scratch + BitVec.ofNat 64 (8 * (s + k))) = pad L m (s + k) :=
      hkeep.pad_eq (show s + k < maxSlots by omega) (by omega)
    have haddr : L.scratch + BitVec.ofNat 64 (k * 8) = wordAt L.scratch k := by
      rw [Nat.mul_comm]; rfl
    have he : execs [.ldr result (.idx scratchPtr tempPtr),
        .str result (.off scratchPtr (BitVec.ofNat 64 (k * 8))), .addImm tempPtr tempPtr 8] m₁ =
        ((m₁.write result (pad L m (s + k))).store (wordAt L.scratch k) (pad L m (s + k))).write
          tempPtr (BitVec.ofNat 64 (8 * (s + k)) + 8) := by
      simp [hE₁.x20, htmp, hread, haddr]
    simp only [he]
    have hpad : ∀ j < maxSlots, pad L (((m₁.write result (pad L m (s + k))).store
        (wordAt L.scratch k) (pad L m (s + k))).write tempPtr (BitVec.ofNat 64 (8 * (s + k)) + 8)) j
        = if j = k then pad L m (s + k) else pad L m₁ j := by
      intro j hj
      simp only [pad, Machine.mem_write, Machine.mem_store]
      by_cases hjk : j = k
      · simp [hjk]
      · rw [if_neg fun h => hjk ((pad_inj hj (by omega)).1 h), if_neg hjk]
    refine ⟨fun j hj => ?_, ?_, ?_, fun r hr => ?_⟩
    · rw [hpad j (by omega)]
      by_cases hjk : j = k
      · rw [if_pos hjk, hjk]
      · rw [if_neg hjk, hval j (by omega)]
    · rw [Machine.read_write_x, if_pos rfl, show 8 * (s + (k + 1)) = 8 * (s + k) + 8 by omega,
        BitVec.ofNat_add]
      rfl
    · refine hkeep.next (by omega) fun x hx => ?_
      simp only [Machine.mem_write, Machine.mem_store, if_neg hx]
    · rw [← hregs r hr]
      simp only [List.mem_cons, List.not_mem_nil, or_false, not_or] at hr
      simp [hr]

/-- The result of a boolean root. -/
theorem emitResult_mask (hE : Env L F depth saved m) (hs : (a root).skipJit = false)
    (hk : (a root).resultKind = .BITMASK) (h0 : 0 ≤ (a root).slotId) :
    let m' := execs (emitResult a root) m
    Env L F depth saved m' ∧ m'.mem = m.mem ∧
      m'.read (.x 0) = pad L m (a root).slotId.toNat := by
  intro m'
  have haddr : L.scratch + BitVec.ofNat 64 (8 * (a root).slotId.toNat) =
      wordAt L.scratch (a root).slotId.toNat := rfl
  have hm' : m' = (m.write tempPtr (BitVec.ofNat 64 (8 * (a root).slotId.toNat))).write (.x 0)
      (pad L m (a root).slotId.toNat) := by
    simp only [m', emitResult, hs, hk]
    simp [execs_movWide, byteOffset_toNat h0, hE.x20, haddr, pad]
  rw [hm']
  exact ⟨(hE.write (by decide) (by decide) _).write (by decide) (by decide) _, by simp, by simp⟩

/-- The result of an arithmetic root. -/
theorem emitResult_planes (hE : Env L F depth saved m) (hs : (a root).skipJit = false)
    (hk : (a root).resultKind = .BITPLANE) (h0 : 0 ≤ (a root).slotId)
    (hslot : (a root).slotId.toNat + 64 ≤ maxSlots) :
    let m' := execs (emitResult a root) m
    Env L F depth saved m' ∧ PadKeeps L (· < 64) m m' ∧
      ∀ b < 64, pad L m' b = pad L m ((a root).slotId.toNat + b) := by
  intro m'
  have hE₁ := hE.write (n := 22) (by decide) (by decide)
    (BitVec.ofNat 64 (8 * (a root).slotId.toNat))
  obtain ⟨hval, -, hkeep, hregs⟩ :=
    copyBlock_exec hE₁ hslot (by simp) 64 (Nat.le_refl _)
  generalize hm₂ : execs ((List.range 64).flatMap _) _ = m₂ at hval hkeep hregs
  have hm' : m' = m₂.write (.x 0) 0 := by
    simp only [m', emitResult, hs, hk, Bool.false_eq_true, if_false, if_true]
    rw [execs_append, execs_append, execs_movWide, byteOffset_toNat h0, hm₂]
    rfl
  have hE₂ : Env L F depth saved m₂ := hE₁.frame (hregs _ (by decide)) (hregs _ (by decide))
    (hregs _ (by decide)) hkeep.memKeeps
  rw [hm']
  refine ⟨hE₂.write (by decide) (by decide) 0, hkeep, fun b hb => ?_⟩
  have h1 := hval b hb
  simp only [pad, Machine.mem_write] at h1 ⊢
  exact h1

end Result

/-! ### The whole kernel -/

/-- The parts of a kernel that was compiled. -/
theorem compileExpression_ok {rt : List Instr → Bool} {g : ℕ → Node} {a₀ a : ℕ → Annot}
    {root bits : ℕ} {code : List Instr}
    (h : compileExpression rt g a₀ root bits = (a, .ok code)) :
    ∃ nodes body, prepare g a₀ root = (a, .ok nodes) ∧
      emitNodes g a bits nodes .init = .ok body ∧
      code = kernelBody g a root nodes body ++ [.ret (.x 30)] := by
  unfold compileExpression at h
  split at h
  · simp at h
  · rename_i a' nodes hprep
    simp only [Prod.mk.injEq] at h
    obtain ⟨rfl, h⟩ := h
    obtain ⟨body, hbody, h⟩ := bind_ok h
    split_ifs at h
    exact ⟨nodes, body, hprep, hbody, (Except.ok.inj h).symm⟩

/-- The instructions of a kernel before its result is delivered. -/
def evaluation (a : ℕ → Annot) (root : ℕ) (code : List Instr) : List Instr :=
  code.take (code.length - (emitResult a root ++ epilogue ++ [Instr.ret (.x 30)]).length)

/-- What comes before the result is stored. -/
theorem evaluation_kernelBody (g : ℕ → Node) (a : ℕ → Annot) (root : ℕ) (nodes : List ℕ)
    (body : List Instr) : evaluation a root (kernelBody g a root nodes body ++ [.ret (.x 30)]) =
      prologue ++ initCarries ++ nodes.flatMap (initNode g a) ++ body := by
  have hsplit : kernelBody g a root nodes body ++ [.ret (.x 30)] =
      (prologue ++ initCarries ++ nodes.flatMap (initNode g a) ++ body) ++
        (emitResult a root ++ epilogue ++ [.ret (.x 30)]) := by
    simp only [kernelBody, List.append_assoc]
  have hlen : ∀ x y : List Instr, (x ++ y).length - y.length = x.length := fun x y => by
    rw [List.length_append, Nat.add_sub_cancel]
  rw [evaluation, hsplit, hlen, List.take_left]

/-- The entries of the table of columns a kernel loads. -/
def tableEntries (code : List Instr) : List ℕ := code.filterMap tableEntry

/-- The entry of a `LOAD` is its field. -/
theorem Prepared.fieldEntry_eq {g : ℕ → Node} {a₀ a : ℕ → Annot} {root : ℕ} {nodes : List ℕ}
    (hp : Prepared g a₀ root a nodes) {n : ℕ} (hn : n ∈ nodes) (hk : (g n).kind = .LOAD) :
    fieldEntry a n = (a n).fieldIdx.toNat := by
  have hlt := hp.fieldIdx_lt hn hk
  rw [fieldEntry, byteOffset_toNat (hp.fieldIdx_nonneg hn hk), BitVec.toNat_ofNat,
    Nat.mod_eq_of_lt (by omega)]
  omega

/-- **A kernel loads the entries of its fields and no others.** -/
theorem compile_tableEntries {P : NodePool} (hP : Built P) {rt : List Instr → Bool}
    {a₀ a : ℕ → Annot} {root bits : ℕ} (hroot : root < P.nextIdx) {code : List Instr}
    (hcomp : compileExpression rt P.storage a₀ root bits = (a, .ok code)) {i : ℕ}
    (hi : i ∈ tableEntries code) :
    ∃ n, Reach P.storage root n ∧ (P.storage n).kind = .LOAD ∧ (a n).fieldIdx.toNat = i := by
  obtain ⟨nodes, body, hprep, hbody, rfl⟩ := compileExpression_ok hcomp
  have hp := prepare_spec hP hroot hprep
  have hplain : Plain (fun k => ∃ n, Reach P.storage root n ∧ (P.storage n).kind = .LOAD ∧
      (a n).fieldIdx.toNat = k) (kernelBody P.storage a root nodes body) := by
    refine plain_kernelBody _ _ _ _ (plain_emitNodes (fun n hn x hx hk => ?_) hbody)
    have hxn := hp.post.closed hn hx
    exact ⟨x, (hp.mem_iff x).1 hxn, hk, (hp.fieldEntry_eq hxn hk).symm⟩
  obtain ⟨instr, hmem, he⟩ := List.mem_filterMap.1 hi
  rcases List.mem_append.1 hmem with hmem | hmem
  · exact (hplain instr hmem).2 i he
  · rw [List.mem_singleton.1 hmem] at he
    cases he

section Loads

variable {g : ℕ → Node} {a : ℕ → Annot} {bits n x : ℕ}

/-- The entries of both parts. -/
theorem mem_tableEntries_append {c₁ c₂ : List Instr} {i : ℕ} :
    i ∈ tableEntries (c₁ ++ c₂) ↔ i ∈ tableEntries c₁ ∨ i ∈ tableEntries c₂ := by
  rw [tableEntries, List.filterMap_append, List.mem_append]
  rfl

/-- `hoist` reads the entry of its operand. -/
theorem mem_tableEntries_hoist (h : Gp) (hk : (g x).kind = .LOAD) :
    fieldEntry a x ∈ tableEntries (hoist g a h x) := by
  simp [hoist, hk, tableEntries, tableEntry, fieldEntry]

/-- A `SELECT` reads those of both. -/
theorem mem_tableEntries_select (hk : (g x).kind = .LOAD) {l r : ℕ} (hx : x = l ∨ x = r) (hbits : 0 < bits) :
    fieldEntry a x ∈ tableEntries ((List.range bits).flatMap (selectBit g a n l r)) := by
  have hop : ∀ reg, fieldEntry a x ∈ tableEntries (emitLoadOp g a x reg) := fun reg => by
    simp [emitLoadOp, hk, tableEntries, tableEntry, fieldEntry]
  obtain ⟨bits, rfl⟩ : ∃ k, bits = k + 1 := ⟨bits - 1, by omega⟩
  rw [List.range_succ_eq_map, List.flatMap_cons, selectBit]
  simp only [mem_tableEntries_append]
  rcases hx with rfl | rfl <;> simp [hop]

/-- A node with code loads the table entries of the fields among its operands. -/
theorem emitNode_loads (hbits : 0 < bits) (hs : (a n).skipJit = false) {t : Ty} {d : Expr t}
    (hd : Represents g d n) (hx : x ∈ (g n).children) (hk : (g x).kind = .LOAD) {c : ScratchpadCache}
    {rc : List Instr × ScratchpadCache} (h : emitNode g a bits n c = .ok rc) :
    fieldEntry a x ∈ tableEntries rc.1 := by
  -- a field is not boolean
  have hnum : ∀ {b : Expr .bool}, ¬Represents g b x := fun hb => by
    have := hb.isMask
    rw [hk] at this
    exact absurd this (by decide)
  cases d with
  | load | const => rw [hd.1.children] at hx; exact absurd hx List.not_mem_nil
  | add y z | sub y z =>
    obtain ⟨l, r, hb, -, -⟩ := hd
    rw [hb.children] at hx
    rw [emitNode_addSub hs (by simp [hb.kind]) hb.left hb.right] at h
    split_ifs at h
    obtain rfl := Except.ok.inj h
    simp only [emitAddSub, mem_tableEntries_append]
    rcases List.mem_pair.1 hx with rfl | rfl <;> simp [mem_tableEntries_hoist _ hk]
  | cmp op y z =>
    obtain ⟨l, r, hb, -, -⟩ := hd
    rw [hb.children] at hx
    rw [emitNode_compare hs (by rw [hb.kind]; cases op <;> rfl) hb.left hb.right] at h
    obtain rfl := Except.ok.inj h
    simp only [emitCompare]
    split_ifs <;> simp only [mem_tableEntries_append] <;>
      rcases List.mem_pair.1 hx with rfl | rfl <;> simp [mem_tableEntries_hoist _ hk]
  | select i y z =>
    obtain ⟨i, l, r, hb, hc, -, -⟩ := hd
    rw [hb.children] at hx
    rw [emitNode_select hs hb.kind hb.cond hb.left hb.right] at h
    obtain rfl := Except.ok.inj h
    simp only [emitSelect, mem_tableEntries_append]
    have hlr : x = l ∨ x = r := by
      simp only [List.mem_cons, List.not_mem_nil, or_false] at hx
      rcases hx with hx | hx | rfl
      · exact Or.inl hx
      · exact Or.inr hx
      · exact absurd hc hnum
    exact Or.inr (mem_tableEntries_select hk hlr hbits)
  | and y z | or y z =>
    obtain ⟨l, r, hb, hy, hz⟩ := hd
    rw [hb.children] at hx
    rcases List.mem_pair.1 hx with rfl | rfl
    · exact absurd hy hnum
    · exact absurd hz hnum
  | not y =>
    obtain ⟨l, hb, hy⟩ := hd
    rw [hb.children] at hx
    obtain rfl := List.mem_singleton.1 hx
    exact absurd hy hnum

/-- The code reads the field of every `LOAD` that is used. -/
theorem emitNodes_loads (hbits : 0 < bits) (hs : (a n).skipJit = false) {t : Ty} {d : Expr t}
    (hd : Represents g d n) (hx : x ∈ (g n).children) (hk : (g x).kind = .LOAD) {ns : List ℕ}
    (hn : n ∈ ns) : ∀ {c : ScratchpadCache} {code : List Instr}, emitNodes g a bits ns c = .ok code →
      fieldEntry a x ∈ tableEntries code := by
  induction ns with
  | nil => exact absurd hn List.not_mem_nil
  | cons n' ns ih =>
    intro c code h
    obtain ⟨rc, hrc, h⟩ := bind_ok h
    obtain ⟨rest, hrest, h⟩ := bind_ok h
    obtain rfl := Except.ok.inj h
    rw [mem_tableEntries_append]
    rcases List.mem_cons.1 hn with rfl | hn
    · exact Or.inl (emitNode_loads hbits hs hd hx hk hrc)
    · exact Or.inr (ih hn hrest)

end Loads

/-- **The kernel of a well-typed operation** loads the entries of all its fields. -/
theorem compile_loads {P : NodePool} (hP : Built P) {rt : List Instr → Bool} {a₀ a : ℕ → Annot}
    {root bits : ℕ} (hbits : 0 < bits) {t : Ty} {e : Expr t} (he : Represents P.storage e root)
    (hc : e.compound = true) {code : List Instr}
    (hcomp : compileExpression rt P.storage a₀ root bits = (a, .ok code))
    (hskip : ∀ n, Reach P.storage root n → (a₀ n).skipJit = false) {n : ℕ}
    (hn : Reach P.storage root n) (hk : (P.storage n).kind = .LOAD) :
    (a n).fieldIdx.toNat ∈ tableEntries code := by
  obtain ⟨nodes, body, hprep, hbody, rfl⟩ := compileExpression_ok hcomp
  have hp := prepare_spec hP (he.lt_nextIdx hP hc) hprep
  rcases Relation.ReflTransGen.cases_tail hn with rfl | ⟨p, hp', hx⟩
  · have := he.isLeaf
    rw [hk, hc] at this
    exact absurd this (by decide)
  · obtain ⟨s, d, hd, -⟩ := he.reach hp'
    have hmem := emitNodes_loads hbits ((hp.skipJit p).trans (hskip p hp')) hd hx hk
      ((hp.mem_iff p).2 hp') hbody
    rw [hp.fieldEntry_eq ((hp.mem_iff n).2 hn) hk] at hmem
    simp only [kernelBody, mem_tableEntries_append]
    tauto

/-- The rows of a block of 64, as the planes `F` of the fields of an expression. -/
def FieldPlanes (L : Layout) (F : ℕ → ℕ → Word) (g : ℕ → Node) (a : ℕ → Annot) (root : ℕ)
    (rows : ℕ → Name → Word) : Prop :=
  ∀ n, Reach g root n → (g n).kind = .LOAD → (a n).fieldIdx.toNat < L.numFields ∧
    Planes (F (a n).fieldIdx.toNat) (fun r => rows r (g n).fieldName)

/-- **A call of a compiled kernel** passes through the machine `m₁`, after the
evaluation, on which every node holds its word of the flow, and returns what the result
code and the epilogue make of it. -/
theorem compile_call {P : NodePool} (hP : Built P) {rt : List Instr → Bool} {a₀ a : ℕ → Annot}
    {root : ℕ} (hroot : root < P.nextIdx) {code : List Instr}
    (hcomp : compileExpression rt P.storage a₀ root 64 = (a, .ok code))
    (heq : ∀ n, (P.storage n).kind.isComparison = false → (a₀ n).eqSlotId = -1)
    (hsorted : ∀ n, Reach P.storage root n → (a₀ n).skipJit = false → Sorted P.storage n)
    (hmasks : ∀ n, Reach P.storage root n → (P.storage n).kind.isMask = true →
      (a₀ n).skipJit = false)
    {L : Layout} {F : ℕ → ℕ → Word} {rows : ℕ → Name → Word}
    (hF : FieldPlanes L F P.storage a root rows) {m : Machine} (hm : Args L F m)
    {V : ℕ → ℕ → Word} (hV : Flow P.storage a rows (residue a (pad L m)) V) :
    ∃ nodes c m₁, m₁ = execs (evaluation a root code) m ∧ Prepared P.storage a₀ root a nodes ∧
      Metadata L F P.storage a rows nodes ∧
      Sim L F P.storage a V (pad L m) nodes 12 (fun j => m.read (.x (savedReg j))) nodes [] c m₁ ∧
      (Env L F 12 (fun j => m.read (.x (savedReg j))) (execs (emitResult a root) m₁) →
        call code m = some (execs epilogue (execs (emitResult a root) m₁))) := by
  obtain ⟨nodes, body, hprep, hbody, rfl⟩ := compileExpression_ok hcomp
  have hp := prepare_spec hP hroot hprep
  have H : Metadata L F P.storage a rows nodes := hp.metadata (fun n hn => hF n ((hp.mem_iff n).1 hn))
    (fun n hn => hsorted n ((hp.mem_iff n).1 hn)) fun n hn => hmasks n ((hp.mem_iff n).1 hn)
  obtain ⟨hE, hpad⟩ := prologue_exec hm
  obtain ⟨hE₀, hmem₀⟩ := initCarries_exec hE
  obtain ⟨hE₁, hkeep, hclear⟩ := initNodes_exec H hp.resultKind
    (fun n _ hk => by rw [hp.eqSlotId n hk]; exact heq n hk) nodes rfl hE₀
    fun n hn => absurd hn List.not_mem_nil
  -- the pass starts with no node done, an empty cache and the scratchpad of the caller
  have hsim : Sim L F P.storage a V (pad L m) nodes 12 (fun j => m.read (.x (savedReg j))) [] nodes
      .init (execs (nodes.flatMap (initNode P.storage a)) (execs initCarries (execs prologue m))) := by
    refine ⟨⟨hE₁, coherent_init _, fun s r hr => by simp [ScratchpadCache.init] at hr⟩,
      fun n hn => absurd hn List.not_mem_nil, hclear, fun k hk hun => ?_⟩
    have hmask : ¬MaskWord P.storage a nodes k := by
      rintro ⟨n, hn, hnk, ho⟩
      refine hun n hn ?_ ho
      rw [coded, emitted, H.masks n hn hnk, hnk, Bool.or_true]
      rfl
    rw [hkeep.pad_eq hk hmask, ← hpad k hk, pad, hmem₀, pad]
  obtain ⟨c, hend⟩ := hsim.run H hV rfl hbody
  refine ⟨nodes, c, _, by rw [evaluation_kernelBody]; simp only [execs_append], hp, H, hend,
    fun hE₂ => ?_⟩
  have hexec : execs (kernelBody P.storage a root nodes body) m =
      execs epilogue (execs (emitResult a root) (execs body
        (execs (nodes.flatMap (initNode P.storage a)) (execs initCarries (execs prologue m))))) := by
    simp only [kernelBody, execs_append]
  rw [← hexec]
  refine call_straight (plain_kernelBody (S := fun _ => True) _ _ _ _
    (plain_emitNodes (fun _ _ _ _ _ => trivial) hbody)).straight ?_
  rw [hexec]
  exact (epilogue_exec hE₂).restored 11 (by decide) (by decide)

end Jit
end AarchGate
