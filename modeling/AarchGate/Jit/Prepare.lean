/-
# The passes before the emission

What `prepare` leaves behind, put together from the analysis, the field numbering
and the slot allocation (`Prepared`), and the code that initialises the mask
slots: every mask starts at zero, the equality mask of a comparison with all
bits set (`initNodes_exec`).
-/

import AarchGate.Jit.Simulation

namespace AarchGate
namespace Jit

open A64 Ir BitPlane

/-- The result of the passes before the emission. -/
structure Prepared (g : ℕ → Node) (a₀ : ℕ → Annot) (root : ℕ) (a : ℕ → Annot)
    (nodes : List ℕ) : Prop extends Slots g a nodes where
  mem_iff : ∀ n, n ∈ nodes ↔ Reach g root n
  last : ∃ t, nodes = t ++ [root]
  resultKind : ∀ n ∈ nodes, (a n).resultKind = (g n).kind.resultKind
  skipJit : ∀ n, (a n).skipJit = (a₀ n).skipJit
  eqSlotId : ∀ n, (g n).kind.isComparison = false → (a n).eqSlotId = (a₀ n).eqSlotId
  names : ∃ names : List Name, names = fieldOrder g root ∧ names.Nodup ∧ names.length ≤ 128 ∧
    (∀ f, f ∈ names ↔ ∃ n ∈ nodes, (g n).kind = .LOAD ∧ (g n).fieldName = f) ∧
    ∀ n ∈ nodes, (g n).kind = .LOAD → (a n).fieldIdx = (names.idxOf (g n).fieldName : ℕ)
  carry : ∀ pre n post, nodes = pre ++ n :: post →
    (pre.filter fun x => isAddSub (g x).kind).length < 6 → isAddSub (g n).kind = true →
      ∃ c < 6, (a n).carryReg = (c : ℕ)
  noCarry : ∀ pre n post, nodes = pre ++ n :: post →
    6 ≤ (pre.filter fun x => isAddSub (g x).kind).length → isAddSub (g n).kind = true →
      (a n).carryReg = (a₀ n).carryReg
  leafSlot : ∀ n ∈ nodes, (g n).kind.isLeaf = true → (a n).slotId = (a₀ n).slotId
  firstSlot : ∀ n ∈ nodes, (g n).kind.isLeaf = false →
    ((a n).slotId = 0 ↔ firstOp g root = some n)

/-- The loop that marks the constants writes `field_idx` of constants only. -/
theorem markConsts_spec (g : ℕ → Node) (ns : List ℕ) (a : ℕ → Annot) :
    let a' := (ns.filter fun n => (g n).kind = .CONST).foldl
      (fun a n => setAnnot a n fun x => { x with fieldIdx := -2 }) a
    (∀ n, { a' n with fieldIdx := (a n).fieldIdx } = a n) ∧
      ∀ n, (g n).kind ≠ .CONST → a' n = a n := by
  induction ns generalizing a with
  | nil => exact ⟨fun _ => rfl, fun _ _ => rfl⟩
  | cons k ns ih =>
    by_cases hk : (g k).kind = .CONST
    · obtain ⟨h1, h2⟩ := ih (setAnnot a k fun x => { x with fieldIdx := -2 })
      simp only [List.filter_cons, hk, decide_true, if_true, List.foldl_cons]
      refine ⟨fun n => ?_, fun n hn => ?_⟩
      · have := h1 n
        by_cases hnk : n = k
        · subst hnk
          rw [setAnnot_self] at this
          rw [Annot.ext_iff] at this ⊢
          simp only at this ⊢
          tauto
        · rwa [setAnnot_ne _ _ hnk] at this
      · have hnk : n ≠ k := by rintro rfl; exact hn hk
        rw [h2 n hn, setAnnot_ne _ _ hnk]
    · simp only [List.filter_cons, hk, decide_false, Bool.false_eq_true, if_false]
      exact ih a

/-- **What `prepare` leaves behind.** -/
theorem prepare_spec {P : NodePool} (hP : Built P) {a₀ a : ℕ → Annot} {root : ℕ}
    (hroot : root < P.nextIdx) {nodes : List ℕ}
    (h : prepare P.storage a₀ root = (a, .ok nodes)) : Prepared P.storage a₀ root a nodes := by
  have hA := ofRoot_isAnalysis hP hroot a₀
  have hvisit : (ExpressionAnalyzer.ofRoot P.storage a₀ root).allNodes =
      Graph.visit (succs P.storage) (NodePool.maxNodes + 1) root [] := analyze_allNodes ..
  unfold prepare at h
  generalize ExpressionAnalyzer.ofRoot P.storage a₀ root = an at h hA hvisit
  simp only at h
  split at h
  · simp at h
  rename_i a₁ names hf
  obtain ⟨hc, hc'⟩ := markConsts_spec P.storage an.arithmeticNodes a₁
  generalize (an.arithmeticNodes.filter _).foldl _ a₁ = a₂ at h hc hc'
  split at h
  · simp at h
  rename_i st hst
  simp only [Prod.mk.injEq, Except.ok.injEq] at h
  obtain ⟨rfl, rfl⟩ := h
  have hnd : an.allNodes.Nodup := hA.post.nodup
  have hndA : an.arithmeticNodes.Nodup := by rw [hA.arith]; exact hnd.filter _
  have hN := assignFields_spec hf hndA
  -- the metadata before the allocation, up to `field_idx`
  have h₂ : ∀ n, { a₂ n with fieldIdx := (an.annot n).fieldIdx } = an.annot n := by
    intro n
    have e1 := hc n
    have e2 := hN.others n
    rw [Annot.ext_iff] at e1 e2 ⊢
    simp only at e1 e2 ⊢
    simp only [e1, e2, and_self]
  have hrk : ∀ n ∈ an.allNodes, (a₂ n).resultKind = (P.storage n).kind.resultKind := by
    intro n hn
    have h1 := congrArg Annot.resultKind (h₂ n)
    rw [hA.listed n hn] at h1
    exact h1
  have hskip : ∀ n, (an.annot n).skipJit = (a₀ n).skipJit ∧
      (an.annot n).eqSlotId = (a₀ n).eqSlotId := by
    intro n
    by_cases hn : n ∈ an.allNodes
    · rw [hA.listed n hn]; exact ⟨rfl, rfl⟩
    · rw [hA.unlisted n hn]; exact ⟨rfl, rfl⟩
  have hal : Allocated P.storage an.allNodes a₂ st.annot := (allocNodes_spec hrk hst hnd).1
  refine ⟨⟨hA.post, hal.placed, hal.inRange, hal.disjoint⟩, hA.mem_iff, hA.last, ?_, ?_, ?_, ?_, ?_, ?_,
    ?_, ?_⟩
  · intro n hn
    rw [(hal.only n).resultKind, hrk n hn]
  · intro n
    have h1 : (a₂ n).skipJit = (an.annot n).skipJit := by rw [← h₂ n]
    rw [(hal.only n).skipJit, h1, (hskip n).1]
  · intro n hk
    have h1 : (a₂ n).eqSlotId = (an.annot n).eqSlotId := by rw [← h₂ n]
    rw [(hal.only n).eqSlotId hk, h1, (hskip n).2]
  · have hload : ∀ n, (P.storage n).kind = .LOAD → (n ∈ an.arithmeticNodes ↔ n ∈ an.allNodes) := by
      intro n hk
      rw [hA.arith, List.mem_filter, hk]
      simp [isArithmetic]
    refine ⟨names, ?_, hN.nodup List.nodup_nil, assignFields_length_le hf (by simp), fun f => ?_, ?_⟩
    · rw [assignFields_names hf, fieldOrder, ← hvisit, hA.arith, List.filter_filter]
      congr 2
      refine List.filter_congr fun n _ => ?_
      cases (P.storage n).kind <;> rfl
    · rw [hN.mem]
      simp only [List.not_mem_nil, false_or]
      constructor
      · rintro ⟨n, hn, hk, hname⟩
        exact ⟨n, (hload n hk).1 hn, hk, hname⟩
      · rintro ⟨n, hn, hk, hname⟩
        exact ⟨n, (hload n hk).2 hn, hk, hname⟩
    · intro n hn hk
      rw [(hal.only n).fieldIdx, hc' n (by rw [hk]; simp)]
      exact hN.idx n ((hload n hk).2 hn) hk
  · intro pre n post hsplit hlt hadd
    rw [hsplit] at hrk hst hnd
    exact (allocNodes_carry hrk hst hnd hadd).1 (by simpa using hlt)
  · intro pre n post hsplit hge hadd
    have hn : n ∈ an.allNodes := by rw [hsplit]; simp
    have h1 : (a₂ n).carryReg = (an.annot n).carryReg := by rw [← h₂ n]
    rw [hsplit] at hrk hst hnd
    rw [(allocNodes_carry hrk hst hnd hadd).2 (by simpa using hge), h1, hA.listed n hn]
  · intro n hn hleaf
    have h1 : (a₂ n).slotId = (an.annot n).slotId := by rw [← h₂ n]
    rw [(hal.only n).leaf hleaf, h1, hA.listed n hn]
  · intro n hn hleaf
    have hzero : ∀ z, firstOp P.storage root = some z →
        z ∈ an.allNodes ∧ (P.storage z).kind.isLeaf = false ∧ (st.annot z).slotId = 0 := by
      intro z hz
      rw [firstOp, postOrder, ← hvisit, List.find?_eq_some_iff_append] at hz
      obtain ⟨hz, pre, post, hsplit, hpre⟩ := hz
      rw [hsplit] at hrk hst hnd
      refine ⟨by rw [hsplit]; simp, by simpa using hz, allocNodes_first (fun x hx => ?_)
        (by simpa using hz) hrk hst hnd rfl⟩
      simpa using hpre x hx
    refine ⟨fun h0 => ?_, fun hz => (hzero n hz).2.2⟩
    -- two nodes at word 0 are one
    cases hz : firstOp P.storage root with
    | none =>
      rw [firstOp, postOrder, ← hvisit, List.find?_eq_none] at hz
      exact absurd (by rw [hleaf]; rfl) (hz n hn)
    | some z =>
      obtain ⟨hzn, hzleaf, hz0⟩ := hzero z hz
      have howns : ∀ x, (P.storage x).kind.isLeaf = false → (st.annot x).slotId = 0 →
          Owns (P.storage x).kind (st.annot x) 0 := fun x hx h => by
        refine ⟨hx, ?_⟩
        rw [h]
        split_ifs <;> simp
      rw [hal.disjoint z hzn n hn 0 (howns z hzleaf hz0) (howns n hleaf h0)]

/-- A `LOAD` has a field number. -/
theorem Prepared.fieldIdx_nonneg {g : ℕ → Node} {a₀ a : ℕ → Annot} {root : ℕ} {nodes : List ℕ}
    (h : Prepared g a₀ root a nodes) {n : ℕ} (hn : n ∈ nodes) (hk : (g n).kind = .LOAD) :
    0 ≤ (a n).fieldIdx := by
  obtain ⟨names, -, -, -, -, hidx⟩ := h.names
  rw [hidx n hn hk]
  exact Int.natCast_nonneg _

/-- There is room for every field in a table of 128. -/
theorem Prepared.fieldIdx_lt {g : ℕ → Node} {a₀ a : ℕ → Annot} {root : ℕ} {nodes : List ℕ}
    (h : Prepared g a₀ root a nodes) {n : ℕ} (hn : n ∈ nodes) (hk : (g n).kind = .LOAD) :
    (a n).fieldIdx.toNat < 128 := by
  obtain ⟨names, -, -, hlen, hmem, hidx⟩ := h.names
  have hlt := List.idxOf_lt_length_of_mem ((hmem _).2 ⟨n, hn, hk, rfl⟩)
  rw [hidx n hn hk]
  omega

/-- The metadata the simulation needs. -/
theorem Prepared.metadata {g : ℕ → Node} {a₀ a : ℕ → Annot} {root : ℕ} {nodes : List ℕ}
    (h : Prepared g a₀ root a nodes) {L : Layout} {F : ℕ → ℕ → Word} {rows : ℕ → Name → Word}
    (hF : ∀ n ∈ nodes, (g n).kind = .LOAD → (a n).fieldIdx.toNat < L.numFields ∧
      Planes (F (a n).fieldIdx.toNat) (fun r => rows r (g n).fieldName))
    (hsorted : ∀ n ∈ nodes, (a₀ n).skipJit = false → Sorted g n)
    (hmasks : ∀ n ∈ nodes, (g n).kind.isMask = true → (a₀ n).skipJit = false) :
    Metadata L F g a rows nodes where
  toSlots := h.toSlots
  fields n hn hk := ⟨h.fieldIdx_nonneg hn hk, hF n hn hk⟩
  sorted n hn hs := hsorted n hn (by rw [← h.skipJit]; exact hs)
  masks n hn hk := by rw [h.skipJit, hmasks n hn hk]

/-! ### The initial masks -/

section Init

variable {L : Layout} {F : ℕ → ℕ → Word} {g : ℕ → Node} {a : ℕ → Annot}
  {rows : ℕ → Name → Word} {nodes : List ℕ} {depth : ℕ} {saved : ℕ → Word} {m : Machine}

/-- After a store the word is there, and nothing else has changed. -/
theorem pad_store {m₁ : Machine} (hmem : m₁.mem = m.mem) {s : ℕ} (hs : s < maxSlots) (v : Word) :
    pad L (m₁.store (wordAt L.scratch s) v) s = v ∧
      PadKeeps L (· = s) m (m₁.store (wordAt L.scratch s) v) :=
  ⟨by simp [pad], (PadKeeps.of_mem_eq _ hmem).trans (PadKeeps.store _ hs v)⟩

/-- The start value of a mask. -/
theorem initMask_exec (hE : Env L F depth saved m) {s : ℕ} (hs : s < maxSlots) :
    let m' := execs (movWide tempPtr (byteOffset (s : ℤ)) ++ [.str .xzr (.idx scratchPtr tempPtr)]) m
    Env L F depth saved m' ∧ pad L m' s = 0 ∧ PadKeeps L (· = s) m m' := by
  intro m'
  have haddr : L.scratch + BitVec.ofNat 64 (8 * s) = wordAt L.scratch s := rfl
  have hm' : m' = (m.write tempPtr (BitVec.ofNat 64 (8 * s))).store (wordAt L.scratch s) 0 := by
    simp only [m']
    rw [execs_append, execs_movWide, byteOffset_natCast]
    simp [hE.x20, haddr]
  obtain ⟨hpad, hkeep⟩ := pad_store (L := L) (Machine.mem_write m tempPtr _) hs 0
  rw [hm']
  exact ⟨hE.frame (by simp) (by simp) (by simp) hkeep.memKeeps, hpad, hkeep⟩

/-- The start value of an equality mask. -/
theorem initEq_exec (hE : Env L F depth saved m) {s : ℕ} (hs : s < maxSlots) :
    let m' := execs (movWide tempPtr (byteOffset (s : ℤ)) ++
      [.movImm scratch1 (-1), .str scratch1 (.idx scratchPtr tempPtr)]) m
    Env L F depth saved m' ∧ pad L m' s = BitVec.allOnes 64 ∧ PadKeeps L (· = s) m m' := by
  intro m'
  have haddr : L.scratch + BitVec.ofNat 64 (8 * s) = wordAt L.scratch s := rfl
  let m₁ := (m.write tempPtr (BitVec.ofNat 64 (8 * s))).write scratch1 (-1)
  have hm' : m' = m₁.store (wordAt L.scratch s) (BitVec.allOnes 64) := by
    simp only [m', m₁]
    rw [execs_append, execs_movWide, byteOffset_natCast]
    have hones : BitVec.allOnes 64 = -1 := rfl
    simp [hE.x20, haddr, hones]
  obtain ⟨hpad, hkeep⟩ := pad_store (L := L) (show m₁.mem = m.mem by simp [m₁]) hs
    (BitVec.allOnes 64)
  rw [hm']
  exact ⟨hE.frame (by simp [m₁]) (by simp [m₁]) (by simp [m₁]) hkeep.memKeeps, hpad, hkeep⟩

/-- **The initial code of one node** clears its masks. -/
theorem initNode_exec (H : Metadata L F g a rows nodes) (hE : Env L F depth saved m) {n : ℕ}
    (hn : n ∈ nodes) (hrk : (a n).resultKind = (g n).kind.resultKind)
    (heq : (g n).kind.isComparison = false → (a n).eqSlotId = -1) :
    let m' := execs (initNode g a n) m
    Env L F depth saved m' ∧
      PadKeeps L (fun s => (g n).kind.isMask = true ∧ Owns (g n).kind (a n) s) m m' ∧
      ((g n).kind.isComparison = true →
        pad L m' (a n).slotId.toNat = 0 ∧ pad L m' (a n).eqSlotId.toNat = BitVec.allOnes 64) := by
  intro m'
  rcases (Bool.eq_false_or_eq_true (g n).kind.isMask).symm with hmask | hmask
  · have hcmp := NodeKind.not_isComparison_of_not_isMask hmask
    have hcode : initNode g a n = if 0 ≤ (a n).carryReg ∧ (g n).kind = .SUB then
        [.movImm (carryReg (a n).carryReg.toNat) 1] else [] := by
      simp [initNode, hrk, NodeKind.resultKind, hmask]
    simp only [m', hcode, hcmp]
    split_ifs with hc
    · exact ⟨hE.write (by omega) (by omega) 1, PadKeeps.of_mem_eq _ (by simp), by simp⟩
    · exact ⟨hE, .refl _ _ _, by simp⟩
  · have hsub : ¬(0 ≤ (a n).carryReg ∧ (g n).kind = .SUB) := by
      rintro ⟨-, h⟩; rw [h] at hmask; simp [NodeKind.isMask] at hmask
    have hs := H.maskSlot hn hmask
    have hz : 0 ≤ (a n).slotId := by rw [hs.eq]; exact Int.natCast_nonneg _
    obtain ⟨hE₁, hpad₁, hkeep₁⟩ := initMask_exec hE hs.lt
    rw [← hs.eq] at hE₁ hpad₁ hkeep₁
    have hown₁ : PadKeeps L (fun s => (g n).kind.isMask = true ∧ Owns (g n).kind (a n) s) m _ :=
      hkeep₁.mono fun k (hk : k = _) => hk ▸ ⟨hmask, H.owns_slot hn hmask⟩
    cases hcmp : (g n).kind.isComparison with
    | false =>
      have hcode : initNode g a n = movWide tempPtr (byteOffset (a n).slotId) ++
          [.str .xzr (.idx scratchPtr tempPtr)] := by
        simp [initNode, hsub, hrk, NodeKind.resultKind, hmask, heq hcmp, hz]
      simp only [m', hcode]
      exact ⟨hE₁, hown₁, fun h => absurd h Bool.false_ne_true⟩
    | true =>
      obtain ⟨he, hne⟩ := H.eqSlot hn hcmp
      have hez : 0 ≤ (a n).eqSlotId := by rw [he.eq]; exact Int.natCast_nonneg _
      obtain ⟨hE₂, hpad₂, hkeep₂⟩ := initEq_exec hE₁ he.lt
      rw [← he.eq, ← execs_append] at hE₂ hpad₂ hkeep₂
      have hcode : initNode g a n = movWide tempPtr (byteOffset (a n).slotId) ++
          [.str .xzr (.idx scratchPtr tempPtr)] ++ (movWide tempPtr (byteOffset (a n).eqSlotId) ++
          [.movImm scratch1 (-1), .str scratch1 (.idx scratchPtr tempPtr)]) := by
        simp [initNode, hsub, hrk, NodeKind.resultKind, hmask, hz, hez]
      simp only [m', hcode]
      refine ⟨hE₂, hown₁.trans (hkeep₂.mono fun k (hk : k = _) => hk ▸ ⟨hmask, H.owns_eqSlot hn hcmp⟩),
        fun _ => ⟨?_, hpad₂⟩⟩
      rw [hkeep₂.pad_eq hs.lt hne, hpad₁]

/-- **The initial code of all nodes**: a later node does not disturb the masks of
an earlier one, and only masks are written. -/
theorem initNodes_exec (H : Metadata L F g a rows nodes)
    (hrk : ∀ n ∈ nodes, (a n).resultKind = (g n).kind.resultKind)
    (heq : ∀ n ∈ nodes, (g n).kind.isComparison = false → (a n).eqSlotId = -1) :
    ∀ (todo : List ℕ) {done : List ℕ} {m : Machine}, nodes = done ++ todo →
      Env L F depth saved m → (∀ n ∈ done, (g n).kind.isComparison = true →
        pad L m (a n).slotId.toNat = 0 ∧ pad L m (a n).eqSlotId.toNat = BitVec.allOnes 64) →
      let m' := execs (todo.flatMap (initNode g a)) m
      Env L F depth saved m' ∧ PadKeeps L (MaskWord g a nodes) m m' ∧
      ∀ n ∈ nodes, (g n).kind.isComparison = true →
        pad L m' (a n).slotId.toNat = 0 ∧ pad L m' (a n).eqSlotId.toNat = BitVec.allOnes 64 := by
  intro todo
  induction todo with
  | nil =>
    intro done m hnodes hE h
    rw [List.append_nil] at hnodes
    subst hnodes
    exact ⟨hE, .refl _ _ _, h⟩
  | cons n todo ih =>
    intro done m hnodes hE h
    have hn : n ∈ nodes := by rw [hnodes]; simp
    have hnd : n ∉ done := (H.post.split hnodes).1
    obtain ⟨hE₁, hkeep, hnew⟩ := initNode_exec H hE hn (hrk n hn) (heq n hn)
    simp only [List.flatMap_cons, execs_append]
    have hnodes' : nodes = (done ++ [n]) ++ todo := by rw [hnodes]; simp
    have hown := hkeep.mono fun _ hs => hs.2
    suffices hdone : ∀ x ∈ done ++ [n], (g x).kind.isComparison = true →
        pad L (execs (initNode g a n) m) (a x).slotId.toNat = 0 ∧
          pad L (execs (initNode g a n) m) (a x).eqSlotId.toNat = BitVec.allOnes 64 by
      obtain ⟨hE₂, hrest, hclear⟩ := ih hnodes' hE₁ hdone
      exact ⟨hE₂, (hkeep.mono fun s hs => ⟨n, hn, hs⟩).trans hrest, hclear⟩
    intro x hx hcmp
    rcases List.mem_append.1 hx with hxd | hxn
    · have hxn : x ∈ nodes := by rw [hnodes]; simp [hxd]
      have hne : x ≠ n := fun he => hnd (he ▸ hxd)
      have hmask := NodeKind.isMask_of_isComparison hcmp
      obtain ⟨h0, h1⟩ := h x hxd hcmp
      rw [hown.pad_eq (H.maskSlot hxn hmask).lt fun ho =>
          hne (H.disjoint x hxn n hn _ (H.owns_slot hxn hmask) ho),
        hown.pad_eq (H.eqSlot hxn hcmp).1.lt fun ho =>
          hne (H.disjoint x hxn n hn _ (H.owns_eqSlot hxn hcmp) ho)]
      exact ⟨h0, h1⟩
    · rw [List.mem_singleton] at hxn
      subst hxn
      exact hnew hcmp

/-- The code that clears the carry registers keeps the environment and the memory. -/
theorem initCarries_exec (hE : Env L F depth saved m) :
    Env L F depth saved (execs initCarries m) ∧ (execs initCarries m).mem = m.mem := by
  have hmem : (execs initCarries m).mem = m.mem := by
    simp [initCarries, List.range, List.range.loop]
  refine ⟨hE.frame ?_ ?_ ?_ fun a _ => by rw [hmem], hmem⟩
  all_goals simp [initCarries, List.range, List.range.loop]

end Init

end Jit
end AarchGate
