/-
# Which expressions the compiler accepts

`compile_expression` returns a null pointer when an expression has more than 128
fields, when the scratchpad is full and when `JitRuntime::add` fails.

A call of `alloc_block` takes one of the 512 aligned runs of 64 words, and the calls
of `alloc_slot` fill one run after the other, whatever the order of the calls
(`Packed`).  So the first two happen exactly when the fields or the runs are too many
(`prepare_isOk_iff`), and an expression of at most 256 nodes that are no leaves gets its
words (`compile_isOk`).
-/

import Mathlib.Data.Finset.Card
import AarchGate.Jit.Correct
import AarchGate.Jit.Scalar

namespace AarchGate
namespace Jit

open A64 Ir

/-! ### Fields -/

/-- The numbering succeeds when all names are among `k`. -/
theorem assignFields_isSome {g : ℕ → Node} {k : ℕ} {F : List Name} (hF : F.length ≤ k)
    {ns : List ℕ} (hns : ∀ n ∈ ns, (g n).kind = .LOAD → (g n).fieldName ∈ F) :
    ∀ {names : List Name} {a : ℕ → Annot}, names.Nodup → names ⊆ F →
      ∃ a' names', assignFields g (some k) ns names a = (a', some names') := by
  induction ns with
  | nil => exact fun _ _ => ⟨_, _, rfl⟩
  | cons n ns ih =>
    intro names a hnd hsub
    have hns' : ∀ m ∈ ns, (g m).kind = .LOAD → (g m).fieldName ∈ F :=
      fun m hm => hns m (List.mem_cons_of_mem _ hm)
    rw [assignFields]
    by_cases hk : (g n).kind = .LOAD
    · rw [if_pos hk]
      by_cases hf : (g n).fieldName ∈ names
      · simp only [if_pos hf]
        exact ih hns' hnd hsub
      · have hmem := hns n (List.mem_cons_self ..) hk
        have hnd' : (names ++ [(g n).fieldName]).Nodup := by
          rw [List.nodup_append]
          refine ⟨hnd, List.nodup_singleton _, fun x hx y hy hxy => hf ?_⟩
          rw [List.mem_singleton] at hy
          exact hy ▸ hxy ▸ hx
        have hsub' : names ++ [(g n).fieldName] ⊆ F :=
          List.append_subset.2 ⟨hsub, List.cons_subset.2 ⟨hmem, List.nil_subset _⟩⟩
        -- the new name is one more of `F`, so the limit is not reached
        have hlen := hnd'.length_le_of_subset hsub'
        have hlim : (some k).any (names.length ≥ ·) = false := by
          simp only [List.length_append, List.length_singleton] at hlen
          simp only [Option.any_some, ge_iff_le, decide_eq_false_iff_not]
          omega
        simp only [if_neg hf, hlim, Bool.false_eq_true, if_false]
        exact ih hns' hnd' hsub'
    · rw [if_neg hk]
      exact ih hns' hnd hsub

/-! ### Slots -/

/-- The aligned runs of 64 words that `blocks` blocks and `slots` single words take. -/
def runs (blocks slots : ℕ) : ℕ := blocks + (slots + 63) / 64

namespace ScratchpadManager

/-- The words in use after `blocks` blocks and `slots` single words, in any order: the
first runs, up to the free rest of the run the single words are taken from. -/
def Packed (M : ScratchpadManager) (blocks slots : ℕ) : Prop :=
  ∃ free gap, free + gap ≤ 64 * runs blocks slots ∧ 64 ∣ free + gap ∧
    gap + slots = 64 * ((slots + 63) / 64) ∧
    ∀ s, M.used s = true ↔ s < 64 * runs blocks slots ∧ ¬(free ≤ s ∧ s < free + gap)

variable {M : ScratchpadManager} {blocks slots : ℕ}

/-- Nothing has been handed out. -/
theorem packed_init : Packed init 0 0 :=
  ⟨0, 0, Nat.le_refl _, ⟨0, rfl⟩, rfl, fun s => by simp [init, runs]⟩

/-- **`alloc_slot` on packed words**: it fails exactly when the word does not fit. -/
theorem Packed.allocSlot (h : M.Packed blocks slots) (hle : runs blocks slots ≤ 512) :
    (runs blocks (slots + 1) ≤ 512 →
      0 ≤ M.allocSlot.1 ∧ M.allocSlot.2.Packed blocks (slots + 1)) ∧
    (512 < runs blocks (slots + 1) → M.allocSlot.1 < 0) := by
  obtain ⟨free, gap, hbound, hdvd, hgap, hused⟩ := h
  have hm : maxSlots = 32768 := rfl
  have hruns : ∀ k, runs blocks k = blocks + (k + 63) / 64 := fun _ => rfl
  rw [hruns] at hle hbound hused
  rw [hruns]
  rcases Nat.eq_zero_or_pos gap with rfl | hpos
  · -- the run is full: the word opens a new one
    have hall : ∀ s, M.used s = true ↔ s < 64 * (blocks + (slots + 63) / 64) := fun s => by
      rw [hused]
      omega
    refine ⟨fun hfit => ?_, fun hfull => ?_⟩
    · have he : M.allocSlot = _ := allocSlot_first (k := 64 * (blocks + (slots + 63) / 64))
        (by omega) (by rw [← Bool.not_eq_true, hall]; omega) fun j hj => (hall j).2 hj
      rw [he]
      refine ⟨Int.natCast_nonneg _, 64 * (blocks + (slots + 63) / 64) + 1, 63, ?_, ?_, by omega,
        fun s => ?_⟩
      · rw [hruns]; omega
      · omega
      · rw [mark_used, Bool.or_eq_true, decide_eq_true_eq, hall, hruns]
        omega
    · rcases M.allocSlot_spec with ⟨i, hi, hfree, -⟩ | ⟨-, he⟩
      · rw [(hall i).2 (by omega)] at hfree
        exact absurd hfree (by decide)
      · rw [he]
        exact show (-1 : ℤ) < 0 by decide
  · refine ⟨fun _ => ?_, fun hfull => by omega⟩
    have he : M.allocSlot = _ := allocSlot_first (k := free) (by omega)
      (by rw [← Bool.not_eq_true, hused]; omega) fun j hj => (hused j).2 (by omega)
    rw [he]
    refine ⟨Int.natCast_nonneg _, free + 1, gap - 1, ?_, ?_, by omega, fun s => ?_⟩
    · rw [hruns]; omega
    · rwa [show free + 1 + (gap - 1) = free + gap by omega]
    · rw [mark_used, Bool.or_eq_true, decide_eq_true_eq, hused, hruns]
      omega

/-- **`alloc_block` on packed words.** -/
theorem Packed.allocBlock (h : M.Packed blocks slots) (hle : runs blocks slots ≤ 512) :
    (runs (blocks + 1) slots ≤ 512 →
      0 ≤ M.allocBlock.1 ∧ M.allocBlock.2.Packed (blocks + 1) slots) ∧
    (512 < runs (blocks + 1) slots → M.allocBlock.1 < 0) := by
  obtain ⟨free, gap, hbound, ⟨c, hc⟩, hgap, hused⟩ := h
  have hm : maxSlots / 64 = 512 := rfl
  have hruns : ∀ k, runs k slots = k + (slots + 63) / 64 := fun _ => rfl
  rw [hruns] at hle hbound hused
  rw [hruns]
  -- the free rest is shorter than a run, so no run below the last is free
  have hbelow : ∀ q < blocks + (slots + 63) / 64, ∃ j < 64, M.used (64 * q + j) = true :=
    fun q hq => ⟨0, by omega, (hused _).2 (by omega)⟩
  refine ⟨fun hfit => ?_, fun hfull => ?_⟩
  · have he : M.allocBlock = _ := allocBlock_first (q := blocks + (slots + 63) / 64) (by omega)
      (fun j hj => by rw [← Bool.not_eq_true, hused]; omega) hbelow
    rw [he]
    refine ⟨Int.natCast_nonneg _, free, gap, ?_, ⟨c, hc⟩, hgap, fun s => ?_⟩
    · rw [hruns]; omega
    · rw [mark_used, Bool.or_eq_true, decide_eq_true_eq, hused, hruns]
      omega
  · rcases M.allocBlock_spec with ⟨i, ⟨q, rfl⟩, hi, hfree, -⟩ | ⟨-, he⟩
    · obtain ⟨j, hj, hu⟩ := hbelow q (by have : maxSlots = 32768 := rfl; omega)
      rw [hfree j hj] at hu
      exact absurd hu (by decide)
    · rw [he]
      exact show (-1 : ℤ) < 0 by decide

end ScratchpadManager

open ScratchpadManager

/-- The nodes with a block of their own. -/
def blocks (g : ℕ → Node) (ns : List ℕ) : ℕ :=
  (ns.filter fun n => !(g n).kind.isLeaf && !(g n).kind.isMask).length

/-- The single words of the nodes: one for a mask, two for a comparison. -/
def slots (g : ℕ → Node) (ns : List ℕ) : ℕ :=
  (ns.filter fun n => (g n).kind.isMask).length + (ns.filter fun n => (g n).kind.isComparison).length

section Alloc

variable {g : ℕ → Node} {n : ℕ} {ns : List ℕ}

/-- The blocks of the first node and of the rest. -/
theorem blocks_cons : blocks g (n :: ns) = blocks g [n] + blocks g ns := by
  simp only [blocks, ← List.countP_eq_length_filter, List.countP_cons, List.countP_nil]
  omega

/-- The slots of the first node and of the rest. -/
theorem slots_cons : slots g (n :: ns) = slots g [n] + slots g ns := by
  simp only [slots, ← List.countP_eq_length_filter, List.countP_cons, List.countP_nil]
  omega

/-- More requests take more runs. -/
theorem runs_mono {b b' s s' : ℕ} (hb : b ≤ b') (hs : s ≤ s') : runs b s ≤ runs b' s' := by
  unfold runs
  omega

/-- **One node**: its words are packed with the others, or do not fit. -/
theorem allocNode_packed {st : AllocState} {b s : ℕ}
    (hk : (st.annot n).resultKind = (g n).kind.resultKind) (h : st.mgr.Packed b s)
    (hle : runs b s ≤ 512) :
    (runs (b + blocks g [n]) (s + slots g [n]) ≤ 512 → ∃ st', allocNode g n st = (st', true) ∧
      st'.mgr.Packed (b + blocks g [n]) (s + slots g [n])) ∧
    (512 < runs (b + blocks g [n]) (s + slots g [n]) → ∃ st', allocNode g n st = (st', false)) := by
  cases hleaf : (g n).kind.isLeaf with
  | true =>
    have hmask := NodeKind.not_isMask_of_isLeaf hleaf
    have hcmp := NodeKind.not_isComparison_of_not_isMask hmask
    have hb : blocks g [n] = 0 := by simp [blocks, hleaf]
    have hs : slots g [n] = 0 := by simp [slots, hmask, hcmp]
    rw [hb, hs]
    exact ⟨fun _ => ⟨st, allocNode_leaf hleaf, h⟩, fun hfull => absurd hfull (Nat.not_lt.2 hle)⟩
  | false =>
    cases hmask : (g n).kind.isMask with
    | false =>
      have hcmp := NodeKind.not_isComparison_of_not_isMask hmask
      have hb : blocks g [n] = 1 := by simp [blocks, hleaf, hmask]
      have hs : slots g [n] = 0 := by simp [slots, hmask, hcmp]
      obtain ⟨hok, hfail⟩ := h.allocBlock hle
      rw [hb, hs, Nat.add_zero, allocNode_block hk hleaf hmask]
      refine ⟨fun hfit => ?_, fun hfull => ?_⟩
      · obtain ⟨h0, h₁⟩ := hok hfit
        rw [if_pos h0]
        exact ⟨_, rfl, by rw [carried_mgr]; exact h₁⟩
      · rw [if_neg (Int.not_le.2 (hfail hfull))]
        exact ⟨_, rfl⟩
    | true =>
      have hb : blocks g [n] = 0 := by simp [blocks, hmask]
      obtain ⟨hok, hfail⟩ := h.allocSlot hle
      rw [hb, Nat.add_zero]
      cases hcmp : (g n).kind.isComparison with
      | false =>
        have hs : slots g [n] = 1 := by simp [slots, hmask, hcmp]
        rw [hs, allocNode_mask hk hmask hcmp]
        refine ⟨fun hfit => ?_, fun hfull => ?_⟩
        · obtain ⟨h0, h₁⟩ := hok hfit
          rw [decide_eq_true h0]
          exact ⟨_, rfl, h₁⟩
        · rw [decide_eq_false (Int.not_le.2 (hfail hfull))]
          exact ⟨_, rfl⟩
      | true =>
        have hs : slots g [n] = 2 := by simp [slots, hmask, hcmp]
        rw [hs, allocNode_comparison hk hcmp]
        rcases Nat.lt_or_ge 512 (runs b (s + 1)) with hone | hone
        · rw [if_neg (Int.not_le.2 (hfail hone))]
          refine ⟨fun hfit => ?_, fun _ => ⟨_, rfl⟩⟩
          have hmono : runs b (s + 1) ≤ runs b (s + 2) := runs_mono (Nat.le_refl b) (by omega)
          omega
        · obtain ⟨h0, h₁⟩ := hok hone
          obtain ⟨hok₂, hfail₂⟩ := h₁.allocSlot hone
          rw [if_pos h0]
          refine ⟨fun hfit => ?_, fun hfull => ?_⟩
          · obtain ⟨h0', h₂⟩ := hok₂ hfit
            rw [decide_eq_true h0']
            exact ⟨_, rfl, h₂⟩
          · rw [decide_eq_false (Int.not_le.2 (hfail₂ hfull))]
            exact ⟨_, rfl⟩

/-- **The loop succeeds exactly when the words of all nodes fit.** -/
theorem allocNodes_isOk_iff :
    ∀ {ns : List ℕ} {st : AllocState} {b s : ℕ}, ns.Nodup →
      (∀ n ∈ ns, (st.annot n).resultKind = (g n).kind.resultKind) → st.mgr.Packed b s →
      runs b s ≤ 512 → ((∃ st', allocNodes g ns st = (st', true)) ↔
        runs (b + blocks g ns) (s + slots g ns) ≤ 512) := by
  intro ns
  induction ns with
  | nil => exact fun _ _ _ hle => ⟨fun _ => hle, fun _ => ⟨_, rfl⟩⟩
  | cons n ns ih =>
    intro st b s hnd hk h hle
    obtain ⟨hn, hnd⟩ := List.nodup_cons.1 hnd
    have hkn := hk n (List.mem_cons_self ..)
    obtain ⟨hok, hfail⟩ := allocNode_packed hkn h hle
    rw [allocNodes, blocks_cons, slots_cons, ← Nat.add_assoc, ← Nat.add_assoc]
    rcases Nat.lt_or_ge 512 (runs (b + blocks g [n]) (s + slots g [n])) with hfull | hfit
    · obtain ⟨st₁, hst₁⟩ := hfail hfull
      rw [hst₁]
      constructor
      · rintro ⟨st', h'⟩
        exact absurd (congrArg Prod.snd h') (by simp)
      · intro hle'
        have hmono := runs_mono (Nat.le_add_right (b + blocks g [n]) (blocks g ns))
          (Nat.le_add_right (s + slots g [n]) (slots g ns))
        exact absurd (Nat.lt_of_lt_of_le hfull hmono) (Nat.not_lt.2 hle')
    · obtain ⟨st₁, hst₁, h₁⟩ := hok hfit
      have hspec := allocNode_spec hkn hst₁
      rw [hst₁]
      refine ih hnd (fun m hm => ?_) h₁ hfit
      rw [hspec.frame m fun he => hn (he ▸ hm)]
      exact hk m (List.mem_cons_of_mem _ hm)

end Alloc

/-! ### Expressions -/

/-- There is room for the fields and the words of an expression. -/
def Fits (g : ℕ → Node) (root : ℕ) : Prop :=
  (fieldOrder g root).length ≤ 128 ∧
    runs (blocks g (postOrder g root)) (slots g (postOrder g root)) ≤ 512

/-- The allocation, after the fields are numbered. -/
theorem alloc_fits {g : ℕ → Node} {a₀ a₁ : ℕ → Annot} {root : ℕ} {an : ExpressionAnalyzer}
    (hA : IsAnalysis g a₀ root an) (hvisit : an.allNodes = postOrder g root) {names : List Name}
    (hf : assignFields g (some 128) an.arithmeticNodes [] an.annot = (a₁, some names)) :
    (∃ st, allocNodes g an.allNodes ⟨.init, 0, (an.arithmeticNodes.filter fun n =>
        (g n).kind = .CONST).foldl (fun a n => setAnnot a n fun x => { x with fieldIdx := -2 }) a₁⟩ =
          (st, true)) ↔
      runs (blocks g (postOrder g root)) (slots g (postOrder g root)) ≤ 512 := by
  have hndA : an.arithmeticNodes.Nodup := by
    rw [hA.arith]
    exact hA.post.nodup.filter _
  have hN := assignFields_spec hf hndA
  obtain ⟨hc, -⟩ := markConsts_spec g an.arithmeticNodes a₁
  generalize (an.arithmeticNodes.filter _).foldl _ a₁ = a₂ at hc ⊢
  have hrk : ∀ n ∈ an.allNodes, ((⟨.init, 0, a₂⟩ : AllocState).annot n).resultKind =
      (g n).kind.resultKind := fun n hn => by
    have h1 := congrArg Annot.resultKind (hc n)
    have h2 := congrArg Annot.resultKind (hN.others n)
    rw [hA.listed n hn] at h2
    exact h1.trans h2
  have h := allocNodes_isOk_iff hA.post.nodup hrk packed_init (by decide)
  rw [h, hvisit, Nat.zero_add, Nat.zero_add]

/-- **The passes before the emission succeed exactly on what fits.** -/
theorem prepare_isOk_iff {P : NodePool} (hP : Built P) (a₀ : ℕ → Annot) {root : ℕ}
    (hroot : root < P.nextIdx) :
    (∃ a nodes, prepare P.storage a₀ root = (a, .ok nodes)) ↔ Fits P.storage root := by
  have hA := ofRoot_isAnalysis hP hroot a₀
  have hvisit : (ExpressionAnalyzer.ofRoot P.storage a₀ root).allNodes = postOrder P.storage root :=
    analyze_allNodes ..
  constructor
  · rintro ⟨a, nodes, hprep⟩
    obtain ⟨names, rfl, -, hlen, -⟩ := (prepare_spec hP hroot hprep).names
    refine ⟨hlen, ?_⟩
    unfold prepare at hprep
    generalize ExpressionAnalyzer.ofRoot P.storage a₀ root = an at hA hvisit hprep
    simp only at hprep
    split at hprep
    · simp at hprep
    rename_i a₁ names hf
    split at hprep
    · simp at hprep
    rename_i st hst
    exact (alloc_fits hA hvisit hf).1 ⟨st, hst⟩
  · rintro ⟨hlen, hruns⟩
    unfold prepare
    generalize ExpressionAnalyzer.ofRoot P.storage a₀ root = an at hA hvisit
    have harith : ∀ n ∈ an.arithmeticNodes, (P.storage n).kind = .LOAD →
        (P.storage n).fieldName ∈ fieldOrder P.storage root := fun n hn hk => by
      rw [hA.arith] at hn
      exact (mem_fieldOrder hP hroot _).2
        ⟨n, (hA.mem_iff n).1 (List.mem_of_mem_filter hn), hk, rfl⟩
    obtain ⟨a₁, names, hf⟩ :=
      assignFields_isSome hlen harith List.nodup_nil (List.nil_subset _) (a := an.annot)
    obtain ⟨st, hst⟩ := (alloc_fits hA hvisit hf).2 hruns
    exact ⟨st.annot, an.allNodes, by simp only [hf, hst]⟩

/-- At most 256 nodes that are no leaves have room for their words. -/
theorem Fits.of_atMostCompound {P : NodePool} (hP : Built P) {root : ℕ} (hroot : root < P.nextIdx)
    {F : List Name} (hF : F.length ≤ 128)
    (hload : ∀ n, Reach P.storage root n → (P.storage n).kind = .LOAD →
      (P.storage n).fieldName ∈ F) (hcount : AtMostCompound P.storage root 256) :
    Fits P.storage root := by
  have hnd : (postOrder P.storage root).Nodup := (postOrder_postOrdered hP hroot).nodup
  have hle : ∀ p : ℕ → Bool, (∀ n, p n = true → (P.storage n).kind.isLeaf = false) →
      ((postOrder P.storage root).filter p).length ≤ 256 := fun p hp =>
    hcount _ (hnd.filter _) fun n hn => by
      obtain ⟨hn, hpn⟩ := List.mem_filter.1 hn
      exact ⟨(mem_postOrder hP hroot n).1 hn, hp n hpn⟩
  refine ⟨?_, ?_⟩
  · refine Nat.le_trans ((fieldOrder_nodup P.storage root).length_le_of_subset fun f hf => ?_)
      hF
    obtain ⟨n, hn, hk, rfl⟩ := (mem_fieldOrder hP hroot f).1 hf
    exact hload n hn hk
  · have hb := hle (fun n => !(P.storage n).kind.isLeaf && !(P.storage n).kind.isMask) fun n h => by
      simp only [Bool.and_eq_true, Bool.not_eq_true'] at h
      exact h.1
    have hm := hle (fun n => (P.storage n).kind.isMask) fun n h => NodeKind.not_isLeaf_of_isMask h
    have hc := hle (fun n => (P.storage n).kind.isComparison) fun n h =>
      NodeKind.not_isLeaf_of_isMask (NodeKind.isMask_of_isComparison h)
    unfold runs blocks slots
    omega

/-- The runtime decides at the end, about the finished code. -/
theorem compileExpression_rt (rt : List Instr → Bool) (g : ℕ → Node) (a : ℕ → Annot)
    (root bits : ℕ) :
    compileExpression rt g a root bits =
      ((compileExpression (fun _ => true) g a root bits).1,
        (compileExpression (fun _ => true) g a root bits).2.bind fun code =>
          if rt code then .ok code else .error .nullptr) := by
  unfold compileExpression
  cases prepare g a root with
  | mk a' res =>
    cases res with
    | error f => rfl
    | ok nodes =>
      simp only [bind, Except.bind, if_true]
      cases emitNodes g a' bits nodes .init <;> rfl

/-- **When `compile_expression` returns a null pointer** to a runtime that accepts all code. -/
theorem compileExpression_null_iff {P : NodePool} (hP : Built P) (a : ℕ → Annot) {root : ℕ}
    (hroot : root < P.nextIdx) (bits : ℕ) :
    (compileExpression (fun _ => true) P.storage a root bits).2 = .error .nullptr ↔
      ¬Fits P.storage root := by
  rw [← prepare_isOk_iff hP a hroot, compileExpression]
  cases hprep : prepare P.storage a root with
  | mk a' res =>
    cases res with
    | error f => simp [prepare_error hprep]
    | ok nodes =>
      refine iff_of_false (fun h => ?_) fun h => h ⟨a', nodes, rfl⟩
      cases hbody : emitNodes P.storage a' bits nodes .init with
      | ok body => simp [hbody, bind, Except.bind] at h
      | error f =>
        rw [emitNodes_error hbody] at hbody
        simp [hbody, bind, Except.bind] at h

/-- **A well-typed expression compiles** if it has at most 128 fields, at most 256 nodes
that are no leaves and at most six additions and subtractions. -/
theorem compile_isOk {P : NodePool} (hP : Built P) {rt : List Instr → Bool}
    (hrt : ∀ code, rt code = true) (a₀ : ℕ → Annot) {t : Ty} {e : Expr t} {root : ℕ}
    (he : Represents P.storage e root) (hc : e.compound = true) (hfields : e.fields.length ≤ 128)
    (hcount : AtMostCompound P.storage root 256) (hsix : AtMostSix P.storage root isAddSub)
    (bits : ℕ) : ∃ a code, compileExpression rt P.storage a₀ root bits = (a, .ok code) := by
  have hroot := he.lt_nextIdx hP hc
  obtain ⟨a, nodes, hprep⟩ := (prepare_isOk_iff hP a₀ hroot).2
    (.of_atMostCompound hP hroot hfields (fun n hn => he.mem_fields hn) hcount)
  obtain ⟨body, hbody⟩ := emit_isOk hP hroot hprep (fun n hn _ => sorted_of_reach he hn)
    (fun ns hnd hns => hsix ns hnd fun n hn => ⟨(hns n hn).1, (hns n hn).2.1⟩) bits
  refine ⟨a, kernelBody P.storage a root nodes body ++ [.ret (.x 30)], ?_⟩
  simp only [compileExpression, hprep, hbody, bind, Except.bind, hrt, if_true]

/-- A graph has at most as many nodes that are no leaves as its expression, and fewer where nodes
are shared. -/
theorem AtMostCompound.of_represents {g : ℕ → Node} {t : Ty} {e : Expr t} {root : ℕ}
    (he : Represents g e root) : AtMostCompound g root (e.count fun k => !k.isLeaf) :=
  fun ns hnd hns => he.length_le_count hnd fun n hn => ⟨(hns n hn).1, by rw [(hns n hn).2]; rfl⟩

end Jit
end AarchGate
