/-
# The analysis pass

`ExpressionAnalyzer` and the first passes of `compile_expression` in
`src/jit/compiler.cpp`: the depth-first walk that lists the nodes of an
expression in post-order and sets their `result_kind`, and the numbering of the
fields its `LOAD` nodes read.

The walk is `Graph.visit` (`analyze_allNodes`), so the list is post-ordered and
holds exactly the nodes of the expression.  The map `field_to_idx` numbers the
names in the order of their first use; it is kept as the list of these names,
the index of a name being its position (`assignFields_spec`).
-/

import AarchGate.Ir.Expr

namespace AarchGate
namespace Jit

open Ir

/-- A pass writes the metadata of one node. -/
def setAnnot (a : ℕ → Annot) (n : ℕ) (f : Annot → Annot) : ℕ → Annot :=
  fun i => if i = n then f (a i) else a i

/-- The node that was annotated. -/
@[simp] theorem setAnnot_self (a : ℕ → Annot) (n : ℕ) (f : Annot → Annot) :
    setAnnot a n f n = f (a n) := by simp [setAnnot]

/-- The others stay. -/
theorem setAnnot_ne (a : ℕ → Annot) {n i : ℕ} (f : Annot → Annot) (h : i ≠ n) :
    setAnnot a n f i = a i := by simp [setAnnot, h]

/-- The kinds `analyze` lists as `arithmetic_nodes`. -/
def isArithmetic : NodeKind → Bool
  | .LOAD | .CONST | .ADD | .SUB | .MUL | .LSL | .LSR => true
  | _ => false

/-- `ExpressionAnalyzer`; the keys of its `node_map` are the nodes listed.  The
lists of comparisons and selections, which no pass reads, are left out. -/
structure ExpressionAnalyzer where
  allNodes : List ℕ
  arithmeticNodes : List ℕ
  annot : ℕ → Annot

namespace ExpressionAnalyzer

/-- The end of a visit: the node is classified and listed. -/
def push (g : ℕ → Node) (n : ℕ) (st : ExpressionAnalyzer) : ExpressionAnalyzer where
  allNodes := st.allNodes ++ [n]
  arithmeticNodes :=
    if isArithmetic (g n).kind then st.arithmeticNodes ++ [n] else st.arithmeticNodes
  annot := setAnnot st.annot n fun a => { a with resultKind := (g n).kind.resultKind }

/-- `ExpressionAnalyzer::analyze`, with fuel for the depth of the recursion. -/
def analyze (g : ℕ → Node) : ℕ → ℕ → ExpressionAnalyzer → ExpressionAnalyzer
  | 0, _, st => st
  | fuel + 1, n, st =>
      if n ∈ st.allNodes then st
      else push g n ((g n).children.foldl (fun s c => analyze g fuel c s) st)

/-- The analysis of the expression at `root`: the recursion is never deeper than
the pool is large. -/
def ofRoot (g : ℕ → Node) (annot : ℕ → Annot) (root : ℕ) : ExpressionAnalyzer :=
  analyze g (NodePool.maxNodes + 1) root ⟨[], [], annot⟩

end ExpressionAnalyzer

open ExpressionAnalyzer

/-- The graph the walk runs on. -/
def succs (g : ℕ → Node) (n : ℕ) : List ℕ := (g n).children

/-- **The analyzer lists the nodes in depth-first post-order.** -/
theorem analyze_allNodes (g : ℕ → Node) (fuel n : ℕ) (st : ExpressionAnalyzer) :
    (analyze g fuel n st).allNodes = Graph.visit (succs g) fuel n st.allNodes := by
  induction fuel generalizing n st with
  | zero => rfl
  | succ fuel ih =>
    unfold analyze Graph.visit
    split_ifs with h
    · rfl
    · have hfold : ∀ (cs : List ℕ) (s : ExpressionAnalyzer),
          (cs.foldl (fun s c => analyze g fuel c s) s).allNodes =
            cs.foldl (fun s c => Graph.visit (succs g) fuel c s) s.allNodes := by
        intro cs
        induction cs with
        | nil => intro s; rfl
        | cons c cs ihcs => intro s; rw [List.foldl_cons, List.foldl_cons, ihcs, ih]
      rw [push, hfold]
      rfl

/-- What the analyzer keeps while it runs: `arithmetic_nodes` are the arithmetic
ones of `all_nodes`, and the nodes listed have got the `result_kind` of their
kind. -/
structure Analyzed (g : ℕ → Node) (a₀ : ℕ → Annot) (st : ExpressionAnalyzer) : Prop where
  arith : st.arithmeticNodes = st.allNodes.filter fun n => isArithmetic (g n).kind
  listed : ∀ n ∈ st.allNodes, st.annot n = { a₀ n with resultKind := (g n).kind.resultKind }
  unlisted : ∀ n, n ∉ st.allNodes → st.annot n = a₀ n

/-- A node is appended when its operands have been. -/
theorem Analyzed.push {g : ℕ → Node} {a₀ : ℕ → Annot} {st : ExpressionAnalyzer}
    (h : Analyzed g a₀ st) (n : ℕ) : Analyzed g a₀ (push g n st) where
  arith := by
    simp only [ExpressionAnalyzer.push, List.filter_append, h.arith]
    by_cases hk : isArithmetic (g n).kind
    · simp [hk]
    · simp [hk]
  listed := by
    intro i hi
    simp only [ExpressionAnalyzer.push] at hi ⊢
    by_cases hin : i = n
    · subst hin
      rw [setAnnot_self]
      by_cases hl : i ∈ st.allNodes
      · rw [h.listed i hl]
      · rw [h.unlisted i hl]
    · rw [setAnnot_ne _ _ hin]
      exact h.listed i (by simpa [hin] using hi)
  unlisted := by
    intro i hi
    simp only [ExpressionAnalyzer.push, List.mem_append, List.mem_singleton, not_or] at hi ⊢
    rw [setAnnot_ne _ _ hi.2, h.unlisted i hi.1]

/-- The recursion keeps it, whatever the depth. -/
theorem analyze_analyzed {g : ℕ → Node} {a₀ : ℕ → Annot} (fuel n : ℕ) {st : ExpressionAnalyzer}
    (h : Analyzed g a₀ st) : Analyzed g a₀ (analyze g fuel n st) := by
  induction fuel generalizing n st with
  | zero => exact h
  | succ fuel ih =>
    unfold analyze
    split_ifs with hn
    · exact h
    · have hfold : ∀ (cs : List ℕ) {s : ExpressionAnalyzer}, Analyzed g a₀ s →
          Analyzed g a₀ (cs.foldl (fun s c => analyze g fuel c s) s) := by
        intro cs
        induction cs with
        | nil => intro s hs; exact hs
        | cons c cs ihcs => intro s hs; exact ihcs (ih c hs)
      exact (hfold _ h).push n

/-- **What the analysis of a pool expression gives.** -/
structure IsAnalysis (g : ℕ → Node) (a₀ : ℕ → Annot) (root : ℕ) (st : ExpressionAnalyzer) :
    Prop extends Analyzed g a₀ st where
  post : Graph.PostOrdered (succs g) st.allNodes
  mem_iff : ∀ n, n ∈ st.allNodes ↔ Reach g root n
  last : ∃ t, st.allNodes = t ++ [root]

/-- **The analysis of a root.** -/
theorem ofRoot_isAnalysis {P : NodePool} (hP : Built P) {root : ℕ} (hroot : root < P.nextIdx)
    (a₀ : ℕ → Annot) : IsAnalysis P.storage a₀ root (ofRoot P.storage a₀ root) := by
  obtain ⟨hmax, hord⟩ := hP.ordered
  have hrank : ∀ i, ∀ c ∈ succs P.storage i, id c < id i := fun i c hc => (hord i c hc).1
  have hfuel : id root < NodePool.maxNodes + 1 := by simp only [id]; omega
  have hnil : Analyzed P.storage a₀ ⟨[], [], a₀⟩ :=
    ⟨rfl, fun _ h => absurd h List.not_mem_nil, fun _ _ => rfl⟩
  have hv := Graph.visit_visited hrank _ root [] hfuel .nil
  have hall : (ofRoot P.storage a₀ root).allNodes =
      Graph.visit (succs P.storage) (NodePool.maxNodes + 1) root [] := analyze_allNodes ..
  refine ⟨analyze_analyzed _ _ hnil, ?_, fun n => ?_, ?_⟩
  · rw [hall]; exact hv.post
  · rw [hall]; exact Graph.mem_visit_iff hrank hfuel n
  · rw [hall]; exact hv.last List.not_mem_nil

/-- The nodes of an expression in post-order. -/
def postOrder (g : ℕ → Node) (root : ℕ) : List ℕ :=
  Graph.visit (succs g) (NodePool.maxNodes + 1) root []

/-- The first operation in post-order: it gets the first words of the scratchpad. -/
def firstOp (g : ℕ → Node) (root : ℕ) : Option ℕ :=
  (postOrder g root).find? fun n => !(g n).kind.isLeaf

/-- The post-order visits what the root reaches. -/
theorem mem_postOrder {P : NodePool} (hP : Built P) {root : ℕ} (hroot : root < P.nextIdx) (n : ℕ) :
    n ∈ postOrder P.storage root ↔ Reach P.storage root n := by
  have hA := ofRoot_isAnalysis hP hroot P.annot
  rw [← hA.mem_iff, ExpressionAnalyzer.ofRoot, analyze_allNodes]
  rfl

/-- Operands come before the nodes that use them. -/
theorem postOrder_postOrdered {P : NodePool} (hP : Built P) {root : ℕ} (hroot : root < P.nextIdx) :
    Graph.PostOrdered (succs P.storage) (postOrder P.storage root) := by
  have hA := (ofRoot_isAnalysis hP hroot P.annot).post
  rwa [ExpressionAnalyzer.ofRoot, analyze_allNodes] at hA

/-! ### Field numbering -/

/-- The loop of `compile_expression` over `arithmetic_nodes` that gives `LOAD`
nodes their `field_idx`; `names` are the keys of `field_to_idx` in the order of
their indices.  A name past `limit` of them gives up. -/
def assignFields (g : ℕ → Node) (limit : Option ℕ) :
    List ℕ → List Name → (ℕ → Annot) → (ℕ → Annot) × Option (List Name)
  | [], names, a => (a, some names)
  | n :: ns, names, a =>
      if (g n).kind = .LOAD then
        let f := (g n).fieldName
        if f ∈ names then
          assignFields g limit ns names
            (setAnnot a n fun x => { x with fieldIdx := names.idxOf f })
        else if limit.any (names.length ≥ ·) then (a, none)
        else
          assignFields g limit ns (names ++ [f])
            (setAnnot a n fun x => { x with fieldIdx := names.length })
      else assignFields g limit ns names a

/-- What the numbering gives: the names in order of first use, and for every
`LOAD` node the position of its name. -/
structure Numbered (g : ℕ → Node) (ns : List ℕ) (names names' : List Name)
    (a a' : ℕ → Annot) : Prop where
  ext : ∃ t, names' = names ++ t
  nodup : names.Nodup → names'.Nodup
  mem : ∀ f, f ∈ names' ↔ f ∈ names ∨ ∃ n ∈ ns, (g n).kind = .LOAD ∧ (g n).fieldName = f
  idx : ∀ n ∈ ns, (g n).kind = .LOAD → (a' n).fieldIdx = (names'.idxOf (g n).fieldName : ℕ)
  others : ∀ n, { a' n with fieldIdx := (a n).fieldIdx } = a n
  frame : ∀ n, n ∉ ns ∨ (g n).kind ≠ .LOAD → a' n = a n

/-- **The numbering of the fields**, if there is room for them. -/
theorem assignFields_spec {g : ℕ → Node} {limit : Option ℕ} {ns : List ℕ} :
    ∀ {names : List Name} {a a' : ℕ → Annot} {names' : List Name},
      assignFields g limit ns names a = (a', some names') → ns.Nodup →
        Numbered g ns names names' a a' := by
  induction ns with
  | nil =>
    intro names a a' names' h _
    simp only [assignFields, Prod.mk.injEq, Option.some.injEq] at h
    obtain ⟨rfl, rfl⟩ := h
    exact ⟨⟨[], by simp⟩, id, by simp, by simp, fun _ => rfl, fun _ _ => rfl⟩
  | cons n ns ih =>
    intro names a a' names' h hnd
    obtain ⟨hn, hnd⟩ := List.nodup_cons.1 hnd
    rw [assignFields] at h
    by_cases hk : (g n).kind = .LOAD
    · -- the index written for `n` is the position its name keeps
      have key : ∀ {names₁ : List Name}, (∃ t, names₁ = names ++ t) →
          (names.Nodup → names₁.Nodup) →
          (∀ f, f ∈ names₁ ↔ f ∈ names ∨ f = (g n).fieldName) →
          assignFields g limit ns names₁
            (setAnnot a n fun x => { x with fieldIdx := names₁.idxOf (g n).fieldName }) =
              (a', some names') → Numbered g (n :: ns) names names' a a' := by
        intro names₁ hext hnd₁ hmem₁ h₁
        have hN := ih h₁ hnd
        obtain ⟨t, ht⟩ := hext
        obtain ⟨t', ht'⟩ := hN.ext
        have hself : a' n = { a n with fieldIdx := names₁.idxOf (g n).fieldName } := by
          rw [hN.frame n (Or.inl hn), setAnnot_self]
        refine ⟨⟨t ++ t', by rw [ht', ht, List.append_assoc]⟩, fun h => hN.nodup (hnd₁ h), ?_, ?_,
          ?_, ?_⟩
        · intro f
          rw [hN.mem, hmem₁]
          constructor
          · rintro ((h | rfl) | ⟨m, hm, hkm, hf⟩)
            · exact Or.inl h
            · exact Or.inr ⟨n, List.mem_cons_self .., hk, rfl⟩
            · exact Or.inr ⟨m, List.mem_cons_of_mem _ hm, hkm, hf⟩
          · rintro (h | ⟨m, hm, hkm, hf⟩)
            · exact Or.inl (Or.inl h)
            · rcases List.mem_cons.1 hm with rfl | hm
              · exact Or.inl (Or.inr hf.symm)
              · exact Or.inr ⟨m, hm, hkm, hf⟩
        · intro m hm hkm
          rcases List.mem_cons.1 hm with rfl | hm
          · rw [hself, ht', List.idxOf_append_of_mem ((hmem₁ _).2 (Or.inr rfl))]
          · exact hN.idx m hm hkm
        · intro m
          by_cases hmn : m = n
          · subst hmn; rw [hself]
          · have := hN.others m
            rwa [setAnnot_ne _ _ hmn] at this
        · intro m hm
          have hmn : m ≠ n := by
            rintro rfl
            rcases hm with hm | hm
            · exact hm (List.mem_cons_self ..)
            · exact hm hk
          rw [hN.frame m (hm.imp (fun h h' => h (List.mem_cons_of_mem _ h')) id),
            setAnnot_ne _ _ hmn]
      rw [if_pos hk] at h
      simp only at h
      split_ifs at h with hf hlim
      · exact key ⟨[], by simp⟩ id (fun f => ⟨Or.inl, fun h => h.elim id (· ▸ hf)⟩) h
      · simp at h
      · have hidx : (names ++ [(g n).fieldName]).idxOf (g n).fieldName = names.length := by
          rw [List.idxOf_append_of_notMem hf]; simp
        refine key ⟨[(g n).fieldName], rfl⟩ (fun h => ?_) (fun f => by simp) (by rw [hidx]; exact h)
        rw [List.nodup_append]
        refine ⟨h, List.nodup_singleton _, fun x hx y hy hxy => hf ?_⟩
        rw [List.mem_singleton] at hy
        exact hy ▸ hxy ▸ hx
    · rw [if_neg hk] at h
      have hN := ih h hnd
      refine ⟨hN.ext, hN.nodup, ?_, ?_, hN.others, ?_⟩
      · intro f
        rw [hN.mem]
        refine or_congr Iff.rfl ⟨?_, ?_⟩
        · rintro ⟨m, hm, h⟩; exact ⟨m, List.mem_cons_of_mem _ hm, h⟩
        · rintro ⟨m, hm, hkm, hf⟩
          rcases List.mem_cons.1 hm with rfl | hm
          · exact absurd hkm hk
          · exact ⟨m, hm, hkm, hf⟩
      · intro m hm hkm
        rcases List.mem_cons.1 hm with rfl | hm
        · exact absurd hkm hk
        · exact hN.idx m hm hkm
      · intro m hm
        exact hN.frame m (hm.imp (fun h h' => h (List.mem_cons_of_mem _ h')) id)

/-- The names of the fields of an expression, in the order of their first use in the
post-order of its nodes. -/
def fieldOrder (g : ℕ → Node) (root : ℕ) : List Name :=
  (((Graph.visit (succs g) (NodePool.maxNodes + 1) root []).filter fun n => (g n).kind = .LOAD).map
    fun n => (g n).fieldName).foldl (fun names f => if f ∈ names then names else names ++ [f]) []

/-- A field has one number. -/
theorem fieldOrder_nodup (g : ℕ → Node) (root : ℕ) : (fieldOrder g root).Nodup := by
  have hfold : ∀ fs names : List Name, names.Nodup →
      (fs.foldl (fun names f => if f ∈ names then names else names ++ [f]) names).Nodup := by
    intro fs
    induction fs with
    | nil => exact fun _ h => h
    | cons f fs ih =>
      intro names h
      rw [List.foldl_cons]
      split_ifs with hf
      · exact ih names h
      · exact ih _ (List.nodup_append.2 ⟨h, List.nodup_singleton f, by
          rintro x hx y hy rfl
          exact hf (List.mem_singleton.1 hy ▸ hx)⟩)
  exact hfold _ [] List.nodup_nil

/-- The fields that are numbered are those that are loaded. -/
theorem mem_fieldOrder {P : NodePool} (hP : Built P) {root : ℕ} (hroot : root < P.nextIdx) (f : Name) :
    f ∈ fieldOrder P.storage root ↔
      ∃ n, Reach P.storage root n ∧ (P.storage n).kind = .LOAD ∧ (P.storage n).fieldName = f := by
  have hfold : ∀ (fs names : List Name),
      f ∈ fs.foldl (fun names f => if f ∈ names then names else names ++ [f]) names ↔
        f ∈ names ∨ f ∈ fs := by
    intro fs
    induction fs with
    | nil => simp
    | cons x fs ih =>
      intro names
      rw [List.foldl_cons, ih, List.mem_cons]
      by_cases hx : x ∈ names
      · rw [if_pos hx]
        exact ⟨fun h => h.imp_right Or.inr, fun h => h.elim Or.inl fun h => h.elim
          (fun h => Or.inl (h ▸ hx)) Or.inr⟩
      · rw [if_neg hx, List.mem_append, List.mem_singleton, or_assoc]
  obtain ⟨hmax, hord⟩ := hP.ordered
  have hvisit : ∀ n, n ∈ Graph.visit (succs P.storage) (NodePool.maxNodes + 1) root [] ↔
      Reach P.storage root n :=
    Graph.mem_visit_iff (fun i c hc => show id c < id i from (hord i c hc).1)
      (show id root < _ by simp only [id]; omega)
  rw [fieldOrder, hfold]
  simp only [List.not_mem_nil, false_or, List.mem_map, List.mem_filter, decide_eq_true_eq, hvisit,
    and_assoc]

/-- Whatever the order, there are as many fields. -/
theorem length_eq_fieldOrder {P : NodePool} (hP : Built P) {root : ℕ} (hroot : root < P.nextIdx)
    {names : List Name} (hnd : names.Nodup) (hmem : ∀ f, f ∈ names ↔ ∃ n, Reach P.storage root n ∧
      (P.storage n).kind = .LOAD ∧ (P.storage n).fieldName = f) :
    names.length = (fieldOrder P.storage root).length := by
  refine ((List.perm_ext_iff_of_nodup hnd (fieldOrder_nodup _ _)).2 fun f => ?_).length_eq
  rw [hmem, mem_fieldOrder hP hroot]

/-- The numbering keeps the names in the order of their first use. -/
theorem assignFields_names {g : ℕ → Node} {limit : Option ℕ} {ns : List ℕ} :
    ∀ {names : List Name} {a a' : ℕ → Annot} {names' : List Name},
      assignFields g limit ns names a = (a', some names') →
        names' = ((ns.filter fun n => (g n).kind = .LOAD).map fun n => (g n).fieldName).foldl
          (fun names f => if f ∈ names then names else names ++ [f]) names := by
  induction ns with
  | nil =>
    intro names a a' names' h
    simp only [assignFields, Prod.mk.injEq, Option.some.injEq] at h
    exact h.2.symm
  | cons n ns ih =>
    intro names a a' names' h
    rw [assignFields] at h
    by_cases hk : (g n).kind = .LOAD
    · rw [if_pos hk] at h
      simp only at h
      rw [List.filter_cons_of_pos (by simpa using hk), List.map_cons, List.foldl_cons]
      split_ifs at h with hf hlim
      · rw [if_pos hf]; exact ih h
      · simp at h
      · rw [if_neg hf]; exact ih h
    · rw [if_neg hk] at h
      rw [List.filter_cons_of_neg (by simpa using hk)]
      exact ih h

/-- A limited numbering has at most `limit` names. -/
theorem assignFields_length_le {g : ℕ → Node} {k : ℕ} {ns : List ℕ} :
    ∀ {names : List Name} {a a' : ℕ → Annot} {names' : List Name},
      assignFields g (some k) ns names a = (a', some names') → names.length ≤ k →
        names'.length ≤ k := by
  induction ns with
  | nil =>
    intro names a a' names' h hle
    simp only [assignFields, Prod.mk.injEq, Option.some.injEq] at h
    exact h.2 ▸ hle
  | cons n ns ih =>
    intro names a a' names' h hle
    rw [assignFields] at h
    by_cases hk : (g n).kind = .LOAD
    · rw [if_pos hk] at h
      simp only at h
      split_ifs at h with hf hlim
      · exact ih h hle
      · simp at h
      · refine ih h ?_
        simp only [Option.any_some, ge_iff_le, decide_eq_true_eq, not_le] at hlim
        simp only [List.length_append, List.length_singleton]
        omega
    · rw [if_neg hk] at h
      exact ih h hle

end Jit
end AarchGate
