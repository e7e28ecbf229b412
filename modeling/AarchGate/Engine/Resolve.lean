/-
# The field a `LOAD` names

`builder::Load` copies the name of its field into a buffer of 64 bytes in the node, at most
63 characters of it.  The compiler numbers the names it finds there, `collect_fields` looks
them up in the registry, and the kernel takes its column by the number.

* `loads_resolve_iff`: the numbers stand for the names and lead to their descriptors exactly
  when every name has at most 63 characters and, in the scalar mode, there are no more than
  128 of them.
* `long_name_resolves_to_other`: a name of 64 characters whose first 63 are the name of
  another field.
-/

import AarchGate.Engine.CApi
import AarchGate.Gpu.Transpile

namespace AarchGate
namespace Engine

open A64 Ir AarchGate.Core
open Jit (fieldOrder)
open ApexEngine

/-- The `LOAD`s below the root are those of the calls `Load(source n)`. -/
def LoadedAs (g : ℕ → Node) (root : ℕ) (source : ℕ → Name) : Prop :=
  ∀ n, Reach g root n → (g n).kind = .LOAD → (g n).fieldName = (source n).take 63

/-- What a numbering of the `LOAD`s is for: equal numbers for equal names, all numbers below
some `k`, and at the number of a name the descriptor that is registered under it. -/
structure Resolves (g : ℕ → Node) (a : ℕ → Annot) (root : ℕ) (source : ℕ → Name)
    (fields : List FieldDescriptor) (L : ExprCompiledLogic) : Prop where
  same : ∀ m n, Reach g root m → (g m).kind = .LOAD → Reach g root n → (g n).kind = .LOAD →
    ((a m).fieldIdx = (a n).fieldIdx ↔ source m = source n)
  range : ∃ k : ℕ, ∀ i : ℤ, (∃ n, Reach g root n ∧ (g n).kind = .LOAD ∧ (a n).fieldIdx = i) ↔
    0 ≤ i ∧ i < k
  descriptor : ∀ n, Reach g root n → (g n).kind = .LOAD → ∃ d ∈ fields, d.name = source n ∧
    L.fields[(a n).fieldIdx.toNat]? = some (some d)

/-! ### The numbering -/

namespace ApexEngine

variable {g : ℕ → Node} {a : ℕ → Annot} {root : ℕ} {names : List Name}

/-- Only the numbers enter into it. -/
theorem Numbered.congr (h : Numbered g a root names) {a' : ℕ → Annot}
    (ha : ∀ n, (a' n).fieldIdx = (a n).fieldIdx) : Numbered g a' root names :=
  ⟨h.nodup, h.mem, fun n hn hk => (ha n).trans (h.idx n hn hk)⟩

/-- Fields have numbers of their own. -/
theorem Numbered.idx_inj (h : Numbered g a root names) {m n : ℕ} (hm : Reach g root m)
    (hmk : (g m).kind = .LOAD) (hn : Reach g root n) (hnk : (g n).kind = .LOAD) :
    (a m).fieldIdx = (a n).fieldIdx ↔ (g m).fieldName = (g n).fieldName := by
  rw [h.idx m hm hmk, h.idx n hn hnk, Nat.cast_inj, List.idxOf_inj (h.name_mem hm hmk)]

/-- The numbers are those of the names. -/
theorem Numbered.exists_idx_iff (h : Numbered g a root names) (i : ℤ) :
    (∃ n, Reach g root n ∧ (g n).kind = .LOAD ∧ (a n).fieldIdx = i) ↔ 0 ≤ i ∧ i < names.length := by
  constructor
  · rintro ⟨n, hn, hk, rfl⟩
    have hlt := List.idxOf_lt_length_of_mem (h.name_mem hn hk)
    rw [h.idx n hn hk]
    omega
  · rintro ⟨h0, hlt⟩
    obtain ⟨k, rfl⟩ := Int.eq_ofNat_of_zero_le h0
    have hk : k < names.length := by omega
    obtain ⟨n, hn, hload, hname⟩ := (h.mem names[k]).1 (List.getElem_mem hk)
    exact ⟨n, hn, hload, by rw [h.idx n hn hload, hname, h.nodup.idxOf_getElem]⟩

/-- There are as many names as in the order of their first use. -/
theorem Numbered.length_eq {P : NodePool} (hP : Built P) (hroot : root < P.nextIdx)
    (h : Numbered P.storage a root names) : names.length = (fieldOrder P.storage root).length :=
  Jit.length_eq_fieldOrder hP hroot h.nodup h.mem

end ApexEngine

/-- **The compilers number the fields**, in every mode. -/
theorem compileMode_numbered {PF : Platform} {P : NodePool} (hP : Built P) {root : ℕ}
    (hroot : root < P.nextIdx) {mode : ExecutionMode} {a a' : ℕ → Annot} {code : List Instr}
    (h : compileMode PF P.storage mode a root = (a', .ok code)) :
    ∃ names, Numbered P.storage a' root names := by
  rw [compileMode] at h
  split_ifs at h with hmode
  · obtain rfl : (Jit.prepareScalar P.storage a root).1 = a' := congrArg Prod.fst h
    have hp := Jit.prepareScalar_passes hP a hroot
    obtain ⟨names, hnd, hmem, hidx⟩ := hp.names
    exact ⟨names, ⟨hnd, fun f => by simp only [hmem, hp.mem_iff],
      fun n hn => hidx n ((hp.mem_iff n).2 hn)⟩⟩
  · exact ⟨_, (Numbered.ofCompiled hP hroot h).2⟩

/-- The generation of the shader keeps the numbers. -/
theorem generateMode_fieldIdx {E : ApexEngine} {schemaName : Name} {P : NodePool} (hP : Built P)
    {root : ℕ} (hroot : root < P.nextIdx) {mode : ExecutionMode} {a a' : ℕ → Annot}
    {msl : Option Gpu.MslSource}
    (h : generateMode E schemaName P.storage mode a root = .ok (a', msl)) (n : ℕ) :
    (a' n).fieldIdx = (a n).fieldIdx := by
  by_cases hmode : mode = .GPU_THROUGHPUT
  · rw [generateMode, if_pos hmode] at h
    cases hgen : Gpu.generateMslSource P.storage a
      ((E.schemaMetadata schemaName).elim 0 (·.fields.length)) root with
    | error f =>
      rw [hgen] at h
      cases h
    | ok r =>
      have hothers := Gpu.generateMslSource_others hP hroot hgen n
      rw [hgen] at h
      cases h
      rw [hothers]
  · rw [(generateMode_cpu hmode h).1]

/-! ### The table of descriptors -/

/-- What is in the table after `resize` was there before. -/
theorem resizeFields_get_some {fs : ℕ → Option FieldDescriptor} {i : ℕ} {d : FieldDescriptor}
    (h : (resizeFields fs)[i]? = some (some d)) : i < 128 ∧ fs i = some d := by
  have hmax : ∀ n, (List.range n).foldl (fun m i => if (fs i).isSome then i + 1 else m) 0 ≤ n := by
    intro n
    induction n with
    | zero => exact Nat.le_refl 0
    | succ n ih =>
      rw [List.range_succ, List.foldl_append, List.foldl_cons, List.foldl_nil]
      split_ifs
      · exact Nat.le_refl _
      · exact Nat.le_succ_of_le ih
  rw [resizeFields, List.getElem?_map, Option.map_eq_some_iff] at h
  obtain ⟨j, hj, hd⟩ := h
  obtain ⟨hlt, rfl⟩ := List.getElem?_eq_some_iff.1 hj
  rw [List.length_range] at hlt
  rw [List.getElem_range] at hd
  exact ⟨Nat.lt_of_lt_of_le hlt (hmax 128), hd⟩

/-- **A descriptor in the table** is that of a `LOAD` with its number. -/
theorem collectFields_get {P : NodePool} (hP : Built P) {a : ℕ → Annot} {root : ℕ}
    (hroot : root < P.nextIdx) {getField : Name → Option FieldDescriptor} {i : ℕ} {d : FieldDescriptor}
    (h : (resizeFields (collectFields P.storage a getField (NodePool.maxNodes + 1) root
      fun _ => none))[i]? = some (some d)) : Loads P.storage a getField root i d := by
  have hspec : Collected (Loads P.storage a getField root) (fun _ => none) _ :=
    collectFields_spec hP (NodePool.maxNodes + 1) root (by have := hP.ordered.1; omega) _
  have hout := (resizeFields_get_some h).2
  rcases (hspec i).1 with hnone | ⟨d', hd', hsome⟩
  · rw [hout] at hnone
    cases hnone
  · rw [hout] at hsome
    obtain rfl := Option.some.inj hsome
    exact hd'

/-- **The table of an installed logic**: the `LOAD`s are numbered, a descriptor in the table is
that of a `LOAD` with its number, and there is one for every number if the names in the nodes
are registered and are not too many. -/
theorem installed_table {PF : Platform} {P : NodePool} (hP : Built P) {root : ℕ}
    (hroot : root < P.nextIdx) {E₀ E : ApexEngine} {schemaName : Name}
    (hnew : E₀.registry.schemas schemaName = none) {fields : List FieldDescriptor} {rowStride : ℕ}
    {mode : ExecutionMode} {a : ℕ → Annot}
    (hset : setExpression PF (E₀.registerSchema schemaName fields rowStride) schemaName P.storage
      P.annot (some root) mode = .ok (a, E)) (hinst : ¬GaveUp PF P.storage P.annot root mode)
    {L : ExprCompiledLogic} (hL : E.exprLogic.lookup schemaName = some L) :
    ∃ names, Numbered P.storage a root names ∧
      (∀ i d, L.fields[i]? = some (some d) →
        Loads P.storage a (fun f => fields.find? fun d => d.name = f) root i d) ∧
      (names.length ≤ 128 → (∀ f ∈ names, ∃ d ∈ fields, d.name = f) →
        FieldTable (fun f => fields.find? fun d => d.name = f) names L.fields) := by
  obtain ⟨a₁, hmark, ⟨hnull, -⟩ | ⟨a₂, L', hcomp, -, hmsl, hfs, -, -, -, rfl⟩⟩ :=
    setExpression_cases hset
  · exact absurd ⟨a₁, a, hmark, hnull⟩ hinst
  obtain rfl := Option.some.inj ((lookup_assignLogic_self _ schemaName L').symm.trans hL)
  obtain ⟨names, hN⟩ := compileMode_numbered hP hroot hcomp
  have hidx := generateMode_fieldIdx hP hroot hmsl
  refine ⟨names, hN.congr hidx, fun i d hd => ?_, fun hlen hreg => ?_⟩
  · rw [hfs] at hd
    obtain ⟨x, hx, hk, hi, hlt, hget⟩ := collectFields_get hP hroot hd
    exact ⟨x, hx, hk, (hidx x).trans hi, hlt,
      (SchemaRegistry.getField_registerSchema hnew fields _).symm.trans hget⟩
  · exact (registered_table hP hroot hN hlen hnew hreg hfs).1

/-! ### Names and numbers -/

/-- **`LOAD`s resolve to the fields they name** exactly when the names fit into the nodes and
the numbers into the table.  For every schema, every tree of `LOAD`s built with its names,
every mode and whatever else the engine holds, once the logic is installed. -/
theorem loads_resolve_iff (PF : Platform) {P : NodePool} (hP : Built P) {root : ℕ}
    (hroot : root < P.nextIdx) {source : ℕ → Name} (hsource : LoadedAs P.storage root source)
    {E₀ E : ApexEngine} {schemaName : Name} (hnew : E₀.registry.schemas schemaName = none)
    {fields : List FieldDescriptor} (hreg : ∀ n, Reach P.storage root n →
      (P.storage n).kind = .LOAD → source n ∈ fields.map (·.name)) {rowStride : ℕ}
    {mode : ExecutionMode} {a : ℕ → Annot}
    (hset : setExpression PF (E₀.registerSchema schemaName fields rowStride) schemaName P.storage
      P.annot (some root) mode = .ok (a, E)) (hinst : ¬GaveUp PF P.storage P.annot root mode)
    {L : ExprCompiledLogic} (hL : E.exprLogic.lookup schemaName = some L) :
    Resolves P.storage a root source fields L ↔
      (∀ n, Reach P.storage root n → (P.storage n).kind = .LOAD → (source n).length ≤ 63) ∧
        (fieldOrder P.storage root).length ≤ 128 := by
  obtain ⟨names, hN, hloads, htable⟩ := installed_table hP hroot hnew hset hinst hL
  rw [← hN.length_eq hP hroot]
  constructor
  · intro h
    -- the descriptor of a name was put in by a `LOAD` that has the whole name
    have hname : ∀ n, Reach P.storage root n → (P.storage n).kind = .LOAD →
        (a n).fieldIdx.toNat < 128 ∧ (source n).length ≤ 63 := by
      intro n hn hk
      obtain ⟨d, -, hd, hentry⟩ := h.descriptor n hn hk
      obtain ⟨x, hx, hxk, -, hlt, hfind⟩ := hloads _ d hentry
      have hdx : d.name = (P.storage x).fieldName := by simpa using List.find?_some hfind
      refine ⟨hlt, ?_⟩
      rw [← hd, hdx, hsource x hx hxk]
      exact List.length_take_le 63 _
    refine ⟨fun n hn hk => (hname n hn hk).2, ?_⟩
    by_contra hlen
    obtain ⟨n, hn, hk, hidx⟩ := (hN.exists_idx_iff 128).2 ⟨by decide, by omega⟩
    have hlt := (hname n hn hk).1
    rw [hidx] at hlt
    exact absurd hlt (by decide)
  · rintro ⟨hshort, hlen⟩
    have hname : ∀ n, Reach P.storage root n → (P.storage n).kind = .LOAD →
        (P.storage n).fieldName = source n := fun n hn hk => by
      rw [hsource n hn hk, List.take_of_length_le (hshort n hn hk)]
    refine ⟨fun m n hm hmk hn hnk => ?_, ⟨names.length, hN.exists_idx_iff⟩, fun n hn hk => ?_⟩
    · rw [hN.idx_inj hm hmk hn hnk, hname m hm hmk, hname n hn hnk]
    · have hnames : ∀ f ∈ names, ∃ d ∈ fields, d.name = f := hN.forall_names fun x hx hxk => by
        rw [hname x hx hxk]
        exact List.mem_map.1 (hreg x hx hxk)
      obtain ⟨d, hd, hentry⟩ := htable hlen hnames _ _ (hN.get hn hk)
      refine ⟨d, List.mem_of_find?_eq_some hd, ?_, hentry⟩
      rw [← hname n hn hk]
      simpa using List.find?_some hd

/-- A first logic is installed if the compiler does not give up. -/
theorem installs_of_ne_nil {PF : Platform} {E₀ E : ApexEngine} {schemaName : Name} {g : ℕ → Node}
    {a a' : ℕ → Annot} {root : ℕ} {mode : ExecutionMode}
    (hset : setExpression PF E₀ schemaName g a (some root) mode = .ok (a', E))
    (hempty : E₀.exprLogic = []) (hacc : E.exprLogic ≠ []) :
    ¬GaveUp PF g a root mode ∧ ∃ L, E.exprLogic.lookup schemaName = some L := by
  obtain ⟨a₁, hmark, ⟨-, rfl⟩ | ⟨a₂, L, hcomp, -, -, -, -, -, -, rfl⟩⟩ := setExpression_cases hset
  · exact absurd hempty hacc
  · exact ⟨fun hgave => hgave.compileMode_ne hmark hcomp, L, lookup_assignLogic_self ..⟩

/-- `a > 5` over the schema of `a`. -/
theorem loads_resolve_gt :
    ∃ a E L, setExpression .standard oneFieldEngine ['t'] Jit.gtPool.storage Jit.gtPool.annot (some 2)
        .BIT_SLICED = .ok (a, E) ∧ E.exprLogic.lookup ['t'] = some L ∧
      Resolves Jit.gtPool.storage a 2 (fun _ => ['a']) oneField L := by
  obtain ⟨a, E, hset, hacc⟩ := gtPool_accepted .BIT_SLICED
  obtain ⟨hinst, L, hL⟩ := installs_of_ne_nil hset rfl hacc
  have hsource : LoadedAs Jit.gtPool.storage 2 fun _ => ['a'] := fun n hn hk => by
    simpa [Expr.fields] using Jit.gtPool_represents.mem_fields hn hk
  refine ⟨a, E, L, hset, hL, ?_⟩
  exact (loads_resolve_iff .standard Jit.gtPool_built (by decide) hsource rfl (fun _ _ _ => by decide)
    hset hinst hL).2 ⟨fun _ _ _ => by decide, by decide⟩

/-! ### A name that is cut -/

/-- A name of 64 characters. -/
def longName : Name := List.replicate 64 'a'

/-- A schema of two fields, the name of the first being that of the second without the last
character. -/
def longFields : List FieldDescriptor :=
  [⟨List.replicate 63 'a', 0, 64, .UINT64⟩, ⟨longName, 8, 64, .UINT64⟩]

/-- The pool of `GT(Load(longName), Const(5))`. -/
def longPool : NodePool :=
  ((do
    let x ← Builder.Load longName
    let k ← Builder.Const 5
    Builder.GT x k : StateM NodePool (Option ℕ)) .empty).2

theorem longPool_built : Built longPool :=
  ((Pristine.empty.emplace { kind := .LOAD, fieldName := longName.take 63 } .BITPLANE (by decide)).emplace
    { kind := .CONST, constValue := 5 } .BITPLANE (by decide)).emplace
      { kind := .GT, left := some 0, right := some 1 } .BITMASK (by decide) |>.built

theorem longPool_represents :
    Represents longPool.storage (.cmp .gt (.load (longName.take 63)) (.const 5)) 2 :=
  ⟨0, 1, ⟨rfl, rfl, rfl, rfl, rfl⟩, ⟨⟨rfl, rfl, rfl, rfl, rfl⟩, rfl⟩,
    ⟨⟨rfl, rfl, rfl, rfl, rfl⟩, rfl⟩⟩

theorem longPool_loadedAs : LoadedAs longPool.storage 2 fun _ => longName := fun n hn hk => by
  simpa [Expr.fields] using longPool_represents.mem_fields hn hk

/-- `Load` of the second field is the first field. -/
theorem long_name_resolves_to_other :
    (longFields.map (·.name)).Nodup ∧ LoadedAs longPool.storage 2 (fun _ => longName) ∧
      ∃ a E L, setExpression .standard (init.registerSchema ['t'] longFields 16) ['t'] longPool.storage
          longPool.annot (some 2) .BIT_SLICED = .ok (a, E) ∧ E.exprLogic.lookup ['t'] = some L ∧
        Reach longPool.storage 2 0 ∧ (longPool.storage 0).kind = .LOAD ∧
        L.fields[(a 0).fieldIdx.toNat]? = some (some ⟨List.replicate 63 'a', 0, 64, .UINT64⟩) := by
  refine ⟨by decide, longPool_loadedAs, ?_⟩
  have he := longPool_represents
  have hrt : ∀ code, Platform.standard.rt code = true := fun _ => rfl
  obtain ⟨a, code, hcomp⟩ := Jit.compile_isOk longPool_built hrt longPool.annot he rfl (by decide)
    ((Jit.AtMostCompound.of_represents he).mono (by decide)) (.of_all he rfl) 64
  obtain ⟨E, hset, hacc⟩ :=
    setExpression_accepts (init.registerSchema ['t'] longFields 16) ['t'] he hcomp
  obtain ⟨hinst, L, hL⟩ := installs_of_ne_nil hset rfl hacc
  obtain ⟨names, hN, -, htable⟩ := installed_table longPool_built (by decide) rfl hset hinst hL
  have hreach : Reach longPool.storage 2 0 := (Reach.refl _ 2).child (by decide)
  have hnames : ∀ f ∈ names, f = longName.take 63 := fun f hf => by
    simpa [Expr.fields] using (hN.mem_iff_fields he f).1 hf
  have hlen : names.length ≤ 128 := by
    rw [hN.length_eq longPool_built (by decide)]
    decide
  obtain ⟨d, hd, hentry⟩ := htable hlen (fun f hf => by rw [hnames f hf]; decide) _ _ (hN.get hreach rfl)
  refine ⟨a, E, L, hset, hL, hreach, rfl, hentry.trans ?_⟩
  rw [← hd]
  rfl

end Engine
end AarchGate
