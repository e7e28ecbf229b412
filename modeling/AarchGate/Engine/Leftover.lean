/-
# What is left in the engine does not matter

`process_chunk_expr` writes two members of the engine: the column buffers
(`field_buffers_`) and the array of pointers to them (`field_planes_array_`).  They are not
cleared between two calls.  The array is reset for every chunk, but the vector gather of
five fields leaves the lanes above the rows of a partial chunk as they were: they still
hold bits of planes that an earlier chunk was transposed into.

The kernel computes each lane from the same lane of its columns, and the aggregation and
`execute_vector` look at the lanes of the rows alone.  So `execute` and `execute_vector`
return the same from any contents of the two members (`leftover_irrelevant`).

Here the loops of the two functions run with both members in the state (`executeFrom`,
`executeVectorFrom`); they return what `execute` and `executeVector` return.
-/

import AarchGate.Engine.Vector
import AarchGate.Ir.Build

namespace AarchGate
namespace Engine
namespace ApexEngine

open A64 Ir AarchGate.Core Compute
open Jit (Columns)

/-! ### The two members -/

/-- `field_buffers_` and `field_planes_array_`, whose entries point to buffers. -/
structure Members where
  fieldBuffers : ℕ → ColumnBuffer
  fieldPlanesArray : ℕ → Option ℕ

section Model

variable (PF : Platform) (L : ExprCompiledLogic) (data : ℕ → BitVec 8)

/-- `memset(field_planes_array_, 0, …)`. -/
def resetPlanes (_ : ℕ → Option ℕ) : ℕ → Option ℕ := fun _ => none

/-- The assignments to `field_planes_array_` in the loops over the fields. -/
def setPlanes (planes : ℕ → Option ℕ) : ℕ → Option ℕ :=
  (List.range (min L.fields.length 128)).foldl (fun planes i => Function.update planes i
    (match L.fields[i]? with
      | some (some _) => some i
      | _ => none)) planes

/-- `process_chunk_expr`, with both members. -/
def processChunkFrom (base rowStride rowCount : ℕ) (scratchpad : ℕ → Word) (M : Members) :
    Option (Word × (ℕ → Word) × Members) :=
  let bufs := fillColumns PF L data base rowStride rowCount M.fieldBuffers
  let planes := setPlanes L (resetPlanes M.fieldPlanesArray)
  (PF.abi.invoke L.kernel (fun i => (planes i).map bufs) scratchpad).map fun r =>
    (r.1, r.2, ⟨bufs, planes⟩)

/-- The chunks of a loop, with both members. -/
def chunksFrom (rowStride : ℕ) (start rows : ℕ) (M : Members) : Option (Word × (ℕ → Word) × Members) :=
  processChunkFrom PF L data (start * rowStride) rowStride rows (fun _ => 0) M

end Model

/-- `execute` on an engine whose two members are `M`. -/
def executeFrom (PF : Platform) (E : ApexEngine) (M : Members) (data : ℕ → BitVec 8)
    (rowCount : ℕ) : Option (Word × Members) :=
  match E.firstLogic PF with
  | none => some (0, M)
  | some (L, md) =>
    if L.mode = .GPU_THROUGHPUT then some (0, M)
    else chunkLoop (chunksFrom PF L data md.rowStride) (takeTotal L) rowCount
      (List.range ((rowCount + 63) / 64)) 0 M

/-- `execute_vector` on an engine whose two members are `M`. -/
def executeVectorFrom (PF : Platform) (D : Doubles) (precisionMultiplier : D.carrier)
    (E : ApexEngine) (M : Members) (data : ℕ → BitVec 8) (rowCount : ℕ) :
    Option (List D.carrier × Members) :=
  match E.firstLogic PF with
  | none => some (List.replicate rowCount D.zero, M)
  | some (L, md) =>
    (chunkLoop (chunksFrom PF L data md.rowStride) (takeRows D L precisionMultiplier) rowCount
      (List.range ((rowCount + 63) / 64)) (fun _ => D.zero) M).map fun r =>
        ((List.range rowCount).map r.1, r.2)

/-! ### They are the functions of the engine -/

section Refine

variable (PF : Platform) (D : Doubles) (L : ExprCompiledLogic) (precisionMultiplier : D.carrier)
  (data : ℕ → BitVec 8)

/-- After the reset the array is that of the fields there are. -/
theorem setPlanes_map (planes : ℕ → Option ℕ) (bufs : ℕ → ColumnBuffer) :
    (fun i => (setPlanes L (resetPlanes planes) i).map bufs) = fieldPlanesArray L bufs := by
  funext i
  rw [setPlanes, foldl_update_apply, fieldPlanesArray]
  cases hi : L.fields[i]? with
  | none =>
    rw [if_neg, resetPlanes, Option.map_none]
    rw [List.mem_range, lt_min_iff, not_and_or]
    exact Or.inl (not_lt.2 (List.getElem?_eq_none_iff.1 hi))
  | some d =>
    have hlt := (List.getElem?_eq_some_iff.1 hi).1
    by_cases h128 : i < 128
    · rw [if_pos (List.mem_range.2 (lt_min hlt h128))]
      cases d with
      | none => rfl
      | some d => rw [Option.map_some, if_pos h128]
    · rw [if_neg fun h => h128 (lt_min_iff.1 (List.mem_range.1 h)).2, resetPlanes, Option.map_none]
      cases d with
      | none => rfl
      | some d => rw [if_neg h128]

/-- `process_chunk_expr` does the same with and without the array. -/
theorem chunksFrom_eq (rowStride start rows : ℕ) (M : Members) :
    chunksFrom PF L data rowStride start rows M =
      (processChunkExpr PF L data (start * rowStride) rowStride rows (fun _ => 0) M.fieldBuffers).map
        fun r => (r.1, r.2.1, ⟨r.2.2, setPlanes L (resetPlanes M.fieldPlanesArray)⟩) := by
  simp only [chunksFrom, processChunkFrom, setPlanes_map, processChunkExpr, Option.map_map]
  rfl

/-- **The loops return the same**, whatever they make of the chunks. -/
theorem chunkLoop_from {ρ : Type} (take : ℕ → ℕ → Word → (ℕ → Word) → ρ → Option ρ)
    (rowStride rowCount : ℕ) (chunks : List ℕ) (acc : ρ) (M : Members) :
    (chunkLoop (chunksFrom PF L data rowStride) take rowCount chunks acc M).map Prod.fst =
      (chunkLoop (fun start rows => processChunkExpr PF L data (start * rowStride) rowStride rows
        fun _ => 0) take rowCount chunks acc M.fieldBuffers).map Prod.fst := by
  induction chunks generalizing acc M with
  | nil => rfl
  | cons chunk rest ih =>
    simp only [chunkLoop, chunksFrom_eq]
    cases processChunkExpr PF L data (chunk * 64 * rowStride) rowStride _ (fun _ => 0)
      M.fieldBuffers with
    | none => rfl
    | some r =>
      simp only [Option.map_some, Option.bind_eq_bind, Option.bind_some]
      cases take (chunk * 64) (min 64 (rowCount - chunk * 64)) r.1 r.2.1 acc with
      | none => rfl
      | some acc' => exact ih _ _

variable (E : ApexEngine) (M : Members) (rowCount : ℕ)

/-- `execute` returns what it returned. -/
theorem executeFrom_eq : (executeFrom PF E M data rowCount).map Prod.fst =
    (execute PF { E with fieldBuffers := M.fieldBuffers } data rowCount).map Prod.fst := by
  rw [executeFrom, execute, show firstLogic PF { E with fieldBuffers := M.fieldBuffers } =
    E.firstLogic PF from rfl]
  rcases E.firstLogic PF with _ | ⟨L, md⟩
  · rfl
  · dsimp only
    split_ifs
    · rfl
    · rw [chunkLoop_from, Option.map_map]
      rfl

/-- And so does `execute_vector`. -/
theorem executeVectorFrom_eq :
    (executeVectorFrom PF D precisionMultiplier E M data rowCount).map Prod.fst =
      (executeVector PF D precisionMultiplier { E with fieldBuffers := M.fieldBuffers } data
        rowCount).map Prod.fst := by
  rw [executeVectorFrom, executeVector, show firstLogic PF { E with fieldBuffers := M.fieldBuffers } =
    E.firstLogic PF from rfl]
  rcases E.firstLogic PF with _ | ⟨L, md⟩
  · rfl
  · have h := congrArg (Option.map fun results => (List.range rowCount).map results)
      (chunkLoop_from PF L data (takeRows D L precisionMultiplier) md.rowStride rowCount
        (List.range ((rowCount + 63) / 64)) (fun _ => D.zero) M)
    dsimp only
    rw [Option.map_map, Option.map_map] at h ⊢
    exact h

end Refine

/-! ### The results do not depend on the members -/

theorem exists_of_map_fst {α β : Type} {x : Option (α × β)} {v : α} (h : x.map Prod.fst = some v) :
    ∃ m, x = some (v, m) := by
  obtain ⟨⟨_, m⟩, hx, rfl⟩ := Option.map_eq_some_iff.1 h
  exact ⟨m, hx⟩

section Independent

variable {PF : Platform} {E : ApexEngine} {schemaName : Name} {L : ExprCompiledLogic}

/-- The first logic of an engine. -/
theorem firstLogic_selected {X : ApexEngine} {name : Name}
    (hfirst : PF.firstKey (X.exprLogic.map (·.1)) = some name)
    (hX : X.exprLogic.lookup name = some L) :
    X.firstLogic PF = (X.schemaMetadata name).map (L, ·) := by
  rw [firstLogic, hfirst, Option.bind_some, hX, Option.bind_some]

/-- The other logics of the engine do not matter. -/
theorem firstLogic_alone {X : ApexEngine} {name : Name} {md : SchemaMetadata}
    (hfirst : PF.firstKey (X.exprLogic.map (·.1)) = some name)
    (hX : X.exprLogic.lookup name = some L) (hmd : X.schemaMetadata name = some md) :
    firstLogic PF { X with exprLogic := [(name, L)] } = X.firstLogic PF := by
  rw [firstLogic_selected hfirst hX, hmd]
  exact firstLogic_single rfl hmd

/-- **A logic that `set_expression` has put into an engine**, whatever else the engine holds:
its kernel computes the root lane by lane, over the registered fields. -/
theorem setExpression_lanes {P : NodePool} (hP : Built P) {root : ℕ} (hlt : root < P.nextIdx)
    {w : ℕ → (Name → Word) → Word} (hroot : RootValue P root w) (hfresh : Fresh P root)
    {E₀ : ApexEngine} (hreg : ∀ n, Reach P.storage root n → (P.storage n).kind = .LOAD →
      (E₀.registry.getField schemaName (P.storage n).fieldName).isSome = true) {a : ℕ → Annot}
    (hset : setExpression PF E₀ schemaName P.storage P.annot (some root) .BIT_SLICED = .ok (a, E))
    (hL : E.exprLogic.lookup schemaName = some L)
    (hnew : E₀.exprLogic.lookup schemaName ≠ some L) :
    ∃ names, (∀ X name rowStride fields, X.exprLogic = [(name, L)] →
        X.schemaMetadata name = some ⟨rowStride, fields⟩ →
          Installed X L (E₀.registry.getField schemaName) rowStride names) ∧
      L.mode = .BIT_SLICED ∧ L.activeBits = 64 ∧ DependsOn names w ∧ LaneTotals PF L names w ∧
      LaneResults PF L names w := by
  obtain ⟨a₁, hmark, ⟨-, rfl⟩ | ⟨a₂, L', hcomp, hsum, hmsl, hfs, hmode, hkind, hbits, rfl⟩⟩ :=
    setExpression_cases hset
  · exact absurd hL hnew
  obtain rfl := Option.some.inj ((lookup_assignLogic_self E₀.exprLogic schemaName L').symm.trans hL)
  obtain ⟨rfl, -⟩ := generateMode_cpu (by decide) hmsl
  rw [compileMode, if_neg (by decide)] at hcomp
  obtain ⟨hlen, hN⟩ := Numbered.ofCompiled hP hlt hcomp
  generalize Jit.fieldOrder P.storage root = names at hlen hN
  obtain ⟨htable, hlength⟩ := collectFields_table hP hlt hN hlen (hN.forall_names hreg)
  rw [← hfs] at htable hlength
  exact ⟨names, fun X name rowStride fields hX hmd =>
      ⟨⟨name, fields, hX, hmd⟩, hN.nodup, hlen, htable, hlength⟩, hmode, hbits,
    hroot.dependsOn hP ⟨hN.nodup, hN.mem⟩,
    hroot.laneTotals hP hlt hfresh hmark hcomp hsum hkind hN hlen,
    hroot.laneResults hP hlt hfresh hmark hcomp hsum hkind hN hlen⟩

end Independent

/-- **Results do not depend on what is left in the engine.**  For every logic that was
installed in the `BIT_SLICED` mode from a freshly built root that is worth something on
a row, `SUB` included, over registered fields; for every engine that runs it, whatever else
the engine holds; and for all data and numbers of rows: `execute` and `execute_vector` return
the same from any contents of `field_buffers_` and `field_planes_array_`. -/
theorem leftover_irrelevant (PF : Platform) {P : NodePool} (hP : Built P) {root : ℕ}
    (hlt : root < P.nextIdx) (hroot : RowRoot P.storage root) (hfresh : Fresh P root)
    {E₀ E : ApexEngine} {schemaName : Name}
    (hreg : ∀ n, Reach P.storage root n → (P.storage n).kind = .LOAD →
      (E₀.registry.getField schemaName (P.storage n).fieldName).isSome = true) {a : ℕ → Annot}
    (hset : setExpression PF E₀ schemaName P.storage P.annot (some root) .BIT_SLICED = .ok (a, E))
    {L : ExprCompiledLogic} (hL : E.exprLogic.lookup schemaName = some L)
    (hnew : E₀.exprLogic.lookup schemaName ≠ some L) {X : ApexEngine} {name : Name}
    (hfirst : PF.firstKey (X.exprLogic.map (·.1)) = some name)
    (hX : X.exprLogic.lookup name = some L) (D : Doubles) (precisionMultiplier : D.carrier)
    (data : ℕ → BitVec 8) (rowCount : ℕ) :
    ∃ total results, ∀ M : Members, (∃ M', executeFrom PF X M data rowCount = some (total, M')) ∧
      ∃ M', executeVectorFrom PF D precisionMultiplier X M data rowCount = some (results, M') := by
  obtain ⟨w, hvalue⟩ := hroot.value
  obtain ⟨names, hinst, hmode, hbits, hdep, htotals, hresults⟩ :=
    setExpression_lanes hP hlt hvalue hfresh hreg hset hL hnew
  cases hmd : X.schemaMetadata name with
  | none =>
    refine ⟨0, List.replicate rowCount D.zero, fun M => ⟨⟨M, ?_⟩, M, ?_⟩⟩
    · rw [executeFrom, firstLogic_selected hfirst hX, hmd, Option.map_none]
    · rw [executeVectorFrom, firstLogic_selected hfirst hX, hmd, Option.map_none]
  | some md =>
    have hI := hinst { X with exprLogic := [(name, L)] } name md.rowStride md.fields rfl hmd
    have hsame := firstLogic_alone hfirst hX hmd
    let v := rowValue (E₀.registry.getField schemaName) md.rowStride data w
    refine ⟨∑ r ∈ Finset.range rowCount, v r, (List.range rowCount).map fun r =>
      D.entry L.resultKind precisionMultiplier (v r), fun M => ⟨?_, ?_⟩⟩
    · obtain ⟨E', hE'⟩ := hI.execute_lanes hmode hbits htotals hdep M.fieldBuffers data rowCount
      have h := executeFrom_eq PF data { X with exprLogic := [(name, L)] } M rowCount
      rw [executeFrom, hsame, hE'] at h
      exact exists_of_map_fst h
    · have h := executeVectorFrom_eq PF D precisionMultiplier data
        { X with exprLogic := [(name, L)] } M rowCount
      obtain ⟨E', hE'⟩ : ∃ E', executeVector PF D precisionMultiplier _ data rowCount = some (_, E') :=
        hI.executeVector_lanes hmode hbits hresults hdep M.fieldBuffers data rowCount
      rw [executeVectorFrom, hsame, hE'] at h
      exact exists_of_map_fst h

/-! ### Five fields -/

/-- `a == b && (c == d && e == 1)`. -/
def buildFive : StateM NodePool (Option ℕ) := do
  let a ← Builder.Load ['a']
  let b ← Builder.Load ['b']
  let c ← Builder.Load ['c']
  let d ← Builder.Load ['d']
  let e ← Builder.Load ['e']
  let one ← Builder.Const 1
  let ab ← Builder.EQ a b
  let cd ← Builder.EQ c d
  let e1 ← Builder.EQ e one
  let cde ← Builder.And cd e1
  Builder.And ab cde

theorem buildFive_holds : ∃ root P, buildFive NodePool.empty = (some root, P) ∧ Built P ∧
    Holds P (.and (.cmp .eq (.load ['a']) (.load ['b']))
      (.and (.cmp .eq (.load ['c']) (.load ['d'])) (.cmp .eq (.load ['e']) (.const 1)))) root := by
  have hP : Ready NodePool.empty 11 := ⟨.empty, by decide⟩
  obtain ⟨a, P₁, e₁, hP, -, ha⟩ := Builder.load_rule hP ['a']
  obtain ⟨b, P₂, e₂, hP, k₂, hb⟩ := Builder.load_rule hP ['b']
  obtain ⟨c, P₃, e₃, hP, k₃, hc⟩ := Builder.load_rule hP ['c']
  obtain ⟨d, P₄, e₄, hP, k₄, hd⟩ := Builder.load_rule hP ['d']
  obtain ⟨e, P₅, e₅, hP, k₅, he⟩ := Builder.load_rule hP ['e']
  obtain ⟨one, P₆, e₆, hP, k₆, hone⟩ := Builder.const_rule hP 1
  obtain ⟨ab, P₇, e₇, hP, k₇, hab⟩ :=
    Builder.eq_rule hP (k₆ <| k₅ <| k₄ <| k₃ <| k₂ ha) (k₆ <| k₅ <| k₄ <| k₃ hb)
  obtain ⟨cd, P₈, e₈, hP, k₈, hcd⟩ :=
    Builder.eq_rule hP (k₇ <| k₆ <| k₅ <| k₄ hc) (k₇ <| k₆ <| k₅ hd)
  obtain ⟨e1, P₉, e₉, hP, k₉, he1⟩ := Builder.eq_rule hP (k₈ <| k₇ <| k₆ he) (k₈ <| k₇ hone)
  obtain ⟨cde, P₁₀, e₁₀, hP, k₁₀, hcde⟩ := Builder.and_rule hP (k₉ hcd) he1
  obtain ⟨root, P₁₁, e₁₁, hP, -, hroot⟩ := Builder.and_rule hP (k₁₀ <| k₉ <| k₈ hab) hcde
  refine ⟨root, P₁₁, ?_, hP.built, hroot⟩
  rw [buildFive, bind_run e₁, bind_run e₂, bind_run e₃, bind_run e₄, bind_run e₅, bind_run e₆,
    bind_run e₇, bind_run e₈, bind_run e₉, bind_run e₁₀]
  exact e₁₁

/-- The five fields are the first five words of a row. -/
def fiveFields : List FieldDescriptor :=
  [⟨['a'], 0, 64, .UINT64⟩, ⟨['b'], 8, 64, .UINT64⟩, ⟨['c'], 16, 64, .UINT64⟩,
    ⟨['d'], 24, 64, .UINT64⟩, ⟨['e'], 32, 64, .UINT64⟩]

/-- Whether the engine has one logic, which takes the vector gather. -/
def takesSimd5 : Except Jit.Fault ((ℕ → Annot) × ApexEngine) → Bool
  | .ok r => r.2.exprLogic.map (fun x => useSimd5 x.2) = [true]
  | .error _ => false

/-- Numbers without rounding, for quotients by one. -/
def wholeNumbers : Doubles := ⟨ℤ, 0, 1, BitVec.toInt, (· / ·), by decide⟩

/-- 70 rows, of which the last six come through the vector gather of a partial chunk. -/
theorem leftover_irrelevant_five :
    ∃ a E, setExpression .standard (init.registerSchema ['t'] fiveFields 40) ['t']
        (buildFive NodePool.empty).2.storage (buildFive NodePool.empty).2.annot
        (buildFive NodePool.empty).1 .BIT_SLICED = .ok (a, E) ∧
      E.exprLogic.map (fun x => useSimd5 x.2) = [true] ∧
      ∃ total results, ∀ M : Members,
        (∃ M', executeFrom .standard E M (BitVec.ofNat 8) 70 = some (total, M')) ∧
        ∃ M', executeVectorFrom .standard wholeNumbers wholeNumbers.one E M (BitVec.ofNat 8) 70 =
          some (results, M') := by
  have hok : takesSimd5 (setExpression .standard (init.registerSchema ['t'] fiveFields 40) ['t']
      (buildFive NodePool.empty).2.storage (buildFive NodePool.empty).2.annot
      (buildFive NodePool.empty).1 .BIT_SLICED) = true := by decide +kernel
  obtain ⟨root, P, hbuild, hP, hroot⟩ := buildFive_holds
  rw [hbuild] at hok ⊢
  cases hset : setExpression .standard (init.registerSchema ['t'] fiveFields 40) ['t'] P.storage
      P.annot (some root) .BIT_SLICED with
  | error f =>
    rw [hset] at hok
    cases hok
  | ok r =>
    rw [hset] at hok
    have hsimd : r.2.exprLogic.map (fun x => useSimd5 x.2) = [true] := of_decide_eq_true hok
    obtain ⟨_, _, L, -, -, -, -, -, -, -, -, hlogic, -⟩ := setExpression_logic rfl hset
      fun hnil => by rw [hnil] at hsimd; cases hsimd
    have hlookup : r.2.exprLogic.lookup ['t'] = some L := by rw [hlogic]; rfl
    have hfirst : Platform.standard.firstKey (r.2.exprLogic.map (·.1)) = some ['t'] := by
      rw [hlogic]
      rfl
    refine ⟨r.1, r.2, rfl, hsimd, leftover_irrelevant .standard hP hroot.lt
      (.typed hroot.represents rfl) hroot.fresh (fun n hn hk => ?_) hset hlookup
      (by simp [registerSchema, init]) hfirst hlookup _ _ _ _⟩
    have hfields : ∀ f ∈ [['a'], ['b'], ['c'], ['d'], ['e']], ((init.registerSchema ['t'] fiveFields
        40).registry.getField ['t'] f).isSome = true := by decide
    exact hfields _ (hroot.represents.mem_fields hn hk)

end ApexEngine
end Engine
end AarchGate
