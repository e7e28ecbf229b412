/-
# Row results and totals

`execute_vector` takes the result of a kernel apart by rows: it tests a bit of the mask, adds
the weights of the masks a row is in, or puts a number together from its 64 planes.
`execute` goes by columns: it counts the bits of a mask, of the masks with their weights, or
of the planes with their powers of two.

What the two do with one kernel is the same function of the rows (`LaneTotals`,
`LaneResults`), so the integers of `execute_vector`, before they become doubles, add up to
the total of `execute` modulo `2^64` (`vector_sum_eq_total`).
-/

import AarchGate.Engine.Leftover

namespace AarchGate
namespace Engine

open A64 Ir AarchGate.Core Compute BitPlane

/-- The integers themselves in the place of doubles, with no conversion and no division: 1 or
0 for a boolean root, `row_sum` otherwise. -/
def integers : Doubles where
  carrier := Word
  zero := 0
  one := 1
  ofInt64 := id
  div w _ := w
  one_ne_zero := by decide

namespace ApexEngine

/-- `execute` depends on the first logic and the buffers only. -/
theorem execute_congr {PF : Platform} {X Y : ApexEngine} (h : X.firstLogic PF = Y.firstLogic PF)
    (hbufs : X.fieldBuffers = Y.fieldBuffers) (data : ℕ → BitVec 8) (rowCount : ℕ) :
    (execute PF X data rowCount).map Prod.fst = (execute PF Y data rowCount).map Prod.fst := by
  rw [execute, execute, h, hbufs]
  rcases Y.firstLogic PF with _ | ⟨L, md⟩
  · rfl
  · dsimp only
    split_ifs
    · rfl
    · rw [Option.map_map, Option.map_map]
      rfl

/-- So does `execute_vector`. -/
theorem executeVector_congr {PF : Platform} {D : Doubles} {precisionMultiplier : D.carrier}
    {X Y : ApexEngine} (h : X.firstLogic PF = Y.firstLogic PF)
    (hbufs : X.fieldBuffers = Y.fieldBuffers) (data : ℕ → BitVec 8) (rowCount : ℕ) :
    (executeVector PF D precisionMultiplier X data rowCount).map Prod.fst =
      (executeVector PF D precisionMultiplier Y data rowCount).map Prod.fst := by
  rw [executeVector, executeVector, h, hbufs]
  rcases Y.firstLogic PF with _ | ⟨L, md⟩
  · rfl
  · dsimp only
    rw [Option.map_map, Option.map_map]
    rfl

/-- A boolean root is worth a bit in every lane. -/
theorem LaneResults.isBit {PF : Platform} {L : ExprCompiledLogic} {names : List Name}
    {w : ℕ → (Name → Word) → Word} (h : LaneResults PF L names w) (hL : L.resultKind = .BITMASK)
    {r : ℕ} (hr : r < 64) (row : Name → Word) : ∃ b, w r row = bit b := by
  -- columns with the row in every lane
  have hcols : HoldsPlanes names (fun _ => row)
      fun i => names[i]?.map fun f => laneOf 64 fun _ => row f := fun i f hf =>
    ⟨_, congrArg (Option.map _) hf, (planes_laneOf _).symm⟩
  obtain ⟨m, -, hrow⟩ := h _ _ hcols
  have hbit := hrow r hr
  rw [rowResult, if_pos hL, shiftRight_and_one] at hbit
  exact ⟨_, (Option.some.inj hbit).symm⟩

/-- What is stored for an integer result is the integer. -/
theorem integers_entry {PF : Platform} {L : ExprCompiledLogic} {names : List Name}
    {w : ℕ → (Name → Word) → Word} (h : LaneResults PF L names w) {r : ℕ} (hr : r < 64)
    (row : Name → Word) : integers.entry L.resultKind integers.one (w r row) = w r row := by
  unfold Doubles.entry
  split_ifs with hL hne
  · obtain ⟨b, hb⟩ := h.isBit hL hr row
    rw [hb, bit_ne_zero] at hne
    rw [hb, hne]
    rfl
  · exact (not_not.1 hne).symm
  · rfl

/-- **Row results and totals agree.**  For every logic that was installed in the `BIT_SLICED`
mode from a freshly built root that is worth something on a row, over registered fields; for
every engine that runs it; and for all data and numbers of rows: the integer results of
`execute_vector` add up to what `execute` returns, modulo `2^64`; for any format of doubles
its results are these integers converted. -/
theorem vector_sum_eq_total (PF : Platform) {P : NodePool} (hP : Built P) {root : ℕ}
    (hlt : root < P.nextIdx) (hroot : RowRoot P.storage root) (hfresh : Fresh P root)
    {E₀ E : ApexEngine} {schemaName : Name}
    (hreg : ∀ n, Reach P.storage root n → (P.storage n).kind = .LOAD →
      (E₀.registry.getField schemaName (P.storage n).fieldName).isSome = true) {a : ℕ → Annot}
    (hset : setExpression PF E₀ schemaName P.storage P.annot (some root) .BIT_SLICED = .ok (a, E))
    {L : ExprCompiledLogic} (hL : E.exprLogic.lookup schemaName = some L)
    (hnew : E₀.exprLogic.lookup schemaName ≠ some L) {X : ApexEngine} {name : Name}
    (hfirst : PF.firstKey (X.exprLogic.map (·.1)) = some name)
    (hX : X.exprLogic.lookup name = some L) (data : ℕ → BitVec 8) (rowCount : ℕ) :
    ∃ rows : List Word, rows.length = rowCount ∧
      (∃ X', executeVector PF integers integers.one X data rowCount = some (rows, X')) ∧
      (∃ X', execute PF X data rowCount = some (rows.sum, X')) ∧
      ((X.schemaMetadata name).isSome = true → ∀ (D : Doubles) (precisionMultiplier : D.carrier),
        ∃ X', executeVector PF D precisionMultiplier X data rowCount =
          some (rows.map (D.entry L.resultKind precisionMultiplier), X')) := by
  obtain ⟨w, hvalue⟩ := hroot.value
  obtain ⟨names, hinst, hmode, hbits, hdep, htotals, hresults⟩ :=
    setExpression_lanes hP hlt hvalue hfresh hreg hset hL hnew
  cases hmd : X.schemaMetadata name with
  | none =>
    refine ⟨List.replicate rowCount 0, List.length_replicate, ⟨X, ?_⟩, ⟨X, ?_⟩, nofun⟩
    · rw [executeVector, firstLogic_selected hfirst hX, hmd, Option.map_none]
      rfl
    · rw [execute, firstLogic_selected hfirst hX, hmd, Option.map_none, List.sum_replicate, smul_zero]
  | some md =>
    have hI := hinst { X with exprLogic := [(name, L)] } name md.rowStride md.fields rfl hmd
    have hsame := (firstLogic_alone hfirst hX hmd).symm
    have hvec : ∀ (D : Doubles) (precisionMultiplier : D.carrier), ∃ X', executeVector PF D
        precisionMultiplier X data rowCount = some ((List.range rowCount).map fun r =>
          D.entry L.resultKind precisionMultiplier
            (rowValue (E₀.registry.getField schemaName) md.rowStride data w r), X') := by
      intro D precisionMultiplier
      obtain ⟨X', hrun⟩ : ∃ X', executeVector PF D precisionMultiplier _ data rowCount =
          some (_, X') := hI.executeVector_lanes hmode hbits hresults hdep X.fieldBuffers data rowCount
      exact exists_of_map_fst ((executeVector_congr hsame rfl data rowCount).trans
        (congrArg (Option.map Prod.fst) hrun))
    refine ⟨(List.range rowCount).map (rowValue (E₀.registry.getField schemaName) md.rowStride data w),
      by simp, ?_, ?_, fun _ D precisionMultiplier => ?_⟩
    · obtain ⟨X', hrun⟩ := hvec integers integers.one
      refine ⟨X', hrun.trans (congrArg (fun rows => some (rows, X')) (List.map_congr_left fun r _ => ?_))⟩
      exact integers_entry hresults (Nat.mod_lt r (by decide)) _
    · obtain ⟨X', hrun⟩ := hI.execute_lanes hmode hbits htotals hdep X.fieldBuffers data rowCount
      exact exists_of_map_fst ((execute_congr hsame rfl data rowCount).trans
        (congrArg (Option.map Prod.fst) hrun))
    · rw [List.map_map]
      exact hvec D precisionMultiplier

/-- A sum of a `SELECT` and a weighted condition plus 100, on 70 rows. -/
theorem vector_sum_eq_total_forest :
    ∃ a E, setExpression .standard oneFieldEngine ['t'] forestPool.storage forestPool.annot (some 8)
        .BIT_SLICED = .ok (a, E) ∧
      ∃ rows : List Word, rows.length = 70 ∧
        (∃ E', executeVector .standard integers integers.one E (BitVec.ofNat 8) 70 =
          some (rows, E')) ∧
        ∃ E', execute .standard E (BitVec.ofNat 8) 70 = some (rows.sum, E') := by
  obtain ⟨a, E, hset, hacc⟩ := forestPool_accepted
  obtain ⟨_, _, L, -, -, -, -, -, -, -, -, hlogic, -⟩ := setExpression_logic rfl hset hacc
  have hlookup : E.exprLogic.lookup ['t'] = some L := by rw [hlogic]; rfl
  have hfirst : Platform.standard.firstKey (E.exprLogic.map (·.1)) = some ['t'] := by
    rw [hlogic]
    rfl
  have hreg : ∀ n, Reach forestPool.storage 8 n → (forestPool.storage n).kind = .LOAD →
      (oneFieldEngine.registry.getField ['t'] (forestPool.storage n).fieldName).isSome = true := by
    intro n hn
    have := forestPool_pristine.built.reach_le hn
    interval_cases n <;> decide
  obtain ⟨rows, hlen, hvec, hexec, -⟩ := vector_sum_eq_total .standard forestPool_pristine.built (by decide)
    (.forest forestPool_root forestPool_summand) (forestPool_pristine.fresh 8) hreg hset hlookup
    (by simp [oneFieldEngine, registerSchema, init]) hfirst hlookup (BitVec.ofNat 8) 70
  exact ⟨a, E, hset, rows, hlen, hvec, hexec⟩

end ApexEngine
end Engine
end AarchGate
