/-
# The status of `apex_set_logic`

`apex_set_logic` in `src/api/aarchgate_c_api.cpp`: the C entry point for expressions.
According to `docs/SDK_REFERENCE.md` it returns 0 on success and something else on failure.

The compilers report a failure by a null pointer, and `set_expression` returns on it without
a value.  So the failure does not reach the C function, which returns 0 whenever its pointers
are not null.

* `gaveUp_iff`: when the compiler of a mode gives up.
* `setLogic_reports_iff`: the status says what happened exactly when the compiler does not
  give up.
* `setLogic_wide_sum`: a sum of 129 fields is not installed, and the status is 0.
-/

import AarchGate.Engine.Legacy
import AarchGate.Jit.Accept

namespace AarchGate
namespace Engine

open A64 Ir AarchGate.Core
open Jit (Fault Fits)
open ApexEngine

/-- `exec_mode`. -/
def execMode (mode : ℤ) : ExecutionMode :=
  if mode = 1 then .SCALAR else if mode = 2 then .GPU_THROUGHPUT else .BIT_SLICED

/-- `apex_set_logic`: the status, the metadata left in the nodes and the engine; a missing
value is a null pointer. -/
def apexSetLogic (PF : Platform) (handle : Option LegacyEngine) (schemaName : Option Name)
    (g : ℕ → Node) (a : ℕ → Annot) (irRootPtr : Option ℕ) (mode : ℤ) :
    Except Fault (ℤ × (ℕ → Annot) × Option LegacyEngine) :=
  match handle, schemaName, irRootPtr with
  | some engine, some schemaName, some root =>
    (engine.setExpression PF schemaName g a (some root) (execMode mode)).map fun r =>
      (0, r.1, some r.2)
  | _, _, _ => .ok (-1, a, handle)

section Status

variable (PF : Platform) (E : LegacyEngine) (schemaName : Name) (g : ℕ → Node) (a : ℕ → Annot)
  (root : ℕ) (mode : ExecutionMode)

/-- The compiler gives up on the tree. -/
def GaveUp : Prop :=
  ∃ a₁ a₂, markMode g mode root a = .ok a₁ ∧ compileMode PF g mode a₁ root = (a₂, .error .nullptr)

/-- The compiler finishes the code of the tree, and the runtime does not accept it. -/
def Rejected : Prop :=
  ∃ a₁ a₂ code, markMode g mode root a = .ok a₁ ∧
    compileMode { PF with rt := fun _ => true } g mode a₁ root = (a₂, .ok code) ∧ PF.rt code = false

/-- `L` is the logic compiled from the tree. -/
def CompiledFrom (L : ExprCompiledLogic) : Prop :=
  ∃ a₁ a₂ a₃, markMode g mode root a = .ok a₁ ∧ compileMode PF g mode a₁ root = (a₂, .ok L.kernel) ∧
    sumMeta g a₂ root = .ok (L.baseSum, L.deltaWeights, L.masksToPopcount) ∧
    generateMode E.toApexEngine schemaName g mode a₂ root = .ok (a₃, L.mslSource) ∧
    L.fields = resizeFields (collectFields g a₂ (E.registry.getField schemaName)
      (NodePool.maxNodes + 1) root fun _ => none) ∧
    L.mode = mode ∧ L.resultKind = (a₃ root).resultKind ∧ L.activeBits = 64

/-- **What the status is to say**: it is 0 exactly when the logic of the schema is the one
compiled from the tree, and when the compiler gives up it is not 0 and what was installed
before is executed. -/
structure Reports (status : ℤ) (E' : LegacyEngine) : Prop where
  success : status = 0 ↔ ∃ L, CompiledFrom PF E schemaName g a root mode L ∧
    E'.exprLogic.lookup schemaName = some L
  failure : GaveUp PF g a root mode → status ≠ 0 ∧
    ∀ data rowCount, E'.execute PF data rowCount = E.execute PF data rowCount

variable {PF E schemaName g a root mode}

theorem GaveUp.compileMode_ne (h : GaveUp PF g a root mode) {a₁ a₂ : ℕ → Annot} {code : List Instr}
    (hmark : markMode g mode root a = .ok a₁) :
    compileMode PF g mode a₁ root ≠ (a₂, .ok code) := by
  obtain ⟨a₁', a₂', hmark', hnull⟩ := h
  obtain rfl := Except.ok.inj (hmark.symm.trans hmark')
  rw [hnull]
  simp

/-- **What the call does**: it returns 0, with the logic installed or with the engine as it
was. -/
theorem apexSetLogic_cases {m : ℤ} (hm : execMode m = mode) {status : ℤ} {a' : ℕ → Annot}
    {E' : LegacyEngine}
    (h : apexSetLogic PF (some E) (some schemaName) g a (some root) m = .ok (status, a', some E')) :
    status = 0 ∧ (GaveUp PF g a root mode ∧ E' = E ∨
      ∃ L, CompiledFrom PF E schemaName g a root mode L ∧ E'.exprLogic.lookup schemaName = some L) := by
  subst hm
  simp only [apexSetLogic, LegacyEngine.setExpression] at h
  cases hset : ApexEngine.setExpression PF E.toApexEngine schemaName g a (some root) (execMode m) with
  | error f =>
    rw [hset] at h
    cases h
  | ok r =>
    obtain ⟨a₃, E₁⟩ := r
    rw [hset] at h
    cases h
    refine ⟨rfl, ?_⟩
    obtain ⟨a₁, hmark, ⟨hnull, hE⟩ | ⟨a₂, L, hcomp, hsum, hmsl, hfs, hmode, hkind, hbits, hE⟩⟩ :=
      setExpression_cases hset
    · refine Or.inl ⟨⟨a₁, a₃, hmark, hnull⟩, ?_⟩
      rw [hE]
    · refine Or.inr ⟨L, ⟨a₁, a₂, a₃, hmark, hcomp, hsum, hmsl, hfs, hmode, hkind, hbits⟩, ?_⟩
      rw [hE]
      exact lookup_assignLogic_self ..

/-- **A failure does not show in the status.** -/
theorem GaveUp.apexSetLogic_eq {m : ℤ} (h : GaveUp PF g a root (execMode m)) (E : LegacyEngine)
    (schemaName : Name) :
    ∃ a', apexSetLogic PF (some E) (some schemaName) g a (some root) m = .ok (0, a', some E) := by
  obtain ⟨a₁, a₂, hmark, hnull⟩ := h
  refine ⟨a₂, ?_⟩
  simp only [apexSetLogic, LegacyEngine.setExpression, ApexEngine.setExpression, hmark, bind,
    Except.bind, hnull]
  rfl

end Status

/-- The compiler of a mode gives up by itself, or the runtime does not accept its code. -/
theorem compileMode_null_iff (PF : Platform) (g : ℕ → Node) (mode : ExecutionMode) (a : ℕ → Annot)
    (root : ℕ) :
    (compileMode PF g mode a root).2 = .error .nullptr ↔
      (compileMode { PF with rt := fun _ => true } g mode a root).2 = .error .nullptr ∨
        ∃ code, (compileMode { PF with rt := fun _ => true } g mode a root).2 = .ok code ∧
          PF.rt code = false := by
  have hrt : (compileMode PF g mode a root).2 =
      (compileMode { PF with rt := fun _ => true } g mode a root).2.bind fun code =>
        if PF.rt code then .ok code else .error .nullptr := by
    unfold compileMode
    split_ifs
    · rw [Jit.compileScalarExpression_rt]
    · rw [Jit.compileExpression_rt]
  rw [hrt]
  cases (compileMode { PF with rt := fun _ => true } g mode a root).2 with
  | error f => simp [Except.bind]
  | ok code => cases hcode : PF.rt code <;> simp [Except.bind, hcode]

/-- **When the compiler gives up**: the runtime does not accept the code, or, in the modes
that go through `compile_expression`, the tree does not fit. -/
theorem gaveUp_iff {PF : Platform} {P : NodePool} (hP : Built P) {root : ℕ} (hroot : root < P.nextIdx)
    (a : ℕ → Annot) (mode : ExecutionMode) :
    GaveUp PF P.storage a root mode ↔ Rejected PF P.storage a root mode ∨
      mode ≠ .SCALAR ∧ (∃ a₁, markMode P.storage mode root a = .ok a₁) ∧ ¬Fits P.storage root := by
  constructor
  · rintro ⟨a₁, a₂, hmark, hnull⟩
    rcases (compileMode_null_iff PF P.storage mode a₁ root).1 (congrArg Prod.snd hnull) with h | h
    · by_cases hs : mode = .SCALAR
      · rw [compileMode, if_pos hs] at h
        exact absurd h (Jit.compileScalarExpression_ne_null _ _ _)
      · rw [compileMode, if_neg hs] at h
        exact Or.inr ⟨hs, ⟨a₁, hmark⟩, (Jit.compileExpression_null_iff hP a₁ hroot 64).1 h⟩
    · obtain ⟨code, hcode, hrt⟩ := h
      exact Or.inl ⟨a₁, _, code, hmark, Prod.ext rfl hcode, hrt⟩
  · rintro (⟨a₁, a₂, code, hmark, hcode, hrt⟩ | ⟨hs, ⟨a₁, hmark⟩, hfits⟩)
    · exact ⟨a₁, _, hmark, Prod.ext rfl ((compileMode_null_iff PF P.storage mode a₁ root).2
        (Or.inr ⟨code, congrArg Prod.snd hcode, hrt⟩))⟩
    · refine ⟨a₁, _, hmark, Prod.ext rfl ((compileMode_null_iff PF P.storage mode a₁ root).2
        (Or.inl ?_))⟩
      rw [compileMode, if_neg hs]
      exact (Jit.compileExpression_null_iff hP a₁ hroot 64).2 hfits

/-- **The status of `apex_set_logic` is right exactly when the compiler does not give up.**
For every engine, every tree and both modes, for a call that returns: the runtime accepts the
code, and in the bit-sliced mode the tree has at most 128 fields and fits into the
scratchpad. -/
theorem setLogic_reports_iff (PF : Platform) {P : NodePool} (hP : Built P) {root : ℕ}
    (hroot : root < P.nextIdx) (E : LegacyEngine) (schemaName : Name) {mode : ℤ}
    (hmode : mode = 0 ∨ mode = 1) {status : ℤ} {a : ℕ → Annot} {E' : LegacyEngine}
    (hcall : apexSetLogic PF (some E) (some schemaName) P.storage P.annot (some root) mode =
      .ok (status, a, some E')) :
    Reports PF E schemaName P.storage P.annot root (execMode mode) status E' ↔
      ¬Rejected PF P.storage P.annot root (execMode mode) ∧ (mode = 0 → Fits P.storage root) := by
  obtain ⟨rfl, hcases⟩ := apexSetLogic_cases rfl hcall
  have hreports : Reports PF E schemaName P.storage P.annot root (execMode mode) 0 E' ↔
      ¬GaveUp PF P.storage P.annot root (execMode mode) := by
    constructor
    · exact fun h hgave => (h.failure hgave).1 rfl
    · intro hgave
      refine ⟨⟨fun _ => ?_, fun _ => rfl⟩, fun h => absurd h hgave⟩
      exact hcases.resolve_left fun h => hgave h.1
  rw [hreports, gaveUp_iff hP hroot, not_or]
  refine and_congr_right fun _ => ?_
  have hmark : ∃ a₁, markMode P.storage (execMode mode) root P.annot = .ok a₁ := by
    rcases hcases with ⟨⟨a₁, _, h, -⟩, -⟩ | ⟨_, ⟨a₁, _, _, h, -⟩, -⟩ <;> exact ⟨a₁, h⟩
  rcases hmode with rfl | rfl
  · simp [execMode, show ∃ a₁, markMode P.storage .BIT_SLICED root P.annot = .ok a₁ from hmark]
  · simp [execMode]

/-- `a > 5` is installed, and the status says so. -/
theorem setLogic_reports_gt :
    ∃ a E', apexSetLogic .standard (some (LegacyEngine.init.registerSchema ['t'] oneField 8))
        (some ['t']) Jit.gtPool.storage Jit.gtPool.annot (some 2) 0 = .ok (0, a, some E') ∧
      Reports .standard (LegacyEngine.init.registerSchema ['t'] oneField 8) ['t'] Jit.gtPool.storage
        Jit.gtPool.annot 2 .BIT_SLICED 0 E' := by
  obtain ⟨a, E, hset, -⟩ := gtPool_accepted .BIT_SLICED
  have hcall : apexSetLogic .standard (some (LegacyEngine.init.registerSchema ['t'] oneField 8))
      (some ['t']) Jit.gtPool.storage Jit.gtPool.annot (some 2) 0 =
        .ok (0, a, some { LegacyEngine.init with toApexEngine := E }) := by
    simp only [apexSetLogic, LegacyEngine.setExpression, show execMode 0 = .BIT_SLICED from rfl,
      show (LegacyEngine.init.registerSchema ['t'] oneField 8).toApexEngine = oneFieldEngine from rfl,
      hset]
    rfl
  refine ⟨a, _, hcall, ?_⟩
  refine (setLogic_reports_iff .standard Jit.gtPool_built (by decide) _ ['t'] (Or.inl rfl) hcall).2
    ⟨?_, ?_⟩
  · rintro ⟨_, _, _, _, _, h⟩
    cases h
  · exact fun _ => ⟨by decide, by decide⟩

/-! ### A sum of 129 fields -/

/-- The names of the fields, which differ in the numbers of their letters. -/
def wideName (i : ℕ) : Name := List.replicate (i / 16) 'a' ++ List.replicate (i % 16) 'b'

theorem wideName_inj {i j : ℕ} (h : wideName i = wideName j) : i = j := by
  have hcount : ∀ k, (wideName k).count 'a' = k / 16 ∧ (wideName k).count 'b' = k % 16 := fun k => by
    simp [wideName, List.count_replicate]
  have ha := congrArg (List.count 'a') h
  have hb := congrArg (List.count 'b') h
  rw [(hcount i).1, (hcount j).1] at ha
  rw [(hcount i).2, (hcount j).2] at hb
  omega

/-- The `Load`s of the first `k` fields. -/
def wideLoads : ℕ → NodePool
  | 0 => .empty
  | k + 1 => (Builder.Load (wideName k) (wideLoads k)).2

theorem wideLoads_spec {k : ℕ} (hk : k ≤ 129) :
    Built (wideLoads k) ∧ (wideLoads k).nextIdx = k ∧
      ∀ i < k, (wideLoads k).storage i = { kind := .LOAD, fieldName := wideName i } := by
  induction k with
  | zero => exact ⟨.empty, rfl, fun i hi => absurd hi (Nat.not_lt_zero i)⟩
  | succ k ih =>
    obtain ⟨hbuilt, hnext, hstorage⟩ := ih (by omega)
    have htake : (wideName k).take 63 = wideName k :=
      List.take_of_length_le (by simp [wideName]; omega)
    have hbuilt' := hbuilt.emplace { kind := .LOAD, fieldName := (wideName k).take 63 } .BITPLANE (by
      simp [Node.children])
    refine ⟨hbuilt', ?_⟩
    have hroom : ¬NodePool.maxNodes ≤ k := by
      have : (130 : ℕ) ≤ NodePool.maxNodes := by decide
      omega
    simp only [wideLoads, Builder.Load, Builder.emplace, hnext, ge_iff_le, if_neg hroom, htake]
    refine ⟨trivial, fun i hi => ?_⟩
    by_cases hik : i = k
    · rw [if_pos hik, hik]
    · rw [if_neg hik]
      exact hstorage i (by omega)

/-- The pool of `Sum` of the 129 `Load`s. -/
def wideSum : NodePool := (Builder.Sum (List.range 129) (wideLoads 129)).2

theorem wideSum_built : Built wideSum := by
  obtain ⟨hbuilt, hnext, -⟩ := wideLoads_spec (Nat.le_refl 129)
  refine hbuilt.emplace { kind := .SUM, operands := List.range 129 } .BITPLANE fun c hc => ?_
  rw [hnext]
  simpa [Node.children] using hc

theorem wideSum_spec : wideSum.nextIdx = 130 ∧
    wideSum.storage 129 = { kind := .SUM, operands := List.range 129 } ∧
      ∀ i < 129, wideSum.storage i = { kind := .LOAD, fieldName := wideName i } := by
  obtain ⟨-, hnext, hstorage⟩ := wideLoads_spec (Nat.le_refl 129)
  have hroom : ¬NodePool.maxNodes ≤ 129 := by decide
  simp only [wideSum, Builder.Sum, Builder.emplace, hnext, ge_iff_le, if_neg hroom]
  refine ⟨trivial, if_pos trivial, fun i hi => ?_⟩
  rw [if_neg (by omega)]
  exact hstorage i hi

/-- It has a field too many. -/
theorem wideSum_not_fits : ¬Fits wideSum.storage 129 := by
  rintro ⟨hfields, -⟩
  obtain ⟨hnext, hsum, hload⟩ := wideSum_spec
  have hsub : (List.range 129).map wideName ⊆ Jit.fieldOrder wideSum.storage 129 := by
    intro f hf
    obtain ⟨i, hi, rfl⟩ := List.mem_map.1 hf
    rw [List.mem_range] at hi
    refine (Jit.mem_fieldOrder wideSum_built (by omega) _).2 ⟨i, ?_, ?_, ?_⟩
    · exact (Reach.refl _ _).child (by rw [hsum]; simpa [Node.children] using hi)
    · rw [hload i hi]
    · rw [hload i hi]
  have hnodup : ((List.range 129).map wideName).Nodup :=
    List.Nodup.map_on (fun _ _ _ _ h => wideName_inj h) List.nodup_range
  have hle := hnodup.length_le_of_subset hsub
  rw [List.length_map, List.length_range] at hle
  omega

/-- The schema of the fields. -/
def wideFields : List FieldDescriptor :=
  (List.range 129).map fun i => ⟨wideName i, 8 * i, 64, .UINT64⟩

/-- The sum of all fields of a schema of 129 is not installed, and the status is 0. -/
theorem setLogic_wide_sum :
    ∃ a, apexSetLogic .standard (some (LegacyEngine.init.registerSchema ['t'] wideFields 1032))
        (some ['t']) wideSum.storage wideSum.annot (some 129) 0 =
          .ok (0, a, some (LegacyEngine.init.registerSchema ['t'] wideFields 1032)) ∧
      (LegacyEngine.init.registerSchema ['t'] wideFields 1032).exprLogic.lookup ['t'] = none := by
  obtain ⟨hnext, hsum, -⟩ := wideSum_spec
  have hmark : ∃ a₁, markMode wideSum.storage .BIT_SLICED 129 wideSum.annot = .ok a₁ := by
    simp [markMode, markSkip, isSumPlusConst, effectiveRoot, hsum, bind, Except.bind]
  have hgave : GaveUp .standard wideSum.storage wideSum.annot 129 (execMode 0) :=
    (gaveUp_iff wideSum_built (by omega) _ _).2 (Or.inr ⟨by decide, hmark, wideSum_not_fits⟩)
  obtain ⟨a, hcall⟩ :=
    hgave.apexSetLogic_eq (LegacyEngine.init.registerSchema ['t'] wideFields 1032) ['t']
  exact ⟨a, hcall, rfl⟩

end Engine
end AarchGate
