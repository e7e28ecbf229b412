/-
# Which logic is executed

The logics of an engine are kept in two maps by the name of the schema, and `execute` and
`execute_parallel` choose by position: the first expression in the iteration order of its
map, and without expressions the first logic on a single field.  What the last call
installed does not enter into it.

`evaluates_last_iff` says for which sequences of calls the logic installed last is the one
that is executed in every iteration order: the last call that installs is a
`set_expression` and every other `set_expression` names the same schema, or there is none
and every `set_logic` names the same schema.  `expression_hides_logic` is a sequence over
one schema on which it fails.
-/

import AarchGate.Engine.Legacy

namespace AarchGate
namespace Engine

open A64 Ir AarchGate.Core Compute BitPlane
open Jit (Fault compileComparison)
open ApexEngine

/-- The same machine with another iteration order of the maps. -/
def Platform.withOrder (PF : Platform) (firstKey : List Name → Option Name)
    (h : ∀ ks, ks ≠ [] → ∃ k ∈ ks, firstKey ks = some k) : Platform :=
  { PF with firstKey := firstKey, firstKey_mem := h }

/-! ### The calls and what they install -/

/-- A call that configures an engine. -/
inductive Config where
  | registerSchema (schemaName : Name) (fields : List FieldDescriptor) (totalRowStride : ℕ)
  | setLogic (schemaName fieldName : Name) (threshold : Word)
  | setExpression (schemaName : Name) (g : ℕ → Node) (a : ℕ → Annot) (root : ℕ)
      (mode : ExecutionMode)

/-- A logic of an engine, with its schema. -/
inductive Install where
  | logic (schemaName : Name) (L : CompiledLogic)
  | expression (schemaName : Name) (L : ExprCompiledLogic)

/-- The schema a call installs logic for, and the mode of an expression. -/
def Config.target : Config → Option (Name × Option ExecutionMode)
  | .registerSchema .. => none
  | .setLogic schemaName _ _ => some (schemaName, none)
  | .setExpression schemaName _ _ _ mode => some (schemaName, some mode)

/-- The row stride a call gives a schema. -/
def Config.rowStride (schemaName : Name) : Config → Option ℕ
  | .registerSchema name _ totalRowStride => if name = schemaName then some totalRowStride else none
  | _ => none

/-- The schema and the mode of a logic. -/
def Install.target : Install → Name × Option ExecutionMode
  | .logic schemaName _ => (schemaName, none)
  | .expression schemaName L => (schemaName, some L.mode)

namespace LegacyEngine

/-- The expression compiles: no null pointer, and nothing undefined. -/
def Compiles (PF : Platform) (g : ℕ → Node) (a : ℕ → Annot) (root : ℕ) (mode : ExecutionMode) :
    Prop :=
  ∃ a₁ a₂ code, markMode g mode root a = .ok a₁ ∧ compileMode PF g mode a₁ root = (a₂, .ok code)

/-- The engine `E` after the calls on a new one, all of which compile for schemas that are
registered, and the logics they installed. -/
inductive Configured (PF : Platform) : List Config → List Install → LegacyEngine → Prop
  | init : Configured PF [] [] init
  | registerSchema {cs is E} (schemaName fields totalRowStride) (h : Configured PF cs is E) :
      Configured PF (cs ++ [.registerSchema schemaName fields totalRowStride]) is
        (E.registerSchema schemaName fields totalRowStride)
  | setLogic {cs is E schemaName fieldName threshold field code} (h : Configured PF cs is E)
      (hreg : (E.schemaMetadata schemaName).isSome)
      (hfield : E.registry.getField schemaName fieldName = some field)
      (hcode : compileComparison PF.rt threshold = some code) :
      Configured PF (cs ++ [.setLogic schemaName fieldName threshold])
        (is ++ [.logic schemaName ⟨field, some code⟩]) (E.setLogic PF schemaName fieldName threshold)
  | setExpression {cs is E schemaName g a root mode a' E' L} (h : Configured PF cs is E)
      (hreg : (E.schemaMetadata schemaName).isSome) (hcomp : Compiles PF g a root mode)
      (hset : E.setExpression PF schemaName g a (some root) mode = .ok (a', E'))
      (hL : E'.exprLogic.lookup schemaName = some L) :
      Configured PF (cs ++ [.setExpression schemaName g a root mode])
        (is ++ [.expression schemaName L]) E'

/-! ### What is executed -/

end LegacyEngine

namespace Install

variable (PF : Platform) (E : LegacyEngine) (rowStride : ℕ) (data : ℕ → BitVec 8) (rowCount : ℕ)

/-- A call of `execute` that evaluates the data with the logic. -/
def execute : Install → Option (Word × LegacyEngine)
  | .logic _ L =>
    (L.legacyChunks PF data rowStride rowCount (List.range ((rowCount + 63) / 64)) 0
      (E.fieldBuffers 0)).map fun r =>
        (r.1, { E with fieldBuffers := Function.update E.fieldBuffers 0 r.2 })
  | .expression _ L =>
    (executeChunks PF L data rowStride rowCount (List.range ((rowCount + 63) / 64)) 0
      E.fieldBuffers).map fun r => (r.1, { E with fieldBuffers := r.2 })

/-- … and of `execute_parallel`; the logic on a single field has no parallel form. -/
def executeParallel (numThreads : ℤ) (bufs : ℕ → ℕ → ColumnBuffer) : Install → Option Word
  | .logic schemaName L =>
    ((Install.logic schemaName L).execute PF E rowStride data rowCount).map (·.1)
  | .expression _ L => ParallelRunner.run PF { L with rowStride } data rowCount
      (if numThreads ≤ 0 then E.numThreads else numThreads) bufs

end Install

namespace LegacyEngine

/-- The logic `execute` and `execute_parallel` take. -/
def selected (PF : Platform) (E : LegacyEngine) : Option Install :=
  if E.exprLogic = [] then
    (PF.firstKey (E.compiledLogic.map (·.1))).bind fun s => (E.compiledLogic.lookup s).map (.logic s)
  else (PF.firstKey (E.exprLogic.map (·.1))).bind fun s => (E.exprLogic.lookup s).map (.expression s)

/-- The engine evaluates its data with the logic `i` and the row stride `w`. -/
structure Evaluates (PF : Platform) (E : LegacyEngine) (i : Install) (w : ℕ) : Prop where
  selected : E.selected PF = some i
  rowStride : (E.schemaMetadata i.target.1).map (·.rowStride) = some w
  -- `execute` returns 0 in this mode, on a platform without the GPU
  cpu : i.target.2 ≠ some .GPU_THROUGHPUT
  execute : ∀ data rowCount, E.execute PF data rowCount = i.execute PF E w data rowCount
  executeParallel : ∀ data rowCount numThreads bufs,
    E.executeParallel PF data rowCount numThreads bufs =
      i.executeParallel PF E w data rowCount numThreads bufs

/-- **What is selected is executed.** -/
theorem evaluates_of_selected {PF : Platform} {E : LegacyEngine} {i : Install} {w : ℕ}
    (hsel : E.selected PF = some i) (hw : (E.schemaMetadata i.target.1).map (·.rowStride) = some w)
    (hcpu : i.target.2 ≠ some .GPU_THROUGHPUT) : Evaluates PF E i w := by
  obtain ⟨md, hmd, rfl⟩ := Option.map_eq_some_iff.1 hw
  rw [selected] at hsel
  split_ifs at hsel with hexpr
  · obtain ⟨s, hkey, hi⟩ := Option.bind_eq_some_iff.1 hsel
    obtain ⟨L, hL, rfl⟩ := Option.map_eq_some_iff.1 hi
    have hne : E.compiledLogic ≠ [] := by
      rintro h
      rw [h] at hL
      cases hL
    have hexec : ∀ data rowCount, E.execute PF data rowCount =
        (Install.logic s L).execute PF E md.rowStride data rowCount := by
      intro data rowCount
      have hmd' : E.schemaMetadata s = some md := hmd
      simp only [LegacyEngine.execute, if_pos hexpr, executeLegacy, if_neg hne, hkey, hL, hmd',
        Install.execute]
    refine ⟨by rw [selected, if_pos hexpr, hkey]; simp [hL], hw, hcpu, hexec, ?_⟩
    intro data rowCount numThreads bufs
    rw [LegacyEngine.executeParallel, if_pos hexpr, hexec, Install.executeParallel]
  · obtain ⟨s, hkey, hi⟩ := Option.bind_eq_some_iff.1 hsel
    obtain ⟨L, hL, rfl⟩ := Option.map_eq_some_iff.1 hi
    have hmd' : E.schemaMetadata s = some md := hmd
    have hmode : L.mode ≠ .GPU_THROUGHPUT := fun h => hcpu (congrArg some h)
    refine ⟨by rw [selected, if_neg hexpr, hkey]; simp [hL], hw, hcpu, ?_, ?_⟩
    · intro data rowCount
      simp only [LegacyEngine.execute, if_neg hexpr, ApexEngine.execute, firstLogic, hkey, hL, hmd',
        Option.bind_some, Option.map_some, if_neg hmode, Install.execute, Option.map_map]
      rfl
    · intro data rowCount numThreads bufs
      simp only [LegacyEngine.executeParallel, if_neg hexpr, ApexEngine.executeParallel, hkey, hL,
        hmd', Install.executeParallel]

/-! ### What the calls leave behind -/

/-- The engine holds the logic. -/
def Holds (E : LegacyEngine) : Install → Prop
  | .logic schemaName L => E.compiledLogic.lookup schemaName = some L
  | .expression schemaName L => E.exprLogic.lookup schemaName = some L

/-- What the calls leave in the maps: a key for every schema that was named, the last row
stride of every schema, and the logic installed last. -/
structure Recorded (cs : List Config) (is : List Install) (E : LegacyEngine) : Prop where
  targets : cs.filterMap Config.target = is.map Install.target
  exprs : ∀ s, s ∈ E.exprLogic.map (·.1) ↔ ∃ mode, (s, some mode) ∈ is.map Install.target
  logics : ∀ s, s ∈ E.compiledLogic.map (·.1) ↔ (s, none) ∈ is.map Install.target
  strides : ∀ s, (E.schemaMetadata s).map (·.rowStride) =
    (cs.filterMap (Config.rowStride s)).getLast?
  last : ∀ i, is.getLast? = some i → E.Holds i

/-- What a `set_expression` that compiles does. -/
theorem setExpression_compiled {PF : Platform} {E E' : LegacyEngine} {schemaName : Name}
    {g : ℕ → Node} {a a' : ℕ → Annot} {root : ℕ} {mode : ExecutionMode} {L : ExprCompiledLogic}
    (hcomp : Compiles PF g a root mode)
    (hset : E.setExpression PF schemaName g a (some root) mode = .ok (a', E'))
    (hL : E'.exprLogic.lookup schemaName = some L) :
    E' = { E with exprLogic := assignLogic E.exprLogic schemaName L } ∧ L.mode = mode := by
  rw [setExpression] at hset
  cases hset' : ApexEngine.setExpression PF E.toApexEngine schemaName g a (some root) mode with
  | error f =>
    rw [hset'] at hset
    cases hset
  | ok r =>
    rw [hset'] at hset
    obtain ⟨rfl, rfl⟩ := Prod.mk.inj (Except.ok.inj hset)
    obtain ⟨a₁, hmark, ⟨hnull, -⟩ | ⟨a₂, L', -, -, -, -, hmode, -, -, hE⟩⟩ := setExpression_cases hset'
    · obtain ⟨a₁', a₂, code, hmark', hcode⟩ := hcomp
      obtain rfl := Except.ok.inj (hmark.symm.trans hmark')
      rw [hcode] at hnull
      cases hnull
    · rw [hE] at hL ⊢
      obtain rfl : L' = L := by simpa using hL
      exact ⟨rfl, hmode⟩

section Recorded

variable {cs : List Config} {is : List Install} {E : LegacyEngine}

/-- `register_schema` changes the row stride of its schema. -/
theorem Recorded.registerSchema (h : Recorded cs is E) (schemaName : Name)
    (fields : List FieldDescriptor) (totalRowStride : ℕ) :
    Recorded (cs ++ [.registerSchema schemaName fields totalRowStride]) is
      (E.registerSchema schemaName fields totalRowStride) where
  targets := by simp [h.targets, Config.target]
  exprs := h.exprs
  logics := h.logics
  strides s := by
    simp only [List.filterMap_append, List.filterMap_cons, List.filterMap_nil, Config.rowStride,
      LegacyEngine.registerSchema, ApexEngine.registerSchema]
    by_cases hs : s = schemaName
    · subst hs
      rw [if_pos rfl, Map.assign_self, List.getLast?_concat]
      rfl
    · rw [if_neg (Ne.symm hs), Map.assign_ne _ hs, List.append_nil]
      exact h.strides s
  last i hi := by
    have := h.last i hi
    cases i <;> exact this

/-- `set_logic` replaces the logic on a single field of its schema. -/
theorem Recorded.setLogic (h : Recorded cs is E) (schemaName fieldName : Name) (threshold : Word)
    (L : CompiledLogic) :
    Recorded (cs ++ [.setLogic schemaName fieldName threshold]) (is ++ [.logic schemaName L])
      { E with compiledLogic := assignLogic E.compiledLogic schemaName L } where
  targets := by simp [h.targets, Config.target, Install.target]
  exprs s := by simp [h.exprs s, Install.target]
  logics s := by
    rw [mem_keys_assignLogic, h.logics s]
    simp [Install.target, or_comm]
  strides s := by
    rw [List.filterMap_append, List.filterMap_cons_none rfl, List.filterMap_nil, List.append_nil]
    exact h.strides s
  last i hi := by
    rw [List.getLast?_concat, Option.some.injEq] at hi
    subst hi
    exact lookup_assignLogic_self ..

/-- `set_expression` replaces the expression of its schema. -/
theorem Recorded.setExpression (h : Recorded cs is E) (schemaName : Name) (g : ℕ → Node)
    (a : ℕ → Annot) (root : ℕ) (L : ExprCompiledLogic) :
    Recorded (cs ++ [.setExpression schemaName g a root L.mode]) (is ++ [.expression schemaName L])
      { E with exprLogic := assignLogic E.exprLogic schemaName L } where
  targets := by simp [h.targets, Config.target, Install.target]
  exprs s := by
    rw [mem_keys_assignLogic, h.exprs s, List.map_append, List.map_singleton]
    simp only [List.mem_append, Install.target, List.mem_singleton, Prod.mk.injEq,
      Option.some.injEq, exists_or, exists_and_left, exists_eq, and_true]
    exact or_comm
  logics s := by simp [h.logics s, Install.target]
  strides s := by
    rw [List.filterMap_append, List.filterMap_cons_none rfl, List.filterMap_nil, List.append_nil]
    exact h.strides s
  last i hi := by
    rw [List.getLast?_concat, Option.some.injEq] at hi
    subst hi
    exact lookup_assignLogic_self ..

end Recorded

/-- **Every call keeps the record.** -/
theorem Configured.recorded {PF : Platform} {cs : List Config} {is : List Install} {E : LegacyEngine}
    (h : Configured PF cs is E) : Recorded cs is E := by
  induction h with
  | init =>
    exact ⟨rfl, by simp [LegacyEngine.init, ApexEngine.init], by simp [LegacyEngine.init],
      fun _ => rfl, fun _ h => by cases h⟩
  | registerSchema schemaName fields totalRowStride _ ih =>
    exact ih.registerSchema schemaName fields totalRowStride
  | setLogic _ _ hfield hcode ih =>
    rw [LegacyEngine.setLogic, hfield, hcode]
    exact ih.setLogic ..
  | setExpression _ _ hcomp hset hL ih =>
    obtain ⟨rfl, rfl⟩ := setExpression_compiled hcomp hset hL
    exact ih.setExpression ..

/-! ### The logic installed last -/

/-- The calls leave no choice but the logic installed last. -/
def Determined (ts : List (Name × Option ExecutionMode)) : Prop :=
  match ts.getLast? with
  | none => False
  | some (s, some mode) => mode ≠ .GPU_THROUGHPUT ∧ ∀ t ∈ ts, t.2.isSome = true → t.1 = s
  | some (s, none) => ∀ t ∈ ts, t = (s, none)

instance (ts : List (Name × Option ExecutionMode)) : Decidable (Determined ts) := by
  unfold Determined
  split <;> infer_instance

/-- An order that begins with a given key, if it is there. -/
theorem firstKey_choose (s : Name) (ks : List Name) (hks : ks ≠ []) :
    ∃ k ∈ ks, (if s ∈ ks then some s else ks.head?) = some k := by
  by_cases hs : s ∈ ks
  · exact ⟨s, hs, if_pos hs⟩
  · exact ⟨ks.head hks, List.head_mem hks, by rw [if_neg hs, List.head?_eq_some_head hks]⟩

/-- The keys leave no choice. -/
theorem firstKey_eq_some {PF : Platform} {ks : List Name} {s : Name} (hne : ks ≠ [])
    (h : ∀ k ∈ ks, k = s) : PF.firstKey ks = some s := by
  obtain ⟨k, hk, hfirst⟩ := PF.firstKey_mem ks hne
  rw [hfirst, h k hk]

/-- Every expression can be the first. -/
theorem selected_choose_expression (PF : Platform) {E : LegacyEngine} {s : Name}
    (hs : s ∈ E.exprLogic.map (·.1)) :
    ∃ L, E.selected (PF.withOrder _ (firstKey_choose s)) = some (.expression s L) := by
  obtain ⟨L, hL⟩ := exists_lookup_of_mem hs
  have hne : E.exprLogic ≠ [] := fun h => by simp [h] at hs
  refine ⟨L, ?_⟩
  rw [selected, if_neg hne]
  simp only [Platform.withOrder, if_pos hs, Option.bind_some, hL, Option.map_some]

/-- Without expressions, so can every logic on a single field. -/
theorem selected_choose_logic (PF : Platform) {E : LegacyEngine} {s : Name} (hexpr : E.exprLogic = [])
    (hs : s ∈ E.compiledLogic.map (·.1)) :
    ∃ L, E.selected (PF.withOrder _ (firstKey_choose s)) = some (.logic s L) := by
  obtain ⟨L, hL⟩ := exists_lookup_of_mem hs
  refine ⟨L, ?_⟩
  rw [selected, if_pos hexpr]
  simp only [Platform.withOrder, if_pos hs, Option.bind_some, hL, Option.map_some]

/-- An expression that is the only one. -/
theorem selected_expression {PF : Platform} {E : LegacyEngine} {s : Name} {L : ExprCompiledLogic}
    (hL : E.exprLogic.lookup s = some L) (hkeys : ∀ k ∈ E.exprLogic.map (·.1), k = s) :
    E.selected PF = some (.expression s L) := by
  have hne : E.exprLogic ≠ [] := fun h => by simp [h] at hL
  rw [selected, if_neg hne, firstKey_eq_some (by simpa using hne) hkeys, Option.bind_some, hL,
    Option.map_some]

/-- A logic on a single field that is the only one. -/
theorem selected_logic {PF : Platform} {E : LegacyEngine} {s : Name} {L : CompiledLogic}
    (hexpr : E.exprLogic = []) (hL : E.compiledLogic.lookup s = some L)
    (hkeys : ∀ k ∈ E.compiledLogic.map (·.1), k = s) : E.selected PF = some (.logic s L) := by
  have hne : E.compiledLogic ≠ [] := fun h => by simp [h] at hL
  rw [selected, if_pos hexpr, firstKey_eq_some (by simpa using hne) hkeys, Option.bind_some, hL,
    Option.map_some]

section Last

variable {PF : Platform} {cs : List Config} {pre : List Install} {E : LegacyEngine} {i : Install}

/-- Calls of `set_logic` alone leave no expression. -/
theorem Recorded.exprLogic_eq_nil {is : List Install} (h : Recorded cs is E)
    (hnone : ∀ t ∈ is.map Install.target, t.2 = none) : E.exprLogic = [] := by
  by_contra hne
  obtain ⟨p, hp⟩ := List.exists_mem_of_ne_nil _ hne
  obtain ⟨mode, hmode⟩ := (h.exprs p.1).1 (List.mem_map_of_mem hp)
  exact absurd (hnone _ hmode) (by simp)

/-- If there is no choice, the last logic is selected. -/
theorem Recorded.selected_of_determined (h : Recorded cs (pre ++ [i]) E)
    (hdet : Determined ((pre ++ [i]).map Install.target)) :
    E.selected PF = some i ∧ i.target.2 ≠ some .GPU_THROUGHPUT := by
  have hlast := h.last i List.getLast?_concat
  have hget : ((pre ++ [i]).map Install.target).getLast? = some i.target := by simp
  rw [Determined, hget] at hdet
  cases i with
  | expression s L =>
    obtain ⟨hmode, hsame⟩ := hdet
    refine ⟨selected_expression hlast fun k hk => ?_, fun hgpu => hmode (Option.some.inj hgpu)⟩
    obtain ⟨mode, hk'⟩ := (h.exprs k).1 hk
    exact hsame _ hk' rfl
  | logic s L =>
    refine ⟨selected_logic (h.exprLogic_eq_nil fun t ht => ?_) hlast fun k hk => ?_,
      by simp [Install.target]⟩
    · rw [hdet t ht]
    · exact congrArg Prod.fst (hdet _ ((h.logics k).1 hk))

/-- If the last logic is selected in every order, there is no choice: every other one is
the first in some order. -/
theorem Recorded.determined_of_selected (h : Recorded cs (pre ++ [i]) E)
    (hsel : ∀ firstKey hfirst, E.selected (PF.withOrder firstKey hfirst) = some i)
    (hcpu : i.target.2 ≠ some .GPU_THROUGHPUT) :
    Determined ((pre ++ [i]).map Install.target) := by
  have hother : ∀ t ∈ (pre ++ [i]).map Install.target, t.2.isSome = true →
      t.1 = i.target.1 ∧ i.target.2.isSome = true := by
    rintro ⟨s, mode⟩ ht hmode
    obtain ⟨mode, rfl⟩ := Option.isSome_iff_exists.1 hmode
    obtain ⟨L, hL⟩ := selected_choose_expression PF ((h.exprs s).2 ⟨mode, ht⟩)
    obtain rfl := Option.some.inj (hL.symm.trans (hsel _ (firstKey_choose s)))
    exact ⟨rfl, rfl⟩
  have hget : ((pre ++ [i]).map Install.target).getLast? = some i.target := by simp
  rw [Determined, hget]
  cases i with
  | expression s L =>
    exact ⟨fun hmode => hcpu (congrArg some hmode), fun t ht hsome => (hother t ht hsome).1⟩
  | logic s L =>
    have hnone : ∀ t ∈ (pre ++ [Install.logic s L]).map Install.target, t.2 = none := by
      intro t ht
      by_contra hsome
      exact absurd (hother t ht (Option.isSome_iff_ne_none.2 hsome)).2 (by simp [Install.target])
    rintro ⟨s', mode⟩ ht
    obtain rfl : mode = none := hnone _ ht
    obtain ⟨L', hL'⟩ := selected_choose_logic PF (h.exprLogic_eq_nil hnone) ((h.logics s').2 ht)
    obtain ⟨rfl, -⟩ : s' = s ∧ L' = L := by
      simpa using hL'.symm.trans (hsel _ (firstKey_choose s'))
    rfl

end Last

/-- **The logic that was installed last.**  After a sequence of calls that all compile, it
is what `execute` and `execute_parallel` evaluate their data with, in every iteration order
of the maps, with the row stride `w`, if and only if the calls leave no choice and `w` is
the stride its schema was registered with last. -/
theorem evaluates_last_iff {PF : Platform} {cs : List Config} {is : List Install} {E : LegacyEngine}
    (h : Configured PF cs is E) {i : Install} (hi : is.getLast? = some i) (w : ℕ) :
    (∀ firstKey hfirst, Evaluates (PF.withOrder firstKey hfirst) E i w) ↔
      Determined (cs.filterMap Config.target) ∧
        (cs.filterMap (Config.rowStride i.target.1)).getLast? = some w := by
  have hR := h.recorded
  obtain ⟨pre, rfl⟩ := List.getLast?_eq_some_iff.1 hi
  rw [hR.targets, ← hR.strides]
  constructor
  · intro hall
    have hstd := hall PF.firstKey PF.firstKey_mem
    exact ⟨hR.determined_of_selected (fun _ hfirst => (hall _ hfirst).selected) hstd.cpu,
      hstd.rowStride⟩
  · rintro ⟨hdet, hw⟩ firstKey hfirst
    obtain ⟨hsel, hcpu⟩ := hR.selected_of_determined hdet
    exact evaluates_of_selected hsel hw hcpu

/-- The comparison kernel on the standard machine. -/
def standardComparison (threshold : Word) : List Instr :=
  Jit.Comparison.block threshold ++ [.ret (.x 30)]

/-- A new engine that knows the schema of one field. -/
def oneFieldLegacy : LegacyEngine := init.registerSchema ['t'] oneField 8

theorem oneFieldLegacy_configured :
    Configured .standard [.registerSchema ['t'] oneField 8] [] oneFieldLegacy :=
  .registerSchema _ _ _ .init

/-- A logic on the field that replaces another one. -/
theorem evaluates_last_replaced :
    Evaluates .standard
      ((oneFieldLegacy.setLogic .standard ['t'] ['a'] 5).setLogic .standard ['t'] ['a'] 20)
      (.logic ['t'] ⟨⟨['a'], 0, 64, .UINT64⟩, some (standardComparison 20)⟩) 8 := by
  have h₁ : Configured .standard ([.registerSchema ['t'] oneField 8] ++ [.setLogic ['t'] ['a'] 5])
      ([] ++ [.logic ['t'] ⟨⟨['a'], 0, 64, .UINT64⟩, some (standardComparison 5)⟩])
      (oneFieldLegacy.setLogic .standard ['t'] ['a'] 5) :=
    .setLogic oneFieldLegacy_configured rfl rfl rfl
  have h₂ : Configured .standard
      ([.registerSchema ['t'] oneField 8, .setLogic ['t'] ['a'] 5] ++ [.setLogic ['t'] ['a'] 20])
      ([.logic ['t'] ⟨⟨['a'], 0, 64, .UINT64⟩, some (standardComparison 5)⟩] ++
        [.logic ['t'] ⟨⟨['a'], 0, 64, .UINT64⟩, some (standardComparison 20)⟩])
      ((oneFieldLegacy.setLogic .standard ['t'] ['a'] 5).setLogic .standard ['t'] ['a'] 20) :=
    .setLogic h₁ rfl rfl rfl
  exact (evaluates_last_iff h₂ rfl 8).2 ⟨by decide, rfl⟩ List.head? Platform.standard.firstKey_mem

/-- `a > 5` is set as an expression and then `a > 20` as a logic on the single field, both for
the same schema.  A row with `a = 10` is counted, the logic installed last counts none. -/
theorem expression_hides_logic :
    ∃ is L E, Configured .standard [.registerSchema ['t'] oneField 8,
        .setExpression ['t'] Jit.gtPool.storage Jit.gtPool.annot 2 .BIT_SLICED,
        .setLogic ['t'] ['a'] 20] (is ++ [.logic ['t'] L]) E ∧
      (E.execute .standard tens 1).map Prod.fst = some 1 ∧
      ((Install.logic ['t'] L).execute .standard E 8 tens 1).map
        Prod.fst = some 0 := by
  obtain ⟨a, E, hset, hacc⟩ := gtPool_accepted .BIT_SLICED
  obtain ⟨-, hexec⟩ := bitSliced_execute Jit.gtPool_built Jit.gtPool_represents rfl rfl
    Jit.gtPool_fresh (show ApexEngine.init.registry.schemas ['t'] = none from rfl) rfl (by decide)
    hset hacc
  obtain ⟨E₁, hE₁⟩ := hexec E.fieldBuffers tens 1
  obtain ⟨a₁, hmark, ⟨-, rfl⟩ | ⟨a₂, L, hcomp, -, -, -, -, -, -, rfl⟩⟩ := setExpression_cases hset
  · exact absurd rfl hacc
  -- the engine after the expression
  set E' : LegacyEngine := { oneFieldLegacy with
    toApexEngine := { oneFieldEngine with
      exprLogic := assignLogic oneFieldEngine.exprLogic ['t'] L } } with hE'
  have hset' : oneFieldLegacy.setExpression .standard ['t'] Jit.gtPool.storage Jit.gtPool.annot
      (some 2) .BIT_SLICED = .ok (a, E') := by
    rw [LegacyEngine.setExpression, show oneFieldLegacy.toApexEngine = oneFieldEngine from rfl, hset]
    rfl
  have h₁ : Configured .standard ([.registerSchema ['t'] oneField 8] ++
      [.setExpression ['t'] Jit.gtPool.storage Jit.gtPool.annot 2 .BIT_SLICED])
      ([] ++ [.expression ['t'] L]) E' :=
    .setExpression oneFieldLegacy_configured rfl ⟨a₁, a₂, L.kernel, hmark, hcomp⟩ hset'
      (lookup_assignLogic_self oneFieldEngine.exprLogic ['t'] L)
  have hne : (E'.setLogic .standard ['t'] ['a'] 20).exprLogic ≠ [] := hacc
  obtain ⟨buf, hlegacy⟩ := CompiledLogic.legacyChunks_total .standard
    (L := ⟨⟨['a'], 0, 64, .UINT64⟩, some (standardComparison 20)⟩)
    (show compileComparison Platform.standard.rt 20 = some (standardComparison 20) from rfl) rfl
    tens 8 1 (E'.fieldBuffers 0)
  refine ⟨_, _, _, .setLogic h₁ rfl rfl rfl, ?_, ?_⟩
  · have htotal : rowTotal (fun r => Expr.eval (rowOf oneField
        tens 8 r) (.cmp .gt (.load ['a']) (.const 5))) 1 = 1 := by
      decide
    rw [htotal] at hE₁
    rw [LegacyEngine.execute, if_neg hne, Option.map_map]
    exact congrArg (Option.map Prod.fst) hE₁
  · have htotal : ∑ r ∈ Finset.range 1, (bit (decide ((20 : Word) < load64
        tens (r * 8 + 0))) : Word) = 0 := by decide
    rw [htotal] at hlegacy
    rw [Install.execute, Option.map_map]
    exact congrArg (Option.map Prod.fst) hlegacy

end LegacyEngine
end Engine
end AarchGate
