/-
# The Metal device

`MetalDevice::dispatch` in `src/gpu/metal_device.mm`, and with it the end of the
`GPU_THROUGHPUT` branch of `ApexEngine::execute`, `executeGpu`.

There is one device in a process.  It keeps the pipelines it has compiled in a map
whose keys are the names of the schemas, and an entry is never replaced.  So a call
runs the pipeline of the first call with its schema name, and all calls run their own
source exactly if each of them compiles to the same as that first one
(`executes_own_iff`).

What Metal does is a parameter: `compile` is the compilation of a source up to the
pipeline state, and `none` if a step of it fails; whether the planes of a call can be
mapped to a buffer is part of the call.  `delta_weights` and `base_sum` are left out,
`dispatch` does not read them.
-/

import AarchGate.Gpu.Totals
import AarchGate.Trace.Along

namespace AarchGate
namespace Gpu

open A64 Ir AarchGate.Core Compute Engine Engine.ApexEngine
open Trace (Along)

/-- The system under the device; `blockSum` is what a pipeline writes for a block, if its run
is defined. -/
structure Metal (Source Pipeline : Type) where
  compile : Source → Option Pipeline
  blockSum : Pipeline → (ℕ → Word) → ℕ → Option Word

/-- `MetalDevice`. -/
structure MetalDevice (Pipeline : Type) where
  initialized : Bool
  pipelineCache : Map Name Pipeline

/-- The arguments of a call of `dispatch`. -/
structure Dispatch (Source : Type) where
  schemaName : Name
  bitPlanes : Option (ℕ → Word)
  numBlocks : ℕ
  numFields : ℕ
  mslSource : Source
  -- `create_buffer_from_shm` gives a buffer
  mapped : Bool

/-- What a call does: the sum it returns, the pipeline it executes, and the device. -/
structure Outcome (Pipeline : Type) where
  finalSum : Option Word
  executed : Option Pipeline
  device : MetalDevice Pipeline

/-- There is something to execute. -/
def Dispatch.live {Source : Type} (c : Dispatch Source) : Bool :=
  c.bitPlanes.isSome && c.numBlocks != 0 && c.numFields != 0

/-- The device at the start of the process. -/
def MetalDevice.start {Pipeline : Type} (initialized : Bool) : MetalDevice Pipeline :=
  ⟨initialized, Map.empty⟩

namespace Metal

variable {Source Pipeline : Type} (M : Metal Source Pipeline)

/-- `pipeline_state`: from the cache, or compiled and cached. -/
def pipelineState (d : MetalDevice Pipeline) (c : Dispatch Source) :
    Option Pipeline × MetalDevice Pipeline :=
  match d.pipelineCache c.schemaName with
  | some p => (some p, d)
  | none =>
    match M.compile c.mslSource with
    | some p => (some p, { d with pipelineCache := d.pipelineCache.assign c.schemaName p })
    | none => (none, d)

/-- `MetalDevice::dispatch`. -/
def dispatch (d : MetalDevice Pipeline) (c : Dispatch Source) : Outcome Pipeline :=
  match d.initialized && c.live, c.bitPlanes with
  | true, some bitPlanes =>
    match M.pipelineState d c with
    | (some p, d') =>
      if c.mapped then
        ⟨((List.range c.numBlocks).mapM (M.blockSum p bitPlanes)).map List.sum, some p, d'⟩
      else ⟨some 0, none, d'⟩
    | (none, d') => ⟨some 0, none, d'⟩
  | _, _ => ⟨some 0, none, d⟩

/-- The device after a call. -/
def step (d : MetalDevice Pipeline) (c : Dispatch Source) : MetalDevice Pipeline :=
  (M.dispatch d c).device

/-- The call executes no pipeline but that of its own source. -/
def ExecutesOwn (d : MetalDevice Pipeline) (c : Dispatch Source) : Prop :=
  ∀ p, (M.dispatch d c).executed = some p → M.compile c.mslSource = some p

variable {M} {d : MetalDevice Pipeline} {c : Dispatch Source}

/-- A call that does nothing. -/
theorem dispatch_idle (h : (d.initialized && c.live) = false) :
    M.dispatch d c = ⟨some 0, none, d⟩ := by
  rw [dispatch, h]

/-- A call whose source compiles: an entry of the cache is kept, and what is in the cache
afterwards is executed. -/
theorem dispatch_live (h : (d.initialized && c.live) = true) {own : Pipeline}
    (hown : M.compile c.mslSource = some own) :
    (M.dispatch d c).device =
        { d with pipelineCache := d.pipelineCache.emplace c.schemaName own } ∧
      (M.dispatch d c).executed =
        (if c.mapped then some ((d.pipelineCache c.schemaName).getD own) else none) ∧
      ∀ planes, c.bitPlanes = some planes → c.mapped = true →
        (M.dispatch d c).finalSum = ((List.range c.numBlocks).mapM
          (M.blockSum ((d.pipelineCache c.schemaName).getD own) planes)).map List.sum := by
  have hlive : c.live = true := (Bool.and_eq_true_iff.1 h).2
  simp only [Dispatch.live, Bool.and_eq_true] at hlive
  obtain ⟨planes, hplanes⟩ := Option.isSome_iff_exists.1 hlive.1.1
  simp only [dispatch, h, hplanes, Option.some.injEq, forall_eq']
  rcases hcache : d.pipelineCache c.schemaName with _ | p
  · simp only [pipelineState, hcache, hown, Map.emplace_of_none hcache]
    cases c.mapped <;> simp
  · have hkeep : d.pipelineCache.emplace c.schemaName own = d.pipelineCache := by
      rw [Map.emplace, hcache, Option.isSome_some, if_pos rfl]
    simp only [pipelineState, hcache, hkeep]
    cases c.mapped <;> simp

end Metal

/-! ### The engine on the device -/

section Engine

variable (PF : Platform) {Pipeline : Type} (M : Metal (Option MslSource) Pipeline)
  (d : MetalDevice Pipeline) (E : ApexEngine) (data : ℕ → BitVec 8) (rowCount : ℕ)
  (tempBuf : ColumnBuffer) (mapped : Bool)

/-- `ApexEngine::execute` of an engine with an expression in the `GPU_THROUGHPUT` mode; the
allocation of the planes succeeds. -/
def executeGpu : Outcome Pipeline :=
  match E.exprLogic with
  | [] => ⟨some 0, none, d⟩
  | (schemaName, L) :: _ =>
    match E.schemaMetadata schemaName with
    | none => ⟨some 0, none, d⟩
    | some md =>
      M.dispatch d
        { schemaName
          bitPlanes := packBlocks PF L.fields data md.rowStride rowCount tempBuf
          numBlocks := (rowCount + 63) / 64
          numFields := L.fields.length
          mslSource := L.mslSource
          mapped }

end Engine

/-- A pipeline is the source it was compiled from. -/
def shaders (S : Simd) (G : ℕ → Group) : Metal (Option MslSource) MslSource where
  compile := id
  blockSum K columns block := K.run S columns block (G block)

/-- **The engine on the device**: an expression with fields, whose schema name is new to the
device or stands for the same kernel there, gives the total of its kernel over the packed
blocks. -/
theorem executeGpu_total {PF : Platform} {S : Simd} {G : ℕ → Group} {d : MetalDevice MslSource}
    (hinit : d.initialized = true) {E : ApexEngine} {schemaName : Name} {L : ExprCompiledLogic}
    {md : SchemaMetadata} (hL : E.exprLogic = [(schemaName, L)])
    (hmd : E.schemaMetadata schemaName = some md) (hne : L.fields ≠ []) {K : MslSource}
    (hK : L.mslSource = some K)
    (hcache : ∀ K', d.pipelineCache schemaName = some K' → K' = K) (data : ℕ → BitVec 8)
    (rowCount : ℕ) (tempBuf : ColumnBuffer) :
    (executeGpu PF (shaders S G) d E data rowCount tempBuf true).finalSum =
      K.total S (packBlocks PF L.fields data md.rowStride rowCount tempBuf) G
        ((rowCount + 63) / 64) := by
  simp only [executeGpu, hL, hmd]
  have hget : (d.pipelineCache schemaName).getD K = K := by
    cases h : d.pipelineCache schemaName with
    | none => rfl
    | some K' => exact hcache K' h
  by_cases h0 : (rowCount + 63) / 64 = 0
  · rw [Metal.dispatch_idle (by simp [Dispatch.live, h0]), h0]
    rfl
  · rw [(Metal.dispatch_live (by simp [Dispatch.live, hinit, h0, hne]) hK).2.2 _ rfl rfl, hget]
    rfl

/-! ### Sequences of calls -/

namespace Metal

variable {Source Pipeline : Type} {M : Metal Source Pipeline} {d : MetalDevice Pipeline}
  {c : Dispatch Source}

variable (M d) in
/-- The pipeline that the calls with a schema name get: the one in the cache, or that of
the first of them. -/
def served (calls : List (Dispatch Source)) (name : Name) : Option Pipeline :=
  (d.pipelineCache name).or
    ((calls.find? fun c => d.initialized && c.live && c.schemaName = name).bind fun c =>
      M.compile c.mslSource)

/-- **One call** changes nothing of what the calls get. -/
theorem served_step {own : Pipeline} (hown : M.compile c.mslSource = some own)
    (calls : List (Dispatch Source)) : M.served (M.step d c) calls = M.served d (c :: calls) := by
  funext name
  cases h : d.initialized && c.live with
  | false => rw [step, dispatch_idle h, served, served, List.find?_cons, h]; rfl
  | true =>
    rw [step, (dispatch_live h hown).1]
    simp only [served, List.find?_cons, h, Bool.true_and]
    by_cases hname : c.schemaName = name
    · subst hname
      cases hcache : d.pipelineCache c.schemaName <;> simp [hcache, hown]
    · simp [hname, Map.emplace_ne _ (Ne.symm hname)]

/-- A call executes its own source if that is what its schema name gets. -/
theorem executesOwn_iff {own : Pipeline} (hown : M.compile c.mslSource = some own)
    (calls : List (Dispatch Source)) :
    M.ExecutesOwn d c ↔ (d.initialized && c.live && c.mapped) = true →
      M.compile c.mslSource = M.served d (c :: calls) c.schemaName := by
  cases h : d.initialized && c.live with
  | false => simp [ExecutesOwn, dispatch_idle h]
  | true =>
    have hserved : M.served d (c :: calls) c.schemaName =
        some ((d.pipelineCache c.schemaName).getD own) := by
      rw [served, List.find?_cons, h]
      cases d.pipelineCache c.schemaName <;> simp [hown]
    rw [ExecutesOwn, (dispatch_live h hown).2.1, hserved, Bool.true_and, hown]
    cases c.mapped <;> simp

/-- **A sequence of calls** from any device. -/
theorem along_executesOwn_iff {calls : List (Dispatch Source)}
    (hcomp : ∀ c ∈ calls, (M.compile c.mslSource).isSome = true) :
    ∀ d, Along M.step M.ExecutesOwn d calls ↔
      ∀ c ∈ calls, (d.initialized && c.live && c.mapped) = true →
        M.compile c.mslSource = M.served d calls c.schemaName := by
  induction calls with
  | nil => simp [Along]
  | cons c calls ih =>
    intro d
    obtain ⟨hc, hcalls⟩ := List.forall_mem_cons.1 hcomp
    obtain ⟨own, hown⟩ := Option.isSome_iff_exists.1 hc
    have hinit : (M.step d c).initialized = d.initialized := by
      rw [step]
      cases h : d.initialized && c.live with
      | false => rw [dispatch_idle h]
      | true => rw [(dispatch_live h hown).1]
    rw [Along, List.forall_mem_cons, executesOwn_iff hown calls, ih hcalls, hinit, served_step hown]

/-- **The GPU and the expression that was set.**  In a sequence of calls from the start of the
process, of sources that compile, every call executes the pipeline of its own source if
and only if every call that executes one has a source that compiles to the same as that of
the first call with its schema name. -/
theorem executes_own_iff (M : Metal Source Pipeline) (initialized : Bool)
    {calls : List (Dispatch Source)} (hcomp : ∀ c ∈ calls, (M.compile c.mslSource).isSome = true) :
    Along M.step M.ExecutesOwn (.start initialized) calls ↔
      ∀ c ∈ calls, initialized = true → c.live = true → c.mapped = true → ∀ first,
        calls.find? (fun c' => c'.live && c'.schemaName = c.schemaName) = some first →
          M.compile c.mslSource = M.compile first.mslSource := by
  rw [along_executesOwn_iff hcomp]
  refine forall₂_congr fun c hc => ?_
  cases initialized with
  | false => simp [MetalDevice.start]
  | true =>
    -- the call itself is found, if no other is
    simp only [MetalDevice.start, Bool.true_and, Bool.and_eq_true, and_imp, served, Map.empty,
      Option.none_or, true_implies]
    refine forall₂_congr fun hlive _ => ?_
    have hfound : (calls.find? fun c' => c'.live && c'.schemaName = c.schemaName).isSome = true :=
      List.find?_isSome.2 ⟨c, hc, by simp [hlive]⟩
    obtain ⟨first, hfirst⟩ := Option.isSome_iff_exists.1 hfound
    simp [hfirst]

end Metal

/-- Threadgroups with memory of zeros. -/
abbrev zeroGroups (_ : ℕ) : Group := ⟨fun _ _ => 0, fun _ => 0, fun _ => 0, 0⟩

/-- A call for one block of one field. -/
def oneBlock (schemaName : Name) (mslSource : Option MslSource) : Dispatch (Option MslSource) :=
  ⟨schemaName, some fun _ => 0, 1, 1, mslSource, true⟩

/-- Two kernels under two names, and the first once more. -/
theorem executes_own_iff_names :
    Along (shaders .standard zeroGroups).step (shaders .standard zeroGroups).ExecutesOwn (.start true)
      [oneBlock ['t'] (some ⟨1, [], 0, []⟩), oneBlock ['u'] (some ⟨1, [], 2, []⟩),
        oneBlock ['t'] (some ⟨1, [], 0, []⟩)] := by
  refine (Metal.executes_own_iff (shaders .standard zeroGroups) true (by decide)).2 ?_
  intro c hc _ _ _ first hfirst
  simp only [List.mem_cons, List.not_mem_nil, or_false] at hc
  rcases hc with rfl | rfl | rfl <;> cases hfirst <;> rfl

/-- What `executeGpu` reads of an engine besides the kernel. -/
theorem gpu_installed {PF : Platform} {P : NodePool} (hP : Built P) {root : ℕ}
    (hroot : root < P.nextIdx) {E₀ E : ApexEngine} {schemaName : Name}
    {fields : List FieldDescriptor} {rowStride : ℕ} {a₀ a : ℕ → Annot}
    (hnew : E₀.registry.schemas schemaName = none) (honly : E₀.exprLogic = [])
    (horder : Jit.fieldOrder P.storage root = fields.map (·.name))
    (hset : setExpression PF (E₀.registerSchema schemaName fields rowStride) schemaName P.storage a₀
      (some root) .GPU_THROUGHPUT = .ok (a, E)) (hacc : E.exprLogic ≠ []) {L : ExprCompiledLogic}
    (hL : E.exprLogic = [(schemaName, L)]) :
    L.fields.length = fields.length ∧ E.schemaMetadata schemaName = some ⟨rowStride, fields⟩ := by
  obtain ⟨a₁, a₂, L', K, -, -, -, -, -, -, -, -, -, -, -, -, hI⟩ :=
    setExpression_gpu hP hroot hnew honly (fun n hn hk => registered hP horder hroot hn hk) hset hacc
  obtain ⟨hL', hmd⟩ := hI.logic_eq (setExpression_keys honly hset hacc)
  obtain rfl : L = L' := by simpa [hL] using hL'
  exact ⟨by rw [hI.fields_length, horder, List.length_map], hmd⟩

/-- Two engines with a schema of the same name: the first counts 7 or 2 for every row, by
`a > 5`, the second the rows with `a > 5`.  Both run on 64 rows with `a = 10`, and the second
executes the kernel of the first. -/
theorem executes_other_engine :
    ∃ a E a' E' L K K', setExpression .standard oneFieldEngine ['t']
        selectPool.storage selectPool.annot (some 6) .GPU_THROUGHPUT = .ok (a, E) ∧
      setExpression .standard oneFieldEngine ['t'] Jit.gtPool.storage
        Jit.gtPool.annot (some 2) .GPU_THROUGHPUT = .ok (a', E') ∧
      E'.exprLogic = [(['t'], L)] ∧ L.mslSource = some K' ∧ K ≠ K' ∧
      (executeGpu .standard (shaders .standard zeroGroups)
          (executeGpu .standard (shaders .standard zeroGroups) (.start true) E tens 64 (fun _ => 0)
            true).device E' tens 64 (fun _ => 0) true).executed = some K := by
  obtain ⟨a, E, hset, hacc⟩ := selectPool_accepted .GPU_THROUGHPUT (by decide)
  obtain ⟨a', E', hset', hacc'⟩ := gtPool_accepted .GPU_THROUGHPUT
  obtain ⟨L, K, hL, hK, htotal⟩ := gpu_forest_total selectPool_pristine.built rfl rfl selectPool_order hset hacc
    selectPool_forest (by decide) selectPool_summand (by decide)
  obtain ⟨L', K', hL', hK', htotal'⟩ := gpu_typed_total Jit.gtPool_built rfl rfl gtPool_order hset' hacc'
    Jit.gtPool_represents rfl
  obtain ⟨hlen, hmd⟩ := gpu_installed selectPool_pristine.built (by decide) rfl rfl selectPool_order hset hacc hL
  obtain ⟨hlen', hmd'⟩ := gpu_installed Jit.gtPool_built (by decide) rfl rfl gtPool_order hset' hacc' hL'
  refine ⟨a, E, a', E', L', K, K', hset, hset', hL', hK', ?_, ?_⟩
  · -- on the rows of the run the totals differ
    rintro rfl
    have h := ((htotal .standard tens 64 (fun _ => 0) zeroGroups).2 (by decide)).symm.trans
      (htotal' .standard _ 1 zeroGroups)
    revert h
    decide +kernel
  · simp only [executeGpu, hL, hmd, hL', hmd']
    rw [(Metal.dispatch_live (by simp [Dispatch.live, MetalDevice.start, hlen]) hK).1,
      (Metal.dispatch_live (by simp [Dispatch.live, MetalDevice.start, hlen']) hK').2.1]
    simp [MetalDevice.start, Map.empty]


end Gpu
end AarchGate
