/-
# Sessions of the C interface

`src/api/aarchgate_c_api.cpp`.  A process holds its engines by handles and its expressions by
pointers into the one node pool of the process.  The pool is shared by all engines, only
grows, and keeps what the compilations wrote into its nodes.

`Session.serve` is a process that makes calls of the interface, together with the pointers it
was given.  `Client.serve` says what a client takes the library for: every engine has at most
one table and one expression over it, `execute` counts or sums over the rows, an expression
is built as long as the nodes last, and nothing else matters.

* `session_answers`: a session in which every request is allowed runs into nothing undefined
  and is answered like that, for any number of engines, in any order of the requests, with
  expressions that are installed more than once and in more than one engine.

The requests that are allowed (`Client.Allows`) are those on engines that exist, one schema
for each engine, in 32 bits, and expressions within the limits of the bit-sliced compiler.
-/

import AarchGate.Engine.CApi
import AarchGate.Engine.ParallelCorrect
import AarchGate.Ir.Program
import AarchGate.Trace.Answers
import Mathlib.Data.Option.Basic

namespace AarchGate
namespace Engine

open A64 Ir AarchGate.Core Compute
open Jit (Fault Fits encode subLane compileExpression AtMostSix AtMostCompound)
open ApexEngine

/-! ### The calls -/

/-- `apex_field_descriptor_t`. -/
structure ApexFieldDescriptor where
  name : Name
  offset : ℕ
  bitWidth : ℕ
  dataType : DataType

namespace ApexFieldDescriptor

/-- The descriptor as `apex_register_schema` passes it on: `size_t` to `uint32_t`. -/
def toCpp (d : ApexFieldDescriptor) : FieldDescriptor :=
  ⟨d.name, d.offset % 2 ^ 32, d.bitWidth % 2 ^ 32, d.dataType⟩

/-- The descriptor as it was given. -/
def given (d : ApexFieldDescriptor) : FieldDescriptor := ⟨d.name, d.offset, d.bitWidth, d.dataType⟩

end ApexFieldDescriptor

/-- `apex_register_schema`: the status and the engine; a missing value is a null pointer. -/
def apexRegisterSchema (handle : Option LegacyEngine) (schemaName : Option Name)
    (fields : Option (List ApexFieldDescriptor)) (stride : ℕ) : ℤ × Option LegacyEngine :=
  match handle, schemaName, fields with
  | some engine, some schemaName, some fields =>
    (0, some (engine.registerSchema schemaName (fields.map (·.toCpp)) stride))
  | _, _, _ => (-1, handle)

/-- `apex_execute`: `(uint64_t)-1` for a null pointer. -/
def apexExecute (PF : Platform) (handle : Option LegacyEngine) (dataPtr : Option (ℕ → BitVec 8))
    (count : ℕ) : Except Fault (Word × Option LegacyEngine) :=
  match handle, dataPtr with
  | some engine, some data =>
    match engine.execute PF data count with
    | some r => .ok (r.1, some r.2)
    | none => .error .undefined
  | _, _ => .ok (-1, handle)

/-- `apex_execute_parallel`; `bufs` is what the buffers of the workers hold. -/
def apexExecuteParallel (PF : Platform) (handle : Option LegacyEngine)
    (dataPtr : Option (ℕ → BitVec 8)) (count : ℕ) (numThreads : ℤ) (bufs : ℕ → ℕ → ColumnBuffer) :
    Except Fault Word :=
  match handle, dataPtr with
  | some engine, some data =>
    match engine.executeParallel PF data count numThreads bufs with
    | some n => .ok n
    | none => .error .undefined
  | _, _ => .ok (-1)

/-! ### A process -/

/-- What a process asks for: `build` stands for the builder calls of an expression, and
`setLogic` installs the expression that the `pointer`-th of them built, in the mode
`APEX_EXEC_MODE_BIT_SLICED`. -/
inductive Request where
  | create
  | destroy (handle : ℕ)
  | registerSchema (handle : ℕ) (schemaName : Name) (fields : List ApexFieldDescriptor) (stride : ℕ)
  | build {t : Ty} (e : Expr t)
  | setLogic (handle : ℕ) (schemaName : Name) (pointer : ℕ)
  | execute (handle : ℕ) (data : ℕ → BitVec 8) (count : ℕ)
  | executeParallel (handle : ℕ) (data : ℕ → BitVec 8) (count : ℕ) (numThreads : ℤ)
      (bufs : ℕ → ℕ → ColumnBuffer)

/-- What it gets: of a pointer it sees whether it is null. -/
inductive Answer where
  | handle (h : ℕ)
  | done
  | status (s : ℤ)
  | built (ok : Bool)
  | count (n : Word)
  deriving DecidableEq

/-- A process: `builder::g_pool`, the engines that exist, the number of the next handle and
the pointers it was given. -/
structure Session where
  pool : NodePool
  engines : ℕ → Option LegacyEngine
  handles : ℕ
  pointers : List (Option ℕ)

namespace Session

/-- A process at its start. -/
def init : Session := ⟨.empty, fun _ => none, 0, []⟩

/-- The engine behind a handle; there is none behind a handle that was destroyed. -/
def engine (S : Session) (handle : ℕ) : Except Fault LegacyEngine :=
  match S.engines handle with
  | some E => .ok E
  | none => .error .undefined

/-- Another engine behind a handle. -/
def setEngine (S : Session) (handle : ℕ) (E : Option LegacyEngine) : Session :=
  { S with engines := Function.update S.engines handle E }

/-- **One request.** -/
def serve (PF : Platform) (S : Session) : Request → Except Fault (Answer × Session)
  | .create => .ok (.handle S.handles,
      { S.setEngine S.handles (some .init) with handles := S.handles + 1 })
  | .destroy h => do
    let _ ← S.engine h
    return (.done, S.setEngine h none)
  | .registerSchema h schemaName fields stride => do
    let E ← S.engine h
    let r := apexRegisterSchema (some E) (some schemaName) (some fields) stride
    return (.status r.1, S.setEngine h r.2)
  | .build e =>
    let r := e.build S.pool
    .ok (.built r.1.isSome, { S with pool := r.2, pointers := S.pointers ++ [r.1] })
  | .setLogic h schemaName pointer => do
    let E ← S.engine h
    let r ← apexSetLogic PF (some E) (some schemaName) S.pool.storage S.pool.annot
      (S.pointers[pointer]?).join 0
    return (.status r.1, { S.setEngine h r.2.2 with pool := { S.pool with annot := r.2.1 } })
  | .execute h data count => do
    let E ← S.engine h
    let r ← apexExecute PF (some E) (some data) count
    return (.count r.1, S.setEngine h r.2)
  | .executeParallel h data count numThreads bufs => do
    let E ← S.engine h
    let n ← apexExecuteParallel PF (some E) (some data) count numThreads bufs
    return (.count n, S)

end Session

/-! ### What a client takes the library for -/

/-- A schema. -/
structure Table where
  name : Name
  fields : List FieldDescriptor
  rowStride : ℕ

/-- An expression of either sort. -/
abbrev AnyExpr := (t : Ty) × Expr t

/-- An engine: new, or with a table and perhaps an expression over it. -/
inductive Desk where
  | new
  | table (T : Table) (logic : Option AnyExpr)

namespace Desk

/-- Another expression. -/
def install (e : AnyExpr) : Desk → Desk
  | .new => .new
  | .table T _ => .table T (some e)

/-- **What the engine computes**: the number of rows on which a boolean expression holds, and
the sum of the values of an arithmetic one. -/
def total (data : ℕ → BitVec 8) (count : ℕ) : Desk → Word
  | .table T (some e) => rowTotal (fun r => e.2.eval (rowOf T.fields data T.rowStride r)) count
  | _ => 0

end Desk

/-- The library, for a client: the nodes in use, the expressions that were built, and the
engines. -/
structure Client where
  used : ℕ
  built : List (Option AnyExpr)
  desks : ℕ → Option Desk
  handles : ℕ

namespace Client

def init : Client := ⟨0, [], fun _ => none, 0⟩

/-- Another engine behind a handle. -/
def setDesk (c : Client) (handle : ℕ) (d : Option Desk) : Client :=
  { c with desks := Function.update c.desks handle d }

/-- **One request**, as specified. -/
def serve (c : Client) : Request → Answer × Client
  | .create => (.handle c.handles, { c.setDesk c.handles (some .new) with handles := c.handles + 1 })
  | .destroy h => (.done, c.setDesk h none)
  | .registerSchema h schemaName fields stride =>
    (.status 0, c.setDesk h (some (.table ⟨schemaName, fields.map (·.given), stride⟩ none)))
  | @Request.build t e =>
    let room := decide (c.used + e.nodeCount ≤ NodePool.maxNodes)
    (.built room, { c with
      used := min NodePool.maxNodes (c.used + e.nodeCount)
      built := c.built ++ [if room then some ⟨t, e⟩ else none] })
  | .setLogic h _ pointer =>
    match (c.built[pointer]?).join with
    | some e => (.status 0, c.setDesk h ((c.desks h).map (·.install e)))
    | none => (.status (-1), c)
  | .execute h data count | .executeParallel h data count _ _ =>
    (.count ((c.desks h).elim 0 (·.total data count)), c)

end Client

/-- The expressions that may be installed over a table. -/
structure Table.Takes (T : Table) {t : Ty} (e : Expr t) : Prop where
  compound : e.compound = true
  subFree : e.subFree = true
  registered : ∀ f ∈ e.fields, ∃ d ∈ T.fields, d.name = f
  fields : e.fields.dedup.length ≤ 128
  operators : e.count (fun k => !k.isLeaf) ≤ 256
  additions : e.count (· = .ADD) ≤ 6

/-- The requests a client may make. -/
def Client.Allows (c : Client) : Request → Prop
  | .create => True
  | .destroy h | .execute h _ _ => (c.desks h).isSome = true
  | .registerSchema h _ fields _ =>
    c.desks h = some .new ∧ ∀ d ∈ fields, d.offset < 2 ^ 32 ∧ d.bitWidth < 2 ^ 32
  | .build e => ∀ f ∈ e.fields, f.length ≤ 63
  | .setLogic h schemaName pointer => ∃ T logic, c.desks h = some (.table T logic) ∧
    schemaName = T.name ∧ ∀ e, (c.built[pointer]?).join = some e → T.Takes e.2
  | .executeParallel h _ _ _ _ => ∃ d, c.desks h = some d ∧
    ∀ T e, d = .table T (some e) → e.2.fields ≠ [] ∧ e.2.fields.dedup.length ≤ 32

/-! ### An engine and its desk -/

/-- The engine knows the table. -/
structure Table.Known (T : Table) (E : LegacyEngine) : Prop where
  getField : E.registry.getField T.name = fun f => T.fields.find? fun d => d.name = f
  metadata : E.schemaMetadata T.name = some ⟨T.rowStride, T.fields⟩
  legacy : E.compiledLogic = []

/-- The engine holds the code of the expression. -/
structure Table.Carried (PF : Platform) (T : Table) {t : Ty} (e : Expr t) (E : LegacyEngine)
    (L : ExprCompiledLogic) (names : List Name) : Prop where
  subFree : e.subFree = true
  exprLogic : E.exprLogic = [(T.name, L)]
  installed : Installed E.toApexEngine L (fun f => T.fields.find? fun d => d.name = f) T.rowStride
    names
  mode : L.mode = .BIT_SLICED
  activeBits : L.activeBits = 64
  mem : ∀ f, f ∈ names ↔ f ∈ e.fields
  totals : LaneTotals PF L names fun r row => encode (e.evalWith (subLane r) row)

/-- The engine is what its desk says. -/
def Desk.Agrees (PF : Platform) : Desk → LegacyEngine → Prop
  | .new, E => E = .init
  | .table T none, E => T.Known E ∧ E.exprLogic = []
  | .table T (some e), E => T.Known E ∧ ∃ L names, T.Carried PF e.2 E L names

namespace Table

variable {PF : Platform} {T : Table} {t : Ty} {e : Expr t} {E : LegacyEngine} {L : ExprCompiledLogic}
  {names : List Name}

/-- The buffers of the chunks are not part of it. -/
theorem Carried.with_buffers (h : T.Carried PF e E L names) (bufs : ℕ → ColumnBuffer) :
    T.Carried PF e { E with fieldBuffers := bufs } L names :=
  ⟨h.subFree, h.exprLogic, h.installed.with_buffers bufs, h.mode, h.activeBits, h.mem, h.totals⟩

/-- **`execute` on an expression.** -/
theorem Carried.execute (h : T.Carried PF e E L names) (hT : T.Known E) (data : ℕ → BitVec 8)
    (count : ℕ) : ∃ bufs, E.execute PF data count =
      some (rowTotal (fun r => e.eval (rowOf T.fields data T.rowStride r)) count,
        { E with fieldBuffers := bufs }) := by
  have hmode : L.mode ≠ .GPU_THROUGHPUT := by rw [h.mode]; decide
  have hadds : AddsUp PF L names fun row => encode (e.eval row) :=
    h.totals.addsUp h.mode h.activeBits fun r row => by rw [Expr.evalWith_subFree e h.subFree]
  obtain ⟨E₁, hrun⟩ := h.installed.execute hmode
    (fun row row' hrow => evalOn_congr e fun f hf => hrow f ((h.mem f).2 hf)) hadds E.fieldBuffers
    data count
  have hrun' : ApexEngine.execute PF E.toApexEngine data count =
      some (rowTotal (fun r => e.eval (rowOf T.fields data T.rowStride r)) count, E₁) := by
    rw [rowTotal_eq_sum]
    exact hrun
  have hne : E.exprLogic ≠ [] := by rw [h.exprLogic]; simp
  rw [execute_single h.exprLogic hT.metadata hmode] at hrun'
  obtain ⟨r, hr, hE₁⟩ := Option.map_eq_some_iff.1 hrun'
  refine ⟨r.2, ?_⟩
  rw [LegacyEngine.execute, if_neg hne, execute_single h.exprLogic hT.metadata hmode, hr]
  obtain ⟨htotal, -⟩ := Prod.mk.inj hE₁
  rw [← htotal]
  rfl

/-- **`execute_parallel` on an expression.** -/
theorem Carried.executeParallel (h : T.Carried PF e E L names) (hne : e.fields ≠ [])
    (h32 : e.fields.dedup.length ≤ 32) (data : ℕ → BitVec 8) (count : ℕ) (numThreads : ℤ)
    (bufs : ℕ → ℕ → ColumnBuffer) : E.executeParallel PF data count numThreads bufs =
      some (rowTotal (fun r => e.eval (rowOf T.fields data T.rowStride r)) count) := by
  have hnames : names ≠ [] := by
    obtain ⟨f, hf⟩ := List.exists_mem_of_ne_nil _ hne
    exact List.ne_nil_of_mem ((h.mem f).2 hf)
  have hlen : names.length ≤ 32 := Nat.le_trans
    (h.installed.nodup.length_le_of_subset fun f hf => List.mem_dedup.2 ((h.mem f).1 hf)) h32
  have hdep : DependsOn names fun r row => encode (e.evalWith (subLane r) row) :=
    fun r row row' hrow => congrArg encode (e.evalWith_congr fun f hf => hrow f ((h.mem f).2 hf))
  have hlogic : E.exprLogic ≠ [] := by rw [h.exprLogic]; simp
  rw [LegacyEngine.executeParallel, if_neg hlogic, h.installed.executeParallel_lanes h.mode
    h.activeBits h.totals hdep hnames hlen, rowTotal_eq_sum]
  simp only [rowValue, Expr.evalWith_subFree e h.subFree]
  rfl

end Table

/-- **`execute` computes what the desk says**, and leaves it so. -/
theorem Desk.Agrees.execute {PF : Platform} {d : Desk} {E : LegacyEngine} (h : d.Agrees PF E)
    (data : ℕ → BitVec 8) (count : ℕ) :
    ∃ E', E.execute PF data count = some (d.total data count, E') ∧ d.Agrees PF E' := by
  match d with
  | .new =>
    obtain rfl : E = .init := h
    exact ⟨_, rfl, rfl⟩
  | .table T none =>
    refine ⟨E, ?_, h⟩
    rw [LegacyEngine.execute, if_pos h.2, LegacyEngine.executeLegacy, if_pos h.1.legacy]
    rfl
  | .table T (some e) =>
    obtain ⟨hT, L, names, hL⟩ := h
    obtain ⟨bufs, hrun⟩ := hL.execute hT data count
    exact ⟨_, hrun, ⟨hT.getField, hT.metadata, hT.legacy⟩, L, names, hL.with_buffers bufs⟩

/-- **… and so does `execute_parallel`.** -/
theorem Desk.Agrees.executeParallel {PF : Platform} {d : Desk} {E : LegacyEngine}
    (h : d.Agrees PF E)
    (hpar : ∀ T e, d = .table T (some e) → e.2.fields ≠ [] ∧ e.2.fields.dedup.length ≤ 32)
    (data : ℕ → BitVec 8) (count : ℕ) (numThreads : ℤ) (bufs : ℕ → ℕ → ColumnBuffer) :
    E.executeParallel PF data count numThreads bufs = some (d.total data count) := by
  -- without an expression it calls `execute`
  have hserial : E.exprLogic = [] →
      E.executeParallel PF data count numThreads bufs = some (d.total data count) := by
    intro hnil
    obtain ⟨E', hrun, -⟩ := h.execute data count
    rw [LegacyEngine.executeParallel, if_pos hnil, hrun]
    rfl
  match d with
  | .new =>
    obtain rfl : E = .init := h
    exact hserial rfl
  | .table T none => exact hserial h.2
  | .table T (some e) =>
    obtain ⟨-, L, names, hL⟩ := h
    obtain ⟨hne, h32⟩ := hpar T e rfl
    exact hL.executeParallel hne h32 data count numThreads bufs

/-- **`apex_register_schema`** gives a new engine its table. -/
theorem apexRegisterSchema_agrees (PF : Platform) {fields : List ApexFieldDescriptor}
    (hfields : ∀ d ∈ fields, d.offset < 2 ^ 32 ∧ d.bitWidth < 2 ^ 32) (schemaName : Name)
    (stride : ℕ) : ∃ E', apexRegisterSchema (some .init) (some schemaName) (some fields) stride =
        (0, some E') ∧
      (Desk.table ⟨schemaName, fields.map (·.given), stride⟩ none).Agrees PF E' := by
  have hmap : fields.map (·.toCpp) = fields.map (·.given) := List.map_congr_left fun d hd => by
    rw [ApexFieldDescriptor.toCpp, ApexFieldDescriptor.given, Nat.mod_eq_of_lt (hfields d hd).1,
      Nat.mod_eq_of_lt (hfields d hd).2]
  refine ⟨_, rfl, ?_⟩
  rw [hmap]
  refine ⟨⟨?_, ?_, rfl⟩, rfl⟩
  · exact funext fun f => SchemaRegistry.getField_registerSchema rfl _ f
  · exact Map.assign_self ..

/-! ### Installing an expression -/

section Install

variable {PF : Platform} {P : NodePool} {T : Table} {t : Ty} {e : Expr t} {root : ℕ}

/-- The compiler takes what the table takes. -/
theorem Table.Takes.compile (he : T.Takes e) (hrt : ∀ code, PF.rt code = true) (hP : Built P)
    (hroot : Stands P e root) :
    ∃ a code, compileExpression PF.rt P.storage P.annot root 64 = (a, .ok code) := by
  have hfits : Fits P.storage root := by
    refine .of_atMostCompound hP hroot.lt he.fields (fun n hn hk => ?_)
      ((Jit.AtMostCompound.of_represents hroot.represents).mono he.operators)
    exact List.mem_dedup.2 (hroot.represents.mem_fields hn hk)
  have hsix : AtMostSix P.storage root (· = .ADD) := fun ns hnd hns =>
    Nat.le_trans (hroot.represents.length_le_count hnd hns) he.additions
  have hundef := Jit.compile_typed_ne_undefined hP PF.rt P.annot hroot.represents he.compound
    he.subFree hsix 64
  have hnull : (compileExpression PF.rt P.storage P.annot root 64).2 ≠ .error .nullptr := by
    rw [show PF.rt = fun _ => true from funext hrt]
    exact fun h => (Jit.compileExpression_null_iff hP P.annot hroot.lt 64).1 h hfits
  cases hcomp : compileExpression PF.rt P.storage P.annot root 64 with
  | mk a res =>
    rw [hcomp] at hundef hnull
    cases res with
    | ok code => exact ⟨a, code, rfl⟩
    | error f => cases f <;> contradiction

/-- An engine has one expression, under the name of its table. -/
theorem assignLogic_single {E : LegacyEngine} {logic : Option AnyExpr}
    (h : (Desk.table T logic).Agrees PF E) (L : ExprCompiledLogic) :
    assignLogic E.exprLogic T.name L = [(T.name, L)] := by
  cases logic with
  | none => rw [h.2]; rfl
  | some e =>
    obtain ⟨-, L', names, hL⟩ := h
    rw [hL.exprLogic, assignLogic]
    simp

/-- What a compilation leaves in the pool. -/
theorem compile_annot (hP : Built P) (hskip : ∀ n, (P.annot n).skipJit = false)
    (hroot : root < P.nextIdx) {a : ℕ → Annot} {code : List Instr}
    (hcomp : compileExpression PF.rt P.storage P.annot root 64 = (a, .ok code)) :
    Built { P with annot := a } ∧ ∀ n, (a n).skipJit = false := by
  obtain ⟨nodes, body, hprep, -, -⟩ := Jit.compileExpression_ok hcomp
  have hp := Jit.prepare_spec hP hroot hprep
  refine ⟨hP.annotate a fun n hk => ?_, fun n => (hp.skipJit n).trans (hskip n)⟩
  exact (hp.eqSlotId n hk).trans (hP.eqSlotId n hk)

/-- An engine that holds the code and the fields of the expression carries it. -/
theorem Table.Takes.carried (he : T.Takes e) (hP : Built P) (hskip : ∀ n, (P.annot n).skipJit = false)
    (hroot : Stands P e root) {a : ℕ → Annot} {L : ExprCompiledLogic}
    (hcomp : compileExpression PF.rt P.storage P.annot root 64 = (a, .ok L.kernel))
    (hfields : L.fields = resizeFields (collectFields P.storage a
      (fun f => T.fields.find? fun d => d.name = f) (NodePool.maxNodes + 1) root fun _ => none))
    (hweights : L.deltaWeights = []) (hmode : L.mode = .BIT_SLICED)
    (hkind : L.resultKind = (a root).resultKind) (hbits : L.activeBits = 64) {E : LegacyEngine}
    (hlogic : E.exprLogic = [(T.name, L)])
    (hmd : E.schemaMetadata T.name = some ⟨T.rowStride, T.fields⟩) :
    T.Carried PF e E L (Jit.fieldOrder P.storage root) := by
  obtain ⟨hlen, hN⟩ := Numbered.ofCompiled hP hroot.lt hcomp
  have hmem := fun f => hN.mem_iff_fields hroot.represents f
  have hreg : ∀ f ∈ Jit.fieldOrder P.storage root,
      (T.fields.find? fun d => d.name = f).isSome = true := fun f hf => by
    obtain ⟨d, hd, hdf⟩ := he.registered f ((hmem f).1 hf)
    exact List.find?_isSome.2 ⟨d, hd, by simpa using hdf⟩
  obtain ⟨htable, hlength⟩ := collectFields_table hP hroot.lt hN hlen hreg
  rw [← hfields] at htable hlength
  exact ⟨he.subFree, hlogic, ⟨⟨T.name, T.fields, hlogic, hmd⟩, hN.nodup, hlen, htable, hlength⟩, hmode,
    hbits, hmem, bitSliced_laneTotals hP hroot.represents he.compound hP.eqSlotId
      (fun n _ => hskip n) hcomp hweights hkind hN hlen⟩

/-- **`apex_set_logic` installs the expression**, whatever the engine held before and
whatever earlier compilations wrote into the nodes, as long as none of them is marked. -/
theorem apexSetLogic_agrees (hrt : ∀ code, PF.rt code = true) (hP : Built P)
    (hskip : ∀ n, (P.annot n).skipJit = false) (hroot : Stands P e root) (he : T.Takes e)
    {E : LegacyEngine} {logic : Option AnyExpr} (hE : (Desk.table T logic).Agrees PF E) :
    ∃ a E', apexSetLogic PF (some E) (some T.name) P.storage P.annot (some root) 0 =
        .ok (0, a, some E') ∧ Built { P with annot := a } ∧ (∀ n, (a n).skipJit = false) ∧
      (Desk.table T (some ⟨t, e⟩)).Agrees PF E' := by
  have hT : T.Known E := by cases logic <;> exact hE.1
  obtain ⟨a, code, hcomp⟩ := he.compile hrt hP hroot
  obtain ⟨hbuilt, hskip'⟩ := compile_annot hP hskip hroot.lt hcomp
  obtain ⟨E₁, hset, -⟩ := setExpression_accepts E.toApexEngine T.name hroot.represents hcomp
  have hcall : apexSetLogic PF (some E) (some T.name) P.storage P.annot (some root) 0 =
      .ok (0, a, some { E with toApexEngine := E₁ }) := by
    simp only [apexSetLogic, LegacyEngine.setExpression, show execMode 0 = .BIT_SLICED from rfl, hset]
    rfl
  refine ⟨a, _, hcall, hbuilt, hskip', ?_⟩
  -- the engine after the call
  obtain ⟨a₁, hmark, hcases⟩ := setExpression_cases hset
  obtain rfl := Except.ok.inj (hmark.symm.trans (markSkip_typed hroot.represents P.annot))
  rw [compileMode, if_neg (by decide), hcomp] at hcases
  rcases hcases with ⟨hnull, -⟩ | ⟨a₂, L, hL, hsum, hmsl, hfs, hmode, hkind, hbits, rfl⟩
  · cases hnull
  obtain ⟨rfl, hcode⟩ := Prod.mk.inj hL
  obtain rfl := Except.ok.inj hcode
  rw [sumMeta_typed hroot.represents, Except.ok.injEq, Prod.mk.injEq, Prod.mk.injEq] at hsum
  rw [hT.getField] at hfs
  exact ⟨⟨hT.getField, hT.metadata, hT.legacy⟩, L, _, he.carried hP hskip hroot hcomp hfs
    hsum.2.1.symm hmode hkind hbits (assignLogic_single hE L) hT.metadata⟩

end Install

/-! ### A process and its client -/

/-- The pointer stands for the expression, or it is null. -/
def Points (P : NodePool) : Option AnyExpr → Option ℕ → Prop := Option.Rel fun e n => Stands P e.2 n

/-- **The process is what the client takes it for.** -/
structure Session.Agrees (PF : Platform) (c : Client) (S : Session) : Prop where
  built : Built S.pool
  used : S.pool.nextIdx = c.used
  skipJit : ∀ n, (S.pool.annot n).skipJit = false
  pointers : List.Forall₂ (Points S.pool) c.built S.pointers
  handles : S.handles = c.handles
  engines : ∀ h, Option.Rel (Desk.Agrees PF) (c.desks h) (S.engines h)

namespace Session.Agrees

variable {PF : Platform} {c : Client} {S : Session}

theorem init (PF : Platform) : Agrees PF .init .init :=
  ⟨.empty, rfl, fun _ => rfl, .nil, rfl, fun _ => .none⟩

/-- The engine behind a handle. -/
theorem engine_eq (h : Agrees PF c S) {handle : ℕ} {d : Desk} (hd : c.desks handle = some d) :
    ∃ E, S.engine handle = .ok E ∧ d.Agrees PF E := by
  have hrel := h.engines handle
  rw [hd] at hrel
  unfold Session.engine
  cases hE : S.engines handle with
  | none => rw [hE] at hrel; cases hrel
  | some E =>
    rw [hE] at hrel
    cases hrel with
    | some hE => exact ⟨E, rfl, hE⟩

/-- Another engine behind a handle. -/
theorem setEngine (h : Agrees PF c S) (handle : ℕ) {d : Option Desk} {E : Option LegacyEngine}
    (hE : Option.Rel (Desk.Agrees PF) d E) : Agrees PF (c.setDesk handle d) (S.setEngine handle E) :=
  { h with
    engines := fun k => by
      show Option.Rel _ (Function.update c.desks handle d k) (Function.update S.engines handle E k)
      by_cases hk : k = handle
      · rw [hk, Function.update_self, Function.update_self]
        exact hE
      · rw [Function.update_of_ne hk, Function.update_of_ne hk]
        exact h.engines k }

/-- … as the same desk. -/
theorem sameDesk (h : Agrees PF c S) {handle : ℕ} {d : Desk} (hd : c.desks handle = some d)
    {E : LegacyEngine} (hE : d.Agrees PF E) : Agrees PF c (S.setEngine handle (some E)) := by
  have hself : c.setDesk handle (some d) = c := by
    rw [Client.setDesk, ← hd, Function.update_eq_self]
  rw [← hself]
  exact h.setEngine handle (.some hE)

/-- What a compilation writes into the nodes. -/
theorem annotate (h : Agrees PF c S) {a : ℕ → Annot} (hbuilt : Built { S.pool with annot := a })
    (hskip : ∀ n, (a n).skipJit = false) :
    Agrees PF c { S with pool := { S.pool with annot := a } } where
  built := hbuilt
  used := h.used
  skipJit := hskip
  pointers := h.pointers.imp fun _ _ hp => by
    cases hp with
    | none => exact .none
    | some hs => exact .some ⟨hs.lt, hs.represents⟩
  handles := h.handles
  engines := h.engines

/-- An expression more. -/
theorem build (h : Agrees PF c S) {t : Ty} {e : Expr t} (hnames : ∀ f ∈ e.fields, f.length ≤ 63) :
    (e.build S.pool).1.isSome = decide (c.used + e.nodeCount ≤ NodePool.maxNodes) ∧
      Agrees PF (c.serve (.build e)).2
        { S with pool := (e.build S.pool).2, pointers := S.pointers ++ [(e.build S.pool).1] } := by
  have hb := e.build_builds hnames h.built
  have hroom : (e.build S.pool).1.isSome = decide (c.used + e.nodeCount ≤ NodePool.maxNodes) := by
    rw [Bool.eq_iff_iff, decide_eq_true_iff, hb.isSome, h.used]
  refine ⟨hroom, hb.grows.built, ?_, hb.grows.skipJit h.skipJit, ?_, h.handles, h.engines⟩
  · show _ = min NodePool.maxNodes (c.used + e.nodeCount)
    rw [← h.used]
    exact hb.grows.nextIdx
  refine List.rel_append (h.pointers.imp fun _ _ hp => ?_) (.cons ?_ .nil)
  · cases hp with
    | none => exact .none
    | some hs => exact .some (hs.grows h.built hb.grows)
  · rw [← hroom]
    cases hr : (e.build S.pool).1 with
    | none => exact .none
    | some n => exact .some ((hb.stands n hr).1)

/-- The pointer of a request. -/
theorem pointer (h : Agrees PF c S) (k : ℕ) :
    Points S.pool (c.built[k]?).join (S.pointers[k]?).join := by
  have hlen := h.pointers.length_eq
  by_cases hk : k < c.built.length
  · rw [List.getElem?_eq_getElem hk, List.getElem?_eq_getElem (hlen ▸ hk)]
    exact h.pointers.get hk (hlen ▸ hk)
  · rw [List.getElem?_eq_none (by omega), List.getElem?_eq_none (by omega)]
    exact .none

/-- A request for the logic of an engine. -/
theorem setLogic (h : Agrees PF c S) (hrt : ∀ code, PF.rt code = true) {handle pointer : ℕ}
    {schemaName : Name} (hall : c.Allows (.setLogic handle schemaName pointer)) :
    ∃ S', S.serve PF (.setLogic handle schemaName pointer) =
        .ok ((c.serve (.setLogic handle schemaName pointer)).1, S') ∧
      Agrees PF (c.serve (.setLogic handle schemaName pointer)).2 S' := by
  obtain ⟨T, logic, hd, rfl, htakes⟩ := hall
  obtain ⟨E, hE, hagrees⟩ := h.engine_eq hd
  have hp := h.pointer pointer
  simp only [Session.serve, Client.serve, hE, bind, Except.bind]
  cases hq : (c.built[pointer]?).join with
  | none =>
    rw [hq] at hp
    cases hr : (S.pointers[pointer]?).join with
    | some n => rw [hr] at hp; cases hp
    | none =>
      -- a null pointer leaves everything as it is
      exact ⟨_, rfl, h.sameDesk hd hagrees⟩
  | some e =>
    rw [hq] at hp
    cases hr : (S.pointers[pointer]?).join with
    | none => rw [hr] at hp; cases hp
    | some n =>
      rw [hr] at hp
      cases hp with
      | some hs =>
        obtain ⟨a, E', hcall, hbuilt, hskip, hE'⟩ :=
          apexSetLogic_agrees hrt h.built h.skipJit hs (htakes e hq) hagrees
        rw [hcall]
        refine ⟨_, rfl, ?_⟩
        rw [hd]
        exact (h.annotate hbuilt hskip).setEngine handle (.some hE')

end Session.Agrees

/-- **One request is answered as specified.** -/
theorem Session.implements {PF : Platform} (hrt : ∀ code, PF.rt code = true) :
    Trace.Implements (Session.serve PF) Client.serve Client.Allows (Session.Agrees PF) := by
  intro c S r h hall
  cases r with
  | create =>
    have hnew := h.setEngine S.handles (.some (show Desk.new.Agrees PF .init from rfl))
    have hhandles := h.handles
    refine ⟨_, by rw [Session.serve, hhandles]; rfl, ?_⟩
    rw [hhandles] at hnew
    exact { hnew with handles := rfl }
  | destroy handle =>
    obtain ⟨d, hd⟩ := Option.isSome_iff_exists.1 hall
    obtain ⟨E, hE, -⟩ := h.engine_eq hd
    exact ⟨_, by rw [Session.serve, hE]; rfl, h.setEngine handle .none⟩
  | registerSchema handle schemaName fields stride =>
    obtain ⟨hd, hfields⟩ := hall
    obtain ⟨E, hE, rfl⟩ := h.engine_eq hd
    obtain ⟨E', hcall, hE'⟩ := apexRegisterSchema_agrees PF hfields schemaName stride
    refine ⟨_, ?_, h.setEngine handle (.some hE')⟩
    simp only [Session.serve, hE, bind, Except.bind, hcall]
    rfl
  | build e =>
    obtain ⟨hsome, hagrees⟩ := h.build hall
    refine ⟨_, ?_, hagrees⟩
    simp only [Session.serve, hsome]
    rfl
  | setLogic handle schemaName pointer => exact h.setLogic hrt hall
  | execute handle data count =>
    obtain ⟨d, hd⟩ := Option.isSome_iff_exists.1 hall
    obtain ⟨E, hE, hagrees⟩ := h.engine_eq hd
    obtain ⟨E', hrun, hE'⟩ := hagrees.execute data count
    refine ⟨_, ?_, h.sameDesk hd hE'⟩
    simp only [Session.serve, Client.serve, hE, bind, Except.bind, apexExecute, hrun, hd, Option.elim]
    rfl
  | executeParallel handle data count numThreads bufs =>
    obtain ⟨d, hd, hpar⟩ := hall
    obtain ⟨E, hE, hagrees⟩ := h.engine_eq hd
    have hrun := hagrees.executeParallel hpar data count numThreads bufs
    refine ⟨S, ?_, h⟩
    simp only [Session.serve, Client.serve, hE, bind, Except.bind, apexExecuteParallel, hrun, hd,
      Option.elim]
    rfl

/-- **A session is answered as a client expects.**  On a platform whose runtime accepts the
code, for every list of requests that are allowed one after the other: nothing undefined
happens, and the answers are those of the specification. -/
theorem session_answers (PF : Platform) (hrt : ∀ code, PF.rt code = true) {requests : List Request}
    (hall : Trace.Along (fun c r => (Client.serve c r).2) Client.Allows .init requests) :
    ∃ S, Trace.serveAll (Session.serve PF) .init requests =
      .ok (Trace.answers Client.serve .init requests, S) := by
  obtain ⟨S, hserve, -⟩ := (Session.implements hrt).answers_eq (.init PF) hall
  exact ⟨S, hserve⟩

/-- The schema of the one field `a`, for the interface. -/
def oneApexField : List ApexFieldDescriptor := [⟨['a'], 0, 64, .UINT64⟩]

/-- `a > v`. -/
def aboveExpr (v : Word) : Expr .bool := .cmp .gt (.load ['a']) (.const v)

/-- Two engines over two expressions: both take `a > 5`, the first one goes on to `a > 20`
and is destroyed, and the second one is not concerned. -/
def twoEngines : List Request :=
  [.create, .create, .registerSchema 0 ['t'] oneApexField 8, .registerSchema 1 ['t'] oneApexField 8,
    .build (aboveExpr 5), .setLogic 0 ['t'] 0, .setLogic 1 ['t'] 0, .execute 0 tens 3,
    .build (aboveExpr 20), .setLogic 0 ['t'] 1, .setLogic 0 ['t'] 2, .execute 0 tens 3, .destroy 0,
    .executeParallel 1 tens 70 4 fun _ _ _ => 0]

theorem session_answers_twoEngines :
    ∃ S, Trace.serveAll (Session.serve .standard) .init twoEngines =
      .ok ([.handle 0, .handle 1, .status 0, .status 0, .built true, .status 0, .status 0, .count 3,
        .built true, .status 0, .status (-1), .count 0, .done, .count 70], S) := by
  have hreg : ∀ d ∈ oneApexField, d.offset < 2 ^ 32 ∧ d.bitWidth < 2 ^ 32 := by
    simp [oneApexField]
  have hnames : ∀ v, ∀ f ∈ (aboveExpr v).fields, f.length ≤ 63 := by simp [aboveExpr, Expr.fields]
  have htakes : ∀ v, (Table.mk ['t'] (oneApexField.map (·.given)) 8).Takes (aboveExpr v) :=
    fun v => ⟨rfl, rfl, by simp [aboveExpr, Expr.fields, oneApexField, ApexFieldDescriptor.given],
      by simp [aboveExpr, Expr.fields], by show 1 ≤ 256; decide, by show 0 ≤ 6; decide⟩
  have hall : Trace.Along (fun c r => (Client.serve c r).2) Client.Allows .init twoEngines :=
    ⟨trivial, trivial, ⟨rfl, hreg⟩, ⟨rfl, hreg⟩, hnames 5, ⟨_, _, rfl, rfl, fun e he => by
      cases he; exact htakes 5⟩, ⟨_, _, rfl, rfl, fun e he => by cases he; exact htakes 5⟩, rfl,
      hnames 20, ⟨_, _, rfl, rfl, fun e he => by cases he; exact htakes 20⟩,
      ⟨_, _, rfl, rfl, fun e he => by cases he⟩, rfl, rfl, ⟨_, rfl, fun T e hd => by
        cases hd; exact ⟨by simp [aboveExpr, Expr.fields], by simp [aboveExpr, Expr.fields]⟩⟩, trivial⟩
  obtain ⟨S, hS⟩ := session_answers .standard (fun _ => rfl) hall
  have hanswers : Trace.answers Client.serve .init twoEngines =
      [.handle 0, .handle 1, .status 0, .status 0, .built true, .status 0, .status 0, .count 3,
        .built true, .status 0, .status (-1), .count 0, .done, .count 70] := by decide
  rw [hanswers] at hS
  exact ⟨S, hS⟩

end Engine
end AarchGate
