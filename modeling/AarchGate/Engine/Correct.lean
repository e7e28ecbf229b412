/-
# Correctness of bit-sliced execution

**`execute` counts or sums.**  For an expression installed in the `BIT_SLICED`
mode, `execute` returns the number of rows on which a boolean root holds, or the
sum of the values of an arithmetic root, for every data buffer and every number
of rows (`execute_correct`).

The part about rows and chunks does not depend on the kernel: a kernel that adds
up some function of the row on every chunk makes `execute` add it up over all
rows (`Installed.execute`).
-/

import AarchGate.Engine.Install

namespace AarchGate
namespace Engine
namespace ApexEngine

open A64 Ir AarchGate.Core Compute BitPlane
open Jit (Columns Fault deref bind_ok compileExpression pad encode subLane prepare_spec AtMostSix)

/-! ### The installed logic -/

/-- The engine holds `L` as its only logic, the descriptors of the fields `names`
stand at their numbers. -/
structure Installed (E : ApexEngine) (L : ExprCompiledLogic)
    (getField : Name → Option FieldDescriptor) (rowStride : ℕ) (names : List Name) : Prop where
  logic : ∃ schemaName fields, E.exprLogic = [(schemaName, L)] ∧
    E.schemaMetadata schemaName = some ⟨rowStride, fields⟩
  nodup : names.Nodup
  length_le : names.length ≤ 128
  table : FieldTable getField names L.fields
  fields_length : L.fields.length = names.length

/-- The buffers are not part of what is installed. -/
theorem Installed.with_buffers {E : ApexEngine} {L : ExprCompiledLogic}
    {getField : Name → Option FieldDescriptor} {rowStride : ℕ} {names : List Name}
    (h : Installed E L getField rowStride names) (bufs : ℕ → ColumnBuffer) :
    Installed { E with fieldBuffers := bufs } L getField rowStride names :=
  ⟨h.logic, h.nodup, h.length_le, h.table, h.fields_length⟩

/-- The row `r` of the data, for the fields of a schema. -/
def rowOf (fields : List FieldDescriptor) (data : ℕ → BitVec 8) (rowStride r : ℕ) : Name → Word :=
  recordAt (fun f => fields.find? fun d => d.name = f) data (r * rowStride)

/-! ### The logics of an engine -/

section Map

variable {ν : Type} (m : List (Name × ν)) (k : Name) (v : ν)

/-- One key more. -/
theorem mem_keys_assignLogic {x : Name} :
    x ∈ (assignLogic m k v).map (·.1) ↔ x = k ∨ x ∈ m.map (·.1) := by
  rw [assignLogic]
  split_ifs with h
  · rw [List.any_eq_true] at h
    obtain ⟨p, hp, hk⟩ := h
    have hkeys : (m.map fun p => if p.1 = k then (k, v) else p).map (·.1) = m.map (·.1) := by
      rw [List.map_map]
      refine List.map_congr_left fun q _ => ?_
      by_cases hq : q.1 = k <;> simp [hq]
    rw [hkeys]
    refine ⟨Or.inr, fun hx => hx.elim (fun hx => ?_) id⟩
    exact List.mem_map.2 ⟨p, hp, (of_decide_eq_true hk).trans hx.symm⟩
  · simp [or_comm]

theorem assignLogic_ne_nil : assignLogic m k v ≠ [] := fun hnil => by
  have h := (mem_keys_assignLogic m k v).2 (Or.inl rfl)
  rw [hnil] at h
  exact absurd h List.not_mem_nil

/-- The logic that was set. -/
@[simp] theorem lookup_assignLogic_self : (assignLogic m k v).lookup k = some v := by
  rw [assignLogic]
  split_ifs with h
  · induction m with
    | nil => simp at h
    | cons p m ih =>
      obtain ⟨key, w⟩ := p
      by_cases hp : key = k
      · simp [hp]
      · have hm : m.any (·.1 = k) = true := by simpa [hp] using h
        have hne : (k == key) = false := by simpa using Ne.symm hp
        rw [List.map_cons, if_neg hp, List.lookup_cons, hne]
        exact ih hm
  · have hnone : m.lookup k = none := by
      refine List.lookup_eq_none_iff.2 fun p hp => ?_
      simp only [List.any_eq_true, decide_eq_true_eq, not_exists, not_and] at h
      simpa using Ne.symm (h p hp)
    simp [List.lookup_append, hnone]

/-- A key of a map is found. -/
theorem exists_lookup_of_mem {m : List (Name × ν)} {k : Name} (h : k ∈ m.map (·.1)) :
    ∃ v, m.lookup k = some v := by
  obtain ⟨p, hp, rfl⟩ := List.mem_map.1 h
  exact Option.isSome_iff_exists.1 (List.lookup_isSome_iff.2 ⟨p, hp, beq_self_eq_true _⟩)

end Map

/-! ### An expression that was accepted -/

/-- **What a call of `set_expression` does**: nothing when the compilation returns a null
pointer, and otherwise it keeps the logic under the name of the schema. -/
theorem setExpression_cases {PF : Platform} {E E' : ApexEngine} {schemaName : Name} {g : ℕ → Node}
    {a a' : ℕ → Annot} {root : ℕ} {mode : ExecutionMode}
    (h : setExpression PF E schemaName g a (some root) mode = .ok (a', E')) :
    ∃ a₁, markMode g mode root a = .ok a₁ ∧
      (compileMode PF g mode a₁ root = (a', .error .nullptr) ∧ E' = E ∨
      ∃ a₂ L, compileMode PF g mode a₁ root = (a₂, .ok L.kernel) ∧
        sumMeta g a₂ root = .ok (L.baseSum, L.deltaWeights, L.masksToPopcount) ∧
        generateMode E schemaName g mode a₂ root = .ok (a', L.mslSource) ∧
        L.fields = resizeFields (collectFields g a₂ (E.registry.getField schemaName)
          (NodePool.maxNodes + 1) root fun _ => none) ∧
        L.mode = mode ∧ L.resultKind = (a' root).resultKind ∧ L.activeBits = 64 ∧
        E' = { E with exprLogic := assignLogic E.exprLogic schemaName L }) := by
  obtain ⟨a₁, hmark, h⟩ := bind_ok h
  refine ⟨a₁, hmark, ?_⟩
  cases hcomp : compileMode PF g mode a₁ root with
  | mk a₂ res =>
    rw [hcomp] at h
    cases res with
    | error f =>
      cases f with
      | undefined => cases h
      | nullptr =>
        obtain ⟨rfl, rfl⟩ := Prod.mk.inj (Except.ok.inj h)
        exact Or.inl ⟨rfl, rfl⟩
    | ok kernel =>
      obtain ⟨⟨base, weights, masks⟩, hsum, h⟩ := bind_ok h
      obtain ⟨⟨a₃, msl⟩, hmsl, h⟩ := bind_ok h
      obtain ⟨rfl, rfl⟩ := Prod.mk.inj (Except.ok.inj h)
      generalize hfs : resizeFields _ = fs
      exact Or.inr ⟨a₂, ⟨kernel, fs, mode, (a₃ root).resultKind, base, weights, masks, 64, msl⟩, rfl,
        hsum, hmsl, hfs.symm, rfl, rfl, rfl, rfl⟩

/-- **An expression that was accepted** on an engine without logic, for a new
schema: its compilation and the generation of its shader succeeded, and the engine
holds the kernel. -/
theorem setExpression_logic {PF : Platform} {E₀ E : ApexEngine} {schemaName : Name}
    {fields : List FieldDescriptor} {rowStride : ℕ} {g : ℕ → Node} {a₀ a : ℕ → Annot} {root : ℕ}
    {mode : ExecutionMode} (honly : E₀.exprLogic = [])
    (h : setExpression PF (E₀.registerSchema schemaName fields rowStride) schemaName g a₀
      (some root) mode = .ok (a, E)) (hacc : E.exprLogic ≠ []) :
    ∃ a₁ a₂ L, markMode g mode root a₀ = .ok a₁ ∧ compileMode PF g mode a₁ root = (a₂, .ok L.kernel) ∧
      sumMeta g a₂ root = .ok (L.baseSum, L.deltaWeights, L.masksToPopcount) ∧
      generateMode (E₀.registerSchema schemaName fields rowStride) schemaName g mode a₂ root =
        .ok (a, L.mslSource) ∧
      L.fields = resizeFields (collectFields g a₂
        ((E₀.registerSchema schemaName fields rowStride).registry.getField schemaName)
        (NodePool.maxNodes + 1) root fun _ => none) ∧
      L.mode = mode ∧ L.resultKind = (a root).resultKind ∧ L.activeBits = 64 ∧
      E.exprLogic = [(schemaName, L)] ∧ E.schemaMetadata schemaName = some ⟨rowStride, fields⟩ := by
  have honly' : (E₀.registerSchema schemaName fields rowStride).exprLogic = [] := honly
  obtain ⟨a₁, hmark, ⟨-, rfl⟩ | ⟨a₂, L, hcomp, hsum, hmsl, hfs, hmode, hkind, hbits, rfl⟩⟩ :=
    setExpression_cases h
  · exact absurd honly' hacc
  · refine ⟨a₁, a₂, L, hmark, hcomp, hsum, hmsl, hfs, hmode, hkind, hbits, ?_, ?_⟩
    · simp only [honly', assignLogic, List.any_nil, Bool.false_eq_true, if_false, List.nil_append]
    · simp [registerSchema, Map.assign]

/-- Only the `GPU_THROUGHPUT` mode has a shader. -/
theorem generateMode_cpu {E : ApexEngine} {schemaName : Name} {g : ℕ → Node} {mode : ExecutionMode}
    {a a' : ℕ → Annot} {root : ℕ} {msl : Option Gpu.MslSource} (hmode : mode ≠ .GPU_THROUGHPUT)
    (h : generateMode E schemaName g mode a root = .ok (a', msl)) : a' = a ∧ msl = none := by
  rw [generateMode, if_neg hmode, Except.ok.injEq, Prod.mk.injEq] at h
  exact ⟨h.1.symm, h.2.symm⟩

/-- **The table of a schema registered once**: the collected fields are those of the numbering
and no others, if the schema has them. -/
theorem registered_table {P : NodePool} (hP : Built P) {a : ℕ → Annot} {root : ℕ}
    (hroot : root < P.nextIdx) {names : List Name} (hN : Numbered P.storage a root names)
    (hlen : names.length ≤ 128) {E₀ : ApexEngine} {schemaName : Name}
    (hnew : E₀.registry.schemas schemaName = none) {fields : List FieldDescriptor} {rowStride : ℕ}
    (hreg : ∀ f ∈ names, ∃ d ∈ fields, d.name = f) {table : List (Option FieldDescriptor)}
    (h : table = resizeFields (collectFields P.storage a
      ((E₀.registerSchema schemaName fields rowStride).registry.getField schemaName)
      (NodePool.maxNodes + 1) root fun _ => none)) :
    FieldTable (fun f => fields.find? fun d => d.name = f) names table ∧
      table.length = names.length := by
  have hget : (E₀.registerSchema schemaName fields rowStride).registry.getField schemaName =
      fun f => fields.find? fun d => d.name = f :=
    funext fun f => SchemaRegistry.getField_registerSchema hnew fields f
  rw [h, hget]
  refine collectFields_table hP hroot hN hlen fun f hf => ?_
  obtain ⟨d, hd, hdf⟩ := hreg f hf
  exact List.find?_isSome.2 ⟨d, hd, by simpa using hdf⟩

/-- … on a CPU, over the fields of the schema. -/
theorem setExpression_installed {PF : Platform} {E₀ E : ApexEngine} {schemaName : Name}
    {fields : List FieldDescriptor} {rowStride : ℕ} {P : NodePool} (hP : Built P)
    {a₀ a : ℕ → Annot} {root : ℕ} (hroot : root < P.nextIdx) {mode : ExecutionMode}
    (hcpu : mode ≠ .GPU_THROUGHPUT)
    (hnew : E₀.registry.schemas schemaName = none) (honly : E₀.exprLogic = [])
    (h : setExpression PF (E₀.registerSchema schemaName fields rowStride) schemaName P.storage a₀
      (some root) mode = .ok (a, E)) (hacc : E.exprLogic ≠ []) :
    ∃ a₁ L, markMode P.storage mode root a₀ = .ok a₁ ∧
      compileMode PF P.storage mode a₁ root = (a, .ok L.kernel) ∧
      sumMeta P.storage a root = .ok (L.baseSum, L.deltaWeights, L.masksToPopcount) ∧
      L.mode = mode ∧ L.resultKind = (a root).resultKind ∧ L.activeBits = 64 ∧
      ∀ names, Numbered P.storage a root names → names.length ≤ 128 →
        (∀ f ∈ names, ∃ d ∈ fields, d.name = f) →
          Installed E L (fun f => fields.find? fun d => d.name = f) rowStride names := by
  obtain ⟨a₁, a₂, L, hmark, hcomp, hsum, hmsl, hfs, hmode, hkind, hbits, hL, hmd⟩ :=
    setExpression_logic honly h hacc
  obtain ⟨rfl, -⟩ := generateMode_cpu hcpu hmsl
  refine ⟨a₁, L, hmark, hcomp, hsum, hmode, hkind, hbits, fun names hN hlen hreg => ?_⟩
  obtain ⟨htable, hlength⟩ := registered_table hP hroot hN hlen hnew hreg hfs
  exact ⟨⟨schemaName, fields, hL, hmd⟩, hN.nodup, hlen, htable, hlength⟩

/-- The logic stands under the name of the schema. -/
theorem setExpression_keys {PF : Platform} {E₀ E : ApexEngine} {schemaName : Name}
    {fields : List FieldDescriptor} {rowStride : ℕ} {g : ℕ → Node} {a₀ a : ℕ → Annot} {root : ℕ}
    {mode : ExecutionMode} (honly : E₀.exprLogic = [])
    (h : setExpression PF (E₀.registerSchema schemaName fields rowStride) schemaName g a₀
      (some root) mode = .ok (a, E)) (hacc : E.exprLogic ≠ []) :
    E.exprLogic.map (·.1) = [schemaName] ∧
      E.schemaMetadata schemaName = some ⟨rowStride, fields⟩ := by
  obtain ⟨a₁, a₂, L, -, -, -, -, -, -, -, -, hL, hmd⟩ := setExpression_logic honly h hacc
  exact ⟨by rw [hL]; rfl, hmd⟩

/-- The engine has one logic. -/
theorem Installed.logic_eq {E : ApexEngine} {L : ExprCompiledLogic}
    {getField : Name → Option FieldDescriptor} {rowStride : ℕ} {names : List Name}
    (h : Installed E L getField rowStride names) {schemaName : Name} {md : SchemaMetadata}
    (hkeys : E.exprLogic.map (·.1) = [schemaName] ∧ E.schemaMetadata schemaName = some md) :
    E.exprLogic = [(schemaName, L)] ∧ E.schemaMetadata schemaName = some md := by
  obtain ⟨name, fields, hL, -⟩ := h.logic
  have hname := hkeys.1
  rw [hL] at hname
  obtain rfl : name = schemaName := by simpa using hname
  exact ⟨hL, hkeys.2⟩

/-- An engine with one logic executes it. -/
theorem execute_single {PF : Platform} {E : ApexEngine} {schemaName : Name} {L : ExprCompiledLogic}
    {md : SchemaMetadata} (hL : E.exprLogic = [(schemaName, L)])
    (hmd : E.schemaMetadata schemaName = some md) (hmode : L.mode ≠ .GPU_THROUGHPUT)
    (data : ℕ → BitVec 8) (rowCount : ℕ) :
    execute PF E data rowCount = (executeChunks PF L data md.rowStride rowCount
      (List.range ((rowCount + 63) / 64)) 0 E.fieldBuffers).map
        fun r => (r.1, { E with fieldBuffers := r.2 }) := by
  simp only [execute, firstLogic_single hL hmd, if_neg hmode]

/-- **The rows of the data reach the kernel**: if on every chunk the kernel makes the
sum of `v` over the rows of the chunk out of columns that hold them, `execute`
returns the sum over all rows, whatever the buffers hold.  The lanes above the rows are zero,
but for the five fields of the vector loads. -/
theorem Installed.execute_chunks {PF : Platform} {E : ApexEngine} {L : ExprCompiledLogic}
    {getField : Name → Option FieldDescriptor} {rowStride : ℕ} {names : List Name}
    (h : Installed E L getField rowStride names) (hmode : L.mode ≠ .GPU_THROUGHPUT)
    {data : ℕ → BitVec 8} {rowCount : ℕ} {v : ℕ → Word}
    (hchunk : ∀ chunk R cols, chunk * 64 < rowCount →
      (∀ r < min 64 (rowCount - chunk * 64), ∀ f ∈ names,
        R r f = recordAt getField data ((chunk * 64 + r) * rowStride) f) →
      (useSimd5 L = false → ∀ r < 64, min 64 (rowCount - chunk * 64) ≤ r → ∀ f ∈ names, R r f = 0) →
      HoldsRows PF L names R cols →
        ∃ m, call L.kernel (PF.abi.enter cols fun _ => 0) = some m ∧
          chunkTotal L (min 64 (rowCount - chunk * 64)) (m.read (.x 0)) (pad PF.abi.layout m) =
            some (∑ r ∈ Finset.range (min 64 (rowCount - chunk * 64)), v (chunk * 64 + r)))
    (bufs : ℕ → ColumnBuffer) :
    ∃ E', ApexEngine.execute PF { E with fieldBuffers := bufs } data rowCount =
      some (∑ r ∈ Finset.range rowCount, v r, E') := by
  obtain ⟨schemaName, fields, hL, hmd⟩ := h.logic
  have hchunks : ∃ bufs', executeChunks PF L data rowStride rowCount
      (List.range ((rowCount + 63) / 64)) 0 bufs = some (∑ r ∈ Finset.range rowCount, v r, bufs') := by
    refine executeChunks_total (fun chunk bufs hlt => ?_) bufs
    obtain ⟨R, hR, habove, hcols⟩ := chunk_rows PF data (chunk * 64 * rowStride) rowStride h.nodup
      h.length_le h.table (Nat.min_le_left 64 (rowCount - chunk * 64)) bufs
    obtain ⟨m, hcall, htotal⟩ := hchunk chunk R _ hlt
      (fun r hr f hf => by rw [hR r hr f hf, Nat.add_mul])
      (fun hsimd r hr hle f hf => by rw [habove r hr hle f hf, leftover, if_neg (by simp [hsimd])]) hcols
    refine ⟨m.read (.x 0), pad PF.abi.layout m, fillColumns PF L data (chunk * 64 * rowStride)
      rowStride (min 64 (rowCount - chunk * 64)) bufs, ?_, htotal⟩
    rw [processChunkExpr, Jit.Abi.invoke, hcall]
    rfl
  obtain ⟨bufs', hchunks⟩ := hchunks
  refine ⟨{ E with fieldBuffers := bufs' }, ?_⟩
  rw [execute_single (show ({ E with fieldBuffers := bufs } : ApexEngine).exprLogic = _ from hL)
    hmd hmode, hchunks]
  rfl

/-- The kernel adds up `v` over the rows of a chunk. -/
def AddsUp (PF : Platform) (L : ExprCompiledLogic) (names : List Name)
    (v : (Name → Word) → Word) : Prop :=
  ∀ R cols, HoldsRows PF L names R cols → ∃ m, call L.kernel (PF.abi.enter cols fun _ => 0) = some m ∧
    ∀ rows ≤ 64, chunkTotal L rows (m.read (.x 0)) (pad PF.abi.layout m) =
      some (∑ r ∈ Finset.range rows, v (R r))

/-- The kernel adds up `w` over the lanes of a chunk, from every scratchpad that meets
some condition; a scratchpad of zeros does, and so does what a call leaves behind. -/
def LaneTotals (PF : Platform) (L : ExprCompiledLogic) (names : List Name)
    (w : ℕ → (Name → Word) → Word) : Prop :=
  ∃ J : (ℕ → Word) → Prop, J (fun _ => 0) ∧ ∀ R cols p, J p → HoldsPlanes names R cols →
    ∃ m, call L.kernel (PF.abi.enter cols p) = some m ∧ J (pad PF.abi.layout m) ∧
      ∀ rows ≤ 64, chunkTotal L rows (m.read (.x 0)) (pad PF.abi.layout m) =
        some (∑ r ∈ Finset.range rows, w r (R r))

/-- Over values that no lane changes. -/
theorem LaneTotals.addsUp {PF : Platform} {L : ExprCompiledLogic} {names : List Name}
    {w : ℕ → (Name → Word) → Word} (h : LaneTotals PF L names w) (hmode : L.mode = .BIT_SLICED)
    (hbits : L.activeBits = 64) {v : (Name → Word) → Word} (hw : ∀ r row, w r row = v row) :
    AddsUp PF L names v := by
  intro R cols hcols
  obtain ⟨J, h0, hcall⟩ := h
  obtain ⟨m, hm, -, htotal⟩ := hcall R cols _ h0 (hcols.holdsPlanes hmode hbits)
  refine ⟨m, hm, fun rows hrows => (htotal rows hrows).trans ?_⟩
  simp only [hw]

/-- **A kernel that adds up `v` over the rows of a chunk makes `execute` add it up
over all rows.** -/
theorem Installed.execute {PF : Platform} {E : ApexEngine} {L : ExprCompiledLogic}
    {getField : Name → Option FieldDescriptor} {rowStride : ℕ} {names : List Name}
    (h : Installed E L getField rowStride names) (hmode : L.mode ≠ .GPU_THROUGHPUT)
    {v : (Name → Word) → Word}
    (hv : ∀ row row' : Name → Word, (∀ f ∈ names, row f = row' f) → v row = v row')
    (hadds : AddsUp PF L names v) (bufs : ℕ → ColumnBuffer) (data : ℕ → BitVec 8) (rowCount : ℕ) :
    ∃ E', ApexEngine.execute PF { E with fieldBuffers := bufs } data rowCount =
      some (∑ r ∈ Finset.range rowCount, v (recordAt getField data (r * rowStride)), E') := by
  refine h.execute_chunks hmode (fun chunk R cols _ hR _ hcols => ?_) bufs
  obtain ⟨m, hcall, htotal⟩ := hadds R cols hcols
  refine ⟨m, hcall, (htotal _ (Nat.min_le_left ..)).trans ?_⟩
  exact congrArg some (Finset.sum_congr rfl fun r hr => hv _ _ (hR r (Finset.mem_range.1 hr)))

/-! ### Well-typed roots -/

section Typed

variable {g : ℕ → Node} {t : Ty} {e : Expr t} {root : ℕ}

/-- A well-typed root gets no marks. -/
theorem markSkip_typed (he : Represents g e root) (a : ℕ → Annot) : markSkip g root a = .ok a := by
  have hk : (g root).kind ≠ .SUM := by rw [he.kind]; exact Expr.kind_ne_sum e
  simp only [markSkip, isSumPlusConst_typed he, effectiveRoot_typed he, bind, Except.bind,
    Bool.false_eq_true, if_false, if_neg hk]

end Typed

/-! ### Bit-sliced execution -/

/-- What `execute` is for: the number of rows on which a boolean root holds, the sum
of the values of an arithmetic root, modulo `2^64`. -/
def rowTotal : {t : Ty} → (ℕ → t.Value) → ℕ → Word
  | .bool, v, rowCount => BitVec.ofNat 64 ((Finset.range rowCount).filter fun r => v r = true).card
  | .num, v, rowCount => ∑ r ∈ Finset.range rowCount, v r

/-- A sum over the rows. -/
theorem rowTotal_eq_sum {t : Ty} (v : ℕ → t.Value) (rowCount : ℕ) :
    rowTotal v rowCount = ∑ r ∈ Finset.range rowCount, encode (v r) := by
  cases t with
  | num => rfl
  | bool =>
    show BitVec.ofNat 64 _ = ∑ r ∈ Finset.range rowCount, bit (v r)
    rw [Finset.card_filter, ← BitVec.natCast_eq_ofNat, Nat.cast_sum]
    refine Finset.sum_congr rfl fun r _ => ?_
    cases v r <;> rfl

/-- Only the loaded fields matter. -/
theorem evalOn_congr {t : Ty} (e : Expr t) {row row' : Name → Word}
    (h : ∀ f ∈ e.fields, row f = row' f) : encode (e.eval row) = encode (e.eval row') := by
  rw [Expr.eval, Expr.eval, Expr.evalWith_congr e h]

/-! ### Rows in a buffer -/

/-- A schema with a word for every name, behind a first word that belongs to no field. -/
def wordFields (names : List Name) : List FieldDescriptor :=
  names.map fun f => ⟨f, 8 * (names.idxOf f + 1), 64, .UINT64⟩

/-- The length of its rows. -/
def wordStride (names : List Name) : ℕ := 8 * (names.length + 1)

/-- The bytes of any rows in that schema. -/
def rowBytes (names : List Name) (rows : ℕ → Name → Word) (p : ℕ) : BitVec 8 :=
  (rows (p / wordStride names) (names.getD (p % wordStride names / 8 - 1) [])).extractLsb'
    (8 * (p % 8)) 8

/-- **Any rows can be in a buffer.** -/
theorem rowOf_rowBytes {names : List Name} (rows : ℕ → Name → Word) {f : Name} (hf : f ∈ names)
    (i : ℕ) : rowOf (wordFields names) (rowBytes names rows) (wordStride names) i f = rows i f := by
  have hfind : ((wordFields names).find? fun d => d.name = f) =
      some ⟨f, 8 * (names.idxOf f + 1), 64, .UINT64⟩ := by
    have hself : names.find? (fun x => decide (x = f)) = some f := by
      obtain ⟨x, hx⟩ := Option.isSome_iff_exists.1
        (List.find?_isSome.2 (⟨f, hf, by simp⟩ : ∃ x ∈ names, decide (x = f) = true))
      have hxf : x = f := by simpa using List.find?_some hx
      rw [hx, hxf]
    rw [wordFields, List.find?_map]
    exact congrArg (Option.map _) hself
  rw [rowOf, recordAt, hfind]
  have hk : names.idxOf f < names.length := List.idxOf_lt_length_of_mem hf
  have hname : names.getD (names.idxOf f) [] = f := by
    rw [List.getD_eq_getElem?_getD, List.getElem?_idxOf hf, Option.getD_some]
  generalize hidx : names.idxOf f = k at hk hname ⊢
  refine load64_of_bytes fun j hj => ?_
  -- the row, the field and the byte of the position
  have hp : i * wordStride names + 8 * (k + 1) + j = wordStride names * i + (8 * (k + 1) + j) := by ring
  have hlt : 8 * (k + 1) + j < wordStride names := by rw [wordStride]; omega
  have hrow : (wordStride names * i + (8 * (k + 1) + j)) / wordStride names = i := by
    rw [Nat.mul_add_div (by omega), Nat.div_eq_of_lt hlt, Nat.add_zero]
  have hfield : (wordStride names * i + (8 * (k + 1) + j)) % wordStride names / 8 - 1 = k := by
    rw [Nat.mul_add_mod, Nat.mod_eq_of_lt hlt]
    omega
  have hbyte : (wordStride names * i + (8 * (k + 1) + j)) % 8 = j := by
    rw [wordStride, Nat.mul_assoc, Nat.mul_add_mod]
    omega
  show rowBytes names rows (i * wordStride names + 8 * (k + 1) + j) = _
  rw [hp, rowBytes, hrow, hfield, hbyte, hname]

section BitSliced

variable {PF : Platform} {P : NodePool} {t : Ty} {e : Expr t} {root : ℕ} {a₀ a : ℕ → Annot}

/-- The result kind in the logic is the sort of the root. -/
theorem compile_resultKind (hP : Built P) (he : Represents P.storage e root)
    (hc : e.compound = true) {kernel : List Instr}
    (hcomp : compileExpression PF.rt P.storage a₀ root 64 = (a, .ok kernel)) :
    (a root).resultKind = if t = .bool then .BITMASK else .BITPLANE := by
  obtain ⟨nodes, body, hprep, -, -⟩ := Jit.compileExpression_ok hcomp
  have hp := prepare_spec hP (he.lt_nextIdx hP hc) hprep
  rw [hp.resultKind root ((hp.mem_iff root).2 (Reach.refl _ _)), NodeKind.resultKind, he.isMask]
  simp only [decide_eq_true_eq]

/-- **A bit-sliced kernel adds up the values of its expression**, as it computes them
in the lanes. -/
theorem bitSliced_laneTotals (hP : Built P) (he : Represents P.storage e root)
    (hc : e.compound = true)
    (heq : ∀ n, (P.storage n).kind.isComparison = false → (a₀ n).eqSlotId = -1)
    (hskip : ∀ n, Reach P.storage root n → (a₀ n).skipJit = false) {L : ExprCompiledLogic}
    (hcomp : compileExpression PF.rt P.storage a₀ root 64 = (a, .ok L.kernel))
    (hweights : L.deltaWeights = []) (hkind : L.resultKind = (a root).resultKind)
    {names : List Name} (hN : Numbered P.storage a root names) (hlen : names.length ≤ 128) :
    LaneTotals PF L names fun r row => encode (e.evalWith (subLane r) row) := by
  refine ⟨fun _ => True, trivial, fun R cols p _ hcols => ?_⟩
  obtain ⟨m, hcall, hdel⟩ := Jit.compile_delivers hP he hc hcomp heq hskip
    (hcols.fieldPlanes PF hN hlen) (hcols.args PF hlen p)
  refine ⟨m, hcall, trivial, fun rows hrows => ?_⟩
  rw [compile_resultKind hP he hc hcomp] at hkind
  cases t with
  | bool => exact chunkTotal_mask hkind hrows hdel _
  | num => exact chunkTotal_planes hkind hweights hrows _ hdel

/-- The numbered fields are those of the expression. -/
theorem Numbered.mem_iff_fields {names : List Name} (hN : Numbered P.storage a root names)
    (he : Represents P.storage e root) (f : Name) : f ∈ names ↔ f ∈ e.fields := by
  rw [hN.mem]
  constructor
  · rintro ⟨n, hn, hk, rfl⟩
    exact he.mem_fields hn hk
  · exact he.exists_load

/-- **`execute` on an accepted bit-sliced expression.** -/
theorem bitSliced_execute (hP : Built P) (he : Represents P.storage e root)
    (hc : e.compound = true) (hsub : e.subFree = true) (hfresh : Fresh P root) {E₀ : ApexEngine}
    {schemaName : Name} {fields : List FieldDescriptor} {rowStride : ℕ}
    (hnew : E₀.registry.schemas schemaName = none) (honly : E₀.exprLogic = [])
    (hreg : ∀ f ∈ e.fields, ∃ d ∈ fields, d.name = f) {E : ApexEngine}
    (hset : setExpression PF (E₀.registerSchema schemaName fields rowStride) schemaName P.storage
      P.annot (some root) .BIT_SLICED = .ok (a, E)) (hacc : E.exprLogic ≠ []) :
    (∃ names, Numbered P.storage a root names ∧ names.length ≤ 128) ∧
      ∀ (bufs : ℕ → ColumnBuffer) (data : ℕ → BitVec 8) (rowCount : ℕ),
        ∃ E', execute PF { E with fieldBuffers := bufs } data rowCount =
          some (rowTotal (fun r => e.eval (rowOf fields data rowStride r)) rowCount, E') := by
  have hroot := he.lt_nextIdx hP hc
  obtain ⟨a₁, L, hmark, hcomp, hsum, hmode, hkind, hbits, hinst⟩ :=
    setExpression_installed hP hroot (by decide) hnew honly hset hacc
  rw [markMode, markSkip_typed he] at hmark
  obtain rfl := Except.ok.inj hmark
  rw [sumMeta_typed he, Except.ok.injEq, Prod.mk.injEq, Prod.mk.injEq] at hsum
  rw [compileMode, if_neg (by decide)] at hcomp
  obtain ⟨hlen, hN⟩ := Numbered.ofCompiled hP hroot hcomp
  generalize Jit.fieldOrder P.storage root = names at hlen hN
  have hI := hinst names hN hlen fun f hf => hreg f ((hN.mem_iff_fields he f).1 hf)
  have hadds : AddsUp PF L names fun row => encode (e.eval row) :=
    (bitSliced_laneTotals hP he hc hP.eqSlotId (fun n hn => hfresh.skipJit hn) hcomp hsum.2.1.symm hkind
      hN hlen).addsUp hmode hbits fun r row => by rw [Expr.evalWith_subFree e hsub]
  refine ⟨⟨names, hN, hlen⟩, fun bufs data rowCount => ?_⟩
  rw [rowTotal_eq_sum]
  exact hI.execute (by rw [hmode]; decide)
    (fun row row' h => evalOn_congr e fun f hf => h f ((hN.mem_iff_fields he f).2 hf)) hadds bufs data
    rowCount

/-- `set_expression` fails only where its compiler does, if the metadata of the root is
defined. -/
theorem setExpression_ne_undefined_of {E : ApexEngine} {schemaName : Name} {g : ℕ → Node}
    {a₁ : ℕ → Annot} (hmark : markSkip g root a₀ = .ok a₁) (hsum : ∀ a, ∃ r, sumMeta g a root = .ok r)
    (hcomp : (compileExpression PF.rt g a₁ root 64).2 ≠ .error .undefined) :
    setExpression PF E schemaName g a₀ (some root) .BIT_SLICED ≠ .error .undefined := by
  simp only [setExpression, markMode, hmark, bind, Except.bind, compileMode, generateMode,
    reduceCtorEq, if_false]
  cases hres : compileExpression PF.rt g a₁ root 64 with
  | mk a₂ res =>
    rw [hres] at hcomp
    cases res with
    | error f => cases f <;> simp_all
    | ok kernel =>
      obtain ⟨r, hr⟩ := hsum a₂
      simp [hr]

/-- `set_expression` of a well-typed root fails only where its compiler does. -/
theorem setExpression_ne_undefined {E : ApexEngine} {schemaName : Name}
    (he : Represents P.storage e root)
    (hcomp : (compileExpression PF.rt P.storage a₀ root 64).2 ≠ .error .undefined) :
    setExpression PF E schemaName P.storage a₀ (some root) .BIT_SLICED ≠ .error .undefined :=
  setExpression_ne_undefined_of (markSkip_typed he a₀) (fun a => ⟨_, sumMeta_typed he a⟩) hcomp

variable (PF) in
/-- `set_expression` accepts a root when its compiler does, if the metadata is defined. -/
theorem setExpression_accepts_of (E : ApexEngine) (schemaName : Name) {g : ℕ → Node} {a₁ : ℕ → Annot}
    (hmark : markSkip g root a₀ = .ok a₁) {r : Word × List Word × List ℤ}
    (hsum : sumMeta g a root = .ok r) {kernel : List Instr}
    (hcomp : compileExpression PF.rt g a₁ root 64 = (a, .ok kernel)) :
    ∃ E', setExpression PF E schemaName g a₀ (some root) .BIT_SLICED = .ok (a, E') ∧
      E'.exprLogic ≠ [] := by
  simp only [setExpression, markMode, hmark, bind, Except.bind, compileMode, hsum, generateMode,
    reduceCtorEq, if_false, hcomp]
  exact ⟨_, rfl, assignLogic_ne_nil _ _ _⟩

/-- What compiles is accepted. -/
theorem setExpression_accepts (E : ApexEngine) (schemaName : Name) (he : Represents P.storage e root)
    {kernel : List Instr} (hcomp : compileExpression PF.rt P.storage a₀ root 64 = (a, .ok kernel)) :
    ∃ E', setExpression PF E schemaName P.storage a₀ (some root) .BIT_SLICED = .ok (a, E') ∧
      E'.exprLogic ≠ [] :=
  setExpression_accepts_of PF E schemaName (markSkip_typed he a₀) (sumMeta_typed he a) hcomp

end BitSliced

/-- **Bit-sliced execution is correct.**  A well-typed expression without `SUB`, with
at most six additions, on fresh nodes and over the fields of a schema registered
once: `set_expression` does not run into undefined behaviour, and when it accepts
the expression as the only logic of the engine, `execute` counts the rows on which
a boolean root holds and sums the values of an arithmetic one, for all data, all
numbers of rows and whatever earlier calls left in the buffers. -/
theorem execute_correct (PF : Platform) {P : NodePool} (hP : Built P) {t : Ty} {e : Expr t}
    {root : ℕ} (he : Represents P.storage e root) (hc : e.compound = true)
    (hsub : e.subFree = true) (hsix : AtMostSix P.storage root (· = .ADD)) (hfresh : Fresh P root)
    (E₀ : ApexEngine) (schemaName : Name) (fields : List FieldDescriptor) (rowStride : ℕ)
    (hnew : E₀.registry.schemas schemaName = none) (honly : E₀.exprLogic = [])
    (hreg : ∀ f ∈ e.fields, ∃ d ∈ fields, d.name = f) :
    setExpression PF (E₀.registerSchema schemaName fields rowStride) schemaName P.storage P.annot
        (some root) .BIT_SLICED ≠ .error .undefined ∧
      ∀ a E, setExpression PF (E₀.registerSchema schemaName fields rowStride) schemaName P.storage
          P.annot (some root) .BIT_SLICED = .ok (a, E) → E.exprLogic ≠ [] →
        ∀ (bufs : ℕ → ColumnBuffer) (data : ℕ → BitVec 8) (rowCount : ℕ),
          ∃ E', execute PF { E with fieldBuffers := bufs } data rowCount =
            some (rowTotal (fun r => e.eval (rowOf fields data rowStride r)) rowCount, E') := by
  refine ⟨setExpression_ne_undefined he
    (Jit.compile_typed_ne_undefined hP _ _ he hc hsub hsix 64), ?_⟩
  exact fun a E hset hacc => (bitSliced_execute hP he hc hsub hfresh hnew honly hreg hset hacc).2

/-- Whether `set_expression` left a logic in the engine. -/
def accepted : Except Fault ((ℕ → Annot) × ApexEngine) → Bool
  | .ok (_, E) => !E.exprLogic.isEmpty
  | .error _ => false

/-- Accepted means a logic is there. -/
theorem accepted_iff {r : Except Fault ((ℕ → Annot) × ApexEngine)} :
    accepted r = true ↔ ∃ a E, r = .ok (a, E) ∧ E.exprLogic ≠ [] := by
  cases r with
  | error f => simp [accepted]
  | ok r =>
    obtain ⟨a, E⟩ := r
    simp [accepted]

/-- The schema of the one field `a`. -/
abbrev oneField : List FieldDescriptor := [⟨['a'], 0, 64, .UINT64⟩]

/-- A new engine that knows the schema. -/
abbrev oneFieldEngine : ApexEngine := init.registerSchema ['t'] oneField 8

/-- Rows of it, all of them 10. -/
abbrev tens (p : ℕ) : BitVec 8 := if p % 8 = 0 then 10 else 0

/-- `set_expression` takes `a > 5` in each of the modes. -/
theorem gtPool_accepted (mode : ExecutionMode) :
    ∃ a E, setExpression .standard oneFieldEngine ['t'] Jit.gtPool.storage Jit.gtPool.annot (some 2)
      mode = .ok (a, E) ∧ E.exprLogic ≠ [] := by
  refine accepted_iff.1 ?_
  cases mode <;> decide

/-- `a > 5` on three rows with `a = 10`. -/
theorem execute_correct_gt :
    ∃ a E E', setExpression .standard oneFieldEngine ['t'] Jit.gtPool.storage
        Jit.gtPool.annot (some 2) .BIT_SLICED = .ok (a, E) ∧ E.exprLogic ≠ [] ∧
      execute .standard E tens 3 = some (3, E') := by
  obtain ⟨-, hcorrect⟩ := execute_correct .standard Jit.gtPool_built Jit.gtPool_represents rfl rfl
    (.of_all Jit.gtPool_represents rfl) Jit.gtPool_fresh init ['t'] oneField 8 rfl rfl
    (by decide)
  obtain ⟨a, E, hset, hacc⟩ := gtPool_accepted .BIT_SLICED
  obtain ⟨E', hrun⟩ := hcorrect a E hset hacc E.fieldBuffers tens 3
  refine ⟨a, E, E', hset, hacc, hrun.trans ?_⟩
  have htotal : rowTotal (fun r => Expr.eval (rowOf oneField
      tens 8 r) (.cmp .gt (.load ['a']) (.const 5))) 3 = 3 := by
    decide
  rw [htotal]

end ApexEngine
end Engine
end AarchGate
