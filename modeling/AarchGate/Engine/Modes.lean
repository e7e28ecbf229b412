/-
# The scalar mode against the bit-sliced mode

`set_expression` installs one expression in two ways: as bit-sliced code, or as a
loop over the rows.  For a boolean root without `NOT` both make `execute` count the
same rows.  The other expressions show two defects of the scalar mode.

* `compile_scalar_expression` has no case for `NOT`, so the node stores whatever the
  node before it left in the result register.
* `execute` takes an arithmetic result from the first 64 words of the scratchpad,
  as planes.  A scalar kernel leaves the words of the nodes of its last row there.

So the modes agree on a boolean root without `NOT`, and where there are no rows.  For every other
number of rows an arithmetic root on which they agree has the same value on all rows, and
`NOT(a > 5)` is counted wrong (`modes_agree`).
-/

import AarchGate.Engine.Correct

namespace AarchGate
namespace Engine
namespace ApexEngine

open A64 Ir AarchGate.Core Compute BitPlane
open Jit (pad encode maxSlots AtMostCompound compileScalarExpression gtFive)

/-! ### Scalar execution -/

section Scalar

variable {PF : Platform} {P : NodePool} {t : Ty} {e : Expr t} {root : ℕ} {a : ℕ → Annot}

/-- **An accepted scalar expression**, with the numbering of its fields. -/
theorem scalar_installed (hP : Built P) (he : Represents P.storage e root)
    (hc : e.compound = true) {E₀ : ApexEngine} {schemaName : Name}
    {fields : List FieldDescriptor} {rowStride : ℕ}
    (hnew : E₀.registry.schemas schemaName = none) (honly : E₀.exprLogic = [])
    (hreg : ∀ f ∈ e.fields, ∃ d ∈ fields, d.name = f) {names₀ : List Name}
    (hnames : ∀ f ∈ e.fields, f ∈ names₀) (hlen : names₀.length ≤ 128) {E : ApexEngine}
    (hset : setExpression PF (E₀.registerSchema schemaName fields rowStride) schemaName P.storage
      P.annot (some root) .SCALAR = .ok (a, E)) (hacc : E.exprLogic ≠ []) :
    ∃ L names, compileScalarExpression PF.rt P.storage P.annot root = (a, .ok L.kernel) ∧
      L.mode = .SCALAR ∧ L.resultKind = (if t = .bool then .BITMASK else .BITPLANE) ∧
      L.deltaWeights = [] ∧ Numbered P.storage a root names ∧ names.length ≤ 128 ∧
      Installed E L (fun f => fields.find? fun d => d.name = f) rowStride names := by
  have hroot := he.lt_nextIdx hP hc
  obtain ⟨a₁, L, hmark, hcomp, hsum, hmode, hkind, -, hinst⟩ :=
    setExpression_installed hP hroot (by decide) hnew honly hset hacc
  obtain rfl := Except.ok.inj hmark
  rw [sumMeta_typed he, Except.ok.injEq, Prod.mk.injEq, Prod.mk.injEq] at hsum
  rw [compileMode, if_pos rfl] at hcomp
  have hp := Jit.prepareScalar_passes hP P.annot hroot
  have ha : (Jit.prepareScalar P.storage P.annot root).1 = a := congrArg Prod.fst hcomp
  rw [ha] at hp
  obtain ⟨names, hN⟩ := Numbered.ofScalarPasses hp
  -- the bit-sliced compiler has counted the same fields
  have hle : names.length ≤ 128 := Nat.le_trans (List.Nodup.length_le_of_subset hN.nodup
    fun f hf => hnames f ((hN.mem_iff_fields he f).1 hf)) hlen
  refine ⟨L, names, hcomp, hmode, ?_, hsum.2.1.symm, hN, hle,
    hinst names hN hle fun f hf => hreg f ((hN.mem_iff_fields he f).1 hf)⟩
  rw [hkind, hp.resultKind root ((hp.mem_iff root).2 (Reach.refl _ _)), NodeKind.resultKind, he.isMask]
  simp only [decide_eq_true_eq]

/-- **A scalar kernel without `NOT` counts the rows of its root.** -/
theorem scalar_addsUp {e : Expr .bool} (hP : Built P) (he : Represents P.storage e root)
    (hnot : e.notFree = true) (hfresh : Fresh P root)
    (hcount : AtMostCompound P.storage root 4096) {L : ExprCompiledLogic}
    (hcomp : compileScalarExpression PF.rt P.storage P.annot root = (a, .ok L.kernel))
    (hmode : L.mode = .SCALAR) (hkind : L.resultKind = .BITMASK) {names : List Name}
    (hN : Numbered P.storage a root names) (hlen : names.length ≤ 128) :
    AddsUp PF L names fun row => encode (e.eval row) := by
  intro R cols hcols
  obtain ⟨m, hcall, hmask⟩ := Jit.compileScalar_mask hP he hnot hfresh hcount hcomp
    (hcols.fieldRows hN hlen hmode) (hcols.args hlen fun _ => 0)
  exact ⟨m, hcall, fun rows hrows => chunkTotal_mask hkind hrows hmask _⟩

end Scalar

/-! ### Agreement -/

/-- Two new copies of an expression, one accepted in each mode, over one schema. -/
structure TwoModes (PF : Platform) {t : Ty} (e : Expr t) (fields : List FieldDescriptor)
    (rowStride : ℕ) where
  P : NodePool
  P' : NodePool
  root : ℕ
  root' : ℕ
  built : Built P
  built' : Built P'
  represents : Represents P.storage e root
  represents' : Represents P'.storage e root'
  fresh : Fresh P root
  fresh' : Fresh P' root'
  E₀ : ApexEngine
  schemaName : Name
  new : E₀.registry.schemas schemaName = none
  only : E₀.exprLogic = []
  registered : ∀ f ∈ e.fields, ∃ d ∈ fields, d.name = f
  a : ℕ → Annot
  a' : ℕ → Annot
  sliced : ApexEngine
  scalar : ApexEngine
  set : setExpression PF (E₀.registerSchema schemaName fields rowStride) schemaName P.storage P.annot
    (some root) .BIT_SLICED = .ok (a, sliced)
  accepted : sliced.exprLogic ≠ []
  set' : setExpression PF (E₀.registerSchema schemaName fields rowStride) schemaName P'.storage
    P'.annot (some root') .SCALAR = .ok (a', scalar)
  accepted' : scalar.exprLogic ≠ []

namespace TwoModes

variable {PF : Platform} {t : Ty} {e : Expr t} {fields : List FieldDescriptor} {rowStride : ℕ}
  (M : TwoModes PF e fields rowStride)

/-- **The modes agree** on a number of rows: `execute` returns the same total on all data. -/
def Agree (rowCount : ℕ) : Prop :=
  ∀ (bufs bufs' : ℕ → ColumnBuffer) (data : ℕ → BitVec 8), ∃ total E₁ E₂,
    execute PF { M.sliced with fieldBuffers := bufs } data rowCount = some (total, E₁) ∧
      execute PF { M.scalar with fieldBuffers := bufs' } data rowCount = some (total, E₂)

/-- The scalar copy stays within the reach of the immediate offsets of its kernel. -/
def InReach : Prop := AtMostCompound M.P'.storage M.root' 4096

/-- Without rows both modes return 0. -/
theorem agree_zero : M.Agree 0 := by
  intro bufs bufs' data
  obtain ⟨-, -, L, -, -, -, -, -, hmode, -, -, hL, hmd⟩ := setExpression_logic M.only M.set M.accepted
  obtain ⟨-, -, L', -, -, -, -, -, hmode', -, -, hL', hmd'⟩ :=
    setExpression_logic M.only M.set' M.accepted'
  exact ⟨0, _, _, execute_single (E := { M.sliced with fieldBuffers := bufs }) hL hmd
    (by rw [hmode]; decide) data 0, execute_single (E := { M.scalar with fieldBuffers := bufs' }) hL' hmd'
    (by rw [hmode']; decide) data 0⟩

variable {M}

/-- Where the modes agree, two runs have one total. -/
theorem Agree.total_eq {rowCount : ℕ} (h : M.Agree rowCount) {data : ℕ → BitVec 8}
    {total total' : Word} {E₁ E₂ : ApexEngine}
    (h₁ : execute PF M.sliced data rowCount = some (total, E₁))
    (h₂ : execute PF M.scalar data rowCount = some (total', E₂)) : total = total' := by
  obtain ⟨w, F₁, F₂, h₁', h₂'⟩ := h M.sliced.fieldBuffers M.scalar.fieldBuffers data
  have e₁ : total = w := congrArg Prod.fst (Option.some.inj (h₁.symm.trans h₁'))
  have e₂ : total' = w := congrArg Prod.fst (Option.some.inj (h₂.symm.trans h₂'))
  rw [e₁, e₂]

variable (hc : e.compound = true) (hsub : e.subFree = true)

include hc hsub

variable (M) in
/-- **The bit-sliced copy** adds up the values of the rows. -/
theorem sliced_execute (bufs : ℕ → ColumnBuffer) (data : ℕ → BitVec 8) (rowCount : ℕ) :
    ∃ E₁, execute PF { M.sliced with fieldBuffers := bufs } data rowCount =
      some (rowTotal (fun r => e.eval (rowOf fields data rowStride r)) rowCount, E₁) :=
  (bitSliced_execute M.built M.represents hc hsub M.fresh M.new M.only M.registered M.set
    M.accepted).2 bufs data rowCount

variable (M) in
/-- The scalar copy is installed with a numbering of its fields. -/
theorem scalar_logic :
    ∃ L names, compileScalarExpression PF.rt M.P'.storage M.P'.annot M.root' = (M.a', .ok L.kernel) ∧
      L.mode = .SCALAR ∧ L.resultKind = (if t = .bool then .BITMASK else .BITPLANE) ∧
      L.deltaWeights = [] ∧ Numbered M.P'.storage M.a' M.root' names ∧ names.length ≤ 128 ∧
      Installed M.scalar L (fun f => fields.find? fun d => d.name = f) rowStride names := by
  obtain ⟨⟨names₀, hN₀, hlen₀⟩, -⟩ := bitSliced_execute M.built M.represents hc hsub M.fresh M.new M.only
    M.registered M.set M.accepted
  exact scalar_installed M.built' M.represents' hc M.new M.only M.registered
    (fun f hf => (hN₀.mem_iff_fields M.represents f).2 hf) hlen₀ M.set' M.accepted'

end TwoModes

/-- Boolean expressions without `NOT`. -/
theorem TwoModes.agree_bool {PF : Platform} {e : Expr .bool} (hsub : e.subFree = true)
    (hnot : e.notFree = true) {fields : List FieldDescriptor} {rowStride : ℕ}
    {M : TwoModes PF e fields rowStride} (hreach : M.InReach) (rowCount : ℕ) : M.Agree rowCount := by
  intro bufs bufs' data
  have hc : e.compound = true := by cases e <;> rfl
  obtain ⟨E₁, hrun⟩ := M.sliced_execute hc hsub bufs data rowCount
  obtain ⟨L, names, hcomp, hmode, hkind, -, hN, hlen, hI⟩ := M.scalar_logic hc hsub
  obtain ⟨E₂, hrun'⟩ := hI.execute (by rw [hmode]; decide)
    (fun row row' h => evalOn_congr e fun f hf => h f ((hN.mem_iff_fields M.represents' f).2 hf))
    (scalar_addsUp M.built' M.represents' hnot M.fresh' hreach hcomp hmode hkind hN hlen) bufs' data
    rowCount
  rw [rowTotal_eq_sum] at hrun
  exact ⟨_, E₁, E₂, hrun, hrun'⟩

/-! ### Arithmetic roots in the scalar mode -/

/-- The word that a row leaves in slot `i`. -/
def slotWord (g : ℕ → Node) (a : ℕ → Annot) (nodes : List ℕ) (row : Name → Word) (i : ℕ) : Word :=
  (nodes.find? fun n => (g n).kind.isLeaf = false ∧ (a n).slotId.toNat = i).elim 0
    (Jit.rowPass g row nodes).val

/-- **What a scalar kernel leaves in the scratchpad** is made of its last row. -/
theorem pad_eq_slotWord {L : Jit.Layout} {g : ℕ → Node} {a : ℕ → Annot} {nodes : List ℕ}
    {p : ℕ → Word} {row : Name → Word} {m : Machine} (h : Jit.RowStored L g a nodes p row m)
    {i : ℕ} (hi : i < maxSlots) (hp : p i = 0) : pad L m i = slotWord g a nodes row i := by
  rw [slotWord]
  cases hfind : nodes.find? fun n => (g n).kind.isLeaf = false ∧ (a n).slotId.toNat = i with
  | none =>
    refine (h.rest i hi fun n hn hleaf heq => ?_).trans hp
    exact absurd (decide_eq_true (⟨hleaf, heq⟩ : _ ∧ _)) (List.find?_eq_none.1 hfind n hn)
  | some n =>
    have hn := List.find?_some hfind
    simp only [decide_eq_true_eq] at hn
    obtain ⟨hleaf, rfl⟩ := hn
    exact h.owned n (List.mem_of_find?_eq_some hfind) hleaf

/-- What `execute` makes of the scratchpad after a chunk of `k` rows: it takes the words for
planes. -/
def planesTotal (words : ℕ → Word) (k : ℕ) : Word :=
  ((List.range 64).map fun i => (words i &&& rowsMask k).cpop <<< i).sum

/-- A row, as far as it is read. -/
def restrict (names : List Name) (row : Name → Word) (f : Name) : Word :=
  if names.contains f then row f else 0

/-- **An arithmetic root in the scalar mode**: each chunk adds what its last row has left, the row
of zeros in a chunk that is not full. -/
theorem TwoModes.scalar_execute {PF : Platform} {e : Expr .num} (hc : e.compound = true)
    (hsub : e.subFree = true) {fields : List FieldDescriptor} {rowStride : ℕ}
    {M : TwoModes PF e fields rowStride} (hreach : M.InReach)
    (hoff : ∀ d ∈ fields, d.offset ≠ 0) :
    ∃ (names : List Name) (total : ℕ → (Name → Word) → Word), (∀ f ∈ names, f ∈ e.fields) ∧
      ∀ (bufs : ℕ → ColumnBuffer) (data : ℕ → BitVec 8) (rowCount : ℕ),
        ∃ E₂, execute PF { M.scalar with fieldBuffers := bufs } data rowCount =
          some (∑ r ∈ Finset.range rowCount, if r % 64 = 0 then
            total (min 64 (rowCount - r)) (restrict names
              (if r + 63 < rowCount then rowOf fields data rowStride (r + 63) else fun _ => 0)) else 0,
            E₂) := by
  obtain ⟨L, names, hcomp, hmode, hkind, hweights, hN, hlen, hI⟩ := M.scalar_logic hc hsub
  have hsimd : useSimd5 L = false := by
    rw [useSimd5, decide_eq_false_iff_not]
    intro h
    have hlen5 : 0 < names.length := by
      have := congrArg List.length h
      rw [List.length_map, List.length_take, hI.fields_length] at this
      simp only [List.length_cons, List.length_nil] at this
      omega
    obtain ⟨d, hd, hfd⟩ := hI.table 0 _ (List.getElem?_eq_getElem hlen5)
    have h0 := congrArg (·[0]?) h
    simp only [List.getElem?_map, List.getElem?_take, hfd] at h0
    exact hoff d (List.mem_of_find?_eq_some hd) (by simpa using h0)
  refine ⟨names, fun k row => planesTotal (slotWord M.P'.storage M.a'
    (Jit.prepareScalar M.P'.storage M.P'.annot M.root').2 row) k,
    fun f hf => (hN.mem_iff_fields M.represents' f).1 hf, fun bufs data rowCount => ?_⟩
  refine hI.execute_chunks (by rw [hmode]; decide) (fun chunk R cols hlt hR habove hcols => ?_) bufs
  -- the rows, as far as they are read
  have hcols' : HoldsRows PF L names (fun r => restrict names (R r)) cols := fun i f hf => by
    rw [hcols i f hf]
    simp only [restrict, if_pos (List.contains_iff_mem.2 (List.mem_of_getElem? hf))]
  obtain ⟨m, -, hcall, -, hstored⟩ := Jit.compileScalar_call M.built' M.represents' hc M.fresh'
    (hreach.mono (by decide)) hcomp (hcols'.fieldRows hN hlen hmode) (hcols.args hlen fun _ => 0)
  refine ⟨m, hcall, ?_⟩
  have hlast : restrict names (R 63) = restrict names (if chunk * 64 + 63 < rowCount then
      rowOf fields data rowStride (chunk * 64 + 63) else fun _ => 0) := by
    funext f
    simp only [restrict]
    split_ifs with hf h63
    · exact hR 63 (by omega) f (List.contains_iff_mem.1 hf)
    · exact habove hsimd 63 (by omega) (by omega) f (List.contains_iff_mem.1 hf)
    · rfl
  have hzero : ∀ i < maxSlots, pad PF.abi.layout (PF.abi.enter cols fun _ => 0) i = 0 :=
    fun i hi => PF.abi.scratch cols (fun _ => 0) i hi
  rw [chunkTotal, if_neg (by rw [hkind]; decide), if_neg (by simp [hweights])]
  refine congrArg some ?_
  rw [Finset.sum_eq_single 0 (fun r hr hne => ?_) (fun h => absurd (Finset.mem_range.2 (by omega)) h)]
  · rw [Nat.add_zero, if_pos (Nat.mul_mod_left chunk 64), ← hlast]
    refine congrArg List.sum (List.map_congr_left fun i hi => ?_)
    have hi' : i < maxSlots := Nat.lt_of_lt_of_le (List.mem_range.1 hi) (by decide)
    rw [← pad_eq_slotWord hstored hi' (hzero i hi')]
    rfl
  · have := Finset.mem_range.1 hr
    exact if_neg (by omega)

/-- A row in front of rows of zeros. -/
def frontRow (names : List Name) (row : Name → Word) : ℕ → BitVec 8 :=
  rowBytes names fun r => if r = 0 then row else fun _ => 0

/-- The rows behind it. -/
theorem rowOf_frontRow {names : List Name} (row : Name → Word) {f : Name} (hf : f ∈ names) (r : ℕ) :
    rowOf (wordFields names) (frontRow names row) (wordStride names) (r + 1) f = 0 := by
  rw [frontRow, rowOf_rowBytes _ hf, if_neg (Nat.succ_ne_zero r)]

/-- The values of an expression on these rows. -/
theorem rowTotal_frontRow {t : Ty} (e : Expr t) {names : List Name} (hf : ∀ f ∈ e.fields, f ∈ names)
    (row : Name → Word) (n : ℕ) :
    rowTotal (fun r => e.eval (rowOf (wordFields names) (frontRow names row) (wordStride names) r))
      (n + 1) = ∑ _r ∈ Finset.range n, encode (e.eval fun _ => 0) + encode (e.eval row) := by
  rw [rowTotal_eq_sum, Finset.sum_range_succ']
  have hzero : ∀ r, encode (e.eval (rowOf (wordFields names) (frontRow names row) (wordStride names)
      (r + 1))) = encode (e.eval fun _ => 0) := fun r =>
    evalOn_congr e fun f he => rowOf_frontRow row (hf f he) r
  have hfirst : encode (e.eval (rowOf (wordFields names) (frontRow names row) (wordStride names) 0)) =
      encode (e.eval row) :=
    evalOn_congr e fun f he => by rw [frontRow, rowOf_rowBytes _ (hf f he), if_pos rfl]
  simp only [hzero, hfirst]

/-- **An arithmetic root on which the modes agree has the same value on all rows**: the scalar mode
does not see the first row. -/
theorem TwoModes.Agree.eval_eq {PF : Platform} {e : Expr .num} (hc : e.compound = true)
    (hsub : e.subFree = true) {M : TwoModes PF e (wordFields e.fields) (wordStride e.fields)}
    (hreach : M.InReach) {rowCount : ℕ} (hpos : rowCount ≠ 0) (h : M.Agree rowCount)
    (row row' : Name → Word) : e.eval row = e.eval row' := by
  obtain ⟨names, total, hsubset, hscalar⟩ := TwoModes.scalar_execute hc hsub hreach fun d hd => by
    obtain ⟨f, -, rfl⟩ := List.mem_map.1 hd
    exact Nat.mul_ne_zero (by decide) (Nat.succ_ne_zero _)
  obtain ⟨n, rfl⟩ := Nat.exists_eq_succ_of_ne_zero hpos
  have hsame : ∀ row, ∃ E₂, execute PF M.scalar (frontRow e.fields row) (n + 1) =
      some (∑ r ∈ Finset.range (n + 1), if r % 64 = 0 then
        total (min 64 (n + 1 - r)) (restrict names fun _ => 0) else 0, E₂) := fun row => by
    obtain ⟨E₂, hrun⟩ := hscalar M.scalar.fieldBuffers (frontRow e.fields row) (n + 1)
    refine ⟨E₂, hrun.trans (congrArg (fun v => some (v, E₂)) (Finset.sum_congr rfl fun r _ => ?_))⟩
    have hlast : restrict names (if r + 63 < n + 1 then rowOf (wordFields e.fields)
        (frontRow e.fields row) (wordStride e.fields) (r + 63) else fun _ => 0) =
        restrict names fun _ => 0 := by
      funext f
      simp only [restrict]
      split_ifs with hf
      · exact rowOf_frontRow row (hsubset f (List.contains_iff_mem.1 hf)) (r + 62)
      · rfl
      · rfl
    rw [hlast]
  have htotal : ∀ row, ∑ _r ∈ Finset.range n, e.eval (fun _ => 0) + e.eval row =
      ∑ r ∈ Finset.range (n + 1), if r % 64 = 0 then
        total (min 64 (n + 1 - r)) (restrict names fun _ => 0) else 0 := fun row => by
    obtain ⟨E₁, h₁⟩ := M.sliced_execute hc hsub M.sliced.fieldBuffers (frontRow e.fields row) (n + 1)
    obtain ⟨E₂, h₂⟩ := hsame row
    rw [rowTotal_frontRow e (fun _ => id)] at h₁
    exact h.total_eq h₁ h₂
  exact add_left_cancel ((htotal row).trans (htotal row').symm)

/-! ### `NOT` in the scalar mode -/

/-- The pool of `Not(GT(Load("a"), Const(5)))`. -/
def notPool : NodePool := (Expr.not gtFive).pool

theorem notPool_pristine : Pristine notPool := Expr.pool_pristine _ (by decide)

theorem notPool_represents : Represents notPool.storage (.not gtFive) 3 :=
  (Expr.pool_stands _ (by decide) (by decide)).represents

section Not

variable {fields : List FieldDescriptor} {rowStride : ℕ}
  (hreg : ∀ f ∈ (Expr.not gtFive).fields, ∃ d ∈ fields, d.name = f) {a a' : ℕ → Annot}
  {E E' : ApexEngine}

include hreg

/-- In the scalar mode `NOT(a > 5)` counts the rows with `a > 5`. -/
theorem notPool_scalar (hset : setExpression .standard (init.registerSchema ['t'] fields rowStride) ['t']
      notPool.storage notPool.annot (some 3) .SCALAR = .ok (a, E)) (hacc : E.exprLogic ≠ [])
    (bufs : ℕ → ColumnBuffer) (data : ℕ → BitVec 8) (rowCount : ℕ) :
    ∃ E', execute .standard { E with fieldBuffers := bufs } data rowCount =
      some (rowTotal (fun r => gtFive.eval (rowOf fields data rowStride r)) rowCount, E') := by
  have hcount : AtMostCompound notPool.storage 3 maxSlots :=
    .of_nextIdx notPool_pristine.built (by decide) (by decide)
  obtain ⟨L, names, hcomp, hmode, hkind, -, hN, hlen, hI⟩ := scalar_installed
    notPool_pristine.built notPool_represents rfl (show init.registry.schemas ['t'] = none from rfl)
    rfl hreg (show ∀ f ∈ (Expr.not gtFive).fields, f ∈ [['a']] by decide) (by decide) hset hacc
  rw [rowTotal_eq_sum]
  refine hI.execute (by rw [hmode]; decide) (v := fun row => encode (gtFive.eval row))
    (fun row row' h => evalOn_congr gtFive fun f hf => h f
      ((hN.mem_iff_fields notPool_represents f).2 hf)) ?_ bufs data rowCount
  intro R cols hcols
  obtain ⟨m, -, hcall, hres, -⟩ := Jit.compileScalar_call notPool_pristine.built notPool_represents rfl
    (notPool_pristine.fresh 3) hcount hcomp (hcols.fieldRows hN hlen hmode) (hcols.args hlen fun _ => 0)
  have hnodes : (Jit.prepareScalar notPool.storage notPool.annot 3).2 = [0, 1, 2, 3] := by rfl
  -- the word of the `NOT` is the one the comparison left
  have hlast : ∀ r, (Jit.rowPass notPool.storage (R r) [0, 1, 2, 3]).last =
      bit (gtFive.eval (R r)) := fun r => rfl
  refine ⟨m, hcall, fun rows hrows => chunkTotal_mask hkind hrows (fun r hr => ?_) _⟩
  rw [hres, hnodes]
  simp only [hlast]
  rw [Jit.rowMask_bit _ (Nat.le_refl _)]
  simp [hr]

/-- The copies of `NOT(a > 5)` in both modes. -/
def notModes (hset : setExpression .standard (init.registerSchema ['t'] fields rowStride) ['t']
      notPool.storage notPool.annot (some 3) .BIT_SLICED = .ok (a, E)) (hacc : E.exprLogic ≠ [])
    (hset' : setExpression .standard (init.registerSchema ['t'] fields rowStride) ['t']
      notPool.storage notPool.annot (some 3) .SCALAR = .ok (a', E')) (hacc' : E'.exprLogic ≠ []) :
    TwoModes .standard (.not gtFive) fields rowStride :=
  ⟨notPool, notPool, 3, 3, notPool_pristine.built, notPool_pristine.built, notPool_represents,
    notPool_represents, notPool_pristine.fresh 3, notPool_pristine.fresh 3, init, ['t'], rfl, rfl, hreg, a, a',
    E, E', hset, hacc, hset', hacc'⟩

end Not

/-- `NOT(a > 5)` is counted wrong for every number of rows but zero. -/
theorem not_agree_not {rowCount : ℕ} (hpos : rowCount ≠ 0) :
    ∃ M : TwoModes .standard (.not gtFive) (wordFields [['a']]) (wordStride [['a']]),
      M.InReach ∧ ¬M.Agree rowCount := by
  have hbit : accepted (setExpression .standard (init.registerSchema ['t'] (wordFields [['a']])
      (wordStride [['a']])) ['t'] notPool.storage notPool.annot (some 3) .BIT_SLICED) = true := by decide
  have hscal : accepted (setExpression .standard (init.registerSchema ['t'] (wordFields [['a']])
      (wordStride [['a']])) ['t'] notPool.storage notPool.annot (some 3) .SCALAR) = true := by decide
  have hreg : ∀ f ∈ (Expr.not gtFive).fields, ∃ d ∈ wordFields [['a']], d.name = f := by decide
  obtain ⟨a, E, hset, hacc⟩ := accepted_iff.1 hbit
  obtain ⟨a', E', hset', hacc'⟩ := accepted_iff.1 hscal
  refine ⟨notModes hreg hset hacc hset' hacc', .of_nextIdx notPool_pristine.built
    (show 3 < notPool.nextIdx by decide) (by decide), fun h => ?_⟩
  obtain ⟨n, rfl⟩ := Nat.exists_eq_succ_of_ne_zero hpos
  have htotal : ∀ v : Word, ∑ _r ∈ Finset.range n, bit ((Expr.not gtFive).eval fun _ => 0) +
      bit ((Expr.not gtFive).eval fun _ => v) =
      ∑ _r ∈ Finset.range n, bit (gtFive.eval fun _ => 0) + bit (gtFive.eval fun _ => v) := fun v => by
    obtain ⟨E₁, h₁⟩ := (notModes hreg hset hacc hset' hacc').sliced_execute rfl rfl E.fieldBuffers
      (frontRow [['a']] fun _ => v) (n + 1)
    obtain ⟨E₂, h₂⟩ := notPool_scalar hreg hset' hacc' E'.fieldBuffers (frontRow [['a']] fun _ => v) (n + 1)
    rw [rowTotal_frontRow _ (by decide)] at h₁ h₂
    exact h.total_eq h₁ h₂
  -- no row and one row above 5
  have hzero := htotal 0
  have hsix := htotal 6
  rw [show (Expr.not gtFive).eval (fun _ => (0 : Word)) = true from rfl,
    show gtFive.eval (fun _ => (0 : Word)) = false from rfl] at hzero hsix
  rw [show (Expr.not gtFive).eval (fun _ => (6 : Word)) = false from rfl,
    show gtFive.eval (fun _ => (6 : Word)) = true from rfl] at hsix
  simp only [bit, Bool.false_eq_true, if_true, if_false, Finset.sum_const_zero, add_zero, zero_add]
    at hzero hsix
  rw [hsix] at hzero
  exact absurd hzero (by decide)

/-- **Where the modes agree.**  For any expression of the claimed kinds and any copies of it, the
scalar mode returns what the bit-sliced mode returns if there are no rows, or if the root is
boolean and there is no `NOT`.  For every other number of rows an arithmetic root on which the
modes agree has the same value on all rows, and there is a boolean one with `NOT` on which they
do not agree. -/
theorem modes_agree (rowCount : ℕ) :
    (∀ (PF : Platform) (t : Ty) (e : Expr t) (fields : List FieldDescriptor) (rowStride : ℕ)
        (M : TwoModes PF e fields rowStride), e.compound = true → e.subFree = true →
      rowCount = 0 ∨ t = .bool ∧ e.notFree = true ∧ M.InReach → M.Agree rowCount) ∧
    (rowCount ≠ 0 → (∀ (PF : Platform) (e : Expr .num)
        (M : TwoModes PF e (wordFields e.fields) (wordStride e.fields)), e.compound = true →
        e.subFree = true → M.InReach → M.Agree rowCount → ∀ row row', e.eval row = e.eval row') ∧
      ∃ M : TwoModes .standard (.not gtFive) (wordFields [['a']]) (wordStride [['a']]),
        M.InReach ∧ ¬M.Agree rowCount) := by
  refine ⟨fun PF t e fields rowStride M hc hsub h => ?_, fun hpos => ⟨fun PF e M hc hsub hreach h => ?_,
    not_agree_not hpos⟩⟩
  · rcases h with rfl | ⟨rfl, hnot, hreach⟩
    · exact M.agree_zero
    · exact TwoModes.agree_bool hsub hnot hreach rowCount
  · exact h.eval_eq hc hsub hreach hpos

/-- `NOT(a > 5)` on one row with `a = 10`: the bit-sliced mode counts no row, the
scalar mode counts one. -/
theorem scalar_not_counts_row : ∃ a E a' E' E₁ E₂, setExpression .standard oneFieldEngine ['t']
      notPool.storage notPool.annot (some 3) .BIT_SLICED = .ok (a, E) ∧
    setExpression .standard oneFieldEngine ['t'] notPool.storage notPool.annot (some 3) .SCALAR =
      .ok (a', E') ∧
    execute .standard E tens 1 = some (0, E₁) ∧ execute .standard E' tens 1 = some (1, E₂) := by
  have hbit : accepted (setExpression .standard oneFieldEngine ['t'] notPool.storage notPool.annot
      (some 3) .BIT_SLICED) = true := by decide
  have hscal : accepted (setExpression .standard oneFieldEngine ['t'] notPool.storage notPool.annot
      (some 3) .SCALAR) = true := by decide
  have hreg : ∀ f ∈ (Expr.not gtFive).fields, ∃ d ∈ oneField, d.name = f := by decide
  obtain ⟨a, E, hset, hacc⟩ := accepted_iff.1 hbit
  obtain ⟨a', E', hset', hacc'⟩ := accepted_iff.1 hscal
  obtain ⟨E₁, h₁⟩ := (notModes hreg hset hacc hset' hacc').sliced_execute rfl rfl E.fieldBuffers tens 1
  obtain ⟨E₂, h₂⟩ := notPool_scalar hreg hset' hacc' E'.fieldBuffers tens 1
  have htotal : rowTotal (fun r => (Expr.not gtFive).eval (rowOf oneField tens 8 r)) 1 = 0 := by decide
  have htotal' : rowTotal (fun r => gtFive.eval (rowOf oneField tens 8 r)) 1 = 1 := by decide
  exact ⟨a, E, a', E', E₁, E₂, hset, hset', htotal ▸ h₁, htotal' ▸ h₂⟩

end ApexEngine
end Engine
end AarchGate
