/-
# Roots that are added up lane by lane

The entry points of the engine differ in how they bring the rows to a kernel, and
in what they do with its scratchpad between two calls.  What they have in common is
the kernel: on a typed root or a forest (`RowRoot`) it adds up what the root is worth in
a lane, on the row in it (`RootValue`), from the scratchpad it was given the first time
or from the one it left behind (`setExpression_laneTotals`).  The lane matters: it is in
the way `SUB` is computed.  On other roots a chunk may find what the chunk before it has
left, and the value of a row depends on the rows 64, 128, … before it (`carriedRow`).

Of `execute`, which starts from an empty scratchpad for every chunk, the function is
added up over all rows (`Installed.execute_lanes`).
-/

import AarchGate.Engine.Forest
import AarchGate.Ranges.Follow

namespace AarchGate
namespace Engine
namespace ApexEngine

open A64 Ir AarchGate.Core Compute BitPlane
open Jit (compileExpression encode subLane)

/-- The names of the fields an expression loads. -/
structure References (g : ℕ → Node) (root : ℕ) (names : List Name) : Prop where
  nodup : names.Nodup
  mem : ∀ f, f ∈ names ↔ ∃ n, Reach g root n ∧ (g n).kind = .LOAD ∧ (g n).fieldName = f

/-- Each field counts once. -/
theorem References.length_eq {g : ℕ → Node} {root : ℕ} {names names' : List Name}
    (h : References g root names) (h' : References g root names') : names.length = names'.length :=
  ((List.perm_ext_iff_of_nodup h.nodup h'.nodup).2 fun f => (h.mem f).trans (h'.mem f).symm).length_eq

/-- What can be added up over rows: a well-typed operation, or a sum of `SELECT`s and
conditions. -/
inductive RowRoot (g : ℕ → Node) (root : ℕ) : Prop where
  | typed {t : Ty} {e : Expr t} (he : Represents g e root) (hc : e.compound = true)
  | forest {sum : ℕ} {ops : List ℕ} {k : Word} (h : ForestRoot g sum ops root k) {s : ℕ → Summand}
      (hs : ∀ op ∈ ops, IsSummand g (s op) op)

/-- What a root is worth in a lane, on the row in the lane. -/
inductive RootValue (P : NodePool) (root : ℕ) : (ℕ → (Name → Word) → Word) → Prop where
  | typed {t : Ty} {e : Expr t} (he : Represents P.storage e root) (hc : e.compound = true) :
      RootValue P root fun r row => encode (e.evalWith (subLane r) row)
  | forest {sum : ℕ} {ops : List ℕ} {k : Word} (h : ForestRoot P.storage sum ops root k)
      {s : ℕ → Summand} (hs : ∀ op ∈ ops, IsSummand P.storage (s op) op) {a₁ : ℕ → Annot}
      (hmark : markSkip P.storage root P.annot = .ok a₁) :
      RootValue P root fun r row =>
        countedSum P.storage ops k s (forestWord P.storage a₁ row (subLane r))

/-- Such a root has a value. -/
theorem RowRoot.value {P : NodePool} {root : ℕ} (h : RowRoot P.storage root) :
    ∃ w, RootValue P root w := by
  cases h with
  | typed he hc => exact ⟨_, .typed he hc⟩
  | forest h hs =>
    obtain ⟨a₁, hmark, -⟩ := markSkip_handled (h.wellTyped hs root (Reach.refl _ _)) P.annot
    exact ⟨_, .forest h hs hmark⟩

/-- The value of `w` in a lane is a function of the fields `names` of its row. -/
def DependsOn (names : List Name) (w : ℕ → (Name → Word) → Word) : Prop :=
  ∀ r row row', (∀ f ∈ names, row f = row' f) → w r row = w r row'

/-- It depends on the loaded fields only. -/
theorem RootValue.dependsOn {P : NodePool} (hP : Built P) {root : ℕ}
    {w : ℕ → (Name → Word) → Word} (h : RootValue P root w) {names : List Name}
    (hnames : References P.storage root names) : DependsOn names w := by
  intro r row row' hrow
  cases h with
  | typed he hc =>
    refine congrArg encode (Expr.evalWith_congr _ fun f hf => hrow f ((hnames.mem f).2 ?_))
    exact he.exists_load hf
  | @forest sum ops k h s hs a₁ hmark =>
    refine countedSum_congr fun op hop => ?_
    refine (words_forestWord hP a₁ row (subLane r)).congr hP (words_forestWord hP a₁ row' (subLane r))
      (fun _ _ => rfl) (fun x hx hk => hrow _ ((hnames.mem _).2 ⟨x, hx, hk, rfl⟩)) (fun _ _ _ _ => rfl) ?_
    exact Relation.ReflTransGen.trans (h.reach_op hop) (hs op hop).reach

/-- A typed root is not handled by the engine. -/
theorem engineSum_typed {g : ℕ → Node} {root : ℕ} {t : Ty} {e : Expr t} (he : Represents g e root) :
    engineSum g root = none := by
  rcases engineSum_cases (Jit.typed_of_represents he) with ⟨h, -⟩ | ⟨-, -, hk⟩ | ⟨l, c, -, -, hplus, -⟩
  · exact h
  · exact absurd (he.kind.symm.trans hk) (Expr.kind_ne_sum e)
  · rw [isSumPlusConst_typed he] at hplus
    cases hplus

section RootValue

variable {P : NodePool} {root : ℕ} {w : ℕ → (Name → Word) → Word}

/-- It is well typed. -/
theorem RootValue.wellTyped (h : RootValue P root w) : Jit.WellTyped P.storage root := by
  cases h with
  | typed he => exact Jit.wellTyped_of_represents he
  | forest h hs => exact h.wellTyped hs

/-- And no leaf. -/
theorem RootValue.not_leaf (h : RootValue P root w) : (P.storage root).kind.isLeaf = false := by
  cases h with
  | typed he hc => rw [he.isLeaf, hc]; rfl
  | forest h => exact Handled.not_leaf ⟨_, h.engineSum_eq.1, Or.inl rfl⟩

/-- No bare leaf is added up. -/
theorem RootValue.not_addsLeaf (h : RootValue P root w) : ¬AddsLeaf P.storage root := by
  cases h with
  | typed he =>
    rintro ⟨s, hs, -⟩
    rw [engineSum_typed he] at hs
    cases hs
  | forest h hs => exact h.not_addsLeaf hs

/-- **The value of a root is that of its kind**, whatever is carried. -/
theorem RootValue.rootValue_eq (hP : Built P) (h : RootValue P root w) (hfresh : Fresh P root)
    {a₁ : ℕ → Annot} (hmark : markSkip P.storage root P.annot = .ok a₁) (carry : Word) (r : ℕ)
    (row : Name → Word) : rootValue P.storage a₁ root carry r row = w r row := by
  cases h with
  | typed he =>
    rw [markSkip_typed he] at hmark
    obtain rfl := Except.ok.inj hmark
    rw [rootValue, engineSum_typed he]
    exact (words_rootWord hP P.annot root carry r row).represents he fun n hn _ => hfresh.skipJit hn
  | forest h hs hmark' =>
    obtain rfl := Except.ok.inj (hmark'.symm.trans hmark)
    exact rootValue_forest hP h hs ((Usable.of_fresh hP hfresh).rootMarks hmark) carry r row

/-- **The kernel of every root adds up what the root is worth in the lanes.** -/
theorem RootValue.laneTotals {PF : Platform} (hP : Built P) (hlt : root < P.nextIdx)
    (hroot : RootValue P root w) (hfresh : Fresh P root) {a₁ a : ℕ → Annot}
    (hmark : markSkip P.storage root P.annot = .ok a₁) {L : ExprCompiledLogic}
    (hcomp : compileExpression PF.rt P.storage a₁ root 64 = (a, .ok L.kernel))
    (hsum : sumMeta P.storage a root = .ok (L.baseSum, L.deltaWeights, L.masksToPopcount))
    (hkind : L.resultKind = (a root).resultKind) {names : List Name}
    (hN : Numbered P.storage a root names) (hlen : names.length ≤ 128) : LaneTotals PF L names w :=
  (root_totals hP hlt hroot.wellTyped hcomp hkind hsum ((Usable.of_fresh hP hfresh).rootMarks hmark)
    hroot.not_leaf hroot.not_addsLeaf hN hlen).laneTotals
      (hroot.rootValue_eq hP hfresh hmark)

end RootValue

/-- **What `set_expression` has installed**, for every root it accepts. -/
theorem setExpression_root {PF : Platform} {P : NodePool} (hP : Built P) {root : ℕ}
    (hlt : root < P.nextIdx) {a₀ a₁ : ℕ → Annot} (hmark : markSkip P.storage root a₀ = .ok a₁)
    {E₀ : ApexEngine} {schemaName : Name} {fields : List FieldDescriptor} {rowStride : ℕ}
    (hnew : E₀.registry.schemas schemaName = none) (honly : E₀.exprLogic = [])
    (hreg : ∀ n, Reach P.storage root n → (P.storage n).kind = .LOAD →
      ∃ d ∈ fields, d.name = (P.storage n).fieldName) {a : ℕ → Annot} {E : ApexEngine}
    (hset : setExpression PF (E₀.registerSchema schemaName fields rowStride) schemaName P.storage
      a₀ (some root) .BIT_SLICED = .ok (a, E)) (hacc : E.exprLogic ≠ []) :
    ∃ L names, Installed E L (fun f => fields.find? fun d => d.name = f) rowStride names ∧
      L.mode = .BIT_SLICED ∧ L.activeBits = 64 ∧ References P.storage root names ∧
      (∀ i ∈ Jit.tableEntries L.kernel, i < names.length) ∧
      compileExpression PF.rt P.storage a₁ root 64 = (a, .ok L.kernel) ∧
      sumMeta P.storage a root = .ok (L.baseSum, L.deltaWeights, L.masksToPopcount) ∧
      L.resultKind = (a root).resultKind ∧ Numbered P.storage a root names ∧ names.length ≤ 128 := by
  obtain ⟨a₁', L, hmark', hcomp, hsum, hmode, hkind, hbits, hinst⟩ :=
    setExpression_installed hP hlt (by decide) hnew honly hset hacc
  obtain rfl := Except.ok.inj (hmark'.symm.trans hmark)
  rw [compileMode, if_neg (by decide)] at hcomp
  obtain ⟨hlen, hN⟩ := Numbered.ofCompiled hP hlt hcomp
  generalize Jit.fieldOrder P.storage root = names at hlen hN
  have hI := hinst names hN hlen (hN.forall_names hreg)
  refine ⟨L, names, hI, hmode, hbits, ⟨hN.nodup, hN.mem⟩, fun i hi => ?_, hcomp, hsum, hkind, hN, hlen⟩
  obtain ⟨n, hn, hk, rfl⟩ := Jit.compile_tableEntries hP hlt hcomp hi
  exact hN.toNat_lt hn hk

/-- … of a typed root or a forest. -/
theorem setExpression_laneTotals {PF : Platform} {P : NodePool} (hP : Built P) {root : ℕ}
    (hlt : root < P.nextIdx) {w : ℕ → (Name → Word) → Word} (hroot : RootValue P root w)
    (hfresh : Fresh P root)
    {E₀ : ApexEngine} {schemaName : Name} {fields : List FieldDescriptor} {rowStride : ℕ}
    (hnew : E₀.registry.schemas schemaName = none) (honly : E₀.exprLogic = [])
    (hreg : ∀ n, Reach P.storage root n → (P.storage n).kind = .LOAD →
      ∃ d ∈ fields, d.name = (P.storage n).fieldName) {a : ℕ → Annot} {E : ApexEngine}
    (hset : setExpression PF (E₀.registerSchema schemaName fields rowStride) schemaName P.storage
      P.annot (some root) .BIT_SLICED = .ok (a, E)) (hacc : E.exprLogic ≠ []) :
    ∃ L names, Installed E L (fun f => fields.find? fun d => d.name = f) rowStride names ∧
      L.mode = .BIT_SLICED ∧ L.activeBits = 64 ∧ References P.storage root names ∧
      LaneTotals PF L names w := by
  obtain ⟨a₁, hmark, -⟩ := markSkip_handled (hroot.wellTyped root (Reach.refl _ _)) P.annot
  obtain ⟨L, names, hI, hmode, hbits, hrefs, -, hcomp, hsum, hkind, hN, hlen⟩ :=
    setExpression_root hP hlt hmark hnew honly hreg hset hacc
  exact ⟨L, names, hI, hmode, hbits, hrefs,
    hroot.laneTotals hP hlt hfresh hmark hcomp hsum hkind hN hlen⟩

/-- Without a total of any chunk there is none of the rows. -/
theorem execute_none {PF : Platform} {E : ApexEngine} {schemaName : Name} {L : ExprCompiledLogic}
    {md : SchemaMetadata} (hL : E.exprLogic = [(schemaName, L)])
    (hmd : E.schemaMetadata schemaName = some md) (hmode : L.mode ≠ .GPU_THROUGHPUT)
    (hchunk : ∀ rows result scratchpad, chunkTotal L rows result scratchpad = none)
    (data : ℕ → BitVec 8) {rowCount : ℕ} (hpos : 0 < rowCount) : execute PF E data rowCount = none := by
  obtain ⟨n, hn⟩ := Nat.exists_eq_succ_of_ne_zero (show (rowCount + 63) / 64 ≠ 0 by omega)
  rw [execute_single hL hmd hmode, hn, List.range_succ_eq_map, executeChunks, chunkLoop]
  simp only [takeTotal, hchunk, Option.bind_eq_bind, Option.map_none, Option.bind_none]
  cases processChunkExpr PF L data _ md.rowStride _ (fun _ => 0) E.fieldBuffers <;> rfl

/-! ### Values that are carried on -/

/-- The value of row `i` among rows that are computed from `start` on with one scratchpad: each
finds the value of the row 64 before it. -/
def carriedRow (w : Word → ℕ → (Name → Word) → Word) (rows : ℕ → Name → Word) (start i : ℕ) : Word :=
  w (if _h : start + 64 ≤ i then carriedRow w rows start (i - 64) else 0) (i % 64) (rows i)
termination_by i
decreasing_by omega

/-- The sum of the values of the rows in some ranges, with a scratchpad for each range. -/
def carriedTotal (w : Word → ℕ → (Name → Word) → Word) (rows : ℕ → Name → Word)
    (ranges : List (ℕ × ℕ)) : Word :=
  (ranges.map fun x => ∑ i ∈ Finset.Ico x.1 x.2, carriedRow w rows x.1 i).sum

/-- The values `c` are those of the 64 rows before `row`; before the first row there are none. -/
def CarriedTo (w : Word → ℕ → (Name → Word) → Word) (rows : ℕ → Name → Word) (start row : ℕ)
    (c : ℕ → Word) : Prop :=
  ∀ r < 64, c r = if start < row then carriedRow w rows start (row - 64 + r) else 0

section Carried

variable {w : Word → ℕ → (Name → Word) → Word} {rows : ℕ → Name → Word} {start row : ℕ}

theorem carriedTo_start (w : Word → ℕ → (Name → Word) → Word) (rows : ℕ → Name → Word) (start : ℕ) :
    CarriedTo w rows start start fun _ => 0 := fun r _ => by
  rw [if_neg (Nat.lt_irrefl start)]

/-- The rows of a chunk find what the chunk before has left. -/
theorem CarriedTo.row_eq {c : ℕ → Word} (h : CarriedTo w rows start row c) (hstart : 64 ∣ start)
    (hrow : 64 ∣ row) (hle : start ≤ row) {r : ℕ} (hr : r < 64) :
    carriedRow w rows start (row + r) = w (c r) r (rows (row + r)) := by
  rw [carriedRow, show (row + r) % 64 = r by omega, h r hr]
  by_cases hlt : start < row
  · rw [dif_pos (show start + 64 ≤ row + r by omega), if_pos hlt,
      show row + r - 64 = row - 64 + r by omega]
  · rw [dif_neg (show ¬start + 64 ≤ row + r by omega), if_neg hlt]

/-- The chunk leaves its values for the next one. -/
theorem CarriedTo.next {c : ℕ → Word} (h : CarriedTo w rows start row c) (hstart : 64 ∣ start)
    (hrow : 64 ∣ row) (hle : start ≤ row) :
    CarriedTo w rows start (row + 64) fun r => w (c r) r (rows (row + r)) := fun r hr => by
  rw [if_pos (by omega), Nat.add_sub_cancel, h.row_eq hstart hrow hle hr]

/-- Where the carry does not matter, each row has its own value. -/
theorem carriedRow_eq (hw : ∀ c r row, w c r row = w 0 r row) (rows : ℕ → Name → Word) (start i : ℕ) :
    carriedRow w rows start i = w 0 (i % 64) (rows i) := by
  rw [carriedRow, hw]

/-- In ranges of one chunk nothing is carried. -/
theorem carriedRow_first {i : ℕ} (hi : i < start + 64) :
    carriedRow w rows start i = w 0 (i % 64) (rows i) := by
  rw [carriedRow, dif_neg (by omega)]

/-- **The values of the ranges add up to those of all rows** where each row has its own. -/
theorem carriedTotal_eq {a b : ℕ} {ranges : List (ℕ × ℕ)} (hranges : Ranges.Follow a b ranges)
    (hw : ∀ x ∈ ranges, ∀ i ∈ Finset.Ico x.1 x.2,
      carriedRow w rows x.1 i = w 0 (i % 64) (rows i)) :
    carriedTotal w rows ranges = ∑ i ∈ Finset.Ico a b, w 0 (i % 64) (rows i) := by
  rw [carriedTotal, ← hranges.sum fun i => w 0 (i % 64) (rows i)]
  exact congrArg List.sum (List.map_congr_left fun x hx => Finset.sum_congr rfl (hw x hx))

theorem LaneTotals.carried {PF : Platform} {L : ExprCompiledLogic} {names : List Name}
    {v : ℕ → (Name → Word) → Word} (h : LaneTotals PF L names v) :
    CarriedTotals PF L names fun _ => v := by
  obtain ⟨J, h0, hcall⟩ := h
  exact ⟨fun p _ => J p, h0, fun R cols p _ => hcall R cols p⟩

end Carried

section Totals

variable {PF : Platform} {E : ApexEngine} {L : ExprCompiledLogic}
  {getField : Name → Option FieldDescriptor} {rowStride : ℕ} {names : List Name}
  {w : ℕ → (Name → Word) → Word}

/-- The value of row `r` of the data: it is computed in lane `r % 64`. -/
def rowValue (getField : Name → Option FieldDescriptor) (rowStride : ℕ) (data : ℕ → BitVec 8)
    (w : ℕ → (Name → Word) → Word) (r : ℕ) : Word :=
  w (r % 64) (recordAt getField data (r * rowStride))

/-- The lanes of a chunk that starts at a multiple of 64. -/
theorem sum_lanes (hdep : DependsOn names w) {data : ℕ → BitVec 8} {row rows : ℕ}
    (hrow : 64 ∣ row) (hrows : rows ≤ 64) {R : ℕ → Name → Word}
    (hR : ∀ r < rows, ∀ f ∈ names, R r f = recordAt getField data ((row + r) * rowStride) f) :
    ∑ r ∈ Finset.range rows, w r (R r) =
      ∑ r ∈ Finset.range rows, rowValue getField rowStride data w (row + r) := by
  refine Finset.sum_congr rfl fun r hr => ?_
  have hlt := Finset.mem_range.1 hr
  rw [rowValue, show (row + r) % 64 = r by omega]
  exact hdep r _ _ (hR r hlt)

/-- **`execute` adds up the values of the rows.** -/
theorem Installed.execute_lanes (h : Installed E L getField rowStride names)
    (hmode : L.mode = .BIT_SLICED) (hbits : L.activeBits = 64) (hw : LaneTotals PF L names w)
    (hdep : DependsOn names w) (bufs : ℕ → ColumnBuffer) (data : ℕ → BitVec 8) (rowCount : ℕ) :
    ∃ E', ApexEngine.execute PF { E with fieldBuffers := bufs } data rowCount =
      some (∑ r ∈ Finset.range rowCount, rowValue getField rowStride data w r, E') := by
  obtain ⟨J, h0, hcall⟩ := hw
  refine h.execute_chunks (by rw [hmode]; decide) (fun chunk R cols _ hR _ hcols => ?_) bufs
  obtain ⟨m, hm, -, htotal⟩ := hcall R cols _ h0 (hcols.holdsPlanes hmode hbits)
  refine ⟨m, hm, (htotal _ (Nat.min_le_left ..)).trans (congrArg some ?_)⟩
  exact sum_lanes hdep (Dvd.intro_left chunk rfl) (Nat.min_le_left ..) hR

end Totals

end ApexEngine
end Engine
end AarchGate
