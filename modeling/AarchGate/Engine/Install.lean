/-
# The fields of an installed expression

`compile_expression` and `compile_scalar_expression` number the fields of an
expression (`Numbered`), and `collect_fields` puts the descriptor of every field
at its number (`FieldTable`).  Together with the gather this makes lane `r` of the
columns of a call the values of row `r` (`chunk_rows`).
-/

import AarchGate.Engine.Chunk
import AarchGate.Jit.ScalarCorrect

namespace AarchGate
namespace Engine
namespace ApexEngine

open A64 Ir AarchGate.Core Compute BitPlane
open Jit (Columns Fault deref Layout Args FieldPlanes FieldRows Prepared ScalarPasses)

/-- The fields an expression loads, in the order of their numbers. -/
structure Numbered (g : ℕ → Node) (a : ℕ → Annot) (root : ℕ) (names : List Name) : Prop where
  nodup : names.Nodup
  mem : ∀ f, f ∈ names ↔ ∃ n, Reach g root n ∧ (g n).kind = .LOAD ∧ (g n).fieldName = f
  idx : ∀ n, Reach g root n → (g n).kind = .LOAD →
    (a n).fieldIdx = (names.idxOf (g n).fieldName : ℕ)

/-- The compiler numbers the fields. -/
theorem Numbered.ofPrepared {g : ℕ → Node} {a₀ a : ℕ → Annot} {root : ℕ} {nodes : List ℕ}
    (h : Prepared g a₀ root a nodes) :
    (Jit.fieldOrder g root).length ≤ 128 ∧ Numbered g a root (Jit.fieldOrder g root) := by
  obtain ⟨names, rfl, hnd, hlen, hmem, hidx⟩ := h.names
  exact ⟨hlen, hnd, fun f => by simp only [hmem, h.mem_iff],
    fun n hn => hidx n ((h.mem_iff n).2 hn)⟩

theorem Numbered.ofCompiled {P : NodePool} (hP : Built P) {rt : List Instr → Bool}
    {a₀ a : ℕ → Annot} {root bits : ℕ} (hroot : root < P.nextIdx) {code : List Instr}
    (h : Jit.compileExpression rt P.storage a₀ root bits = (a, .ok code)) :
    (Jit.fieldOrder P.storage root).length ≤ 128 ∧
      Numbered P.storage a root (Jit.fieldOrder P.storage root) := by
  obtain ⟨nodes, body, hprep, -, -⟩ := Jit.compileExpression_ok h
  exact Numbered.ofPrepared (Jit.prepare_spec hP hroot hprep)

/-- The scalar passes number the fields, too. -/
theorem Numbered.ofScalarPasses {g : ℕ → Node} {a₀ a : ℕ → Annot} {root : ℕ} {nodes : List ℕ}
    (h : ScalarPasses g a₀ root a nodes) : ∃ names, Numbered g a root names := by
  obtain ⟨names, hnd, hmem, hidx⟩ := h.names
  exact ⟨names, hnd, fun f => by simp only [hmem, h.mem_iff],
    fun n hn => hidx n ((h.mem_iff n).2 hn)⟩

section Numbered

variable {g : ℕ → Node} {a : ℕ → Annot} {root : ℕ} {names : List Name}

/-- A loaded field has a number. -/
theorem Numbered.name_mem (h : Numbered g a root names) {n : ℕ} (hn : Reach g root n)
    (hk : (g n).kind = .LOAD) : (g n).fieldName ∈ names := (h.mem _).2 ⟨n, hn, hk, rfl⟩

/-- What holds of the names the loads hold, holds of all names. -/
theorem Numbered.forall_names (h : Numbered g a root names) {p : Name → Prop}
    (hp : ∀ n, Reach g root n → (g n).kind = .LOAD → p (g n).fieldName) : ∀ f ∈ names, p f := by
  intro f hf
  obtain ⟨n, hn, hk, rfl⟩ := (h.mem f).1 hf
  exact hp n hn hk

/-- Below the count. -/
theorem Numbered.toNat_lt (h : Numbered g a root names) {n : ℕ} (hn : Reach g root n)
    (hk : (g n).kind = .LOAD) : (a n).fieldIdx.toNat < names.length := by
  rw [h.idx n hn hk, Int.toNat_natCast]
  exact List.idxOf_lt_length_of_mem (h.name_mem hn hk)

/-- The name at the number of a field is its name. -/
theorem Numbered.get (h : Numbered g a root names) {n : ℕ} (hn : Reach g root n)
    (hk : (g n).kind = .LOAD) : names[(a n).fieldIdx.toNat]? = some (g n).fieldName := by
  rw [h.idx n hn hk, Int.toNat_natCast, List.getElem?_idxOf (h.name_mem hn hk)]

end Numbered

/-! ### Collecting the descriptors -/

section Collect

variable (g : ℕ → Node) (a : ℕ → Annot) (getField : Name → Option FieldDescriptor)

/-- Below `n` there is a `LOAD` with number `i` of a field with descriptor `d`. -/
def Loads (n i : ℕ) (d : FieldDescriptor) : Prop :=
  ∃ x, Reach g n x ∧ (g x).kind = .LOAD ∧ (a x).fieldIdx = (i : ℤ) ∧ i < 128 ∧
    getField (g x).fieldName = some d

/-- `out` is `fs` with the descriptors of some loads `S` put in. -/
def Collected (S : ℕ → FieldDescriptor → Prop) (fs out : ℕ → Option FieldDescriptor) : Prop :=
  ∀ i, (out i = fs i ∨ ∃ d, S i d ∧ out i = some d) ∧ ((∃ d, S i d) → ∃ d, S i d ∧ out i = some d)

variable {g a getField}

/-- Fields and more fields. -/
theorem Collected.trans {S T : ℕ → FieldDescriptor → Prop} {fs₁ fs₂ fs₃ : ℕ → Option FieldDescriptor}
    (h₁ : Collected S fs₁ fs₂) (h₂ : Collected T fs₂ fs₃) :
    Collected (fun i d => S i d ∨ T i d) fs₁ fs₃ := by
  intro i
  obtain ⟨hor₁, hex₁⟩ := h₁ i
  obtain ⟨hor₂, hex₂⟩ := h₂ i
  have hT : (∃ d, T i d ∧ fs₃ i = some d) → ∃ d, (S i d ∨ T i d) ∧ fs₃ i = some d :=
    fun ⟨d, hd, he⟩ => ⟨d, Or.inr hd, he⟩
  constructor
  · rcases hor₂ with he₂ | hd₂
    · rcases hor₁ with he₁ | ⟨d, hd, he₁⟩
      · exact Or.inl (he₂.trans he₁)
      · exact Or.inr ⟨d, Or.inl hd, he₂.trans he₁⟩
    · exact Or.inr (hT hd₂)
  · rintro ⟨d, hd | hd⟩
    · obtain ⟨d', hd', he'⟩ := hex₁ ⟨d, hd⟩
      rcases hor₂ with he₂ | hd₂
      · exact ⟨d', Or.inl hd', he₂.trans he'⟩
      · exact hT hd₂
    · exact hT (hex₂ ⟨d, hd⟩)

/-- Another name for the fields. -/
theorem Collected.congr {S T : ℕ → FieldDescriptor → Prop} {fs out : ℕ → Option FieldDescriptor}
    (h : Collected S fs out) (hST : ∀ i d, S i d ↔ T i d) : Collected T fs out := by
  intro i
  simpa only [hST] using h i

/-- One node of `collect_fields`. -/
theorem collectField_spec (g : ℕ → Node) (a : ℕ → Annot) (getField : Name → Option FieldDescriptor)
    (n : ℕ) (fs : ℕ → Option FieldDescriptor) :
    Collected (fun i d => (g n).kind = .LOAD ∧ (a n).fieldIdx = (i : ℤ) ∧ i < 128 ∧
      getField (g n).fieldName = some d) fs (collectField g a getField n fs) := by
  intro i
  unfold collectField
  by_cases hload : (g n).kind = .LOAD ∧ 0 ≤ (a n).fieldIdx ∧ (a n).fieldIdx < 128
  · simp only [if_pos hload]
    cases hget : getField (g n).fieldName with
    | none => simp
    | some d =>
      by_cases hi : i = (a n).fieldIdx.toNat
      · subst hi
        have hd : (g n).kind = .LOAD ∧ (a n).fieldIdx = ((a n).fieldIdx.toNat : ℤ) ∧
            (a n).fieldIdx.toNat < 128 ∧ some d = some d := ⟨hload.1, by omega, by omega, rfl⟩
        simp only [Function.update_self]
        exact ⟨Or.inr ⟨d, hd, rfl⟩, fun _ => ⟨d, hd, rfl⟩⟩
      · simp only [Function.update_of_ne hi]
        refine ⟨Or.inl trivial, ?_⟩
        rintro ⟨d', -, hidx, -⟩
        exact absurd (by omega) hi
  · simp only [if_neg hload]
    refine ⟨Or.inl trivial, ?_⟩
    rintro ⟨d', hk, hidx, hlt, -⟩
    exact absurd ⟨hk, by omega, by omega⟩ hload

/-- **`collect_fields`** visits every load below its node. -/
theorem collectFields_spec {P : NodePool} (hP : Built P) (fuel : ℕ) :
    ∀ n < fuel, ∀ fs, Collected (Loads P.storage a getField n) fs
      (collectFields P.storage a getField fuel n fs) := by
  induction fuel with
  | zero => intro n hn; omega
  | succ fuel ih =>
    intro n hn fs
    rw [collectFields]
    have hself := collectField_spec P.storage a getField n fs
    generalize collectField P.storage a getField n fs = fs₁ at hself ⊢
    -- the children, one after the other
    have hchildren : ∀ (cs : List ℕ), (∀ c ∈ cs, c ∈ (P.storage n).children) → ∀ fs,
        Collected (fun i d => ∃ c ∈ cs, Loads P.storage a getField c i d) fs
          (cs.foldl (fun fs c => collectFields P.storage a getField fuel c fs) fs) := by
      intro cs
      induction cs with
      | nil => exact fun _ fs i => ⟨Or.inl rfl, fun ⟨d, c, hc, _⟩ => absurd hc List.not_mem_nil⟩
      | cons c cs ihc =>
        intro hcs fs
        have hc := (hP.ordered.2 n c (hcs c (List.mem_cons_self ..))).1
        rw [List.foldl_cons]
        refine ((ih c (by omega) fs).trans (ihc (fun x hx => hcs x (List.mem_cons_of_mem _ hx)) _)).congr
          fun i d => ?_
        simp only [List.mem_cons, exists_eq_or_imp]
    refine (hself.trans (hchildren _ (fun _ h => h) fs₁)).congr fun i d => ?_
    constructor
    · rintro (⟨hk, hidx, hlt, hget⟩ | ⟨c, hc, x, hx, hrest⟩)
      · exact ⟨n, Reach.refl _ _, hk, hidx, hlt, hget⟩
      · exact ⟨x, Reach.of_child hc hx, hrest⟩
    · rintro ⟨x, hx, hrest⟩
      rcases hx.cases_head with rfl | ⟨c, hc, hcx⟩
      · exact Or.inl hrest
      · exact Or.inr ⟨c, hc, x, hcx, hrest⟩

/-- Its descriptors. -/
theorem resizeFields_get {fs : ℕ → Option FieldDescriptor} {i : ℕ} (hi : i < 128)
    {d : FieldDescriptor} (h : fs i = some d) : (resizeFields fs)[i]? = some (some d) := by
  have hmax : ∀ n ≤ 128, i < n →
      i < (List.range n).foldl (fun m i => if (fs i).isSome then i + 1 else m) 0 := by
    intro n
    induction n with
    | zero => omega
    | succ n ih =>
      intro hn hin
      rw [List.range_succ, List.foldl_append, List.foldl_cons, List.foldl_nil]
      by_cases hs : (fs n).isSome
      · rw [if_pos hs]; exact hin
      · rw [if_neg hs]
        refine ih (by omega) ?_
        rcases Nat.lt_or_ge i n with h' | h'
        · exact h'
        · obtain rfl : i = n := by omega
          simp [h] at hs
  rw [resizeFields, List.getElem?_map, List.getElem?_range (hmax 128 (Nat.le_refl _) hi)]
  simp [h]

/-- And their number. -/
theorem resizeFields_length {fs : ℕ → Option FieldDescriptor} {n : ℕ} (hn : n ≤ 128)
    (h : ∀ i, (fs i).isSome = true ↔ i < n) : (resizeFields fs).length = n := by
  have hmax : ∀ k, (List.range k).foldl (fun m i => if (fs i).isSome then i + 1 else m) 0 = min k n := by
    intro k
    induction k with
    | zero => simp
    | succ k ih =>
      rw [List.range_succ, List.foldl_append, ih, List.foldl_cons, List.foldl_nil]
      by_cases hk : k < n
      · rw [if_pos ((h k).2 hk)]
        omega
      · rw [if_neg (mt (h k).1 hk)]
        omega
  rw [resizeFields, List.length_map, List.length_range, hmax]
  omega

end Collect

/-- The descriptors at the numbers of the fields. -/
def FieldTable (getField : Name → Option FieldDescriptor) (names : List Name)
    (fields : List (Option FieldDescriptor)) : Prop :=
  ∀ (i : ℕ) (f : Name), names[i]? = some f → ∃ d, getField f = some d ∧ fields[i]? = some (some d)

/-- **The collected fields** are those of the numbering and no others, if all are
registered. -/
theorem collectFields_table {P : NodePool} (hP : Built P) {a : ℕ → Annot} {root : ℕ}
    (hroot : root < P.nextIdx) {names : List Name} (hN : Numbered P.storage a root names)
    (hlen : names.length ≤ 128) {getField : Name → Option FieldDescriptor}
    (hreg : ∀ f ∈ names, (getField f).isSome = true) :
    FieldTable getField names (resizeFields (collectFields P.storage a getField
      (NodePool.maxNodes + 1) root fun _ => none)) ∧
    (resizeFields (collectFields P.storage a getField (NodePool.maxNodes + 1) root
      fun _ => none)).length = names.length := by
  have hspec : Collected (Loads P.storage a getField root) (fun _ => none) _ :=
    collectFields_spec hP (NodePool.maxNodes + 1) root (by have := hP.ordered.1; omega) _
  suffices htable : ∀ (i : ℕ) (f : Name), names[i]? = some f → ∃ d, getField f = some d ∧
      collectFields P.storage a getField (NodePool.maxNodes + 1) root (fun _ => none) i = some d by
    refine ⟨fun i f hf => ?_, resizeFields_length hlen fun i => ⟨fun hi => ?_, fun hi => ?_⟩⟩
    · obtain ⟨d, hd, hout⟩ := htable i f hf
      have hi := (List.getElem?_eq_some_iff.1 hf).1
      exact ⟨d, hd, resizeFields_get (by omega) hout⟩
    · rcases (hspec i).1 with hout | ⟨d, ⟨x, hx, hk, hidx, -⟩, -⟩
      · rw [hout] at hi
        cases hi
      · have := hN.toNat_lt hx hk
        rwa [hidx, Int.toNat_natCast] at this
    · obtain ⟨d, -, hout⟩ := htable i _ (List.getElem?_eq_getElem hi)
      rw [hout]
      rfl
  intro i f hf
  have hmem := List.mem_of_getElem? hf
  obtain ⟨d, hd⟩ := Option.isSome_iff_exists.1 (hreg f hmem)
  refine ⟨d, hd, ?_⟩
  obtain ⟨hi, hget⟩ := List.getElem?_eq_some_iff.1 hf
  -- a load with number `i` loads the field `f`
  have hname : ∀ d', Loads P.storage a getField root i d' → d' = d := by
    rintro d' ⟨x, hx, hk, hidx, -, hxd⟩
    have hxn := hN.get hx hk
    rw [hidx, Int.toNat_natCast, hf] at hxn
    rw [← Option.some.inj hxn, hd] at hxd
    exact (Option.some.inj hxd).symm
  have hload : Loads P.storage a getField root i d := by
    obtain ⟨x, hx, hk, hxf⟩ := (hN.mem f).1 hmem
    refine ⟨x, hx, hk, ?_, by omega, by rw [hxf, hd]⟩
    rw [hN.idx x hx hk, hxf, ← hget, hN.nodup.idxOf_getElem]
  obtain ⟨d', hd', hout⟩ := (hspec i).2 ⟨d, hload⟩
  rwa [hname d' hd'] at hout

/-! ### The rows of a chunk -/

/-- The value of field `f` in the record at byte `p`. -/
def recordAt (getField : Name → Option FieldDescriptor) (data : ℕ → BitVec 8) (p : ℕ) (f : Name) :
    Word :=
  match getField f with
  | some d => load64 data (p + d.offset)
  | none => 0

/-- A word from its bytes. -/
theorem load64_of_bytes {data : ℕ → BitVec 8} {p : ℕ} {w : Word}
    (h : ∀ j < 8, data (p + j) = w.extractLsb' (8 * j) 8) : load64 data p = w := by
  rw [load64, h 7 (by omega), h 6 (by omega), h 5 (by omega), h 4 (by omega), h 3 (by omega),
    h 2 (by omega), h 1 (by omega), show data p = _ from h 0 (by omega)]
  refine BitVec.eq_of_getLsbD_eq fun i hi => ?_
  simp only [BitVec.getLsbD_append, BitVec.getLsbD_extractLsb']
  interval_cases i <;> simp

section Rows

variable {PF : Platform} {L : ExprCompiledLogic} {rows : ℕ}
  {getField : Name → Option FieldDescriptor} {names : List Name}

/-- The columns hold the rows `R`, in the order of the numbers. -/
def HoldsRows (PF : Platform) (L : ExprCompiledLogic) (names : List Name) (R : ℕ → Name → Word)
    (cols : Columns) : Prop :=
  ∀ (i : ℕ) (f : Name), names[i]? = some f → cols i = some (sliceColumn PF L fun r => R r f)

/-- **The columns of a chunk**: lane `r` holds row `r` of the chunk, and what is left over
above the last row. -/
theorem chunk_rows (PF : Platform) (data : ℕ → BitVec 8) (base rowStride : ℕ) (hnd : names.Nodup)
    (hlen : names.length ≤ 128) (hT : FieldTable getField names L.fields) (hrows : rows ≤ 64)
    (bufs : ℕ → ColumnBuffer) :
    ∃ R, (∀ r < rows, ∀ f ∈ names, R r f = recordAt getField data (base + r * rowStride) f) ∧
      (∀ r < 64, rows ≤ r → ∀ f ∈ names, R r f = leftover L bufs (names.idxOf f) r) ∧
      HoldsRows PF L names R
        (fieldPlanesArray L (fillColumns PF L data base rowStride rows bufs)) := by
  have hcol : ∀ f ∈ names, ∃ col, fieldPlanesArray L (fillColumns PF L data base rowStride rows bufs)
      (names.idxOf f) = some (sliceColumn PF L col) ∧
        (∀ r < rows, col r = recordAt getField data (base + r * rowStride) f) ∧
        ∀ r < 64, rows ≤ r → col r = leftover L bufs (names.idxOf f) r := by
    intro f hf
    have hlt := List.idxOf_lt_length_of_mem hf
    obtain ⟨d, hd, hfd⟩ := hT (names.idxOf f) f (List.getElem?_idxOf hf)
    obtain ⟨col, hcol, hgath, habove⟩ := fillColumns_lane PF L data base rowStride rows hrows bufs
      (by omega) hfd
    refine ⟨col, ?_, fun r hr => ?_, habove⟩
    · rw [fieldPlanesArray, hfd]
      simp only
      rw [if_pos (by omega), hcol]
    · rw [hgath r hr, recordAt, hd]
  choose! col hcol using hcol
  refine ⟨fun r f => col f r, fun r hr f hf => (hcol f hf).2.1 r hr,
    fun r hr hrow f hf => (hcol f hf).2.2 r hr hrow, fun i f hf => ?_⟩
  obtain ⟨hi, hget⟩ := List.getElem?_eq_some_iff.1 hf
  have hidx : names.idxOf f = i := by rw [← hget, hnd.idxOf_getElem]
  rw [← hidx]
  exact (hcol f (List.mem_of_getElem? hf)).1

variable {R : ℕ → Name → Word} {cols : Columns} {g : ℕ → Node} {a : ℕ → Annot} {root : ℕ}

/-- A column holds its field. -/
theorem HoldsRows.get (h : HoldsRows PF L names R cols) (hN : Numbered g a root names) {n : ℕ}
    (hn : Reach g root n) (hk : (g n).kind = .LOAD) :
    cols.get (a n).fieldIdx.toNat = sliceColumn PF L fun r => R r (g n).fieldName := by
  rw [Columns.get, h _ _ (hN.get hn hk)]
  rfl

/-- The call has its columns. -/
theorem HoldsRows.args (h : HoldsRows PF L names R cols) (hlen : names.length ≤ 128)
    (p : ℕ → Word) :
    Args (PF.abi.layout.take names.length (Nat.le_trans hlen PF.abi.fields)) cols.get
      (PF.abi.enter cols p) := by
  refine PF.abi.args cols p _ _ fun i hi => ?_
  rw [h i names[i] (List.getElem?_eq_getElem hi)]
  rfl

/-- The columns hold the planes of the lanes `R`, in the order of the numbers. -/
def HoldsPlanes (names : List Name) (R : ℕ → Name → Word) (cols : Columns) : Prop :=
  ∀ (i : ℕ) (f : Name), names[i]? = some f → ∃ F, cols i = some F ∧ Planes F fun r => R r f

/-- Sliced columns are the planes of the rows. -/
theorem HoldsRows.holdsPlanes (h : HoldsRows PF L names R cols) (hmode : L.mode = .BIT_SLICED)
    (hbits : L.activeBits = 64) : HoldsPlanes names R cols := by
  intro i f hf
  refine ⟨_, h i f hf, ?_⟩
  rw [sliceColumn, if_pos hmode, hbits]
  exact sliceN_planes PF.hwy _

/-- The call of the kernel. -/
theorem HoldsPlanes.args (PF : Platform) (h : HoldsPlanes names R cols) (hlen : names.length ≤ 128)
    (p : ℕ → Word) :
    Args (PF.abi.layout.take names.length (Nat.le_trans hlen PF.abi.fields)) cols.get
      (PF.abi.enter cols p) := by
  refine PF.abi.args cols p _ _ fun i hi => ?_
  obtain ⟨F, hF, -⟩ := h i names[i] (List.getElem?_eq_getElem hi)
  rw [hF]
  rfl

theorem HoldsPlanes.fieldPlanes (PF : Platform) (h : HoldsPlanes names R cols) (hN : Numbered g a root names)
    (hlen : names.length ≤ 128) :
    FieldPlanes (PF.abi.layout.take names.length (Nat.le_trans hlen PF.abi.fields)) cols.get g a
      root R := by
  intro n hn hk
  obtain ⟨F, hF, hplanes⟩ := h _ _ (hN.get hn hk)
  refine ⟨hN.toNat_lt hn hk, ?_⟩
  rwa [Columns.get, hF]

/-- Columns that are not sliced are the rows. -/
theorem HoldsRows.fieldRows (h : HoldsRows PF L names R cols) (hN : Numbered g a root names)
    (hlen : names.length ≤ 128) (hmode : L.mode = .SCALAR) :
    FieldRows (PF.abi.layout.take names.length (Nat.le_trans hlen PF.abi.fields)) cols.get g a
      root R := by
  intro n hn hk
  refine ⟨hN.toNat_lt hn hk, fun r _ => ?_⟩
  rw [h.get hN hn hk, sliceColumn, if_neg (by rw [hmode]; decide)]

end Rows

end ApexEngine
end Engine
end AarchGate
