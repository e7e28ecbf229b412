/-
# The layouts of the columns on the GPU

Three places compute the index of a plane in the buffer that the kernel reads.
`ApexEngine::execute` packs the fields the expression references, in the order of their
first use, with that many fields in a block (`PackedAt`).  The layout of
`execute_native` has all fields of the schema in their order (`NativeAt`).  The text
of a `LOAD` takes the number of a field from the order of use and the length of a
block from the schema, in 32-bit arithmetic (`columnIndex`).

The three agree in the first block if the expression uses a first part of the schema
in its order, and in the other blocks only if it uses the whole schema
(`layouts_agree_iff`).
-/

import AarchGate.Engine.Native
import AarchGate.Gpu.Totals

namespace AarchGate
namespace Gpu

open A64 Ir AarchGate.Core Compute BitPlane Engine Engine.ApexEngine
open Jit (Fault bind_ok fieldOrder)

/-- Word `k` of the `numBlocks` blocks that `execute` packs holds plane `i` of the field `f`
of block `b`. -/
def PackedAt (fields : List (Option FieldDescriptor)) (numBlocks b : ℕ) (f : Name) (i k : ℕ) : Prop :=
  k < numBlocks * fields.length * 64 ∧ ∃ j d, fields[j]? = some (some d) ∧ d.name = f ∧
    k = b * fields.length * 64 + j * 64 + i

/-- Word `k` of `numBlocks` blocks in the layout of `execute_native` holds plane `i` of the
field `f` of block `b`. -/
def NativeAt (fields : List FieldDescriptor) (numBlocks b : ℕ) (f : Name) (i k : ℕ) : Prop :=
  k < numBlocks * fields.length * 64 ∧ ∃ d, (fields.find? fun s => s.name = f) = some d ∧
    k = (b * fields.length + schemaIndex fields (some d)) * 64 + i

theorem PackedAt.plane {PF : Platform} {fields : List (Option FieldDescriptor)} {data : ℕ → BitVec 8}
    {rowStride rowCount : ℕ} {tempBuf : ColumnBuffer} {b i k : ℕ} {f : Name}
    (h : PackedAt fields ((rowCount + 63) / 64) b f i k) (hb : b < (rowCount + 63) / 64) (hi : i < 64) :
    ∃ d, some d ∈ fields ∧ d.name = f ∧
      packBlocks PF fields data rowStride rowCount tempBuf k =
        blockColumn PF data rowStride rowCount tempBuf b d i := by
  obtain ⟨-, j, d, hd, hname, rfl⟩ := h
  exact ⟨d, List.mem_of_getElem? hd, hname, packBlocks_plane hb hd hi⟩

theorem NativeAt.plane {fields : List FieldDescriptor} {data : ℕ → BitVec 8} {rowStride : ℕ}
    {numBlocks b i k : ℕ} {f : Name} (h : NativeAt fields numBlocks b f i k) {bitPlanes : ℕ → Word}
    (hlay : NativeLayout fields rowStride data numBlocks bitPlanes) (hb : b < numBlocks) (hi : i < 64)
    {r : ℕ} (hr : r < 64) :
    (bitPlanes k).getLsbD r = (rowOf fields data rowStride (64 * b + r) f).getLsbD i := by
  obtain ⟨-, d, hd, rfl⟩ := h
  rw [hlay b hb _ d (schemaIndex_find hd) i hi r hr]
  show _ = (recordAt _ data _ f).getLsbD i
  rw [recordAt, hd]

/-! ### Positions of names -/

section Positions

variable {order names : List Name}

/-- A list without repetitions is the first part of another if its elements stand there
at the same positions. -/
theorem prefix_iff_idxOf (hnd : order.Nodup) (hsub : ∀ f ∈ order, f ∈ names) :
    order <+: names ↔ ∀ f ∈ order, names.idxOf f = order.idxOf f := by
  constructor
  · rintro ⟨rest, rfl⟩ f hf
    exact List.idxOf_append_of_mem hf
  · intro h
    have hget : ∀ j (hj : j < order.length), ∃ hj' : j < names.length, order[j] = names[j] := by
      intro j hj
      have hmem := List.getElem_mem hj
      have hidx := h _ hmem
      rw [hnd.idxOf_getElem] at hidx
      have hlt := List.idxOf_lt_length_of_mem (hsub _ hmem)
      have heq := List.getElem_idxOf hlt
      simp only [hidx] at hlt heq
      exact ⟨hlt, heq.symm⟩
    refine List.prefix_iff_getElem.2 ⟨?_, fun j hj => (hget j hj).2⟩
    by_contra hlt
    exact absurd (hget names.length (by omega)).1 (Nat.lt_irrefl _)

/-- **The three indices** of the planes of the fields of `order`, in a schema of the fields
`names`, are equal in all blocks under this condition. -/
theorem layouts_agree_iff (hnd : order.Nodup) (hsub : ∀ f ∈ order, f ∈ names)
    (h128 : order.length ≤ 128) (numBlocks : ℕ) :
    (∀ b < numBlocks, ∀ f ∈ order, ∀ i < 64,
        columnIndex names.length (order.idxOf f : ℕ) b i =
          b * order.length * 64 + order.idxOf f * 64 + i ∧
        columnIndex names.length (order.idxOf f : ℕ) b i =
          (b * names.length + names.idxOf f) * 64 + i) ↔
      numBlocks = 0 ∨ order = [] ∨ numBlocks = 1 ∧ order <+: names ∨
        order = names ∧ numBlocks * names.length ≤ 2 ^ 26 := by
  -- in block 0 the index cannot overflow
  have hfirst : ∀ f ∈ order, ∀ i < 64, columnIndex names.length (order.idxOf f : ℕ) 0 i =
      order.idxOf f * 64 + i := by
    intro f hf i hi
    have := List.idxOf_lt_length_of_mem hf
    rw [columnIndex_eq (by omega)]
    omega
  constructor
  · intro h
    by_cases h0 : numBlocks = 0
    · exact Or.inl h0
    refine Or.inr ?_
    by_cases hne : order = []
    · exact Or.inl hne
    refine Or.inr ?_
    have hprefix : order <+: names := (prefix_iff_idxOf hnd hsub).2 fun f hf => by
      have := (h 0 (by omega) f hf 0 (by omega)).2
      rw [hfirst f hf 0 (by omega)] at this
      omega
    by_cases h1 : numBlocks = 1
    · exact Or.inl ⟨h1, hprefix⟩
    refine Or.inr ?_
    -- the first field of block 1, and the last plane of the last block
    have hpos := List.length_pos_iff.2 hne
    have hlen : order.length = names.length := by
      obtain ⟨h₁, h₂⟩ := h 1 (by omega) (order.get ⟨0, hpos⟩) (List.get_mem ..) 0 (by omega)
      rw [h₁, (prefix_iff_idxOf hnd hsub).1 hprefix _ (List.get_mem ..)] at h₂
      omega
    obtain rfl : order = names := hprefix.eq_of_length hlen
    refine ⟨rfl, ?_⟩
    obtain ⟨m, rfl⟩ : ∃ m, numBlocks = m + 1 := ⟨numBlocks - 1, by omega⟩
    have hlast := (h m (by omega) (order.get ⟨order.length - 1, by omega⟩) (List.get_mem ..) 63
      (by omega)).1
    simp only [List.get_eq_getElem, hnd.idxOf_getElem] at hlast
    have hlt : columnIndex order.length (order.length - 1 : ℕ) m 63 < 2 ^ 32 := by
      rw [columnIndex]
      omega
    rw [hlast] at hlt
    rw [Nat.add_one_mul]
    omega
  · rintro (rfl | rfl | ⟨rfl, hprefix⟩ | ⟨rfl, hfit⟩) b hb f hf i hi
    · omega
    · exact absurd hf List.not_mem_nil
    · obtain rfl : b = 0 := by omega
      rw [hfirst f hf i hi, (prefix_iff_idxOf hnd hsub).1 hprefix f hf]
      omega
    · have := List.idxOf_lt_length_of_mem hf
      have hle : (b + 1) * order.length ≤ numBlocks * order.length := Nat.mul_le_mul_right _ hb
      rw [Nat.add_one_mul] at hle
      rw [columnIndex_eq (by omega)]
      omega

end Positions

/-! ### The installed kernel -/

/-- The text of a node is part of the body. -/
theorem emitBody_mem {g : ℕ → Node} {a : ℕ → Annot} {numFields : ℕ} {order : List ℕ}
    {body stmts : List Stmt} (h : emitBody g a numFields order = .ok body) {n : ℕ} (hn : n ∈ order)
    (hstmts : emitNode g a numFields n = .ok stmts) : ∀ s ∈ stmts, s ∈ body := by
  induction order generalizing body with
  | nil => exact absurd hn List.not_mem_nil
  | cons m order ih =>
    obtain ⟨first, hfirst, h⟩ := bind_ok h
    obtain ⟨rest, hrest, h⟩ := bind_ok h
    obtain rfl : first ++ rest = body := Except.ok.inj h
    intro s hs
    rcases List.mem_cons.1 hn with rfl | hn
    · obtain rfl : first = stmts := Except.ok.inj (hfirst.symm.trans hstmts)
      exact List.mem_append_left _ hs
    · exact List.mem_append_right _ (ih hrest hn s hs)

/-- A generated kernel has the text of every `LOAD`, with the number that the compiler
gave to its field. -/
theorem generateMslSource_loads {P : NodePool} (hP : Built P) {root : ℕ} (hroot : root < P.nextIdx)
    {a a' : ℕ → Annot} (hskip : ∀ n, Reach P.storage root n → (a n).skipJit = false)
    {numFields : ℕ} {K : MslSource}
    (h : generateMslSource P.storage a numFields root = .ok (a', K)) {n : ℕ}
    (hn : Reach P.storage root n) (hk : (P.storage n).kind = .LOAD) :
    (a' n).fieldIdx = (a n).fieldIdx ∧ .load (a' n).slotId numFields (a' n).fieldIdx ∈ K.body := by
  have hothers := generateMslSource_others hP hroot h n
  have hmem := ((postOrder_spec hP hroot).mem_iff n).2 hn
  obtain ⟨body, hbody, h⟩ := bind_ok h
  obtain ⟨⟨base, weights, masks⟩, -, h⟩ := bind_ok h
  obtain ⟨rfl, rfl⟩ := Prod.mk.inj (Except.ok.inj h)
  refine ⟨by rw [hothers], emitBody_mem hbody hmem ?_ _ (List.mem_singleton_self _)⟩
  rw [emitNode, if_neg (by rw [hothers]; simp [hskip n hn]), hk]

/-- Where `execute` stores the field with the number `j`. -/
theorem packedAt_iff {names : List Name} {fields : List (Option FieldDescriptor)}
    {schemaFields : List FieldDescriptor} (hnd : names.Nodup)
    (hT : FieldTable (fun f => schemaFields.find? fun d => d.name = f) names fields)
    (hlen : fields.length = names.length) {numBlocks b i k : ℕ} (hb : b < numBlocks) (hi : i < 64)
    {f : Name} (hf : f ∈ names) :
    PackedAt fields numBlocks b f i k ↔ k = b * names.length * 64 + names.idxOf f * 64 + i := by
  have hname : ∀ j (hj : j < names.length), ∃ d, fields[j]? = some (some d) ∧ d.name = names[j] := by
    intro j hj
    obtain ⟨d, hd, hfd⟩ := hT j _ (List.getElem?_eq_getElem hj)
    exact ⟨d, hfd, by simpa using List.find?_some hd⟩
  rw [PackedAt, hlen]
  constructor
  · rintro ⟨-, j, d, hd, rfl, rfl⟩
    have hj : j < names.length := hlen ▸ (List.getElem?_eq_some_iff.1 hd).1
    obtain ⟨d', hd', hj'⟩ := hname j hj
    obtain rfl : d = d' := by simpa [hd] using hd'
    rw [hj', hnd.idxOf_getElem]
  · rintro rfl
    have hlt := List.idxOf_lt_length_of_mem hf
    obtain ⟨d, hd, hdf⟩ := hname _ hlt
    have hle : (b + 1) * names.length ≤ numBlocks * names.length := Nat.mul_le_mul_right _ hb
    rw [Nat.add_one_mul] at hle
    exact ⟨by omega, _, d, hd, by rw [hdf, List.getElem_idxOf], rfl⟩

/-- Where the layout of `execute_native` has a field of the schema. -/
theorem nativeAt_iff {fields : List FieldDescriptor} {numBlocks b i k : ℕ} (hb : b < numBlocks)
    (hi : i < 64) {f : Name} (hf : f ∈ fields.map (·.name)) :
    NativeAt fields numBlocks b f i k ↔
      k = (b * fields.length + (fields.map (·.name)).idxOf f) * 64 + i := by
  have hidx : ∀ d, (fields.find? fun s => s.name = f) = some d →
      schemaIndex fields (some d) = (fields.map (·.name)).idxOf f := by
    intro d hd
    obtain rfl : d.name = f := by simpa using List.find?_some hd
    rw [schemaIndex, List.findIdx?_eq_some_of_exists ⟨d, List.mem_of_find?_eq_some hd, by simp⟩,
      Option.getD_some, List.idxOf, List.findIdx_map]
    congr 1
    funext s
    exact Bool.eq_iff_iff.2 (by simp)
  have hlt := List.idxOf_lt_length_of_mem hf
  have hle : (b + 1) * fields.length ≤ numBlocks * fields.length := Nat.mul_le_mul_right _ hb
  rw [Nat.add_one_mul] at hle
  rw [List.length_map] at hlt
  constructor
  · rintro ⟨-, d, hd, rfl⟩
    rw [hidx d hd]
  · rintro rfl
    obtain ⟨d, hd, rfl⟩ := List.mem_map.1 hf
    obtain ⟨d', hd'⟩ := Option.isSome_iff_exists.1
      (List.find?_isSome.2 ⟨d, hd, by simp⟩ : (fields.find? fun s => s.name = d.name).isSome)
    exact ⟨by omega, d', hd', by rw [hidx d' hd']⟩

/-- **The layouts of an installed expression.**  An expression over registered fields that
was accepted for the GPU: every `LOAD` has its text in the kernel, and for every block and
plane the index in it is where `execute` stores the plane and where the layout of
`execute_native` has it, if and only if there is no block or no `LOAD`, or there is one
block and the fields are a first part of the schema in the order of use, or they are the
whole schema in its order and the buffer has at most `2^32` words. -/
theorem gpu_layouts_iff {PF : Platform} {P : NodePool} (hP : Built P) {root : ℕ}
    (hroot : root < P.nextIdx) {E₀ E : ApexEngine} {schemaName : Name}
    {fields : List FieldDescriptor} {rowStride : ℕ} {a₀ a : ℕ → Annot}
    (hnew : E₀.registry.schemas schemaName = none) (honly : E₀.exprLogic = [])
    (hreg : ∀ n, Reach P.storage root n → (P.storage n).kind = .LOAD →
      ∃ d ∈ fields, d.name = (P.storage n).fieldName)
    (hset : setExpression PF (E₀.registerSchema schemaName fields rowStride) schemaName P.storage a₀
      (some root) .GPU_THROUGHPUT = .ok (a, E)) (hacc : E.exprLogic ≠ []) :
    ∃ L K, E.exprLogic = [(schemaName, L)] ∧ L.mslSource = some K ∧
      (∀ n, Reach P.storage root n → (P.storage n).kind = .LOAD →
        .load (a n).slotId fields.length (a n).fieldIdx ∈ K.body) ∧
      ∀ numBlocks, (∀ b < numBlocks, ∀ n, Reach P.storage root n → (P.storage n).kind = .LOAD →
          ∀ i < 64,
            PackedAt L.fields numBlocks b (P.storage n).fieldName i
              (columnIndex fields.length (a n).fieldIdx b i) ∧
            NativeAt fields numBlocks b (P.storage n).fieldName i
              (columnIndex fields.length (a n).fieldIdx b i)) ↔
        numBlocks = 0 ∨ fieldOrder P.storage root = [] ∨
          numBlocks = 1 ∧ fieldOrder P.storage root <+: fields.map (·.name) ∨
          fieldOrder P.storage root = fields.map (·.name) ∧ numBlocks * fields.length ≤ 2 ^ 26 := by
  obtain ⟨a₁, a₂, L, K, -, -, -, -, hgen, hK, -, -, -, hskip, h128, hN, hI⟩ :=
    setExpression_gpu hP hroot hnew honly hreg hset hacc
  have hloads := fun n => generateMslSource_loads hP hroot hskip hgen (n := n)
  refine ⟨L, K, (hI.logic_eq (setExpression_keys honly hset hacc)).1, hK,
    fun n hn hk => (hloads n hn hk).2, fun numBlocks => ?_⟩
  have hsub : ∀ f ∈ fieldOrder P.storage root, f ∈ fields.map (·.name) :=
    hN.forall_names fun n hn hk => List.mem_map.2 (hreg n hn hk)
  have hagree := layouts_agree_iff hN.nodup hsub h128 numBlocks
  rw [List.length_map] at hagree
  rw [← hagree]
  -- a `LOAD` of a field and its name in the order of use
  constructor
  · intro h b hb f hf i hi
    obtain ⟨n, hn, hk, rfl⟩ := (hN.mem f).1 hf
    have := h b hb n hn hk i hi
    rwa [(hloads n hn hk).1, hN.idx n hn hk, packedAt_iff hN.nodup hI.table hI.fields_length hb hi hf,
      nativeAt_iff hb hi (hsub _ hf)] at this
  · intro h b hb n hn hk i hi
    have hf := (hN.mem _).2 ⟨n, hn, hk, rfl⟩
    rw [(hloads n hn hk).1, hN.idx n hn hk, packedAt_iff hN.nodup hI.table hI.fields_length hb hi hf,
      nativeAt_iff hb hi (hsub _ hf)]
    exact h b hb _ hf i hi

theorem gtPool_registered {fields : List FieldDescriptor} (h : ∃ d ∈ fields, d.name = ['a']) (n : ℕ)
    (hn : Reach Jit.gtPool.storage 2 n) (hk : (Jit.gtPool.storage n).kind = .LOAD) :
    ∃ d ∈ fields, d.name = (Jit.gtPool.storage n).fieldName := by
  have hlt : n < 3 := Jit.gtPool_built.reach_lt (by decide) hn
  interval_cases n
  · exact h
  · exact absurd hk (by decide)
  · exact absurd hk (by decide)

/-- `a > 5` over the schema of `a`, on two blocks. -/
theorem gpu_layouts_iff_whole :
    ∃ a E L K, setExpression .standard oneFieldEngine ['t'] Jit.gtPool.storage
        Jit.gtPool.annot (some 2) .GPU_THROUGHPUT = .ok (a, E) ∧
      E.exprLogic = [(['t'], L)] ∧ L.mslSource = some K ∧
      ∀ b < 2, ∀ n, Reach Jit.gtPool.storage 2 n → (Jit.gtPool.storage n).kind = .LOAD → ∀ i < 64,
        PackedAt L.fields 2 b (Jit.gtPool.storage n).fieldName i (columnIndex 1 (a n).fieldIdx b i) ∧
        NativeAt oneField 2 b (Jit.gtPool.storage n).fieldName i (columnIndex 1 (a n).fieldIdx b i) := by
  obtain ⟨a, E, hset, hacc⟩ := gtPool_accepted .GPU_THROUGHPUT
  obtain ⟨L, K, hL, hK, -, hiff⟩ := gpu_layouts_iff Jit.gtPool_built (by decide) rfl rfl
    (gtPool_registered ⟨_, List.mem_singleton_self _, rfl⟩) hset hacc
  exact ⟨a, E, L, K, hset, hL, hK, (hiff 2).2 (by right; right; right; exact ⟨gtPool_order, by decide⟩)⟩

/-- The schema with the fields `a` and `b`. -/
abbrev fieldsAB : List FieldDescriptor := [⟨['a'], 0, 64, .UINT64⟩, ⟨['b'], 8, 64, .UINT64⟩]

/-- `a > 5` over the schema of `a` and `b`, on two blocks: the text of `a` reads word 128 for
block 1, and `execute` packs 128 words, numbered from 0. -/
theorem gpu_reads_past_packed :
    ∃ a E L K, setExpression .standard (init.registerSchema ['t'] fieldsAB 16) ['t']
        Jit.gtPool.storage Jit.gtPool.annot (some 2) .GPU_THROUGHPUT = .ok (a, E) ∧
      E.exprLogic = [(['t'], L)] ∧ L.mslSource = some K ∧ .load (a 0).slotId 2 (a 0).fieldIdx ∈ K.body ∧
      columnIndex 2 (a 0).fieldIdx 1 0 = 128 ∧ 2 * L.fields.length * 64 = 128 ∧
      ¬PackedAt L.fields 2 1 ['a'] 0 (columnIndex 2 (a 0).fieldIdx 1 0) := by
  obtain ⟨a, E, hset, hacc⟩ : ∃ a E, setExpression .standard (init.registerSchema ['t'] fieldsAB 16)
      ['t'] Jit.gtPool.storage Jit.gtPool.annot (some 2) .GPU_THROUGHPUT = .ok (a, E) ∧
        E.exprLogic ≠ [] := accepted_iff.1 (by decide)
  obtain ⟨a₁, a₂, L, K, -, -, -, -, hgen, hK, -, -, -, hskip, -, hN, hI⟩ :=
    setExpression_gpu Jit.gtPool_built (by decide) rfl rfl
      (gtPool_registered ⟨_, List.mem_cons_self .., rfl⟩) hset hacc
  have hn : Reach Jit.gtPool.storage 2 0 := .single (by decide)
  obtain ⟨hidx, hload⟩ := generateMslSource_loads Jit.gtPool_built (by decide) hskip hgen hn rfl
  rw [hN.idx 0 hn rfl, gtPool_order] at hidx
  have hlen : L.fields.length = 1 := hI.fields_length.trans (by rw [gtPool_order]; rfl)
  have hcol : columnIndex 2 (a 0).fieldIdx 1 0 = 128 := by rw [hidx]; decide
  refine ⟨a, E, L, K, hset, (hI.logic_eq (setExpression_keys rfl hset hacc)).1, hK, hload, hcol,
    by rw [hlen], fun h => ?_⟩
  rw [PackedAt, hcol, hlen] at h
  exact absurd h.1 (by decide)

end Gpu
end AarchGate
