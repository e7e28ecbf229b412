/-
# The width of a field

A descriptor gives a field a `bit_width`, and `docs/SDK_REFERENCE.md` asks for a row stride
that has room for the fields at their widths.  The gathers of the source do not look at it:
`gather_field`, the vector loop of `process_chunk_expr` and the loops of `worker_thread` copy
the eight bytes from the offset of the field on.

* `gathers_at_width_iff`: each of them delivers the declared value of a field, out of the
  bytes of the field alone, exactly when the field has 64 bits.
* `narrow_field_leaks`: the schema of the reference, where the value of one field reaches
  that of the field before it, and the last field of a row the row after it.
-/

import AarchGate.Engine.ParallelCorrect
import AarchGate.Framing.LittleEndian

namespace AarchGate
namespace Engine

open A64 Ir AarchGate.Core Compute BitPlane Framing
open ApexEngine (load64 gatherField gatherField_apply fillColumns fillColumns_lane sliceColumn)
open ParallelRunner (workerColumns workerColumns_filled)

/-! ### Values of a declared width -/

/-- The `k` bytes from `p` on. -/
def bytesAt (data : ℕ → BitVec 8) (p k : ℕ) : List (BitVec 8) :=
  (List.range k).map fun i => data (p + i)

/-- The little-endian value of `w` bits at byte `p`, zero-extended. -/
def declaredValue (data : ℕ → BitVec 8) (p w : ℕ) : Word := ofWordBytes 64 (bytesAt data p (w / 8))

@[simp] theorem length_bytesAt (data : ℕ → BitVec 8) (p k : ℕ) : (bytesAt data p k).length = k := by
  rw [bytesAt, List.length_map, List.length_range]

theorem getElem?_bytesAt (data : ℕ → BitVec 8) (p : ℕ) {k i : ℕ} (hi : i < k) :
    (bytesAt data p k)[i]? = some (data (p + i)) := by
  rw [bytesAt, List.getElem?_map, List.getElem?_range hi]
  rfl

/-- Eight bytes fit a word. -/
theorem leValue_bytesAt_lt (data : ℕ → BitVec 8) (p : ℕ) {k : ℕ} (hk : k ≤ 8) :
    leValue (bytesAt data p k) < 2 ^ 64 := by
  have h := leValue_lt (bytesAt data p k)
  rw [length_bytesAt] at h
  calc leValue (bytesAt data p k) < 256 ^ k := h
    _ ≤ 256 ^ 8 := Nat.pow_le_pow_right (by decide) hk
    _ = 2 ^ 64 := by decide

theorem toNat_append_eq {m n : ℕ} (x : BitVec m) (y : BitVec n) :
    (x ++ y).toNat = x.toNat * 2 ^ n + y.toNat := by
  rw [BitVec.toNat_append, ← Nat.shiftLeft_add_eq_or_of_lt y.isLt, Nat.shiftLeft_eq]

/-- The word of a `memcpy` is that of its eight bytes. -/
theorem load64_eq (data : ℕ → BitVec 8) (p : ℕ) : load64 data p = ofWordBytes 64 (bytesAt data p 8) := by
  refine BitVec.eq_of_toNat_eq ?_
  rw [ofWordBytes, BitVec.toNat_ofNat, Nat.mod_eq_of_lt (leValue_bytesAt_lt data p (Nat.le_refl 8))]
  simp only [load64, toNat_append_eq, bytesAt, List.range_succ, List.range_zero, List.nil_append,
    List.cons_append, List.map_cons, List.map_nil, leValue, Nat.add_zero]
  omega

/-- A field of 64 bits is a word. -/
theorem declaredValue_64 (data : ℕ → BitVec 8) (p : ℕ) : declaredValue data p 64 = load64 data p :=
  (load64_eq data p).symm

/-! ### The bytes a value is read from -/

/-- What `f` takes from the data depends on byte `q`. -/
def Reads {α : Type} (f : (ℕ → BitVec 8) → α) (q : ℕ) : Prop :=
  ∃ data b, f (Function.update data q b) ≠ f data

/-- **A `memcpy` of eight bytes** reads these and no others. -/
theorem reads_load64_iff (p q : ℕ) : Reads (fun data => load64 data p) q ↔ p ≤ q ∧ q < p + 8 := by
  constructor
  · rintro ⟨data, b, hne⟩
    by_contra hout
    have hb : ∀ i < 8, Function.update data q b (p + i) = data (p + i) := fun i hi =>
      Function.update_of_ne (by omega) ..
    refine hne ?_
    simp only [load64_eq]
    exact congrArg _ (List.map_congr_left fun i hi => hb i (List.mem_range.1 hi))
  · rintro ⟨hle, hlt⟩
    refine ⟨fun _ => 0, 1, fun h => ?_⟩
    simp only [load64_eq] at h
    rw [ofWordBytes_inj (leValue_bytesAt_lt _ p (Nat.le_refl 8))
      (leValue_bytesAt_lt _ p (Nat.le_refl 8))] at h
    have hbyte : (bytesAt (Function.update (fun _ => 0) q 1) p 8)[q - p]? =
        (bytesAt (fun _ => 0) p 8)[q - p]? := by rw [leValue_inj (by simp) h]
    rw [getElem?_bytesAt _ _ (by omega), getElem?_bytesAt _ _ (by omega), Nat.add_sub_cancel' hle,
      Function.update_self] at hbyte
    exact absurd (Option.some.inj hbyte) (by decide)

/-- The value `f` takes from the data is that of the `w` bits at byte `p`, and it is made of
no other bytes. -/
structure AtWidth (f : (ℕ → BitVec 8) → Option Word) (data : ℕ → BitVec 8) (p w : ℕ) : Prop where
  value : f data = some (declaredValue data p w)
  bytes : ∀ q, Reads f q → p ≤ q ∧ q < p + w / 8

/-- A word is read at the width of eight bytes and at no smaller one, whatever the data. -/
theorem atWidth_iff {f : (ℕ → BitVec 8) → Option Word} {p w : ℕ}
    (hf : ∀ data, f data = some (load64 data p)) (hw : w ∈ [8, 16, 32, 64]) (data : ℕ → BitVec 8) :
    AtWidth f data p w ↔ w = 64 := by
  have hreads : ∀ q, Reads f q ↔ p ≤ q ∧ q < p + 8 := fun q => by
    rw [← reads_load64_iff p q]
    simp only [Reads, hf, ne_eq, Option.some.injEq]
  constructor
  · intro h
    have hlast := (h.bytes (p + 7) ((hreads _).2 (by omega))).2
    simp only [List.mem_cons, List.not_mem_nil, or_false] at hw
    omega
  · rintro rfl
    exact ⟨by rw [hf, declaredValue_64], fun q hq => (hreads q).1 hq⟩

/-! ### The gathers -/

/-- The value of lane `r` of a column, as the kernel of the mode finds it. -/
def delivered (mode : ExecutionMode) (col : ColumnBuffer) (r : ℕ) : Word :=
  if mode = .BIT_SLICED then laneOf 64 col r else col r

/-- All 64 bits are delivered. -/
theorem delivered_sliceColumn (PF : Platform) {L : ExprCompiledLogic} (hbits : L.activeBits = 64)
    (col : ColumnBuffer) {r : ℕ} (hr : r < 64) :
    delivered L.mode (sliceColumn PF L col) r = col r := by
  rw [delivered, sliceColumn]
  split_ifs with hmode
  · rw [hbits]
    exact (planes_laneOf _).lane_unique (sliceN_planes PF.hwy col) hr
  · rfl

section Gathers

variable (PF : Platform) (L : ExprCompiledLogic) (rowStride first rows : ℕ)
  (bufs : ℕ → ColumnBuffer) (i r : ℕ)

/-- Lane `r` of field `i` as `gather_field` stores it, for the chunk that starts at row `first`. -/
def fieldLane (d : FieldDescriptor) (data : ℕ → BitVec 8) : Option Word :=
  some (gatherField data (first * rowStride) d rowStride rows (bufs i) r)

/-- … as `process_chunk_expr` hands it to the kernel … -/
def chunkLane (data : ℕ → BitVec 8) : Option Word :=
  some (delivered L.mode (fillColumns PF L data (first * rowStride) rowStride rows bufs i) r)

/-- … and as `worker_thread` does. -/
def workerLane (data : ℕ → BitVec 8) : Option Word :=
  (workerColumns PF ⟨L, rowStride⟩ data (first * rowStride) rows bufs).map fun cols =>
    delivered L.mode (cols i) r

variable {PF L rowStride first rows bufs i r}

/-- A lane has its eight bytes. -/
theorem fieldLane_eq (hrows : rows ≤ 64) (hr : r < rows) (d : FieldDescriptor)
    (data : ℕ → BitVec 8) :
    fieldLane rowStride first rows bufs i r d data =
      some (load64 data ((first + r) * rowStride + d.offset)) := by
  rw [fieldLane, gatherField_apply _ _ _ _ _ _ (by omega), if_pos hr, Nat.add_mul]

/-- So in a chunk. -/
theorem chunkLane_eq (hbits : L.activeBits = 64) (hrows : rows ≤ 64) (hr : r < rows) (hi : i < 128)
    {d : FieldDescriptor} (hd : L.fields[i]? = some (some d)) (data : ℕ → BitVec 8) :
    chunkLane PF L rowStride first rows bufs i r data =
      some (load64 data ((first + r) * rowStride + d.offset)) := by
  obtain ⟨col, hcol, hgath, -⟩ := fillColumns_lane PF L data (first * rowStride) rowStride rows hrows
    bufs hi hd
  rw [chunkLane, hcol, delivered_sliceColumn PF hbits col (by omega), hgath r hr, Nat.add_mul]

/-- And in a worker. -/
theorem workerLane_eq (hbits : L.activeBits = 64) (hrows : rows ≤ 64) (hr : r < rows) (hi : i < 32)
    (hfields : ∀ o ∈ L.fields, o ≠ none) {d : FieldDescriptor} (hd : L.fields[i]? = some (some d))
    (data : ℕ → BitVec 8) :
    workerLane PF L rowStride first rows bufs i r data =
      some (load64 data ((first + r) * rowStride + d.offset)) := by
  obtain ⟨hlen, -⟩ := List.getElem?_eq_some_iff.1 hd
  obtain ⟨cols, hcols, hfill⟩ := workerColumns_filled PF ⟨L, rowStride⟩ data (first * rowStride) rows
    (fun j hj => by
      have hj' : j < L.fields.length := by
        have : j < min L.fields.length 32 := hj
        omega
      obtain ⟨d', hd'⟩ := Option.ne_none_iff_exists'.1 (hfields _ (List.getElem_mem hj'))
      exact ⟨d', by rw [List.getElem?_eq_getElem hj', hd']⟩) bufs
  obtain ⟨col, hcol, hfilled⟩ := hfill i d (show i < min L.fields.length 32 by omega) hd
  rw [workerLane, hcols, Option.map_some, hcol, delivered_sliceColumn PF hbits col (by omega),
    hfilled r (by omega), if_pos hr, Nat.add_mul]

end Gathers

/-- **The gathers read 64 bits.**  For a logic over the fields `ds`, of 8, 16, 32 or 64 bits,
every row stride, all data and every row: each gather delivers the values of the fields at
their declared widths, and out of their bytes alone, exactly when all of them have 64 bits. -/
theorem gathers_at_width_iff (PF : Platform) {L : ExprCompiledLogic} (hbits : L.activeBits = 64)
    {ds : List FieldDescriptor} (hfields : L.fields = ds.map some) (hlen : ds.length ≤ 128)
    (hwidth : ∀ d ∈ ds, d.bitWidth ∈ [8, 16, 32, 64]) (rowStride : ℕ) (bufs : ℕ → ColumnBuffer)
    (data : ℕ → BitVec 8) (first : ℕ) {rows r : ℕ} (hrows : rows ≤ 64) (hr : r < rows) :
    (∀ i d, ds[i]? = some d →
      AtWidth (fieldLane rowStride first rows bufs i r d) data ((first + r) * rowStride + d.offset)
          d.bitWidth ∧
        AtWidth (chunkLane PF L rowStride first rows bufs i r) data
          ((first + r) * rowStride + d.offset) d.bitWidth ∧
        (i < 32 → AtWidth (workerLane PF L rowStride first rows bufs i r) data
          ((first + r) * rowStride + d.offset) d.bitWidth)) ↔
      ∀ d ∈ ds, d.bitWidth = 64 := by
  have hnone : ∀ o ∈ L.fields, o ≠ none := by simp [hfields]
  have hL : ∀ {i d}, ds[i]? = some d → L.fields[i]? = some (some d) := fun {i d} hd => by
    rw [hfields, List.getElem?_map, hd]
    rfl
  constructor
  · intro h d hd
    obtain ⟨i, hi⟩ := List.mem_iff_getElem?.1 hd
    exact (atWidth_iff (fieldLane_eq hrows hr d) (hwidth d hd) data).1 (h i d hi).1
  · intro h i d hd
    have hw := h d (List.mem_of_getElem? hd)
    have hmem := hwidth d (List.mem_of_getElem? hd)
    obtain ⟨hi, -⟩ := List.getElem?_eq_some_iff.1 hd
    refine ⟨?_, ?_, fun hi32 => ?_⟩
    · exact (atWidth_iff (fieldLane_eq hrows hr d) hmem data).2 hw
    · exact (atWidth_iff (chunkLane_eq hbits hrows hr (by omega) (hL hd)) hmem data).2 hw
    · exact (atWidth_iff (workerLane_eq hbits hrows hr hi32 hnone (hL hd)) hmem data).2 hw

/-- The fields of the example of `apex_register_schema` in the reference. -/
def tradeFields : List FieldDescriptor :=
  [⟨"price".toList, 0, 64, .UINT64⟩, ⟨"volume".toList, 8, 32, .UINT32⟩,
    ⟨"symbol".toList, 12, 32, .UINT32⟩]

/-- A logic over some of them, without code. -/
def tradeLogic (n : ℕ) : ExprCompiledLogic where
  kernel := []
  fields := (tradeFields.take n).map some
  mode := .BIT_SLICED
  resultKind := .BITMASK
  baseSum := 0
  deltaWeights := []
  masksToPopcount := []
  activeBits := 64
  mslSource := none

/-- One row of it, with the volume 7 and the symbol 9, and a byte after the row. -/
def tradeData : ℕ → BitVec 8 := fun p =>
  if p = 8 then 7 else if p = 12 then 9 else if p = 16 then 1 else 0

/-- The price is read at its width, in a chunk and in a task. -/
theorem gathers_at_width_price :
    AtWidth (chunkLane .standard (tradeLogic 1) 16 64 64 (fun _ _ => 0) 0 5) tradeData 1104 64 ∧
      AtWidth (workerLane .standard (tradeLogic 1) 16 64 64 (fun _ _ => 0) 0 5) tradeData 1104 64 := by
  have h := (gathers_at_width_iff .standard (show (tradeLogic 1).activeBits = 64 from rfl)
    (show (tradeLogic 1).fields = (tradeFields.take 1).map some from rfl) (by decide) (by decide) 16
    (fun _ _ => 0) tradeData 64 (Nat.le_refl 64) (show 5 < 64 by decide)).2 (by decide) 0 _ rfl
  exact ⟨h.2.1, h.2.2 (by decide)⟩

/-- The fields fit into a row of 16 bytes.  The volume is delivered with the symbol above it,
and the symbol with a byte of the next row. -/
theorem narrow_field_leaks :
    (∀ d ∈ tradeFields, d.bitWidth ∈ [8, 16, 32, 64] ∧ d.offset + d.bitWidth / 8 ≤ 16) ∧
      fieldLane 16 0 1 (fun _ _ => 0) 1 0 ⟨"volume".toList, 8, 32, .UINT32⟩ tradeData =
        some 0x900000007 ∧
      declaredValue tradeData 8 32 = 7 ∧
      fieldLane 16 0 1 (fun _ _ => 0) 2 0 ⟨"symbol".toList, 12, 32, .UINT32⟩ tradeData =
        some 0x100000009 ∧
      declaredValue tradeData 12 32 = 9 ∧
      Reads (fieldLane 16 0 1 (fun _ _ => 0) 2 0 ⟨"symbol".toList, 12, 32, .UINT32⟩) 16 := by
  refine ⟨by decide, ?_, by decide, ?_, by decide, ?_⟩
  · rw [fieldLane_eq (by decide) (by decide)]
    decide
  · rw [fieldLane_eq (by decide) (by decide)]
    decide
  · obtain ⟨data, b, hne⟩ := (reads_load64_iff 12 16).2 (by decide)
    refine ⟨data, b, ?_⟩
    rw [fieldLane_eq (by decide) (by decide), fieldLane_eq (by decide) (by decide)]
    exact fun h => hne (Option.some.inj h)

end Engine
end AarchGate
