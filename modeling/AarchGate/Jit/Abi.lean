/-
# Calling a kernel from C++

The callers of a kernel pass two C++ arrays, the table of column pointers and
the scratchpad, and read the returned word and the scratchpad afterwards.  An
`Abi` is a way the call can be carried out: for any columns and any contents of
the scratchpad, a machine that holds them as the kernel expects (`Args`).
`Abi.invoke` is the call as its caller sees it.

`Abi.standard` is one such machine, with the regions at fixed addresses; the
results hold for every `Abi`.
-/

import AarchGate.Jit.Kernel

namespace AarchGate
namespace Jit

open A64 Ir BitPlane

/-- The layout with the first `k` columns only. -/
def Layout.take (L : Layout) (k : ℕ) (h : k ≤ L.numFields) : Layout where
  scratch := L.scratch
  table := L.table
  plane := L.plane
  frame := L.frame
  numFields := k
  table_scratch i hi := L.table_scratch i (by omega)
  plane_scratch i hi := L.plane_scratch i (by omega)
  frame_scratch := L.frame_scratch
  frame_table j hj i hi := L.frame_table j hj i (by omega)
  frame_plane j hj i hi := L.frame_plane j hj i (by omega)
  table_plane i hi j hj := L.table_plane i (by omega) j (by omega)
  plane_plane i hi j hj := L.plane_plane i (by omega) j (by omega)

/-- The table of column pointers a caller fills: a column or a null pointer. -/
abbrev Columns := ℕ → Option (ℕ → Word)

/-- The contents of the columns. -/
def Columns.get (cols : Columns) (i : ℕ) : ℕ → Word := (cols i).getD fun _ => 0

/-- A way to call kernels: where the arguments lie, and the machine on entry.  The
entries of the table before the first null pointer lead to their columns. -/
structure Abi where
  layout : Layout
  enter : Columns → (ℕ → Word) → Machine
  args : ∀ cols p k, (hk : k ≤ layout.numFields) → (∀ i < k, (cols i).isSome = true) →
    Args (layout.take k hk) cols.get (enter cols p)
  scratch : ∀ cols p, ∀ k < maxSlots, pad layout (enter cols p) k = p k
  fields : 128 ≤ layout.numFields

/-- `kernel(field_planes, scratch)`: the returned word and the scratchpad after
the call. -/
def Abi.invoke (A : Abi) (code : List Instr) (cols : Columns) (p : ℕ → Word) :
    Option (Word × (ℕ → Word)) :=
  (call code (A.enter cols p)).map fun m => (m.read (.x 0), pad A.layout m)

/-- A call with all columns. -/
theorem Abi.args_some (A : Abi) (F : ℕ → ℕ → Word) (p : ℕ → Word) :
    Args A.layout F (A.enter (fun i => some (F i)) p) :=
  A.args (fun i => some (F i)) p A.layout.numFields (Nat.le_refl _) fun _ _ => rfl

/-! ### The standard machine -/

/-- The address of a word below `2^64`. -/
theorem wordAt_ofNat (x i : ℕ) : wordAt (BitVec.ofNat 64 x) i = BitVec.ofNat 64 (x + 8 * i) := by
  rw [wordAt, BitVec.ofNat_add]

/-- The address of a word, without a wrap. -/
theorem wordAt_toNat {x i : ℕ} (h : x + 8 * i < 2 ^ 64) :
    (wordAt (BitVec.ofNat 64 x) i).toNat = x + 8 * i := by
  rw [wordAt_ofNat, BitVec.toNat_ofNat, Nat.mod_eq_of_lt h]

/-- Words at different addresses. -/
theorem wordAt_ne {x y i j : ℕ} (hx : x + 8 * i < 2 ^ 64) (hy : y + 8 * j < 2 ^ 64)
    (h : x + 8 * i ≠ y + 8 * j) : wordAt (BitVec.ofNat 64 x) i ≠ wordAt (BitVec.ofNat 64 y) j := by
  intro he
  have := congrArg BitVec.toNat he
  rw [wordAt_toNat hx, wordAt_toNat hy] at this
  exact h this

/-- The regions at fixed addresses: 1024 bytes of table, 512 for each column,
the stack frame and the scratchpad. -/
def Layout.standard : Layout where
  scratch := BitVec.ofNat 64 0x1000000
  table := BitVec.ofNat 64 0x100000
  plane i := BitVec.ofNat 64 (0x200000 + 512 * i)
  frame := BitVec.ofNat 64 0x300000
  numFields := 128
  table_scratch i hi k hk := by
    have : maxSlots = 32768 := rfl
    exact wordAt_ne (by omega) (by omega) (by omega)
  plane_scratch i hi b hb k hk := by
    have : maxSlots = 32768 := rfl
    exact wordAt_ne (by omega) (by omega) (by omega)
  frame_scratch j hj k hk := by
    have : maxSlots = 32768 := rfl
    exact wordAt_ne (by omega) (by omega) (by omega)
  frame_table j hj i hi := wordAt_ne (by omega) (by omega) (by omega)
  frame_plane j hj i hi b hb := wordAt_ne (by omega) (by omega) (by omega)
  table_plane i hi j hj b hb := wordAt_ne (by omega) (by omega) (by omega)
  plane_plane i hi j hj hij b hb b' hb' := wordAt_ne (by omega) (by omega) (by omega)

/-- The memory with the table, the columns and the scratchpad `p`. -/
def standardMem (cols : Columns) (p : ℕ → Word) (x : Word) : Word :=
  if 0x1000000 ≤ x.toNat then p ((x.toNat - 0x1000000) / 8)
  else if 0x300000 ≤ x.toNat then 0
  else if 0x200000 ≤ x.toNat then
    cols.get ((x.toNat - 0x200000) / 512) ((x.toNat - 0x200000) % 512 / 8)
  else if (cols ((x.toNat - 0x100000) / 8)).isSome then
    BitVec.ofNat 64 (0x200000 + 512 * ((x.toNat - 0x100000) / 8))
  else 0

/-- The standard layout has room for 128 columns. -/
theorem Layout.numFields_standard : 128 ≤ Layout.standard.numFields := Nat.le_refl _

/-- The standard way to call a kernel. -/
def Abi.standard : Abi where
  layout := .standard
  enter cols p :=
    { gpr := fun r => if r = .x 0 then BitVec.ofNat 64 0x100000
        else if r = .x 1 then BitVec.ofNat 64 0x1000000
        else if r = .sp then BitVec.ofNat 64 0x300060 else 0
      flags := ⟨false, false, false, false⟩
      mem := standardMem cols p }
  args cols p k hk hsome := by
    have hk' : k ≤ 128 := hk
    refine ⟨rfl, rfl, rfl, fun i hi => ?_, fun i hi b hb => ?_⟩
    · have hi' : i < k := hi
      have hx : (wordAt Layout.standard.table i).toNat = 0x100000 + 8 * i := wordAt_toNat (by omega)
      simp only [standardMem]
      rw [show (Layout.standard.take k hk).table = Layout.standard.table from rfl, hx,
        if_neg (by omega), if_neg (by omega), if_neg (by omega),
        show (0x100000 + 8 * i - 0x100000) / 8 = i by omega, if_pos (hsome i hi')]
      rfl
    · have hi' : i < k := hi
      have hx : (wordAt (Layout.standard.plane i) b).toNat = 0x200000 + 512 * i + 8 * b :=
        wordAt_toNat (by omega)
      simp only [standardMem]
      rw [show (Layout.standard.take k hk).plane = Layout.standard.plane from rfl, hx,
        if_neg (by omega), if_neg (by omega), if_pos (by omega),
        show (0x200000 + 512 * i + 8 * b - 0x200000) / 512 = i by omega,
        show (0x200000 + 512 * i + 8 * b - 0x200000) % 512 / 8 = b by omega]
  scratch cols p k hk := by
    have hm : maxSlots = 32768 := rfl
    have hx : (wordAt Layout.standard.scratch k).toNat = 0x1000000 + 8 * k := wordAt_toNat (by omega)
    simp only [pad, standardMem, hx]
    rw [if_pos (by omega), show (0x1000000 + 8 * k - 0x1000000) / 8 = k by omega]
  fields := Layout.numFields_standard

end Jit
end AarchGate
