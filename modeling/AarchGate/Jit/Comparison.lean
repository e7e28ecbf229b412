/-
# The comparison kernel

`JitCompiler::compile_comparison` in `src/jit/compiler.cpp`: the kernel of the logic on a
single field.  Its argument is a column of 64 bit-planes, and it returns the mask of the
rows whose value is above the threshold (`comparison_call`).

The comparator is unrolled over the bits of the threshold.  A plane of the threshold is
all ones or zero, so one of the two terms of a step drops out, and what is left is a step
of `compareUpTo`.
-/

import AarchGate.Jit.Abi

namespace AarchGate
namespace Jit

open A64 BitPlane

namespace Comparison

/-- `gt_mask`. -/
def gtMask : Gp := .x 9

/-- `eq_mask`. -/
def eqMask : Gp := .x 10

/-- `pointer_walker`. -/
def pointerWalker : Gp := .x 11

/-- `a_bitplane`. -/
def aBitplane : Gp := .x 12

/-- `tmp`. -/
def tmp : Gp := .x 13

/-- The code for one bit of the threshold. -/
def bitCode (threshold : Word) (bit : ℕ) : List Instr :=
  .ldr aBitplane (.post pointerWalker (-8)) ::
    if threshold.getLsbD bit then [.alu .and eqMask eqMask aBitplane]
    else [.alu .and tmp eqMask aBitplane, .alu .orr gtMask gtMask tmp,
      .alu .bic eqMask eqMask aBitplane]

/-- The kernel up to its return. -/
def block (threshold : Word) : List Instr :=
  [.alu .orr gtMask .xzr .xzr, .movImm eqMask (-1), .addImm pointerWalker (.x 0) 504] ++
    (List.range 64).flatMap (fun i => bitCode threshold (64 - 1 - i)) ++ [.mov (.x 0) gtMask]

end Comparison

open Comparison

/-- `JitCompiler::compile_comparison`; `rt` is `JitRuntime::add`. -/
def compileComparison (rt : List Instr → Bool) (threshold : Word) : Option (List Instr) :=
  let code := block threshold ++ [.ret (.x 30)]
  if rt code then some code else none

namespace Comparison

/-- The registers the kernel writes before its result. -/
def regs : List Gp := [gtMask, eqMask, pointerWalker, aBitplane, tmp]

/-- The planes of the threshold. -/
def thresholdPlanes (threshold : Word) (bit : ℕ) : Word :=
  if threshold.getLsbD bit then BitVec.allOnes 64 else 0

/-- **One bit** is a step of the comparator, and moves the pointer down one word. -/
theorem bitCode_exec (threshold : Word) (bit : ℕ) (m : Machine) :
    let m' := execs (bitCode threshold bit) m
    let plane := m.mem (m.read pointerWalker)
    m'.read gtMask = m.read gtMask |||
        ((plane &&& ~~~thresholdPlanes threshold bit) &&& m.read eqMask) ∧
      m'.read eqMask = m.read eqMask &&& ~~~(plane ^^^ thresholdPlanes threshold bit) ∧
      m'.read pointerWalker = m.read pointerWalker + -8 ∧ m'.mem = m.mem ∧ Keeps regs m m' := by
  simp only [bitCode, thresholdPlanes]
  cases threshold.getLsbD bit with
  | true =>
    simp only [if_true]
    refine ⟨?_, ?_, ?_, ?_, fun r hr => ?_⟩
    · simp [exec, Mem.resolve, gtMask, eqMask, pointerWalker, aBitplane]
    · simp [exec, Mem.resolve, Alu.eval, eqMask, pointerWalker, aBitplane, -BitVec.reduceAllOnes]
    · simp [exec, Mem.resolve, eqMask, pointerWalker, aBitplane]
    · simp [exec, Mem.resolve]
    · simp only [regs, List.mem_cons, List.not_mem_nil, or_false, not_or] at hr
      simp_all [exec, Mem.resolve, eqMask, pointerWalker, aBitplane]
  | false =>
    simp only [Bool.false_eq_true, if_false]
    refine ⟨?_, ?_, ?_, ?_, fun r hr => ?_⟩
    · rw [show ~~~(0 : Word) = BitVec.allOnes 64 from rfl, BitVec.and_allOnes, BitVec.and_comm]
      simp [exec, Mem.resolve, Alu.eval, gtMask, eqMask, pointerWalker, aBitplane, tmp]
    · simp [exec, Mem.resolve, Alu.eval, gtMask, eqMask, pointerWalker, aBitplane, tmp]
    · simp [exec, Mem.resolve, gtMask, eqMask, pointerWalker, aBitplane, tmp]
    · simp [exec, Mem.resolve]
    · simp only [regs, List.mem_cons, List.not_mem_nil, or_false, not_or] at hr
      simp_all [exec, Mem.resolve, gtMask, eqMask, pointerWalker, aBitplane, tmp]

/-- **The unrolled loop.**  After `k` bits the masks are those of the `k` leading planes. -/
theorem loop_exec (threshold base : Word) {A : ℕ → Word} {m : Machine}
    (hwalk : m.read pointerWalker = wordAt base 63)
    (hA : ∀ b < 64, m.mem (wordAt base b) = A b) :
    ∀ k ≤ 64,
      let m' := execs ((List.range k).flatMap fun i => bitCode threshold (64 - 1 - i)) m
      (m'.read gtMask, m'.read eqMask) = compareUpTo A (thresholdPlanes threshold) 64
          (m.read gtMask) (m.read eqMask) k ∧
        m'.read pointerWalker + BitVec.ofNat 64 (8 * k) = wordAt base 63 ∧
        m'.mem = m.mem ∧ Keeps regs m m' := by
  intro k hk
  induction k with
  | zero => exact ⟨rfl, by simpa using hwalk, rfl, .refl _ _⟩
  | succ k ih =>
    obtain ⟨hmask, hptr, hmem, hregs⟩ := ih (by omega)
    rw [List.range_succ, List.flatMap_append, execs_append, List.flatMap_singleton]
    generalize execs ((List.range k).flatMap _) m = m₁ at hmask hptr hmem hregs
    obtain ⟨hgt, heq, hptr₂, hmem₂, hregs₂⟩ := bitCode_exec threshold (64 - 1 - k) m₁
    -- the pointer is at the plane of this bit
    have hat : m₁.read pointerWalker = wordAt base (64 - 1 - k) := by
      have h : wordAt base (64 - 1 - k) + BitVec.ofNat 64 (8 * k) = wordAt base 63 := by
        rw [wordAt, wordAt, BitVec.add_assoc, ← BitVec.ofNat_add,
          show 8 * (64 - 1 - k) + 8 * k = 8 * 63 by omega]
      exact (BitVec.add_left_inj _).1 (hptr.trans h.symm)
    rw [hat, hmem, hA _ (by omega)] at hgt heq
    refine ⟨?_, ?_, hmem₂.trans hmem, fun r hr => (hregs₂ r hr).trans (hregs r hr)⟩
    · rw [compareUpTo, ← hmask, hgt, heq]
    · rw [hptr₂, ← hptr, Nat.mul_succ, BitVec.ofNat_add]
      bv_omega

end Comparison

/-- **The comparison kernel** returns the mask of the rows above the threshold, for a column
at any address. -/
theorem comparison_call {rt : List Instr → Bool} {threshold : Word} {code : List Instr}
    (hcode : compileComparison rt threshold = some code) {A : ℕ → Word} {v : ℕ → Word}
    (hv : Planes A v) {m : Machine} (hA : ∀ b < 64, m.mem (wordAt (m.read (.x 0)) b) = A b) :
    ∃ m', call code m = some m' ∧ Mask (m'.read (.x 0)) fun r => decide (threshold < v r) := by
  have hcode' : block threshold ++ [.ret (.x 30)] = code := by
    rw [compileComparison] at hcode
    split_ifs at hcode
    exact Option.some.inj hcode
  have hstraight : Straight (block threshold) := by
    refine straight_append.2 ⟨straight_append.2 ⟨by simp [Instr.branches], ?_⟩,
      by simp [Instr.branches]⟩
    intro i hi
    obtain ⟨k, -, hk⟩ := List.mem_flatMap.1 hi
    rw [bitCode] at hk
    split_ifs at hk <;> simp only [List.mem_cons, List.not_mem_nil, or_false] at hk <;>
      rcases hk with rfl | hk <;> first | rfl | (rcases hk with rfl | rfl | rfl <;> rfl)
  -- the masks are cleared and the pointer is at the last plane
  set m₀ := execs [.alu .orr gtMask .xzr .xzr, .movImm eqMask (-1),
    .addImm pointerWalker (.x 0) 504] m with hm₀
  have hgt : m₀.read gtMask = 0 := by simp [hm₀, exec, Alu.eval, gtMask, eqMask, pointerWalker]
  have heq : m₀.read eqMask = BitVec.allOnes 64 := by
    simp [hm₀, exec, gtMask, eqMask, pointerWalker]
  have hwalk : m₀.read pointerWalker = wordAt (m.read (.x 0)) 63 := by
    simp [hm₀, exec, gtMask, eqMask, pointerWalker, wordAt]
  have hmem : m₀.mem = m.mem := by simp [hm₀, exec]
  have hlr : m₀.read (.x 30) = m.read (.x 30) := by
    simp [hm₀, exec, gtMask, eqMask, pointerWalker]
  obtain ⟨hmask, -, -, hkeeps⟩ := loop_exec threshold (m.read (.x 0)) hwalk
    (fun b hb => (congrFun hmem _).trans (hA b hb)) 64 (Nat.le_refl _)
  have hlr' := (hkeeps (.x 30) (by decide)).trans hlr
  have hexec : execs (block threshold) m = exec (.mov (.x 0) gtMask)
      (execs ((List.range 64).flatMap fun i => bitCode threshold (64 - 1 - i)) m₀) := by
    rw [block, execs_append, execs_append, execs_cons, execs_nil]
  rw [hgt, heq] at hmask
  refine ⟨execs (block threshold) m, ?_, ?_⟩
  · rw [← hcode']
    refine call_straight hstraight ?_
    rw [hexec, exec, Machine.read_write_x, if_neg (by decide), hlr']
  · rw [hexec, exec, Machine.read_write_x, if_pos rfl,
      show Machine.read _ gtMask = _ from congrArg Prod.fst hmask]
    exact compareUpTo_gt hv (planes_const threshold)

end Jit
end AarchGate
