/-
# Indices in range

The addresses of a kernel that come from the pointer to its scratchpad stay within it: the walk
over the emission (`AarchGate.Jit.KernelWalk`) with the origins of the values in the registers
(`originKernelWalk`).  The exception is a root that is a bare field or constant: it has no slot,
and the delivery of the result starts at word -1.
-/

import AarchGate.A64.Provenance
import AarchGate.Jit.KernelWalk

namespace AarchGate
namespace Jit

open A64 Ir

/-- The slot of a leaf is no word of the scratchpad. -/
theorem not_padOffset_neg : ¬PadOffset (byteOffset (-1)) := by
  rintro ⟨s, hs, h⟩
  have hnat := congrArg BitVec.toNat h
  rw [show (byteOffset (-1)).toNat = 2 ^ 64 - 8 by decide, BitVec.toNat_ofNat] at hnat
  simp only [maxSlots] at hs
  omega

/-- **Following where addresses come from**, relative to the scratchpad.  The table and the columns
are values that the pointer to the scratchpad has no part in. -/
def originKernelWalk (g : ℕ → Node) (a : ℕ → Annot) : KernelWalk g a Origins Origin where
  toWalk := originWalk PadOffset
  pad := .ptr
  table := .free
  stack := .free
  column _ := .free
  InTable _ := True
  read_movImm n imm := by simp [originWalk, Instr.flow]
  read_addImm imm h := by
    dsimp only [originWalk] at h
    simp [originWalk, Instr.flow, h, Origin.add]
  read_addLsl hv hw := by
    dsimp only [originWalk] at hv hw
    simp [originWalk, Instr.flow, hv, hw, Origin.add, Origin.map]
  read_base hoff hpad := by
    dsimp only [originWalk] at hoff hpad
    simp [originWalk, Instr.flow, hoff, hpad, Origin.add]
  pad_idx {o r off} hpad hr h rt := by
    dsimp only [originWalk] at hpad hr
    have hwithin : (Mem.origin o (.idx scratchPtr r)).Within PadOffset := by
      simpa [Mem.origin, hpad, hr, Origin.add, Origin.Within] using h
    exact ⟨List.forall_mem_singleton.2 hwithin, List.forall_mem_singleton.2 hwithin⟩
  pad_off {o r c imm} hr h rt := by
    dsimp only [originWalk] at hr
    have hwithin : (Mem.origin o (.off r imm)).Within PadOffset := by
      simpa [Mem.origin, hr, Origin.add, Origin.Within] using h
    exact ⟨List.forall_mem_singleton.2 hwithin, List.forall_mem_singleton.2 hwithin⟩
  table_load _ _ _ h n := by
    dsimp only [originWalk] at h
    refine ⟨List.forall_mem_singleton.2 ?_, by simp [originWalk, Instr.flow, Mem.flow]⟩
    rw [Mem.origin, h]
    trivial
  column_off _ _ _ h rt := by
    dsimp only [originWalk] at h
    refine List.forall_mem_singleton.2 ?_
    rw [Mem.origin, h]
    trivial
  column_idxLsl _ _ _ h hq rt := by
    dsimp only [originWalk] at h hq
    refine List.forall_mem_singleton.2 ?_
    rw [Mem.origin, h, hq]
    trivial

section Frame

variable {g : ℕ → Node} {a : ℕ → Annot}

/-- A pair of registers on the stack. -/
theorem pushPair_triple (ks : List (Gp × Origin)) (hsp : (.sp, .free) ∈ ks)
    (honly : ∀ x, (Gp.sp, x) ∈ ks → x = .free) (r r' : ℕ) :
    (originWalk PadOffset).Triple ((originWalk PadOffset).Known ks) [pushPair r r']
      ((originWalk PadOffset).Known ks) := by
  refine .single fun o ho => ?_
  have htop : o.read .sp = .free := ho.regs _ hsp
  refine ⟨fun x hx => ?_, fun k hk => ?_, trivial⟩
  · simp only [pushPair, Instr.touched, Mem.origin, htop] at hx
    rcases List.mem_pair.1 hx with rfl | rfl <;> trivial
  · by_cases hk' : k.1 = .sp
    · have hfree : k.2 = .free := honly k.2 (by rw [← hk']; exact hk)
      rw [hk', hfree]
      simp [originWalk, pushPair, Instr.flow, Mem.flow, htop, Origin.add, Origin.mix, Origin.fromBase]
    · refine ((originWalk PadOffset).read_step ?_).trans (ho.regs k hk)
      simpa [pushPair, Instr.dest, Mem.dest] using hk'

/-- The prologue keeps the pointers of the caller and brings them to their registers. -/
theorem prologue_triple :
    (originKernelWalk g a).Triple (· = .entry (.x 1)) prologue
      ((originKernelWalk g a).Known (originKernelWalk g a).basePointers) := by
  have hpush := pushPair_triple [(.x 1, .ptr 0), (.x 0, .free), (.sp, .free)] (by simp) (by simp)
  have hfp : (originWalk PadOffset).Triple
      ((originWalk PadOffset).Known [(.x 1, .ptr 0), (.x 0, .free), (.sp, .free)]) [.mov (.x 29) .sp]
      ((originWalk PadOffset).Known [(.x 1, .ptr 0), (.x 0, .free), (.sp, .free)]) :=
    .quiet rfl (by simp [Instr.dest])
  have hpushes := (((((hpush 29 30).append hfp).append (hpush 19 20)).append (hpush 21 22)).append
    (hpush 23 24)).append (hpush 25 26) |>.append (hpush 27 28)
  have hargs : (originWalk PadOffset).Triple
      ((originWalk PadOffset).Known [(.x 1, .ptr 0), (.x 0, .free), (.sp, .free)])
      [.mov fieldPlanesPtr (.x 0), .mov scratchPtr (.x 1)]
      ((originWalk PadOffset).Known (originKernelWalk g a).basePointers) := by
    intro o ho
    have h1 : o.read (.x 1) = .ptr 0 := ho.regs (.x 1, .ptr 0) (by simp)
    have h0 : o.read (.x 0) = .free := ho.regs (.x 0, .free) (by simp)
    have hsp : o.read .sp = .free := ho.regs (.sp, .free) (by simp)
    refine ⟨⟨fun x hx => absurd hx List.not_mem_nil, fun x hx => absurd hx List.not_mem_nil, trivial⟩,
      ?_, trivial⟩
    simp [originWalk, Walk.run, originKernelWalk, Instr.flow, h1, h0, hsp]
  refine (hpushes.append hargs).weaken ?_ fun _ ho => ho
  rintro o rfl
  exact ⟨by simp [originWalk, Origins.read, Origins.entry], trivial⟩

/-- The epilogue touches the stack only. -/
theorem epilogue_triple : (originWalk PadOffset).Triple ((originWalk PadOffset).Known [(.sp, .free)])
    epilogue ((originWalk PadOffset).Known [(.sp, .free)]) := by
  have hpop : ∀ r r', (originWalk PadOffset).Triple ((originWalk PadOffset).Known [(.sp, .free)])
      [popPair r r'] ((originWalk PadOffset).Known [(.sp, .free)]) := by
    intro r r'
    refine .single fun o ho => ?_
    have htop : o.read .sp = .free := ho.regs (.sp, .free) (by simp)
    refine ⟨fun x hx => ?_, ?_, trivial⟩
    · simp only [popPair, Instr.touched, Mem.origin, htop] at hx
      rcases List.mem_pair.1 hx with rfl | rfl <;> trivial
    · simp [originWalk, popPair, Instr.flow, Mem.flow, htop, Origin.add, Origin.mix, Origin.fromBase]
  exact ((((hpop 27 28).append (hpop 25 26)).append (hpop 23 24)).append (hpop 21 22)).append
    (hpop 19 20) |>.append (hpop 29 30)

end Frame

/-! ### The bit-sliced compiler -/

section Sliced

variable {P : NodePool} (hP : Built P) {rt : List Instr → Bool} {a₀ a : ℕ → Annot} {root bits : ℕ}
  (hroot : root < P.nextIdx) (hbits : bits ≤ 64) {code : List Instr}
  (hcomp : compileExpression rt P.storage a₀ root bits = (a, .ok code))
  (heq : ∀ n, (P.storage n).kind.isComparison = false → (a₀ n).eqSlotId = -1)
  (hsorted : ∀ n, Reach P.storage root n → (a₀ n).skipJit = false → Sorted P.storage n)

include hP hroot hbits hcomp heq hsorted

/-- **A kernel with a root that is no leaf stays within the scratchpad.** -/
theorem compile_confined (hleaf : (P.storage root).kind.isLeaf = false) :
    ConfinedTo PadOffset (.x 1) code := by
  obtain ⟨mid, rfl, hstraight, hmid, hresult⟩ := KernelWalk.compile_guards hP hroot hbits hcomp heq
    hsorted (originKernelWalk P.storage a) fun _ _ _ => trivial
  exact confinedTo_of_triple hstraight ((prologue_triple.append
    (hmid.append (hresult hleaf)).forget.forget).append epilogue_triple)

/-- **The kernel of a bare field or constant leaves it**: word -1 is loaded. -/
theorem compile_leaf_not_confined (hleaf : (P.storage root).kind.isLeaf = true)
    (hskip : (a₀ root).skipJit = false) (hslot : (a₀ root).slotId = -1) :
    ¬ConfinedTo PadOffset (.x 1) code := by
  obtain ⟨nodes, _, hprep, -⟩ := compileExpression_ok hcomp
  have hp := prepare_spec hP hroot hprep
  have hself := (hp.mem_iff root).2 (Reach.refl _ _)
  obtain ⟨mid, rfl, hstraight, hmid, -⟩ := KernelWalk.compile_guards hP hroot hbits hcomp heq hsorted
    (originKernelWalk P.storage a) fun _ _ _ => trivial
  have hkind : (a root).resultKind = .BITPLANE := by
    rw [hp.resultKind root hself]
    revert hleaf
    cases (P.storage root).kind <;> simp [NodeKind.isLeaf, NodeKind.resultKind, NodeKind.isMask]
  -- the load of the first word of the result
  obtain ⟨rest, hcode⟩ : ∃ rest, prologue ++ (mid ++ emitResult a root) ++ epilogue ++ [.ret (.x 30)] =
      [] ++ (prologue ++ mid ++ movWide tempPtr (byteOffset (-1))) ++
        (.ldr result (.idx scratchPtr tempPtr) :: rest) := by
    rw [emitResult, hp.skipJit, hskip, if_neg Bool.false_ne_true, if_pos hkind,
      hp.leafSlot root hself hleaf, hslot, List.range_succ_eq_map, List.flatMap_cons]
    exact ⟨_, by simp only [List.append_assoc, List.cons_append, List.nil_append]; rfl⟩
  rw [straight_append, straight_append, straight_append] at hstraight
  have hfront : Straight (prologue ++ mid ++ movWide tempPtr (byteOffset (-1))) :=
    straight_append.2 ⟨straight_append.2 ⟨hstraight.1.1, hstraight.1.2.1⟩,
      by simp [movWide, Instr.branches]⟩
  obtain ⟨-, hknows⟩ := ((prologue_triple.append hmid).append
    (Walk.Triple.movWide (n := 22) (byteOffset (-1)) (by simp))) _ rfl
  refine not_confinedTo (reaches_block [] _ _ hcode hfront
    ⟨fun _ => 0, ⟨false, false, false, false⟩, fun _ => 0⟩ (.entry (.x 1)))
    (i := .ldr result (.idx scratchPtr tempPtr)) ?_ (c := byteOffset (-1)) ?_ not_padOffset_neg
  · rw [hcode]
    simp
  · have hpad : (flows _ (.entry (.x 1))).read scratchPtr = .ptr 0 :=
      hknows.regs (scratchPtr, .ptr 0) (by simp [originKernelWalk])
    have hoff : (flows _ (.entry (.x 1))).read tempPtr = .num (byteOffset (-1)) :=
      hknows.regs _ (List.mem_cons_self ..)
    rw [Instr.touched, Mem.origin, hpad, hoff]
    simp [Origin.add]

end Sliced

end Jit
end AarchGate
