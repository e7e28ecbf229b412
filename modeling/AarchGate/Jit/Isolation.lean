/-
# What a kernel reads and writes

A kernel is handed the table of columns and a scratchpad, and has the stack below the stack
pointer.  `Layout.footprint` is what it may do with them: read the table, the columns, the
scratchpad and the twelve words of its frame, and write the last two.

The walk over the emission (`AarchGate.Jit.KernelWalk`) is done with the machine itself
(`Layout.kernelWalk`); the pointer to a column is known because the table is not written.  Every
load and store of a compiled kernel stays within the footprint (`compile_visits`).  So a call changes
nothing else in memory and gives the callee-saved registers back (`kernel_call_isolated`).
-/

import AarchGate.A64.Footprint
import AarchGate.Jit.Bounds

namespace AarchGate
namespace Jit

open A64 Ir BitPlane

/-- The words of the frame of a kernel. -/
def FrameAddr (L : Layout) (x : Word) : Prop := ∃ j < 12, x = wordAt L.frame j

/-- The words of the table and of the columns. -/
def InputAddr (L : Layout) (x : Word) : Prop :=
  ∃ i < L.numFields, x = wordAt L.table i ∨ ∃ b < 64, x = wordAt (L.plane i) b

/-- **What the body of a kernel may do with the memory**: read the inputs and the scratchpad, and
write the scratchpad.  The pointers of the table stay what they are. -/
def Layout.body (L : Layout) : Footprint where
  reads x := PadAddr L x ∨ InputAddr L x
  writes x := PadAddr L x
  fixed f := ∀ i < L.numFields, f (wordAt L.table i) = L.plane i
  fixed_frame f f' hkeep hf i hi := by
    rw [hkeep, hf i hi]
    rintro ⟨k, hk, he⟩
    exact L.table_scratch i hi k hk he

/-- **What a kernel may do with the memory**: its prologue and epilogue have the frame, too. -/
def Layout.footprint (L : Layout) : Footprint where
  reads x := FrameAddr L x ∨ L.body.reads x
  writes x := FrameAddr L x ∨ L.body.writes x
  fixed := L.body.fixed
  fixed_frame f f' hkeep hf := by
    intro i hi
    rw [hkeep, hf i hi]
    rintro (⟨j, hj, he⟩ | ⟨k, hk, he⟩)
    · exact L.frame_table j hj i hi he.symm
    · exact L.table_scratch i hi k hk he

variable {L : Layout}

/-- A word of the scratchpad, by its offset. -/
theorem PadOffset.padAddr {off : Word} (h : PadOffset off) : PadAddr L (L.scratch + off) := by
  obtain ⟨s, hs, rfl⟩ := h
  exact ⟨s, hs, rfl⟩

/-- The entry of a field in the table. -/
theorem Layout.resolve_table {m : Machine} (h : m.read fieldPlanesPtr = L.table) {i : ℤ} (h0 : 0 ≤ i) :
    ((Mem.off fieldPlanesPtr (byteOffset i)).resolve m).1 = wordAt L.table i.toNat := by
  rw [Mem.resolve, h, byteOffset_toNat h0]
  rfl

variable (L) in
/-- **Following what a kernel reads and writes**, on the machine it runs on. -/
def Layout.kernelWalk (g : ℕ → Node) (a : ℕ → Annot) : KernelWalk g a Machine Word where
  toWalk := L.body.walk
  pad off := L.scratch + off
  table := L.table
  stack := wordAt L.frame 0
  column op := L.plane (a op).fieldIdx.toNat
  InTable op := 0 ≤ (a op).fieldIdx ∧ (a op).fieldIdx.toNat < L.numFields
  read_movImm n imm := by simp [Footprint.walk]
  read_addImm imm h := by
    dsimp only [Footprint.walk] at h
    simp [Footprint.walk, h]
  read_addLsl hv hw := by
    dsimp only [Footprint.walk] at hv hw
    simp [Footprint.walk, hv, hw]
  read_base {m n off} hoff hpad := by
    dsimp only [Footprint.walk] at hoff hpad
    simp [Footprint.walk, hoff, hpad, Alu.eval, BitVec.add_comm off]
  pad_idx {m r off} hpad hr h rt := by
    dsimp only [Footprint.walk] at hpad hr
    have haddr : ((Mem.idx scratchPtr r).resolve m).1 = L.scratch + off := by
      simp [Mem.resolve, hpad, hr]
    exact ⟨within_ldr (by rw [haddr]; exact .inl h.padAddr), within_str (by rw [haddr]; exact h.padAddr)⟩
  pad_off {m r c imm} hr h rt := by
    dsimp only [Footprint.walk] at hr
    have haddr : ((Mem.off r imm).resolve m).1 = L.scratch + (c + imm) := by
      simp [Mem.resolve, hr, BitVec.add_assoc]
    exact ⟨within_ldr (by rw [haddr]; exact .inl h.padAddr), within_str (by rw [haddr]; exact h.padAddr)⟩
  table_load {m op} _ hin hfixed h n := by
    have haddr := L.resolve_table h hin.1
    refine ⟨within_ldr (by rw [haddr]; exact .inr ⟨_, hin.2, .inl rfl⟩), ?_⟩
    dsimp only [Footprint.walk]
    dsimp only [Mem.resolve] at haddr
    rw [exec, Mem.resolve, Machine.read_write_x, if_pos rfl, haddr]
    exact hfixed _ hin.2
  column_off {m op bit r} _ hin hbit h rt := by
    dsimp only [Footprint.walk] at h
    refine within_ldr (.inr ⟨_, hin.2, .inr ⟨bit, hbit, ?_⟩⟩)
    rw [Mem.resolve, h, Nat.mul_comm]
    rfl
  column_idxLsl {m op bit r q} _ hin hbit h hq rt := by
    dsimp only [Footprint.walk] at h hq
    refine within_ldr (.inr ⟨_, hin.2, .inr ⟨bit, hbit, ?_⟩⟩)
    rw [Mem.resolve, h, hq]
    simp only [id, shiftLeft_three]
    rfl

/-! ### The frame of the kernel -/

/-- The next word. -/
theorem wordAt_succ (f : Word) (j : ℕ) : wordAt f j + 8 = wordAt f (j + 1) := by
  rw [wordAt_add]
  rfl

/-- The word two below. -/
theorem wordAt_sub_pair (f : Word) (j : ℕ) : wordAt f (j + 2) + (-16) = wordAt f j := by
  rw [wordAt_add, BitVec.add_assoc]
  simp

/-- A pair of registers to the stack. -/
theorem pushPair_frame {ks : List (Gp × Word)} (hsp : ∀ k ∈ ks, k.1 ≠ .sp) {j : ℕ} (hj : j + 2 ≤ 12)
    (r r' : ℕ) :
    L.footprint.walk.Triple (L.footprint.walk.Known ((.sp, wordAt L.frame (j + 2)) :: ks))
      [pushPair r r'] (L.footprint.walk.Known ((.sp, wordAt L.frame j) :: ks)) := by
  refine .single fun m hm => ?_
  obtain ⟨htop, hm⟩ := Walk.known_cons.1 hm
  change m.read .sp = _ at htop
  have haddr : ((Mem.pre .sp (-16)).resolve m).1 = wordAt L.frame j := by
    rw [Mem.resolve, htop, wordAt_sub_pair]
  have hwithin : (pushPair r r').Within L.footprint m := by
    refine ⟨fun x hx => absurd hx List.not_mem_nil, fun x hx => .inl ?_⟩
    simp only [pushPair, Instr.stores, haddr, wordAt_succ] at hx
    rcases List.mem_pair.1 hx with rfl | rfl
    · exact ⟨j, by omega, rfl⟩
    · exact ⟨j + 1, by omega, rfl⟩
  refine ⟨hwithin, Walk.known_cons.2 ⟨(pushPair_spec htop r r').1, hm.step (fun k hk => ?_) hwithin⟩⟩
  exact mt List.mem_singleton.1 (hsp k hk)

/-- And back. -/
theorem popPair_frame {j : ℕ} (hj : j + 2 ≤ 12) (r r' : ℕ) :
    L.footprint.walk.Triple (L.footprint.walk.Known [(.sp, wordAt L.frame j)]) [popPair r r']
      (L.footprint.walk.Known [(.sp, wordAt L.frame (j + 2))]) := by
  refine .single fun m hm => ?_
  obtain ⟨htop, hm⟩ := Walk.known_cons.1 hm
  change m.read .sp = _ at htop
  have haddr : ((Mem.post .sp 16).resolve m).1 = wordAt L.frame j := htop
  have hwithin : (popPair r r').Within L.footprint m := by
    refine ⟨fun x hx => .inl ?_, fun x hx => absurd hx List.not_mem_nil⟩
    simp only [popPair, Instr.loads, haddr, wordAt_succ] at hx
    rcases List.mem_pair.1 hx with rfl | rfl
    · exact ⟨j, by omega, rfl⟩
    · exact ⟨j + 1, by omega, rfl⟩
  exact ⟨hwithin, Walk.known_cons.2 ⟨(popPair_spec htop r r').1,
    hm.step (fun k hk => absurd hk List.not_mem_nil) hwithin⟩⟩

/-- The arguments of a call, in their registers. -/
abbrev entryPointers (L : Layout) (j : ℕ) : List (Gp × Word) :=
  [(.sp, wordAt L.frame j), (.x 0, L.table), (.x 1, L.scratch)]

/-- The prologue writes the frame. -/
theorem prologue_frame :
    L.footprint.walk.Triple (L.footprint.walk.Known (entryPointers L 12)) prologue
      (L.footprint.walk.Known (entryPointers L 0)) := by
  have hpush : ∀ j r r', j + 2 ≤ 12 → L.footprint.walk.Triple
      (L.footprint.walk.Known (entryPointers L (j + 2))) [pushPair r r']
      (L.footprint.walk.Known (entryPointers L j)) := fun j r r' hj => pushPair_frame (by simp) hj r r'
  have hmov : ∀ j n rn, n ∉ [0, 1] → L.footprint.walk.Triple
      (L.footprint.walk.Known (entryPointers L j)) [.mov (.x n) rn]
      (L.footprint.walk.Known (entryPointers L j)) := fun j n rn hn => by
    simp only [List.mem_cons, List.not_mem_nil, or_false, not_or] at hn
    exact .quiet rfl (by simp [Instr.dest, Ne.symm hn.1, Ne.symm hn.2])
  exact (((((((hpush 10 29 30 (by omega)).append (hmov 10 29 .sp (by decide))).append
    (hpush 8 19 20 (by omega))).append (hpush 6 21 22 (by omega))).append
      (hpush 4 23 24 (by omega))).append (hpush 2 25 26 (by omega))).append
        (hpush 0 27 28 (by omega))).append (hmov 0 19 (.x 0) (by decide)) |>.append
          (hmov 0 20 (.x 1) (by decide))

/-- The epilogue reads it. -/
theorem epilogue_frame :
    L.footprint.walk.Triple (L.footprint.walk.Known [(.sp, wordAt L.frame 0)]) epilogue
      (L.footprint.walk.Known [(.sp, wordAt L.frame 12)]) :=
  ((((popPair_frame (by omega) 27 28).append (popPair_frame (by omega) 25 26)).append
    (popPair_frame (by omega) 23 24)).append (popPair_frame (by omega) 21 22)).append
      (popPair_frame (by omega) 19 20) |>.append (popPair_frame (by omega) 29 30)

/-! ### The whole kernel -/

section Kernel

variable {g : ℕ → Node} {a : ℕ → Annot} {bits : ℕ}

/-- The environment of the body has the pointers in their registers. -/
theorem Env.pointed {F : ℕ → ℕ → Word} {saved : ℕ → Word} {m : Machine} (h : Env L F 12 saved m) :
    (L.kernelWalk g a).Known (L.kernelWalk g a).basePointers m := by
  refine Walk.known_cons.2 ⟨h.x20.trans (BitVec.add_zero _).symm,
    Walk.known_cons.2 ⟨h.x19, Walk.known_cons.2 ⟨h.sp, ?_, h.table⟩⟩⟩
  exact fun k hk => absurd hk List.not_mem_nil

/-- The arguments on entry. -/
theorem Args.known {F : ℕ → ℕ → Word} {m : Machine} (h : Args L F m) :
    L.footprint.walk.Known (entryPointers L 12) m := by
  refine Walk.known_cons.2 ⟨h.sp, Walk.known_cons.2 ⟨h.x0, Walk.known_cons.2 ⟨h.x1, ?_, h.table⟩⟩⟩
  exact fun k hk => absurd hk List.not_mem_nil

variable {P : NodePool} (hP : Built P) {rt : List Instr → Bool} {a₀ : ℕ → Annot} {root : ℕ}
  (hroot : root < P.nextIdx) (hbits : bits ≤ 64) {code : List Instr}
  (hcomp : compileExpression rt P.storage a₀ root bits = (a, .ok code))
  (heq : ∀ n, (P.storage n).kind.isComparison = false → (a₀ n).eqSlotId = -1)
  (hsorted : ∀ n, Reach P.storage root n → (a₀ n).skipJit = false → Sorted P.storage n)
  (hleaf : (P.storage root).kind.isLeaf = false)
  (hfields : ∀ n, Reach P.storage root n → (P.storage n).kind = .LOAD →
    (a n).fieldIdx.toNat < L.numFields)

include hP hroot hbits hcomp heq hsorted hleaf hfields

/-- A kernel is a block within the footprint that gives the saved registers back. -/
theorem compile_visits {F : ℕ → ℕ → Word} {m : Machine} (hm : Args L F m) :
    ∃ blk, code = blk ++ [.ret (.x 30)] ∧ Straight blk ∧ L.footprint.walk.Visits blk m ∧
      (∀ n, 19 ≤ n → n ≤ 30 → (execs blk m).read (.x n) = m.read (.x n)) ∧
      (execs blk m).read .sp = m.read .sp := by
  obtain ⟨nodes, _, hprep, -⟩ := compileExpression_ok hcomp
  have hp := prepare_spec hP hroot hprep
  obtain ⟨mid, rfl, hstraight, hmid, hresult⟩ := KernelWalk.compile_guards hP hroot hbits hcomp heq
    hsorted (L.kernelWalk P.storage a) fun n hn hk =>
      ⟨hp.fieldIdx_nonneg ((hp.mem_iff n).2 hn) hk, hfields n hn hk⟩
  -- the body runs between prologue and epilogue, and writes the scratchpad only
  have hE := (prologue_exec hm).1
  obtain ⟨hvmid, hknown⟩ := (hmid.append (hresult hleaf)) _ hE.pointed
  obtain ⟨h20, hknown⟩ := Walk.known_cons.1 hknown
  obtain ⟨h19, hknown⟩ := Walk.known_cons.1 hknown
  obtain ⟨hsp, -⟩ := Walk.known_cons.1 hknown
  replace h20 := h20.trans (BitVec.add_zero L.scratch)
  have hE' := hE.frame (h19.trans hE.x19.symm) (h20.trans hE.x20.symm) (hsp.trans hE.sp.symm)
    (Walk.Visits.memKeeps hvmid)
  have hpop : Popped L _ 12 (execs (mid ++ emitResult a root) (execs prologue m)) 0 _ :=
    epilogue_exec hE'
  rw [← execs_append, ← execs_append] at hpop
  refine ⟨_, rfl, hstraight, ?_, fun n hlo hhi => ?_, hpop.sp.trans hm.sp.symm⟩
  · refine Walk.visits_append.2 ⟨Walk.visits_append.2 ⟨(prologue_frame m hm.known).1,
      Walk.Visits.mono (fun _ => Or.inr) (fun _ => Or.inr) hvmid⟩, ?_⟩
    have hend : (L.footprint.walk.Visits epilogue
        (execs (mid ++ emitResult a root) (execs prologue m))) :=
      (epilogue_frame _ (Walk.known_cons.2 ⟨hE'.sp, fun k hk => absurd hk List.not_mem_nil,
        hE'.table⟩)).1
    rwa [← execs_append] at hend
  · obtain ⟨j, hj, rfl⟩ : ∃ j < 12, savedReg j = n := by
      have key : ∀ n : Fin 31, 19 ≤ n.val → ∃ j < 12, savedReg j = n.val := by decide
      exact key ⟨n, by omega⟩ hlo
    exact hpop.restored j hj (Nat.zero_le _)

/-- **A call of a kernel is isolated.**  It returns; it has loaded from and stored to the
memory it was given only; memory outside the scratchpad and the twelve words below the stack
pointer is as before; and the callee-saved registers and the stack pointer have their values
back. -/
theorem kernel_call_isolated {F : ℕ → ℕ → Word} {m : Machine} (hm : Args L F m) :
    ∃ m', call code m = some m' ∧ Stays L.footprint code m ∧
      (∀ x, ¬PadAddr L x → ¬FrameAddr L x → m'.mem x = m.mem x) ∧
      (∀ n, 19 ≤ n → n ≤ 30 → m'.read (.x n) = m.read (.x n)) ∧ m'.read .sp = m.read .sp := by
  obtain ⟨blk, rfl, hstraight, hvisits, hsaved, hsp⟩ :=
    compile_visits hP hroot hbits hcomp heq hsorted hleaf hfields hm
  exact ⟨_, call_straight hstraight (hsaved 30 (by omega) (by omega)),
    stays_of_visits hstraight hvisits,
    fun x hpad hframe => hvisits.memKeeps x fun hx => hx.elim hframe hpad, hsaved, hsp⟩

end Kernel

/-- The standard layout lies in the first 32 MB. -/
theorem Layout.standard_reads {x : Word} (h : Layout.standard.footprint.reads x) :
    x.toNat < 0x2000000 := by
  have hslots : maxSlots = 32768 := rfl
  have hfields : Layout.standard.numFields = 128 := rfl
  rcases h with ⟨j, hj, rfl⟩ | ⟨k, hk, rfl⟩ | ⟨i, hi, rfl | ⟨b, hb, rfl⟩⟩
  · exact (wordAt_toNat (x := 0x300000) (by omega)).trans_lt (by omega)
  · exact (wordAt_toNat (x := 0x1000000) (by omega)).trans_lt (by omega)
  · exact (wordAt_toNat (x := 0x100000) (by omega)).trans_lt (by omega)
  · exact (wordAt_toNat (x := 0x200000 + 512 * i) (by omega)).trans_lt (by omega)

/-- `a > 5` on 64 rows with `a = 10`, and a word of memory that the kernel was not given. -/
theorem kernel_call_isolated_gt :
    ∃ a code m', compileExpression (fun _ => true) gtPool.storage gtPool.annot 2 64 =
        (a, .ok code) ∧
      call code (Abi.standard.enter (fun i => some (constColumns 10 i)) fun _ => 7) = some m' ∧
      m'.mem 0x2000000 = 7 ∧ m'.read .sp = BitVec.ofNat 64 0x300060 := by
  have hok : (compileExpression (fun _ => true) gtPool.storage gtPool.annot 2 64).2.isOk = true := by
    decide
  cases hcomp : compileExpression (fun _ => true) gtPool.storage gtPool.annot 2 64 with
  | mk a res =>
    cases res with
    | error f => simp [hcomp, Except.isOk, Except.toBool] at hok
    | ok code =>
      obtain ⟨m', hcall, -, hmem, -, hsp⟩ := kernel_call_isolated gtPool_built (by decide)
        (Nat.le_refl _) hcomp gtPool_built.eqSlotId
        (fun n hn _ => sorted_of_reach gtPool_represents hn) rfl
        (fun n hn hk => compile_fieldIdx_lt gtPool_built (by decide) hcomp hn hk)
        (Abi.standard.args_some (constColumns 10) fun _ => 7)
      have hout : ¬Layout.standard.footprint.reads 0x2000000 := fun h =>
        absurd (Layout.standard_reads h) (by decide)
      exact ⟨a, code, m', rfl, hcall,
        hmem _ (fun h => hout (.inr (.inl h))) fun h => hout (.inl h), hsp⟩

end Jit
end AarchGate
