/-
# The AArch64 instructions a JIT kernel is made of

A machine has the general registers `x0 … x30`, the stack pointer, the
condition flags and a memory of 64-bit words.  Every load and store here moves
one aligned doubleword, so the memory maps the byte address of a doubleword to
its contents, and two accesses at different addresses do not meet.

The instructions are those `asmjit::a64::Assembler` is asked for by the
kernels: move wide, the logical and arithmetic operations on registers, the
variable shifts, compare and conditional select, the single and pair loads and
stores, and branches to labels.  `exec` is the effect of one instruction that
does not branch and `execs` that of a straight-line block.
-/

import Mathlib.Data.List.Basic
import Mathlib.Tactic.SplitIfs

namespace AarchGate
namespace A64

/-- A 64-bit machine word. -/
abbrev Word := BitVec 64

/-- The register operands: `x0 … x30`, the zero register and `sp`. -/
inductive Gp where
  | x (n : ℕ)
  | xzr
  | sp
  deriving DecidableEq, Repr

/-- The condition flags. -/
structure Flags where
  n : Bool
  z : Bool
  c : Bool
  v : Bool
  deriving DecidableEq, Repr

/-- The condition codes a kernel tests. -/
inductive Cond where
  | hi | lo | hs | ls | eq | ne
  deriving DecidableEq, Repr

/-- Whether a condition holds under the flags. -/
def Cond.holds : Cond → Flags → Bool
  | .hi, f => f.c && !f.z
  | .lo, f => !f.c
  | .hs, f => f.c
  | .ls, f => !f.c || f.z
  | .eq, f => f.z
  | .ne, f => !f.z

/-- The operations on two registers. -/
inductive Alu where
  | and | orr | eor | bic | add | sub | lsl | lsr
  deriving DecidableEq, Repr

/-- The result of a register operation; the variable shifts take the low six
bits of the second operand. -/
def Alu.eval : Alu → Word → Word → Word
  | .and, a, b => a &&& b
  | .orr, a, b => a ||| b
  | .eor, a, b => a ^^^ b
  | .bic, a, b => a &&& ~~~b
  | .add, a, b => a + b
  | .sub, a, b => a - b
  | .lsl, a, b => a <<< (b.toNat % 64)
  | .lsr, a, b => a >>> (b.toNat % 64)

/-- The addressing modes: base and immediate offset, base and index register,
base and index shifted left, and the pre- and post-indexed forms. -/
inductive Mem where
  | off (base : Gp) (imm : Word)
  | idx (base index : Gp)
  | idxLsl (base index : Gp) (amount : ℕ)
  | pre (base : Gp) (imm : Word)
  | post (base : Gp) (imm : Word)
  deriving DecidableEq, Repr

/-- The instructions. -/
inductive Instr where
  | movz (rd : Gp) (imm : BitVec 16) (shift : ℕ)
  | movk (rd : Gp) (imm : BitVec 16) (shift : ℕ)
  | mov (rd rn : Gp)
  | movImm (rd : Gp) (imm : Word)
  | mvn (rd rm : Gp)
  | neg (rd rm : Gp)
  | alu (op : Alu) (rd rn rm : Gp)
  | andImm (rd rn : Gp) (imm : Word)
  | addImm (rd rn : Gp) (imm : Word)
  | addLsl (rd rn rm : Gp) (amount : ℕ)
  | ldr (rt : Gp) (m : Mem)
  | str (rt : Gp) (m : Mem)
  | ldp (rt rt2 : Gp) (m : Mem)
  | stp (rt rt2 : Gp) (m : Mem)
  | cmp (rn rm : Gp)
  | cmpImm (rn : Gp) (imm : Word)
  | cset (rd : Gp) (c : Cond)
  | csel (rd rn rm : Gp) (c : Cond)
  | bind (label : ℕ)
  | b (label : ℕ)
  | bcond (c : Cond) (label : ℕ)
  | ret (rn : Gp)
  deriving DecidableEq, Repr

/-- The state of the machine. -/
structure Machine where
  gpr : Gp → Word
  flags : Flags
  mem : Word → Word

namespace Machine

/-- The value an instruction reads from a register. -/
def read (m : Machine) (r : Gp) : Word := if r = .xzr then 0 else m.gpr r

/-- The machine after a register is written; a write to `xzr` is discarded. -/
def write (m : Machine) (r : Gp) (v : Word) : Machine :=
  if r = .xzr then m else { m with gpr := fun r' => if r' = r then v else m.gpr r' }

/-- The machine after a doubleword is stored. -/
def store (m : Machine) (a v : Word) : Machine :=
  { m with mem := fun a' => if a' = a then v else m.mem a' }

/-- The machine with other flags. -/
def setFlags (m : Machine) (f : Flags) : Machine := { m with flags := f }

@[simp] theorem read_xzr (m : Machine) : m.read .xzr = 0 := rfl

/-- What is read after a write. -/
theorem read_write (m : Machine) {r : Gp} (hr : r ≠ .xzr) (v : Word) (r' : Gp) :
    (m.write r v).read r' = if r' = r then v else m.read r' := by
  unfold read write
  by_cases h : r' = r
  · subst h; simp [hr]
  · simp [hr, h]

/-- After a write to a numbered register. -/
@[simp] theorem read_write_x (m : Machine) (n : ℕ) (v : Word) (r : Gp) :
    (m.write (.x n) v).read r = if r = .x n then v else m.read r :=
  m.read_write (by simp) v r

/-- After a write to `sp`. -/
@[simp] theorem read_write_sp (m : Machine) (v : Word) (r : Gp) :
    (m.write .sp v).read r = if r = .sp then v else m.read r :=
  m.read_write (by simp) v r

/-- A register is no memory. -/
@[simp] theorem mem_write (m : Machine) (r : Gp) (v : Word) : (m.write r v).mem = m.mem := by
  unfold write; split_ifs <;> rfl

@[simp] theorem read_store (m : Machine) (a v : Word) (r : Gp) :
    (m.store a v).read r = m.read r := rfl

/-- What is in memory after a store. -/
@[simp] theorem mem_store (m : Machine) (a v a' : Word) :
    (m.store a v).mem a' = if a' = a then v else m.mem a' := rfl

@[simp] theorem read_setFlags (m : Machine) (f : Flags) (r : Gp) :
    (m.setFlags f).read r = m.read r := rfl

@[simp] theorem mem_setFlags (m : Machine) (f : Flags) : (m.setFlags f).mem = m.mem := rfl

@[simp] theorem flags_setFlags (m : Machine) (f : Flags) : (m.setFlags f).flags = f := rfl

/-- The last of two writes to one register stays. -/
@[simp] theorem write_write (m : Machine) (r : Gp) (v w : Word) :
    (m.write r v).write r w = m.write r w := by
  unfold write
  split_ifs with h
  · rfl
  · simp only [Machine.mk.injEq, and_true]
    funext r'
    split_ifs <;> rfl

end Machine

/-- The address an addressing mode names, and the machine after its
write-back. -/
def Mem.resolve (a : Mem) (m : Machine) : Word × Machine :=
  match a with
  | .off base imm => (m.read base + imm, m)
  | .idx base index => (m.read base + m.read index, m)
  | .idxLsl base index amount => (m.read base + m.read index <<< amount, m)
  | .pre base imm => (m.read base + imm, m.write base (m.read base + imm))
  | .post base imm => (m.read base, m.write base (m.read base + imm))

section Resolve

variable (m : Machine) (base index : Gp)

/-- An offset. -/
@[simp] theorem Mem.resolve_off (imm : Word) :
    (Mem.off base imm).resolve m = (m.read base + imm, m) := rfl

/-- An index. -/
@[simp] theorem Mem.resolve_idx :
    (Mem.idx base index).resolve m = (m.read base + m.read index, m) := rfl

/-- An index that is shifted. -/
@[simp] theorem Mem.resolve_idxLsl (k : ℕ) :
    (Mem.idxLsl base index k).resolve m = (m.read base + m.read index <<< k, m) := rfl

end Resolve

/-- The flags `cmp a, b` sets: those of the subtraction `a - b`. -/
def cmpFlags (a b : Word) : Flags where
  n := (a - b).msb
  z := a == b
  c := b.toNat ≤ a.toNat
  v := a.msb != b.msb && (a - b).msb != a.msb

/-- The effect of an instruction that does not branch. -/
@[simp] def exec : Instr → Machine → Machine
  | .movz rd imm shift, m => m.write rd (imm.setWidth 64 <<< shift)
  | .movk rd imm shift, m =>
      m.write rd ((m.read rd &&& ~~~((0xFFFF : Word) <<< shift)) ||| (imm.setWidth 64 <<< shift))
  | .mov rd rn, m => m.write rd (m.read rn)
  | .movImm rd imm, m => m.write rd imm
  | .mvn rd rm, m => m.write rd (~~~(m.read rm))
  | .neg rd rm, m => m.write rd (-(m.read rm))
  | .alu op rd rn rm, m => m.write rd (op.eval (m.read rn) (m.read rm))
  | .andImm rd rn imm, m => m.write rd (m.read rn &&& imm)
  | .addImm rd rn imm, m => m.write rd (m.read rn + imm)
  | .addLsl rd rn rm amount, m => m.write rd (m.read rn + m.read rm <<< amount)
  | .ldr rt a, m => let (addr, m') := a.resolve m; m'.write rt (m.mem addr)
  | .str rt a, m => let (addr, m') := a.resolve m; m'.store addr (m.read rt)
  | .ldp rt rt2 a, m =>
      let (addr, m') := a.resolve m
      (m'.write rt (m.mem addr)).write rt2 (m.mem (addr + 8))
  | .stp rt rt2 a, m =>
      let (addr, m') := a.resolve m
      (m'.store addr (m.read rt)).store (addr + 8) (m.read rt2)
  | .cmp rn rm, m => m.setFlags (cmpFlags (m.read rn) (m.read rm))
  | .cmpImm rn imm, m => m.setFlags (cmpFlags (m.read rn) imm)
  | .cset rd c, m => m.write rd (if c.holds m.flags then 1 else 0)
  | .csel rd rn rm c, m => m.write rd (if c.holds m.flags then m.read rn else m.read rm)
  | .bind _, m => m
  | .b _, m => m
  | .bcond _ _, m => m
  | .ret _, m => m

/-- The effect of a straight-line block. -/
def execs (is : List Instr) (m : Machine) : Machine := is.foldl (fun m i => exec i m) m

@[simp] theorem execs_nil (m : Machine) : execs [] m = m := rfl

@[simp] theorem execs_cons (i : Instr) (is : List Instr) (m : Machine) :
    execs (i :: is) m = execs is (exec i m) := rfl

/-- One block after the other. -/
@[simp] theorem execs_append (is js : List Instr) (m : Machine) :
    execs (is ++ js) m = execs js (execs is m) := by
  simp [execs]

/-- `m'` differs from `m` in no register outside `rs`. -/
def Keeps (rs : List Gp) (m m' : Machine) : Prop := ∀ r, r ∉ rs → m'.read r = m.read r

/-- Nothing has changed. -/
theorem Keeps.refl (rs : List Gp) (m : Machine) : Keeps rs m m := fun _ _ => rfl

/-- Two steps change the registers of both. -/
theorem Keeps.trans {rs ss : List Gp} {m m' m'' : Machine} (h : Keeps rs m m')
    (h' : Keeps ss m' m'') : Keeps (rs ++ ss) m m'' := fun r hr => by
  rw [List.mem_append, not_or] at hr
  rw [h' r hr.2, h r hr.1]

/-- More registers may change. -/
theorem Keeps.mono {rs ss : List Gp} {m m' : Machine} (h : Keeps rs m m') (hs : rs ⊆ ss) :
    Keeps ss m m' := fun r hr => h r fun h' => hr (hs h')

/-- The second step changes none but those of the first. -/
theorem Keeps.trans_subset {rs ss : List Gp} {m m' m'' : Machine} (h : Keeps rs m m')
    (h' : Keeps ss m' m'') (hs : ss ⊆ rs) : Keeps rs m m'' := fun r hr => by
  rw [h' r fun hm => hr (hs hm), h r hr]

/-- `m'` differs from `m` in no memory word outside the addresses `A`. -/
def MemKeeps (A : Word → Prop) (m m' : Machine) : Prop := ∀ a, ¬A a → m'.mem a = m.mem a

/-- Nothing has been stored. -/
theorem MemKeeps.refl (A : Word → Prop) (m : Machine) : MemKeeps A m m := fun _ _ => rfl

/-- Two steps within the same addresses. -/
theorem MemKeeps.trans {A : Word → Prop} {m m' m'' : Machine} (h : MemKeeps A m m')
    (h' : MemKeeps A m' m'') : MemKeeps A m m'' := fun a ha => (h' a ha).trans (h a ha)

/-- More addresses may change. -/
theorem MemKeeps.mono {A B : Word → Prop} {m m' : Machine} (h : MemKeeps A m m')
    (hAB : ∀ a, A a → B a) : MemKeeps B m m' := fun a ha => h a fun h' => ha (hAB a h')

/-- A full 64-bit immediate by one `movz` and three `movk`. -/
def movWide (rd : Gp) (imm : Word) : List Instr :=
  [.movz rd (imm.setWidth 16) 0, .movk rd ((imm >>> 16).setWidth 16) 16,
    .movk rd ((imm >>> 32).setWidth 16) 32, .movk rd ((imm >>> 48).setWidth 16) 48]

/-- The bits of the field of a `movk`. -/
theorem getLsbD_field (j : ℕ) : (0xFFFF : Word).getLsbD j = decide (j < 16) := by
  by_cases h : j < 64
  · have : ∀ k : Fin 64, (0xFFFF : Word).getLsbD k = decide (k.val < 16) := by decide
    exact this ⟨j, h⟩
  · rw [BitVec.getLsbD_of_ge _ _ (by omega)]
    exact (decide_eq_false (by omega)).symm

/-- **The four move-wide instructions load the immediate.**  Each `movk`
replaces one 16-bit field and keeps the others. -/
theorem execs_movWide (m : Machine) (n : ℕ) (imm : Word) :
    execs (movWide (.x n) imm) m = m.write (.x n) imm := by
  simp only [movWide, execs_cons, execs_nil, exec, Machine.write_write, Machine.read_write_x,
    if_true]
  congr 1
  apply BitVec.eq_of_getLsbD_eq
  intro i hi
  simp only [BitVec.getLsbD_or, BitVec.getLsbD_and, BitVec.getLsbD_not, BitVec.getLsbD_shiftLeft,
    BitVec.getLsbD_setWidth, BitVec.getLsbD_ushiftRight, getLsbD_field]
  rcases (by omega : i < 16 ∨ (16 ≤ i ∧ i < 32) ∨ (32 ≤ i ∧ i < 48) ∨ 48 ≤ i) with h | h | h | h
  · simp [hi, h, show i < 32 by omega, show i < 48 by omega]
  · simp [hi, h, show i < 48 by omega, show ¬i < 16 by omega, show i - 16 < 16 by omega,
      show i - 16 < 64 by omega,
      show 16 + (i - 16) = i by omega]
  · simp [hi, h, show ¬i < 16 by omega, show ¬i < 32 by omega, show i - 32 < 16 by omega,
      show i - 32 < 64 by omega,
      show ¬i - 16 < 16 by omega, show 32 + (i - 32) = i by omega]
  · simp [hi, show ¬i < 16 by omega, show ¬i < 32 by omega, show ¬i < 48 by omega,
      show i - 48 < 16 by omega, show i - 48 < 64 by omega, show ¬i - 16 < 16 by omega,
      show ¬i - 32 < 16 by omega, show 48 + (i - 48) = i by omega]

end A64
end AarchGate
