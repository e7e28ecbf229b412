/-
# Where a kernel finds its data

A kernel is called as `kernel(field_planes, scratch)`: `x0` points to a table of
pointers, one for each field, `x1` to the 32768 words of the scratchpad.  A
`Layout` is a choice of these addresses, and of the stack, under which the
regions do not overlap; the callers keep the table and the columns in the
engine and allocate the scratchpad, so these are disjoint objects.

`Args` is the machine a kernel is entered with and `Env` the machine its body
runs on: the pointers in `x19` and `x20`, the field data and the saved registers
untouched.  Code that writes to the scratchpad only keeps `Env` (`Env.frame`).
-/

import AarchGate.Jit.Compile
import Mathlib.Tactic.IntervalCases

namespace AarchGate
namespace Jit

open A64 Ir

/-- The address of word `i` of an array. -/
def wordAt (base : Word) (i : ℕ) : Word := base + BitVec.ofNat 64 (8 * i)

/-- The placement of the arguments of a kernel, for `numFields` fields. -/
structure Layout where
  scratch : Word
  table : Word
  plane : ℕ → Word
  frame : Word
  numFields : ℕ
  table_scratch : ∀ i < numFields, ∀ k < maxSlots, wordAt table i ≠ wordAt scratch k
  plane_scratch : ∀ i < numFields, ∀ b < 64, ∀ k < maxSlots,
    wordAt (plane i) b ≠ wordAt scratch k
  frame_scratch : ∀ j < 12, ∀ k < maxSlots, wordAt frame j ≠ wordAt scratch k
  frame_table : ∀ j < 12, ∀ i < numFields, wordAt frame j ≠ wordAt table i
  frame_plane : ∀ j < 12, ∀ i < numFields, ∀ b < 64, wordAt frame j ≠ wordAt (plane i) b
  table_plane : ∀ i < numFields, ∀ j < numFields, ∀ b < 64, wordAt table i ≠ wordAt (plane j) b
  plane_plane : ∀ i < numFields, ∀ j < numFields, i ≠ j → ∀ b < 64, ∀ b' < 64,
    wordAt (plane i) b ≠ wordAt (plane j) b'

/-- The machine a kernel is called on; `F i b` is word `b` of the array of field
`i`. -/
structure Args (L : Layout) (F : ℕ → ℕ → Word) (m : Machine) : Prop where
  x0 : m.read (.x 0) = L.table
  x1 : m.read (.x 1) = L.scratch
  sp : m.read .sp = L.frame + 96
  table : ∀ i < L.numFields, m.mem (wordAt L.table i) = L.plane i
  planes : ∀ i < L.numFields, ∀ b < 64, m.mem (wordAt (L.plane i) b) = F i b

/-- Word `k` of the scratchpad. -/
def pad (L : Layout) (m : Machine) (k : ℕ) : Word := m.mem (wordAt L.scratch k)

/-- The addresses of the scratchpad. -/
def PadAddr (L : Layout) (a : Word) : Prop := ∃ k < maxSlots, a = wordAt L.scratch k

/-- The machine the body of a kernel runs on, with `depth` words of stack in
use and the registers saved there. -/
structure Env (L : Layout) (F : ℕ → ℕ → Word) (depth : ℕ) (saved : ℕ → Word) (m : Machine) :
    Prop where
  x19 : m.read fieldPlanesPtr = L.table
  x20 : m.read scratchPtr = L.scratch
  sp : m.read .sp = wordAt L.frame (12 - depth)
  table : ∀ i < L.numFields, m.mem (wordAt L.table i) = L.plane i
  planes : ∀ i < L.numFields, ∀ b < 64, m.mem (wordAt (L.plane i) b) = F i b
  stack : ∀ j < 12, 12 - depth ≤ j → m.mem (wordAt L.frame j) = saved j

/-- **Code that writes to the scratchpad only keeps the environment.** -/
theorem Env.frame {L : Layout} {F : ℕ → ℕ → Word} {depth : ℕ} {saved : ℕ → Word} {m m' : Machine}
    (h : Env L F depth saved m) (h19 : m'.read fieldPlanesPtr = m.read fieldPlanesPtr)
    (h20 : m'.read scratchPtr = m.read scratchPtr) (hsp : m'.read .sp = m.read .sp)
    (hmem : MemKeeps (PadAddr L) m m') : Env L F depth saved m' where
  x19 := h19.trans h.x19
  x20 := h20.trans h.x20
  sp := hsp.trans h.sp
  table i hi := by
    rw [hmem _ (by rintro ⟨k, hk, he⟩; exact L.table_scratch i hi k hk he), h.table i hi]
  planes i hi b hb := by
    rw [hmem _ (by rintro ⟨k, hk, he⟩; exact L.plane_scratch i hi b hb k hk he), h.planes i hi b hb]
  stack j hj hd := by
    rw [hmem _ (by rintro ⟨k, hk, he⟩; exact L.frame_scratch j hj k hk he), h.stack j hj hd]

/-- Writes to other registers keep the environment. -/
theorem Env.of_mem_eq {L : Layout} {F : ℕ → ℕ → Word} {depth : ℕ} {saved : ℕ → Word}
    {m m' : Machine} (h : Env L F depth saved m) {rs : List Gp} (hk : Keeps rs m m')
    (hrs : fieldPlanesPtr ∉ rs ∧ scratchPtr ∉ rs ∧ Gp.sp ∉ rs) (hmem : m'.mem = m.mem) :
    Env L F depth saved m' :=
  h.frame (hk _ hrs.1) (hk _ hrs.2.1) (hk _ hrs.2.2) fun a _ => by rw [hmem]

/-- Other registers may be written. -/
theorem Env.write {L : Layout} {F : ℕ → ℕ → Word} {depth : ℕ} {saved : ℕ → Word} {m : Machine}
    (h : Env L F depth saved m) {n : ℕ} (h19 : n ≠ 19) (h20 : n ≠ 20) (v : Word) :
    Env L F depth saved (m.write (.x n) v) :=
  h.frame (by simp [Ne.symm h19]) (by simp [Ne.symm h20]) (by simp) fun a _ => by simp

/-! ### Scratchpad addresses -/

/-- The byte offset of a slot that is a natural number. -/
theorem byteOffset_natCast (s : ℕ) : byteOffset (s : ℤ) = BitVec.ofNat 64 (8 * s) := by
  have h : BitVec.ofInt 64 (s : ℤ) = BitVec.ofNat 64 s := BitVec.ofInt_natCast ..
  rw [byteOffset, h, Nat.mul_comm, BitVec.ofNat_mul]
  rfl

/-- A word further on. -/
theorem wordAt_add (base : Word) (i j : ℕ) :
    wordAt base (i + j) = wordAt base i + BitVec.ofNat 64 (j * 8) := by
  rw [wordAt, wordAt, Nat.mul_add, BitVec.ofNat_add, BitVec.add_assoc, Nat.mul_comm 8 j]

/-- Distinct words have distinct addresses: the offsets do not wrap around. -/
theorem wordAt_inj {base : Word} {i j : ℕ} (hi : i < 2 ^ 61) (hj : j < 2 ^ 61) :
    wordAt base i = wordAt base j ↔ i = j := by
  constructor
  · intro h
    have h' : BitVec.ofNat 64 (8 * i) = BitVec.ofNat 64 (8 * j) := by
      unfold wordAt at h
      exact (BitVec.add_right_inj base).1 h
    have h'' := congrArg BitVec.toNat h'
    rw [BitVec.toNat_ofNat, BitVec.toNat_ofNat, Nat.mod_eq_of_lt (by omega),
      Nat.mod_eq_of_lt (by omega)] at h''
    omega
  · rintro rfl; rfl

/-- Slots have addresses of their own. -/
theorem pad_inj {L : Layout} {i j : ℕ} (hi : i < maxSlots) (hj : j < maxSlots) :
    wordAt L.scratch i = wordAt L.scratch j ↔ i = j := by
  have hm : maxSlots = 32768 := rfl
  exact wordAt_inj (by omega) (by omega)

/-- The slot of the cache is the word of the scratchpad. -/
theorem slotWord_eq_pad {L : Layout} {F : ℕ → ℕ → Word} {depth : ℕ} {saved : ℕ → Word}
    {m : Machine} (h : Env L F depth saved m) (s : ℕ) : slotWord m (s : ℤ) = pad L m s := by
  rw [slotWord, slotAddr, h.x20, byteOffset_natCast]; rfl

/-- Two machines agree on the scratchpad outside the words `S`. -/
def PadKeeps (L : Layout) (S : ℕ → Prop) (m m' : Machine) : Prop :=
  MemKeeps (fun a => ∃ k < maxSlots, S k ∧ a = wordAt L.scratch k) m m'

/-- Nothing was written. -/
theorem PadKeeps.refl (L : Layout) (S : ℕ → Prop) (m : Machine) : PadKeeps L S m m :=
  MemKeeps.refl _ _

/-- One run after the other. -/
theorem PadKeeps.trans {L : Layout} {S : ℕ → Prop} {m m' m'' : Machine} (h : PadKeeps L S m m')
    (h' : PadKeeps L S m' m'') : PadKeeps L S m m'' := MemKeeps.trans h h'

/-- More slots may be written. -/
theorem PadKeeps.mono {L : Layout} {S T : ℕ → Prop} {m m' : Machine} (h : PadKeeps L S m m')
    (hST : ∀ k, S k → T k) : PadKeeps L T m m' :=
  MemKeeps.mono h fun _ ⟨k, hk, hs, ha⟩ => ⟨k, hk, hST k hs, ha⟩

/-- Memory outside the scratchpad is kept. -/
theorem PadKeeps.memKeeps {L : Layout} {S : ℕ → Prop} {m m' : Machine} (h : PadKeeps L S m m') :
    MemKeeps (PadAddr L) m m' := MemKeeps.mono h fun _ ⟨k, hk, _, ha⟩ => ⟨k, hk, ha⟩

/-- A word outside `S` is unchanged. -/
theorem PadKeeps.pad_eq {L : Layout} {S : ℕ → Prop} {m m' : Machine} (h : PadKeeps L S m m')
    {k : ℕ} (hk : k < maxSlots) (hS : ¬S k) : pad L m' k = pad L m k := by
  refine h _ ?_
  rintro ⟨j, hj, hSj, he⟩
  exact hS ((pad_inj hk hj).1 he ▸ hSj)

/-- A machine whose memory did not change. -/
theorem PadKeeps.of_mem_eq {L : Layout} (S : ℕ → Prop) {m m' : Machine} (h : m'.mem = m.mem) :
    PadKeeps L S m m' := fun a _ => by rw [h]

/-- One store to word `s`. -/
theorem PadKeeps.store {L : Layout} (m : Machine) {s : ℕ} (hs : s < maxSlots) (v : Word) :
    PadKeeps L (· = s) m (m.store (wordAt L.scratch s) v) := by
  intro a ha
  rw [Machine.mem_store, if_neg]
  rintro rfl
  exact ha ⟨s, hs, rfl, rfl⟩

/-- One word more. -/
theorem PadKeeps.next {L : Layout} {m m₁ m₂ : Machine} {k : ℕ} (h : PadKeeps L (· < k) m m₁)
    (hk : k < maxSlots) (hmem : ∀ x, x ≠ wordAt L.scratch k → m₂.mem x = m₁.mem x) :
    PadKeeps L (· < k + 1) m m₂ := by
  refine (h.mono fun j hj => Nat.lt_succ_of_lt hj).trans fun x hx => hmem x ?_
  rintro rfl
  exact hx ⟨k, hk, Nat.lt_succ_self k, rfl⟩

/-! ### Prologue and epilogue -/

/-- The register the prologue saves in word `j` of the frame. -/
def savedReg (j : ℕ) : ℕ := [27, 28, 25, 26, 23, 24, 21, 22, 19, 20, 29, 30].getD j 0

/-- A push writes the two words below the stack pointer. -/
theorem exec_pushPair {m : Machine} {f : Word} {j : ℕ} (hsp : m.read .sp = wordAt f (j + 2))
    (r r' : ℕ) :
    exec (pushPair r r') m =
      ((m.write .sp (wordAt f j)).store (wordAt f j) (m.read (.x r))).store (wordAt f (j + 1))
        (m.read (.x r')) := by
  have h1 : wordAt f (j + 2) + (-16) = wordAt f j := by
    rw [wordAt_add, BitVec.add_assoc]; simp
  have h2 : wordAt f j + 8 = wordAt f (j + 1) := by rw [wordAt_add]; simp
  simp only [pushPair, exec, Mem.resolve, hsp, h1, h2]

/-- A pop reads the two words at the stack pointer. -/
theorem exec_popPair {m : Machine} {f : Word} {j : ℕ} (hsp : m.read .sp = wordAt f j) (r r' : ℕ) :
    exec (popPair r r') m =
      ((m.write .sp (wordAt f (j + 2))).write (.x r) (m.mem (wordAt f j))).write (.x r')
        (m.mem (wordAt f (j + 1))) := by
  have h1 : wordAt f j + 16 = wordAt f (j + 2) := by rw [wordAt_add]; simp
  have h2 : wordAt f j + 8 = wordAt f (j + 1) := by rw [wordAt_add]; simp
  simp only [popPair, exec, Mem.resolve, hsp, h1, h2]

/-- What a push does: the pair is stored below, and only `sp` moves. -/
theorem pushPair_spec {m : Machine} {f : Word} {j : ℕ} (hsp : m.read .sp = wordAt f (j + 2))
    (r r' : ℕ) :
    (exec (pushPair r r') m).read .sp = wordAt f j ∧
      (∀ n, (exec (pushPair r r') m).read (.x n) = m.read (.x n)) ∧
      ∀ a, (exec (pushPair r r') m).mem a =
        if a = wordAt f (j + 1) then m.read (.x r')
        else if a = wordAt f j then m.read (.x r) else m.mem a := by
  rw [exec_pushPair hsp]
  exact ⟨by simp, fun n => by simp, fun a => by simp⟩

/-- What a pop does. -/
theorem popPair_spec {m : Machine} {f : Word} {j : ℕ} (hsp : m.read .sp = wordAt f j) (r r' : ℕ) :
    (exec (popPair r r') m).read .sp = wordAt f (j + 2) ∧
      (∀ n, (exec (popPair r r') m).read (.x n) =
        if n = r' then m.mem (wordAt f (j + 1))
        else if n = r then m.mem (wordAt f j) else m.read (.x n)) ∧
      (exec (popPair r r') m).mem = m.mem := by
  rw [exec_popPair hsp]
  exact ⟨by simp, fun n => by simp, by simp⟩

/-- The machine after some pushes: the `depth` topmost words of the frame hold
registers of `m₀`, no register but `x29` and `sp` has changed. -/
structure Pushed (L : Layout) (m₀ : Machine) (depth : ℕ) (m : Machine) : Prop where
  sp : m.read .sp = wordAt L.frame (12 - depth)
  regs : ∀ n, n ≠ 29 → m.read (.x n) = m₀.read (.x n)
  stack : ∀ j < 12, 12 - depth ≤ j → m.mem (wordAt L.frame j) = m₀.read (.x (savedReg j))
  mem : ∀ x, (∀ j < 12, x ≠ wordAt L.frame j) → m.mem x = m₀.mem x

/-- One more pair. -/
theorem Pushed.push {L : Layout} {m₀ m : Machine} {depth d : ℕ} (h : Pushed L m₀ depth m)
    (hd : d + 2 + depth = 12)
    (hr : m.read (.x (savedReg d)) = m₀.read (.x (savedReg d)))
    (hr' : m.read (.x (savedReg (d + 1))) = m₀.read (.x (savedReg (d + 1)))) :
    Pushed L m₀ (depth + 2) (exec (pushPair (savedReg d) (savedReg (d + 1))) m) := by
  have hsp : m.read .sp = wordAt L.frame (d + 2) := by
    rw [h.sp, show 12 - depth = d + 2 by omega]
  obtain ⟨hsp', hregs, hmem⟩ := pushPair_spec hsp (savedReg d) (savedReg (d + 1))
  refine ⟨by rw [hsp', show 12 - (depth + 2) = d by omega], fun n hn => ?_, fun j hj hjd => ?_,
    fun x hx => ?_⟩
  · rw [hregs n, h.regs n hn]
  · have hinj : ∀ i, i < 12 → j ≠ i → wordAt L.frame j ≠ wordAt L.frame i := fun i hi hne he =>
      hne ((wordAt_inj (by omega) (by omega)).1 he)
    rw [hmem]
    by_cases h1 : j = d + 1
    · rw [if_pos (h1 ▸ rfl), h1, hr']
    · rw [if_neg (hinj _ (by omega) h1)]
      by_cases h2 : j = d
      · rw [if_pos (h2 ▸ rfl), h2, hr]
      · rw [if_neg (hinj _ (by omega) h2), h.stack j hj (by omega)]
  · rw [hmem, if_neg (hx _ (by omega)), if_neg (hx _ (by omega)), h.mem x hx]

/-- The frame pointer may be written. -/
theorem Pushed.write {L : Layout} {m₀ m : Machine} {depth : ℕ} (h : Pushed L m₀ depth m)
    (v : Word) : Pushed L m₀ depth (m.write (.x 29) v) :=
  ⟨by simp [h.sp], fun n hn => by simp [hn, h.regs n hn], fun j hj hd => by simp [h.stack j hj hd],
    fun x hx => by simp [h.mem x hx]⟩

/-- The pushes of both kernels, down to `x23` and `x24`. -/
theorem pushed_eight {L : Layout} {F : ℕ → ℕ → Word} {m : Machine} (h : Args L F m) :
    Pushed L m 8 (execs [pushPair 29 30, .mov (.x 29) .sp, pushPair 19 20, pushPair 21 22,
      pushPair 23 24] m) := by
  have h₀ : Pushed L m 0 m := ⟨h.sp, fun _ _ => rfl, fun j hj hd => by omega, fun _ _ => rfl⟩
  have h₁ : Pushed L m 2 (exec (pushPair 29 30) m) := h₀.push (d := 10) rfl rfl rfl
  have h₂ : Pushed L m 2 (exec (.mov (.x 29) .sp) (exec (pushPair 29 30) m)) := h₁.write _
  have h₃ := h₂.push (d := 8) rfl (h₂.regs _ (by decide)) (h₂.regs _ (by decide))
  have h₄ := h₃.push (d := 6) rfl (h₃.regs _ (by decide)) (h₃.regs _ (by decide))
  exact h₄.push (d := 4) rfl (h₄.regs _ (by decide)) (h₄.regs _ (by decide))

/-- The other pushes of the bit-sliced kernel. -/
theorem pushed_twelve {L : Layout} {F : ℕ → ℕ → Word} {m : Machine} (h : Args L F m) :
    Pushed L m 12 (execs [pushPair 29 30, .mov (.x 29) .sp, pushPair 19 20, pushPair 21 22,
      pushPair 23 24, pushPair 25 26, pushPair 27 28] m) := by
  have h₁ := pushed_eight h
  have h₂ := h₁.push (d := 2) rfl (h₁.regs _ (by decide)) (h₁.regs _ (by decide))
  exact h₂.push (d := 0) rfl (h₂.regs _ (by decide)) (h₂.regs _ (by decide))

/-- The arguments moved to their registers. -/
theorem Pushed.env {L : Layout} {F : ℕ → ℕ → Word} {m₀ m : Machine} {depth : ℕ}
    (h : Pushed L m₀ depth m) (h₀ : Args L F m₀) :
    let m' := execs [.mov fieldPlanesPtr (.x 0), .mov scratchPtr (.x 1)] m
    Env L F depth (fun j => m₀.read (.x (savedReg j))) m' ∧
      ∀ k < maxSlots, pad L m' k = pad L m₀ k := by
  intro m'
  have hmem : m'.mem = m.mem := by simp [m']
  refine ⟨⟨by simp [m', h.regs, h₀.x0], by simp [m', h.regs, h₀.x1], by simp [m', h.sp],
    fun i hi => ?_, fun i hi b hb => ?_, fun j hj hd => ?_⟩, fun k hk => ?_⟩
  · rw [hmem, h.mem _ fun j hj he => L.frame_table j hj i hi he.symm, h₀.table i hi]
  · rw [hmem, h.mem _ fun j hj he => L.frame_plane j hj i hi b hb he.symm, h₀.planes i hi b hb]
  · rw [hmem, h.stack j hj hd]
  · rw [pad, hmem, h.mem _ fun j hj he => L.frame_scratch j hj k hk he.symm]
    rfl

/-- **The prologue** sets up the environment and leaves the scratchpad alone. -/
theorem prologue_exec {L : Layout} {F : ℕ → ℕ → Word} {m : Machine} (h : Args L F m) :
    Env L F 12 (fun j => m.read (.x (savedReg j))) (execs prologue m) ∧
      ∀ k < maxSlots, pad L (execs prologue m) k = pad L m k :=
  (pushed_twelve h).env h

/-- The prologue writes to the frame only. -/
theorem prologue_mem {L : Layout} {F : ℕ → ℕ → Word} {m : Machine} (h : Args L F m) {x : Word}
    (hx : ∀ j < 12, x ≠ wordAt L.frame j) : (execs prologue m).mem x = m.mem x := by
  refine Eq.trans ?_ ((pushed_twelve h).mem x hx)
  simp [prologue]

/-- The machine after some pops of a frame of `d₀` words: the registers saved
below the stack pointer are back, and nothing else has changed. -/
structure Popped (L : Layout) (saved : ℕ → Word) (d₀ : ℕ) (m₀ : Machine) (depth : ℕ)
    (m : Machine) : Prop where
  sp : m.read .sp = wordAt L.frame (12 - depth)
  mem : m.mem = m₀.mem
  restored : ∀ j < 12 - depth, 12 - d₀ ≤ j → m.read (.x (savedReg j)) = saved j
  others : ∀ n, (∀ j < 12, 12 - d₀ ≤ j → n ≠ savedReg j) → m.read (.x n) = m₀.read (.x n)

/-- Twelve different registers are saved. -/
theorem savedReg_inj {i j : ℕ} (hi : i < 12) (hj : j < 12) (h : savedReg i = savedReg j) : i = j := by
  have key : ∀ i : Fin 12, ∀ j : Fin 12, savedReg i = savedReg j → i = j := by decide
  exact congrArg Fin.val (key ⟨i, hi⟩ ⟨j, hj⟩ h)

/-- Before the first is popped. -/
theorem Popped.init {L : Layout} {F : ℕ → ℕ → Word} {saved : ℕ → Word} {d₀ : ℕ} {m : Machine}
    (h : Env L F d₀ saved m) : Popped L saved d₀ m d₀ m :=
  ⟨h.sp, rfl, fun j hj hd => by omega, fun _ _ => rfl⟩

/-- One more pair. -/
theorem Popped.pop {L : Layout} {F : ℕ → ℕ → Word} {saved : ℕ → Word} {d₀ depth d : ℕ}
    {m₀ m : Machine} (hE : Env L F d₀ saved m₀) (h : Popped L saved d₀ m₀ (depth + 2) m)
    (hd : d + 2 + depth = 12) (hd₀ : 12 - d₀ ≤ d) :
    Popped L saved d₀ m₀ depth (exec (popPair (savedReg d) (savedReg (d + 1))) m) := by
  have hsp : m.read .sp = wordAt L.frame d := by
    rw [h.sp, show 12 - (depth + 2) = d by omega]
  have hst : ∀ j < 12, 12 - d₀ ≤ j → m.mem (wordAt L.frame j) = saved j := fun j hj hjd => by
    rw [h.mem, hE.stack j hj hjd]
  obtain ⟨hsp', hregs, hmem⟩ := popPair_spec hsp (savedReg d) (savedReg (d + 1))
  refine ⟨by rw [hsp', show 12 - depth = d + 2 by omega], hmem.trans h.mem, fun j hj hjd => ?_,
    fun n hn => ?_⟩
  · rw [hregs]
    by_cases h1 : j = d + 1
    · rw [if_pos (h1 ▸ rfl), hst _ (by omega) (by omega), h1]
    · rw [if_neg fun he => h1 (savedReg_inj (by omega) (by omega) he)]
      by_cases h2 : j = d
      · rw [if_pos (h2 ▸ rfl), hst _ (by omega) (by omega), h2]
      · rw [if_neg fun he => h2 (savedReg_inj (by omega) (by omega) he),
          h.restored j (by omega) hjd]
  · rw [hregs, if_neg (hn _ (by omega) (by omega)), if_neg (hn _ (by omega) (by omega)),
      h.others n hn]

/-- The pops of both kernels, from `x23` and `x24` on. -/
theorem Popped.last_eight {L : Layout} {F : ℕ → ℕ → Word} {saved : ℕ → Word} {d₀ : ℕ}
    {m₀ m : Machine} (hE : Env L F d₀ saved m₀) (hd₀ : 8 ≤ d₀) (h : Popped L saved d₀ m₀ 8 m) :
    Popped L saved d₀ m₀ 0
      (execs [popPair 23 24, popPair 21 22, popPair 19 20, popPair 29 30] m) := by
  have h₁ := h.pop (d := 4) hE rfl (by omega)
  have h₂ := h₁.pop (d := 6) hE rfl (by omega)
  have h₃ := h₂.pop (d := 8) hE rfl (by omega)
  exact h₃.pop (d := 10) hE rfl (by omega)

/-- **The epilogue** restores the saved registers and `sp`, and keeps the memory
and every other register, the result in `x0` among them. -/
theorem epilogue_exec {L : Layout} {F : ℕ → ℕ → Word} {saved : ℕ → Word} {m : Machine}
    (h : Env L F 12 saved m) : Popped L saved 12 m 0 (execs epilogue m) := by
  have h₁ : Popped L saved 12 m 10 (exec (popPair 27 28) m) :=
    (Popped.init h).pop (d := 0) h rfl (by omega)
  have h₂ : Popped L saved 12 m 8 (exec (popPair 25 26) (exec (popPair 27 28) m)) :=
    h₁.pop (d := 2) h rfl (by omega)
  rw [epilogue, execs_cons, execs_cons]
  exact h₂.last_eight h (by omega)

end Jit
end AarchGate
