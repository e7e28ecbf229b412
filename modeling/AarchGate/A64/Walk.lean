/-
# Following a block of code

Two things are followed through the code of a kernel: where its addresses come from
(`AarchGate.A64.Provenance`) and what it reads and writes (`AarchGate.A64.Footprint`).  Both go
instruction by instruction, keep what is known of some registers, and ask of every instruction
whether it is allowed where it stands.  `Walk` is what they have in common.

`Walk.Triple` is the triple for it: from a state that meets `A` every instruction of the block is
allowed, and the block leaves a state that meets `B`.  The blocks of a compiler are composed by
`Triple.append`, its unrolled loops by `Triple.flatMap` and `Triple.range`.
-/

import AarchGate.A64.Run

namespace AarchGate
namespace A64

/-- The registers an addressing mode writes back. -/
def Mem.dest : Mem → List Gp
  | .pre base _ | .post base _ => [base]
  | .off _ _ | .idx _ _ | .idxLsl _ _ _ => []

/-- The registers an instruction writes. -/
def Instr.dest : Instr → List Gp
  | .movz rd _ _ | .movk rd _ _ | .mov rd _ | .movImm rd _ | .mvn rd _ | .neg rd _
  | .alu _ rd _ _ | .andImm rd _ _ | .addImm rd _ _ | .addLsl rd _ _ _ | .cset rd _
  | .csel rd _ _ _ => [rd]
  | .ldr rt a => rt :: a.dest
  | .ldp rt rt2 a => rt :: rt2 :: a.dest
  | .str _ a | .stp _ _ a => a.dest
  | .cmp _ _ | .cmpImm _ _ | .bind _ | .b _ | .bcond _ _ | .ret _ => []

/-- The instruction has no memory operand. -/
def Instr.quiet : Instr → Bool
  | .ldr _ _ | .str _ _ | .ldp _ _ _ | .stp _ _ _ => false
  | _ => true

/-- **A way of following code**: the effect of an instruction on what is followed, where it is
allowed, and what is known of a register.  What an instruction does not write stays known, and
what is fixed stays so under the instructions that are allowed. -/
structure Walk (S V : Type) where
  step : Instr → S → S
  Allowed : Instr → S → Prop
  read : S → Gp → V
  Fixed : S → Prop
  num : Word → V
  read_step : ∀ {i : Instr} {s : S} {r : Gp}, r ∉ i.dest → read (step i s) r = read s r
  fixed_step : ∀ {i : Instr} {s : S}, Allowed i s → Fixed s → Fixed (step i s)
  allowed_of_quiet : ∀ {i : Instr} {s : S}, i.quiet = true → Allowed i s
  read_movWide : ∀ (n : ℕ) (imm : Word) (s : S),
    read ((movWide (.x n) imm).foldl (fun s i => step i s) s) (.x n) = num imm

namespace Walk

variable {S V : Type} (W : Walk S V)

/-- The state after a block. -/
def run (is : List Instr) (s : S) : S := is.foldl (fun s i => W.step i s) s

/-- Every instruction of the block is allowed, from `s` on. -/
def Visits : List Instr → S → Prop
  | [], _ => True
  | i :: is, s => W.Allowed i s ∧ Visits is (W.step i s)

/-- **A triple**: from a state that meets `A` the block is allowed, and it leaves a state that
meets `B`. -/
def Triple (A : S → Prop) (is : List Instr) (B : S → Prop) : Prop :=
  ∀ s, A s → W.Visits is s ∧ B (W.run is s)

/-- What is known: the contents of some registers, and what is fixed. -/
structure Known (ks : List (Gp × V)) (s : S) : Prop where
  regs : ∀ k ∈ ks, W.read s k.1 = k.2
  fixed : W.Fixed s

/-- An instruction that writes none of the registers and is allowed where they are known. -/
def Modest (ks : List (Gp × V)) (i : Instr) : Prop :=
  (∀ k ∈ ks, k.1 ∉ i.dest) ∧ ∀ s, W.Known ks s → W.Allowed i s

variable {W} {A B C : S → Prop} {ks : List (Gp × V)} {s : S} {i : Instr} {is js : List Instr}

/-- A block is allowed if its parts are. -/
theorem visits_append : W.Visits (is ++ js) s ↔ W.Visits is s ∧ W.Visits js (W.run is s) := by
  induction is generalizing s with
  | nil => simp [Visits, run]
  | cons i is ih => simp [Visits, ih, run, and_assoc]

/-- Every instruction on the way is allowed. -/
theorem Visits.allowed (h : W.Visits is s) {n : ℕ} (hi : is[n]? = some i) :
    W.Allowed i (W.run (is.take n) s) := by
  induction is generalizing s n with
  | nil => cases hi
  | cons j is ih =>
    cases n with
    | zero =>
      obtain rfl := Option.some.inj hi
      exact h.1
    | succ n => exact ih h.2 hi

/-- One register more. -/
theorem known_cons {k : Gp × V} : W.Known (k :: ks) s ↔ W.read s k.1 = k.2 ∧ W.Known ks s := by
  refine ⟨fun h => ⟨h.regs k (List.mem_cons_self ..), fun x hx => h.regs x (List.mem_cons_of_mem _ hx),
    h.fixed⟩, fun h => ⟨fun x hx => ?_, h.2.fixed⟩⟩
  rcases List.mem_cons.1 hx with rfl | hx
  · exact h.1
  · exact h.2.regs x hx

/-- Less is known. -/
theorem Known.weaken (h : W.Known ks s) {ks' : List (Gp × V)} (hsub : ks' ⊆ ks) : W.Known ks' s :=
  ⟨fun k hk => h.regs k (hsub hk), h.fixed⟩

/-- What is known stays so when an instruction writes other registers. -/
theorem Known.step (h : W.Known ks s) (hdest : ∀ k ∈ ks, k.1 ∉ i.dest) (hi : W.Allowed i s) :
    W.Known ks (W.step i s) where
  regs k hk := (W.read_step (hdest k hk)).trans (h.regs k hk)
  fixed := W.fixed_step hi h.fixed

/-- An instruction without memory operand. -/
theorem modest_of_quiet (hquiet : i.quiet = true) (hdest : ∀ k ∈ ks, k.1 ∉ i.dest) :
    W.Modest ks i := ⟨hdest, fun _ _ => W.allowed_of_quiet hquiet⟩

namespace Triple

/-- The empty block. -/
theorem nil (A : S → Prop) : W.Triple A [] A := fun _ hs => ⟨trivial, hs⟩

/-- One block after the other. -/
theorem append (h : W.Triple A is B) (h' : W.Triple B js C) : W.Triple A (is ++ js) C := by
  intro s hs
  obtain ⟨hv, hB⟩ := h s hs
  obtain ⟨hv', hC⟩ := h' _ hB
  refine ⟨visits_append.2 ⟨hv, hv'⟩, ?_⟩
  rw [run, List.foldl_append]
  exact hC

/-- One instruction. -/
theorem single (h : ∀ s, A s → W.Allowed i s ∧ B (W.step i s)) : W.Triple A [i] B :=
  fun s hs => ⟨⟨(h s hs).1, trivial⟩, (h s hs).2⟩

/-- The rule of consequence. -/
theorem weaken (h : W.Triple A is B) {A' B' : S → Prop} (hA : ∀ s, A' s → A s)
    (hB : ∀ s, B s → B' s) : W.Triple A' is B' := fun s hs =>
  ⟨(h s (hA s hs)).1, hB _ (h s (hA s hs)).2⟩

/-- A loop over the first numbers that is unrolled. -/
theorem range {A : ℕ → S → Prop} {f : ℕ → List Instr} {n : ℕ}
    (h : ∀ i < n, W.Triple (A i) (f i) (A (i + 1))) :
    W.Triple (A 0) ((List.range n).flatMap f) (A n) := by
  induction n with
  | zero => exact nil _
  | succ n ih =>
    rw [List.range_succ, List.flatMap_append, List.flatMap_singleton]
    exact (ih fun i hi => h i (by omega)).append (h n (by omega))

/-- A loop that is unrolled. -/
theorem flatMap {α : Type} {f : α → List Instr} (l : List α) (h : ∀ x ∈ l, W.Triple A (f x) A) :
    W.Triple A (l.flatMap f) A := by
  induction l with
  | nil => exact nil A
  | cons x l ih =>
    rw [List.flatMap_cons]
    exact (h x (List.mem_cons_self ..)).append (ih fun y hy => h y (List.mem_cons_of_mem _ hy))

/-- A block that keeps what is known. -/
theorem modest (h : ∀ i ∈ is, W.Modest ks i) : W.Triple (W.Known ks) is (W.Known ks) := by
  induction is with
  | nil => exact nil _
  | cons i is ih =>
    obtain ⟨hdest, hallowed⟩ := h i (List.mem_cons_self ..)
    exact (single fun s hs => ⟨hallowed s hs, hs.step hdest (hallowed s hs)⟩).append
      (ih fun j hj => h j (List.mem_cons_of_mem _ hj))

/-- One instruction without memory operand that writes none of the registers. -/
theorem quiet (hquiet : i.quiet = true) (hdest : ∀ k ∈ ks, k.1 ∉ i.dest) :
    W.Triple (W.Known ks) [i] (W.Known ks) :=
  modest fun _ hj => List.mem_singleton.1 hj ▸ modest_of_quiet hquiet hdest

/-- An instruction that writes one register. -/
theorem assign {n : ℕ} {v : V} (hA : ∀ s, A s → W.Known ks s) (hdest : i.dest = [.x n])
    (hn : ∀ k ∈ ks, k.1 ≠ .x n) (h : ∀ s, A s → W.Allowed i s ∧ W.read (W.step i s) (.x n) = v) :
    W.Triple A [i] (W.Known ((.x n, v) :: ks)) := by
  refine single fun s hs => ⟨(h s hs).1, known_cons.2 ⟨(h s hs).2, (hA s hs).step ?_ (h s hs).1⟩⟩
  intro k hk
  rw [hdest]
  exact mt List.mem_singleton.1 (hn k hk)

/-- Knowledge that is not needed any more. -/
theorem forget {k : Gp × V} (h : W.Triple A is (W.Known (k :: ks))) : W.Triple A is (W.Known ks) :=
  h.weaken (fun _ hs => hs) fun _ hs => (known_cons.1 hs).2

/-- The four move-wide instructions load the immediate. -/
theorem movWide {n : ℕ} (imm : Word) (hn : ∀ k ∈ ks, k.1 ≠ .x n) :
    W.Triple (W.Known ks) (movWide (.x n) imm) (W.Known ((.x n, W.num imm) :: ks)) := by
  have hmodest : W.Triple (W.Known ks) (A64.movWide (.x n) imm) (W.Known ks) := by
    refine modest fun i hi => ?_
    simp only [A64.movWide, List.mem_cons, List.not_mem_nil, or_false] at hi
    rcases hi with rfl | rfl | rfl | rfl <;>
      exact modest_of_quiet rfl fun k hk => mt List.mem_singleton.1 (hn k hk)
  intro s hs
  obtain ⟨hv, hks⟩ := hmodest s hs
  exact ⟨hv, known_cons.2 ⟨W.read_movWide n imm s, hks⟩⟩

end Triple

end Walk

end A64
end AarchGate
