/-
# Running a kernel

A kernel is a list of instructions entered at its first one.  `bind` marks the
place of a label, a branch goes to the place its label is bound at, and `ret`
leaves the kernel for the address in its register.  `run` follows the control
flow for a bounded number of steps, and `call` is a call of the kernel: it has
a result when the kernel comes back to the return address `x30` it was entered
with.

`run_block` moves the program counter over a straight-line block in one step,
and `run_mono` says that fuel left over does not change a result.
-/

import AarchGate.A64.Machine

namespace AarchGate
namespace A64

/-- Whether an instruction may leave the straight line. -/
def Instr.branches : Instr → Bool
  | .b _ | .bcond _ _ | .ret _ => true
  | _ => false

/-- A block without branches. -/
def Straight (is : List Instr) : Prop := ∀ i ∈ is, i.branches = false

@[simp] theorem straight_nil : Straight [] := fun _ h => absurd h List.not_mem_nil

/-- The first instruction and the rest. -/
@[simp] theorem straight_cons {i : Instr} {is : List Instr} :
    Straight (i :: is) ↔ i.branches = false ∧ Straight is := by
  simp [Straight]

/-- Both parts are straight. -/
@[simp] theorem straight_append {is js : List Instr} :
    Straight (is ++ js) ↔ Straight is ∧ Straight js := by
  simp only [Straight, List.mem_append]
  exact ⟨fun h => ⟨fun i hi => h i (Or.inl hi), fun i hi => h i (Or.inr hi)⟩,
    fun h i hi => hi.elim (h.1 i) (h.2 i)⟩

/-- The position a label is bound at. -/
def labelPos (code : List Instr) (l : ℕ) : ℕ := code.idxOf (.bind l)

/-- Runs `code` from position `pc` for at most `fuel` steps.  The result is the
address returned to and the machine at the return. -/
def run (code : List Instr) : ℕ → ℕ → Machine → Option (Word × Machine)
  | 0, _, _ => none
  | fuel + 1, pc, m =>
    match code[pc]? with
    | none => none
    | some (.ret r) => some (m.read r, m)
    | some (.b l) => run code fuel (labelPos code l) m
    | some (.bcond c l) =>
        if c.holds m.flags then run code fuel (labelPos code l) m else run code fuel (pc + 1) m
    | some i => run code fuel (pc + 1) (exec i m)

/-- The steps a call may take: no instruction of a kernel runs more often than
the 65 times the head of a loop over 64 rows does. -/
def stepLimit (code : List Instr) : ℕ := 65 * (code.length + 1)

/-- A call of the kernel `code`: the machine after it has returned to the
address in `x30`. -/
def call (code : List Instr) (m : Machine) : Option Machine :=
  match run code (stepLimit code) 0 m with
  | some (ra, m') => if ra = m.read (.x 30) then some m' else none
  | none => none

/-- A result does not depend on the fuel left over. -/
theorem run_mono {code : List Instr} {fuel : ℕ} {pc : ℕ} {m : Machine} {r : Word × Machine}
    (h : run code fuel pc m = some r) {fuel' : ℕ} (hle : fuel ≤ fuel') :
    run code fuel' pc m = some r := by
  induction fuel generalizing fuel' pc m with
  | zero => simp [run] at h
  | succ fuel ih =>
    obtain ⟨fuel', rfl⟩ : ∃ k, fuel' = k + 1 := ⟨fuel' - 1, by omega⟩
    have hle' : fuel ≤ fuel' := by omega
    unfold run at h ⊢
    split at h
    · simp at h
    · exact h
    · exact ih h hle'
    · split_ifs at h ⊢
      · exact ih h hle'
      · exact ih h hle'
    · exact ih h hle'

/-- One instruction that does not branch. -/
theorem run_step {code : List Instr} {pc : ℕ} {i : Instr} (hi : code[pc]? = some i)
    (hb : i.branches = false) (fuel : ℕ) (m : Machine) :
    run code (fuel + 1) pc m = run code fuel (pc + 1) (exec i m) := by
  rw [run, hi]
  cases i <;> first | rfl | simp [Instr.branches] at hb

/-- **A straight-line block runs as one step.** -/
theorem run_block {code : List Instr} (pre blk post : List Instr) (hc : code = pre ++ blk ++ post)
    (hb : Straight blk) (fuel : ℕ) (m : Machine) :
    run code (fuel + blk.length) pre.length m =
      run code fuel (pre ++ blk).length (execs blk m) := by
  induction blk generalizing pre m with
  | nil => simp
  | cons i blk ih =>
    have hi : code[pre.length]? = some i := by
      rw [hc, List.append_assoc, List.getElem?_append_right (Nat.le_refl _)]
      simp
    have hstep := run_step hi (hb i (List.mem_cons_self ..)) (fuel + blk.length) m
    have hrest := ih (pre ++ [i]) (by rw [hc]; simp) (fun j hj => hb j (List.mem_cons_of_mem _ hj))
      (exec i m)
    rw [List.length_cons, ← Nat.add_assoc, hstep, execs_cons]
    rw [List.length_append, List.length_singleton] at hrest
    rw [hrest]
    simp

/-- A branch is followed to the place of its label. -/
theorem run_b {code : List Instr} {pc l : ℕ} (hi : code[pc]? = some (.b l)) (fuel : ℕ)
    (m : Machine) : run code (fuel + 1) pc m = run code fuel (labelPos code l) m := by
  rw [run, hi]

/-- A conditional branch is followed when its condition holds. -/
theorem run_bcond {code : List Instr} {pc l : ℕ} {c : Cond} (hi : code[pc]? = some (.bcond c l))
    (fuel : ℕ) (m : Machine) :
    run code (fuel + 1) pc m =
      if c.holds m.flags then run code fuel (labelPos code l) m else run code fuel (pc + 1) m := by
  rw [run, hi]

/-- **A straight-line kernel returns**, with the effect of its block, provided
the block leaves the return address in the register of its `ret`. -/
theorem call_straight {blk : List Instr} {r : Gp} (hb : Straight blk) {m : Machine}
    (hr : (execs blk m).read r = m.read (.x 30)) :
    call (blk ++ [.ret r]) m = some (execs blk m) := by
  have hcode : blk ++ [.ret r] = [] ++ blk ++ [.ret r] := by simp
  have h := run_block [] blk [.ret r] hcode hb 1 m
  have hret : run (blk ++ [.ret r]) 1 ([] ++ blk).length (execs blk m) =
      some ((execs blk m).read r, execs blk m) := by
    rw [run]; simp
  have hlim : 1 + blk.length ≤ stepLimit (blk ++ [.ret r]) := by
    simp only [stepLimit, List.length_append, List.length_singleton]; omega
  have hrun : run (blk ++ [.ret r]) (stepLimit (blk ++ [.ret r])) 0 m =
      some ((execs blk m).read r, execs blk m) := run_mono (h.trans hret) hlim
  rw [call, hrun]
  simp [hr]

/-- The place of a label that is bound once. -/
theorem labelPos_eq {code pre post : List Instr} {l : ℕ} (hc : code = pre ++ .bind l :: post)
    (hpre : .bind l ∉ pre) : labelPos code l = pre.length := by
  rw [labelPos, hc, List.idxOf_append_of_notMem hpre, List.idxOf_cons_self]
  rfl

/-- **The rule for a counted loop.**  If an iteration takes the invariant from `k`
to `k + 1` in `c` steps from the head back to the head, `N` iterations take it
from `0` to `N`. -/
theorem run_loop {code : List Instr} {head c N : ℕ} {I : ℕ → Machine → Prop}
    (hstep : ∀ k < N, ∀ m, I k m →
      ∃ m', I (k + 1) m' ∧ ∀ fuel, run code (fuel + c) head m = run code fuel head m')
    {m : Machine} (h0 : I 0 m) :
    ∃ m', I N m' ∧ ∀ fuel, run code (fuel + N * c) head m = run code fuel head m' := by
  induction N with
  | zero => exact ⟨m, h0, fun fuel => by simp⟩
  | succ N ih =>
    obtain ⟨m₁, h₁, hrun₁⟩ := ih fun k hk => hstep k (by omega)
    obtain ⟨m₂, h₂, hrun₂⟩ := hstep N (by omega) m₁ h₁
    refine ⟨m₂, h₂, fun fuel => ?_⟩
    rw [← hrun₂ fuel, ← hrun₁ (fuel + c), Nat.succ_mul]
    congr 1
    omega

/-- A loop that is left at its head: label 0 is the head, label 1 the exit. -/
def whileCode (pre hd : List Instr) (c : Cond) (blk post : List Instr) (r : Gp) : List Instr :=
  pre ++ (.bind 0 :: hd) ++ [.bcond c 1] ++ blk ++ [.b 0] ++ (.bind 1 :: post) ++ [.ret r]

section While

variable {pre hd blk post : List Instr} {c : Cond} {r : Gp}

/-- One way through the head: the branch that follows it is next. -/
theorem run_head (pre blk post : List Instr) (c : Cond) (r : Gp) (hhd : Straight hd) (fuel : ℕ)
    (m : Machine) :
    run (whileCode pre hd c blk post r) (fuel + (hd.length + 2)) pre.length m =
      if c.holds (execs hd m).flags then
        run (whileCode pre hd c blk post r) fuel (labelPos (whileCode pre hd c blk post r) 1)
          (execs hd m)
      else run (whileCode pre hd c blk post r) fuel
        (pre ++ (Instr.bind 0 :: hd) ++ [Instr.bcond c 1]).length (execs hd m) := by
  have hsplit : whileCode pre hd c blk post r = pre ++ (.bind 0 :: hd) ++
      (.bcond c 1 :: (blk ++ [.b 0] ++ (.bind 1 :: post) ++ [.ret r])) := by simp [whileCode]
  have hblk := run_block pre (.bind 0 :: hd) _ hsplit
    (fun i hi => (List.mem_cons.1 hi).elim (fun h => h ▸ rfl) (hhd i)) (fuel + 1) m
  have hat : (whileCode pre hd c blk post r)[(pre ++ (Instr.bind 0 :: hd)).length]? =
      some (.bcond c 1) := by
    rw [hsplit, List.getElem?_append_right (Nat.le_refl _)]
    simp
  rw [List.length_cons, execs_cons, exec] at hblk
  rw [show fuel + (hd.length + 2) = fuel + 1 + (hd.length + 1) by omega, hblk, run_bcond hat]
  simp only [List.length_append, List.length_singleton]

/-- The body of the loop leads back to the head. -/
theorem run_body (pre hd post : List Instr) (c : Cond) (r : Gp) (hblk : Straight blk)
    (hpre : .bind 0 ∉ pre) (fuel : ℕ) (m : Machine) :
    run (whileCode pre hd c blk post r) (fuel + (blk.length + 1))
        (pre ++ (Instr.bind 0 :: hd) ++ [Instr.bcond c 1]).length m =
      run (whileCode pre hd c blk post r) fuel pre.length (execs blk m) := by
  have hsplit : whileCode pre hd c blk post r = (pre ++ (.bind 0 :: hd) ++ [.bcond c 1]) ++ blk ++
      (.b 0 :: ((.bind 1 :: post) ++ [.ret r])) := by simp [whileCode]
  have hzero : whileCode pre hd c blk post r = pre ++ .bind 0 :: (hd ++ [.bcond c 1] ++ blk ++
      [.b 0] ++ (.bind 1 :: post) ++ [.ret r]) := by simp [whileCode]
  have hlab := labelPos_eq hzero hpre
  have hat : (whileCode pre hd c blk post r)[((pre ++ (Instr.bind 0 :: hd) ++
      [Instr.bcond c 1]) ++ blk).length]? = some (.b 0) := by
    rw [hsplit, List.getElem?_append_right (Nat.le_refl _)]
    simp
  rw [show fuel + (blk.length + 1) = fuel + 1 + blk.length by omega,
    run_block _ blk _ hsplit hblk, run_b hat, hlab]

/-- After the loop: the code from the exit on, and the return. -/
theorem run_exit (pre hd blk : List Instr) (c : Cond) (r : Gp) (hpost : Straight post)
    (hbind : ∀ l, .bind l ∉ pre ∧ .bind l ∉ hd ∧ .bind l ∉ blk) (m : Machine) :
    run (whileCode pre hd c blk post r) (post.length + 2)
        (labelPos (whileCode pre hd c blk post r) 1) m =
      some ((execs post m).read r, execs post m) := by
  have hsplit : whileCode pre hd c blk post r =
      (pre ++ (.bind 0 :: hd) ++ [.bcond c 1] ++ blk ++ [.b 0]) ++ (.bind 1 :: post) ++ [.ret r] := rfl
  have hlab : labelPos (whileCode pre hd c blk post r) 1 =
      (pre ++ (Instr.bind 0 :: hd) ++ [Instr.bcond c 1] ++ blk ++ [Instr.b 0]).length :=
    labelPos_eq (by rw [hsplit, List.append_assoc, List.cons_append]) (by simp [hbind 1])
  have hrun := run_block _ (.bind 1 :: post) _ hsplit
    (fun i hi => (List.mem_cons.1 hi).elim (fun h => h ▸ rfl) (hpost i)) 1 m
  rw [List.length_cons, execs_cons, exec] at hrun
  rw [hlab, show post.length + 2 = 1 + (post.length + 1) by omega, hrun, run, hsplit,
    List.getElem?_append_right (Nat.le_refl _)]
  simp

/-- **The rule for a loop left at its head** after `N` iterations. -/
theorem call_while (hpre : Straight pre) (hhd : Straight hd) (hblk : Straight blk)
    (hpost : Straight post) (hbind : ∀ l, .bind l ∉ pre ∧ .bind l ∉ hd ∧ .bind l ∉ blk) {N : ℕ}
    (hN : N ≤ 64) {I : ℕ → Machine → Prop} {m : Machine} (h0 : I 0 (execs pre m))
    (hstep : ∀ k < N, ∀ m, I k m →
      c.holds (execs hd m).flags = false ∧ I (k + 1) (execs blk (execs hd m)))
    (hexit : ∀ m, I N m → c.holds (execs hd m).flags = true)
    (hret : ∀ m₁, I N m₁ → (execs post (execs hd m₁)).read r = m.read (.x 30)) :
    ∃ m₁, I N m₁ ∧ call (whileCode pre hd c blk post r) m = some (execs post (execs hd m₁)) := by
  have hloop : ∃ m₁, I N m₁ ∧ ∀ fuel, run (whileCode pre hd c blk post r)
      (fuel + N * (hd.length + blk.length + 3)) pre.length (execs pre m) =
        run (whileCode pre hd c blk post r) fuel pre.length m₁ := by
    refine run_loop (fun k hk m' hm' => ?_) h0
    obtain ⟨hc, hnext⟩ := hstep k hk m' hm'
    refine ⟨_, hnext, fun fuel => ?_⟩
    rw [show fuel + (hd.length + blk.length + 3) = fuel + (blk.length + 1) + (hd.length + 2) by omega,
      run_head pre blk post c r hhd, hc, if_neg Bool.false_ne_true,
      run_body pre hd post c r hblk (hbind 0).1]
  obtain ⟨m₁, h₁, hrun⟩ := hloop
  refine ⟨m₁, h₁, ?_⟩
  -- the prologue, the iterations, the last test and the exit
  have hsplit : whileCode pre hd c blk post r = [] ++ pre ++ ((.bind 0 :: hd) ++ [.bcond c 1] ++
      blk ++ [.b 0] ++ (.bind 1 :: post) ++ [.ret r]) := by simp [whileCode]
  have hall := run_block [] pre _ hsplit hpre
    (post.length + 2 + (hd.length + 2) + N * (hd.length + blk.length + 3)) m
  rw [List.nil_append, List.length_nil, hrun, run_head pre blk post c r hhd, hexit m₁ h₁, if_pos rfl,
    run_exit pre hd blk c r hpost hbind] at hall
  have hmul : N * (hd.length + blk.length + 3) ≤ 64 * (hd.length + blk.length + 3) :=
    Nat.mul_le_mul_right _ hN
  have hlim : post.length + 2 + (hd.length + 2) + N * (hd.length + blk.length + 3) + pre.length ≤
      stepLimit (whileCode pre hd c blk post r) := by
    simp only [stepLimit, whileCode, List.length_append, List.length_cons, List.length_nil]
    omega
  rw [call, run_mono hall hlim]
  simp [hret m₁ h₁]

end While

end A64
end AarchGate
