/-
# What a block of code reads and writes

The code of a kernel is given regions of memory: some it may read, some it may also write, and
some words that it does not write are known, such as a table of pointers.  A `Footprint` is
such a permission, and `Footprint.walk` follows a block, run from a machine, that loads and stores
within it.

A block that stays within a footprint changes nothing else (`Walk.Visits.memKeeps`), and a kernel
of one block stays within it at every instruction (`stays_of_visits`).
-/

import AarchGate.A64.Walk
import Mathlib.Logic.Function.Iterate

namespace AarchGate
namespace A64

/-- The addresses an instruction loads from. -/
def Instr.loads (m : Machine) : Instr → List Word
  | .ldr _ a => [(a.resolve m).1]
  | .ldp _ _ a => [(a.resolve m).1, (a.resolve m).1 + 8]
  | _ => []

/-- The addresses an instruction stores to. -/
def Instr.stores (m : Machine) : Instr → List Word
  | .str _ a => [(a.resolve m).1]
  | .stp _ _ a => [(a.resolve m).1, (a.resolve m).1 + 8]
  | _ => []

section Exec

variable {m : Machine} {r : Gp} {i : Instr}

/-- Another register is read as before. -/
theorem Machine.read_write_ne (m : Machine) {r r' : Gp} (h : r' ≠ r) (v : Word) :
    (m.write r v).read r' = m.read r' := by
  by_cases hz : r = .xzr
  · rw [Machine.write, if_pos hz]
  · rw [m.read_write hz, if_neg h]

/-- The write-back concerns the base only. -/
theorem Mem.resolve_read {a : Mem} (h : r ∉ a.dest) : (a.resolve m).2.read r = m.read r := by
  cases a with
  | pre | post => exact m.read_write_ne (mt List.mem_singleton.2 h) _
  | off | idx | idxLsl => rfl

/-- And never the memory. -/
@[simp] theorem Mem.resolve_mem (a : Mem) (m : Machine) : (a.resolve m).2.mem = m.mem := by
  cases a <;> simp [Mem.resolve]

/-- An instruction leaves the other registers alone. -/
theorem exec_read (h : r ∉ i.dest) : (exec i m).read r = m.read r := by
  cases i with
  | ldr rt a =>
    obtain ⟨hrt, ha⟩ := not_or.1 (mt List.mem_cons.2 h)
    exact (Machine.read_write_ne _ hrt _).trans (Mem.resolve_read ha)
  | ldp rt rt2 a =>
    obtain ⟨hrt, h⟩ := not_or.1 (mt List.mem_cons.2 h)
    obtain ⟨hrt2, ha⟩ := not_or.1 (mt List.mem_cons.2 h)
    exact (Machine.read_write_ne _ hrt2 _).trans
      ((Machine.read_write_ne _ hrt _).trans (Mem.resolve_read ha))
  | str rt a | stp rt rt2 a => exact Mem.resolve_read h
  | cmp | cmpImm | bind | b | bcond | ret => rfl
  | _ => exact m.read_write_ne (mt List.mem_singleton.2 h) _

/-- And the words of memory it does not store to. -/
theorem exec_mem {x : Word} (h : x ∉ i.stores m) : (exec i m).mem x = m.mem x := by
  cases i with
  | str rt a =>
    simp only [Instr.stores, List.mem_singleton] at h
    simp [exec, h]
  | stp rt rt2 a =>
    simp only [Instr.stores, List.mem_pair, not_or] at h
    simp only [exec, Machine.mem_store, if_neg h.1, if_neg h.2, Mem.resolve_mem]
  | ldr rt a | ldp rt rt2 a => simp [exec]
  | cmp | cmpImm | bind | b | bcond | ret => rfl
  | _ => exact congrFun (m.mem_write _ _) x

end Exec

/-! ### Footprints -/

/-- What a piece of code may do with the memory: the words it may read and those it may write,
and what it may rely on in the words it does not write. -/
structure Footprint where
  reads : Word → Prop
  writes : Word → Prop
  fixed : (Word → Word) → Prop
  fixed_frame : ∀ f f', (∀ x, ¬writes x → f' x = f x) → fixed f → fixed f'

/-- The instruction loads and stores within the footprint. -/
def Instr.Within (P : Footprint) (m : Machine) (i : Instr) : Prop :=
  (∀ x ∈ i.loads m, P.reads x) ∧ ∀ x ∈ i.stores m, P.writes x

section Walk

variable {P : Footprint} {m : Machine} {i : Instr} {is : List Instr}

/-- An instruction changes what it may write. -/
theorem Instr.Within.memKeeps (h : i.Within P m) : MemKeeps P.writes m (exec i m) :=
  fun _ hx => exec_mem fun hmem => hx (h.2 _ hmem)

variable (P) in
/-- **Following a block within a footprint**, from the machine it is run on. -/
def Footprint.walk : Walk Machine Word where
  step := exec
  Allowed i m := i.Within P m
  read := Machine.read
  Fixed m := P.fixed m.mem
  num := id
  read_step := exec_read
  fixed_step hi := P.fixed_frame _ _ hi.memKeeps
  allowed_of_quiet {i _} hquiet := by
    cases i <;> first
      | exact absurd hquiet Bool.false_ne_true
      | exact ⟨fun _ hx => absurd hx List.not_mem_nil, fun _ hx => absurd hx List.not_mem_nil⟩
  read_movWide n imm m := by
    show (execs (movWide (.x n) imm) m).read (.x n) = imm
    rw [execs_movWide, Machine.read_write_x, if_pos rfl]

/-- **The frame rule**: a block changes what it may write. -/
theorem Walk.Visits.memKeeps (h : P.walk.Visits is m) : MemKeeps P.writes m (execs is m) := by
  induction is generalizing m with
  | nil => exact MemKeeps.refl _ _
  | cons i is ih => exact (Instr.Within.memKeeps h.1).trans (ih h.2)

/-- A larger permission. -/
theorem Walk.Visits.mono {Q : Footprint} (hr : ∀ x, P.reads x → Q.reads x)
    (hw : ∀ x, P.writes x → Q.writes x) (h : P.walk.Visits is m) : Q.walk.Visits is m := by
  induction is generalizing m with
  | nil => trivial
  | cons i is ih =>
    exact ⟨⟨fun x hx => hr x (h.1.1 x hx), fun x hx => hw x (h.1.2 x hx)⟩, ih h.2⟩

/-- A load from what may be read. -/
theorem within_ldr {rt : Gp} {a : Mem} (h : P.reads (a.resolve m).1) :
    (Instr.ldr rt a).Within P m :=
  ⟨fun x hx => by rw [List.mem_singleton.1 hx]; exact h, fun x hx => absurd hx List.not_mem_nil⟩

/-- A store to what may be written. -/
theorem within_str {rt : Gp} {a : Mem} (h : P.writes (a.resolve m).1) :
    (Instr.str rt a).Within P m :=
  ⟨fun x hx => absurd hx List.not_mem_nil, fun x hx => by rw [List.mem_singleton.1 hx]; exact h⟩

end Walk

/-! ### Code that stays within a footprint -/

/-- The next instruction at a place of the code.  At a `ret`, and behind the code, nothing
happens any more. -/
def advance (code : List Instr) (p : ℕ × Machine) : ℕ × Machine :=
  match code[p.1]? with
  | none => p
  | some (.ret _) => p
  | some (.b l) => (labelPos code l, p.2)
  | some (.bcond c l) => (if c.holds p.2.flags then labelPos code l else p.1 + 1, p.2)
  | some i => (p.1 + 1, exec i p.2)

/-- A core alone with the memory, after `n` instructions. -/
def solo (code : List Instr) (m : Machine) (n : ℕ) : ℕ × Machine := (advance code)^[n] (0, m)

section Advance

variable {code : List Instr} {p : ℕ × Machine}

/-- One instruction more. -/
theorem solo_succ (code : List Instr) (m : Machine) (n : ℕ) :
    solo code m (n + 1) = advance code (solo code m n) := Function.iterate_succ_apply' ..

/-- At a `ret` it stays. -/
theorem advance_of_ret {r : Gp} (h : code[p.1]? = some (.ret r)) : advance code p = p := by
  rw [advance, h]

/-- An instruction that does not branch. -/
theorem advance_of_straight {i : Instr} (h : code[p.1]? = some i) (hb : i.branches = false) :
    advance code p = (p.1 + 1, exec i p.2) := by
  rw [advance, h]
  cases i <;> first | rfl | cases hb

/-- A branch has no memory operand. -/
theorem Instr.within_of_branches {P : Footprint} {i : Instr} (hb : i.branches = true) (m : Machine) :
    i.Within P m := by
  refine P.walk.allowed_of_quiet ?_
  cases i <;> first | rfl | cases hb

end Advance

/-- Every instruction that is executed from `m` stays within the footprint. -/
def Stays (P : Footprint) (code : List Instr) (m : Machine) : Prop :=
  ∀ n i, code[(solo code m n).1]? = some i → i.Within P (solo code m n).2

/-- A straight-line kernel does if its block does. -/
theorem stays_of_visits {P : Footprint} {blk : List Instr} {r : Gp} (hs : Straight blk) {m : Machine}
    (h : P.walk.Visits blk m) : Stays P (blk ++ [.ret r]) m := by
  have hret : (blk ++ [Instr.ret r])[blk.length]? = some (.ret r) := by
    rw [List.getElem?_append_right (Nat.le_refl _), Nat.sub_self]
    rfl
  -- the core runs down the block and waits at its end
  have hsolo : ∀ n, (n ≤ blk.length ∧ solo (blk ++ [.ret r]) m n = (n, execs (blk.take n) m)) ∨
      solo (blk ++ [.ret r]) m n = (blk.length, execs blk m) := by
    intro n
    induction n with
    | zero => exact .inl ⟨Nat.zero_le _, rfl⟩
    | succ n ih =>
      rw [solo_succ]
      rcases ih with ⟨hn, he⟩ | he
      · rw [he]
        rcases Nat.lt_or_ge n blk.length with hlt | hge
        · have hi : (blk ++ [Instr.ret r])[n]? = some (blk.get ⟨n, hlt⟩) := by
            rw [List.getElem?_append_left hlt]
            exact List.getElem?_eq_getElem hlt
          refine .inl ⟨hlt, ?_⟩
          rw [advance_of_straight (p := (n, _)) hi (hs _ (List.get_mem ..)),
            List.take_add_one, List.getElem?_eq_getElem hlt, execs_append]
          rfl
        · obtain rfl : n = blk.length := by omega
          refine .inr ?_
          rw [advance_of_ret (p := (blk.length, _)) hret, List.take_length]
      · rw [he]
        exact .inr (advance_of_ret (p := (blk.length, _)) hret)
  have hend : ∀ m' i, (blk ++ [Instr.ret r])[blk.length]? = some i → i.Within P m' := by
    intro m' i hi
    rw [hret] at hi
    obtain rfl := Option.some.inj hi
    exact Instr.within_of_branches rfl m'
  intro n i hi
  rcases hsolo n with ⟨hn, he⟩ | he
  · rw [he] at hi ⊢
    rcases Nat.lt_or_ge n blk.length with hlt | hge
    · exact h.allowed ((List.getElem?_append_left hlt).symm.trans hi)
    · obtain rfl : n = blk.length := by omega
      exact hend _ i hi
  · rw [he] at hi ⊢
    exact hend _ i hi

end A64
end AarchGate
