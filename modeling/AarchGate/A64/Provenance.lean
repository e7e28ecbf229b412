/-
# Where addresses come from

A kernel is given a pointer and computes addresses from it.  Beside the machine we
follow what is known of each register (`Origin`): a number the code itself has written, the
pointer plus a known number of bytes, a value the pointer has no part in, or one that the
pointer went into in some other way.  `Instr.flow` is the effect of an instruction on this
knowledge, `Describes.exec` says that it stays true of the machine.

`ConfinedTo` is the property: on every run, each load and store whose address comes from the
pointer goes to one of the allowed addresses.  A straight-line kernel has it by a chain of
triples (`originWalk`), in which the code is taken block by block with what is known before and
after (`confinedTo_of_triple`); a kernel with branches has it by an invariant that every
instruction keeps (`confinedTo_of_invariant`).
-/

import AarchGate.A64.Walk
import Mathlib.Logic.Relation

namespace AarchGate
namespace A64

/-- What is known of a value, with respect to a pointer. -/
inductive Origin where
  | num (c : Word)
  | ptr (c : Word)
  | free
  | lost
  deriving DecidableEq, Repr

namespace Origin

/-- The pointer went into the value. -/
def fromBase : Origin → Bool
  | ptr _ | lost => true
  | num _ | free => false

/-- The result of an operation that is not followed. -/
def mix (x y : Origin) : Origin := if x.fromBase || y.fromBase then lost else free

/-- The sum. -/
def add : Origin → Origin → Origin
  | num a, num b => num (a + b)
  | ptr a, num b => ptr (a + b)
  | num a, ptr b => ptr (a + b)
  | x, y => mix x y

/-- A function of one value. -/
def map (f : Word → Word) : Origin → Origin
  | num a => num (f a)
  | x => mix x x

/-- The value is what is known of it, for the pointer `b`. -/
def Describes (b : Word) : Origin → Word → Prop
  | num c, v => v = c
  | ptr c, v => v = b + c
  | free, _ | lost, _ => True

/-- A value from the pointer is the pointer plus one of the offsets `S`. -/
def Within (S : Word → Prop) : Origin → Prop
  | ptr c => S c
  | lost => False
  | num _ | free => True

@[simp] theorem fromBase_num (c : Word) : (num c).fromBase = false := rfl

/-- A mixture has a part of the base if one of its parts has. -/
@[simp] theorem fromBase_mix (x y : Origin) : (mix x y).fromBase = (x.fromBase || y.fromBase) := by
  cases x <;> cases y <;> rfl

/-- So has a sum. -/
@[simp] theorem fromBase_add (x y : Origin) : (x.add y).fromBase = (x.fromBase || y.fromBase) := by
  cases x <;> cases y <;> rfl

/-- An operation on a number leaves a number. -/
@[simp] theorem fromBase_map (x : Origin) (f : Word → Word) : (x.map f).fromBase = x.fromBase := by
  cases x <;> rfl

/-- What is not from the base is no address. -/
theorem within_of_fromBase {S : Word → Prop} {x : Origin} (h : x.fromBase = false) : x.Within S := by
  cases x with
  | num | free => trivial
  | ptr | lost => cases h

/-- A mixture says nothing of the value. -/
theorem describes_mix (b : Word) (x y : Origin) (v : Word) : (mix x y).Describes b v := by
  unfold mix
  split_ifs <;> trivial

/-- A sum of two values. -/
theorem Describes.add {b : Word} {x y : Origin} {v w : Word} (hx : x.Describes b v)
    (hy : y.Describes b w) : (x.add y).Describes b (v + w) := by
  cases x with
  | num a =>
    cases y with
    | num c => exact congrArg₂ (· + ·) hx hy
    | ptr c =>
      show v + w = b + (a + c)
      rw [show v = a from hx, show w = b + c from hy]
      ac_rfl
    | free | lost => exact describes_mix ..
  | ptr a =>
    cases y with
    | num c =>
      show v + w = b + (a + c)
      rw [show v = b + a from hx, show w = c from hy, BitVec.add_assoc]
    | ptr | free | lost => exact describes_mix ..
  | free | lost => exact describes_mix ..

/-- An operation on one value. -/
theorem Describes.map {b : Word} {x : Origin} {v : Word} (hx : x.Describes b v) (f : Word → Word) :
    (x.map f).Describes b (f v) := by
  cases x <;> first
    | exact describes_mix ..
    | exact congrArg f hx

/-- What is described as within the offsets is there. -/
theorem Within.address {S : Word → Prop} {b v : Word} {x : Origin} (h : x.Within S)
    (hd : x.Describes b v) (hx : x.fromBase = true) : ∃ c, S c ∧ v = b + c := by
  cases x with
  | ptr c => exact ⟨c, h, hd⟩
  | lost => exact h.elim
  | num | free => cases hx

end Origin

/-- What is known of the registers. -/
abbrev Origins := Gp → Origin

namespace Origins

/-- What is known of the value an instruction reads. -/
def read (o : Origins) (r : Gp) : Origin := if r = .xzr then .num 0 else o r

/-- The knowledge after a register is written. -/
def write (o : Origins) (r : Gp) (x : Origin) : Origins :=
  if r = .xzr then o else fun r' => if r' = r then x else o r'

@[simp] theorem read_xzr (o : Origins) : o.read .xzr = .num 0 := rfl

/-- After a write to a numbered register. -/
@[simp] theorem read_write_x (o : Origins) (n : ℕ) (x : Origin) (r : Gp) :
    (o.write (.x n) x).read r = if r = .x n then x else o.read r := by
  unfold read write
  by_cases h : r = .x n
  · simp [h]
  · simp [h]

/-- After a write to `sp`. -/
@[simp] theorem read_write_sp (o : Origins) (x : Origin) (r : Gp) :
    (o.write .sp x).read r = if r = .sp then x else o.read r := by
  unfold read write
  by_cases h : r = .sp
  · simp [h]
  · simp [h]

/-- At the entry of a kernel: the pointer in `r`. -/
def entry (r : Gp) : Origins := fun r' => if r' = r then .ptr 0 else .free

end Origins

/-- What is known of an address. -/
def Mem.origin (o : Origins) : Mem → Origin
  | .off base imm => (o.read base).add (.num imm)
  | .idx base index => (o.read base).add (o.read index)
  | .idxLsl base index amount => (o.read base).add ((o.read index).map (· <<< amount))
  | .pre base imm => (o.read base).add (.num imm)
  | .post base _ => o.read base

/-- The write-back of an addressing mode. -/
def Mem.flow (o : Origins) : Mem → Origins
  | .pre base imm | .post base imm => o.write base ((o.read base).add (.num imm))
  | .off _ _ | .idx _ _ | .idxLsl _ _ _ => o

/-- The knowledge after an instruction. -/
def Instr.flow (o : Origins) : Instr → Origins
  | .movz rd imm shift => o.write rd (.num (imm.setWidth 64 <<< shift))
  | .movk rd imm shift => o.write rd ((o.read rd).map fun v =>
      (v &&& ~~~((0xFFFF : Word) <<< shift)) ||| (imm.setWidth 64 <<< shift))
  | .mov rd rn => o.write rd (o.read rn)
  | .movImm rd imm => o.write rd (.num imm)
  | .mvn rd rm | .neg rd rm => o.write rd ((o.read rm).mix (o.read rm))
  | .alu .add rd rn rm => o.write rd ((o.read rn).add (o.read rm))
  | .alu _ rd rn rm | .csel rd rn rm _ => o.write rd ((o.read rn).mix (o.read rm))
  | .andImm rd rn _ => o.write rd ((o.read rn).mix (o.read rn))
  | .addImm rd rn imm => o.write rd ((o.read rn).add (.num imm))
  | .addLsl rd rn rm amount => o.write rd ((o.read rn).add ((o.read rm).map (· <<< amount)))
  | .ldr rt a => (a.flow o).write rt .free
  | .str _ a | .stp _ _ a => a.flow o
  | .ldp rt rt2 a => ((a.flow o).write rt .free).write rt2 .free
  | .cset rd _ => o.write rd .free
  | .cmp _ _ | .cmpImm _ _ | .bind _ | .b _ | .bcond _ _ | .ret _ => o

/-- The addresses an instruction loads from or stores to. -/
def Instr.touches (m : Machine) : Instr → List Word
  | .ldr _ a | .str _ a => [(a.resolve m).1]
  | .ldp _ _ a | .stp _ _ a => [(a.resolve m).1, (a.resolve m).1 + 8]
  | _ => []

/-- What is known of them. -/
def Instr.touched (o : Origins) : Instr → List Origin
  | .ldr _ a | .str _ a => [a.origin o]
  | .ldp _ _ a | .stp _ _ a => [a.origin o, (a.origin o).add (.num 8)]
  | _ => []

/-! ### It is true of the machine -/

/-- The registers are as described, for the pointer `b`. -/
def Describes (b : Word) (o : Origins) (m : Machine) : Prop :=
  ∀ r, (o.read r).Describes b (m.read r)

section Sound

variable {b : Word} {o : Origins} {m : Machine}

/-- A register is written on both sides. -/
theorem Describes.write (h : Describes b o m) (r : Gp) {x : Origin} {v : Word}
    (hx : x.Describes b v) : Describes b (o.write r x) (m.write r v) := by
  intro r'
  by_cases hz : r = .xzr
  · rw [Origins.write, if_pos hz, Machine.write, if_pos hz]
    exact h r'
  · rw [m.read_write hz, Origins.write, if_neg hz, Origins.read]
    by_cases hr : r' = r
    · rw [if_neg (hr ▸ hz), if_pos hr, if_pos hr]
      exact hx
    · rw [if_neg hr, if_neg hr]
      exact h r'

/-- The memory has no origins. -/
theorem Describes.store (h : Describes b o m) (a v : Word) : Describes b o (m.store a v) := h

/-- An address, and its write-back. -/
theorem Describes.resolve (h : Describes b o m) (a : Mem) :
    (a.origin o).Describes b (a.resolve m).1 ∧ Describes b (a.flow o) (a.resolve m).2 := by
  cases a with
  | off base imm => exact ⟨(h base).add rfl, h⟩
  | idx base index => exact ⟨(h base).add (h index), h⟩
  | idxLsl base index amount => exact ⟨(h base).add ((h index).map _), h⟩
  | pre base imm => exact ⟨(h base).add rfl, h.write base ((h base).add rfl)⟩
  | post base imm => exact ⟨h base, h.write base ((h base).add rfl)⟩

/-- **The knowledge stays true.** -/
theorem Describes.exec (h : Describes b o m) (i : Instr) : Describes b (i.flow o) (exec i m) := by
  have hfree : ∀ v, Origin.free.Describes b v := fun _ => trivial
  cases i with
  | movz rd imm shift => exact h.write rd rfl
  | movk rd imm shift => exact h.write rd ((h rd).map _)
  | mov rd rn => exact h.write rd (h rn)
  | movImm rd imm => exact h.write rd rfl
  | mvn rd rm | neg rd rm => exact h.write rd (Origin.describes_mix ..)
  | alu op rd rn rm =>
    cases op with
    | add => exact h.write rd ((h rn).add (h rm))
    | and | orr | eor | bic | sub | lsl | lsr => exact h.write rd (Origin.describes_mix ..)
  | andImm rd rn imm => exact h.write rd (Origin.describes_mix ..)
  | addImm rd rn imm => exact h.write rd ((h rn).add rfl)
  | addLsl rd rn rm amount => exact h.write rd ((h rn).add ((h rm).map _))
  | ldr rt a => exact (h.resolve a).2.write rt (hfree _)
  | str rt a => exact (h.resolve a).2.store _ _
  | ldp rt rt2 a => exact ((h.resolve a).2.write rt (hfree _)).write rt2 (hfree _)
  | stp rt rt2 a => exact ((h.resolve a).2.store _ _).store _ _
  | cset rd c => exact h.write rd (hfree _)
  | csel rd rn rm c => exact h.write rd (Origin.describes_mix ..)
  | cmp | cmpImm | bind | b | bcond | ret => exact h

/-- And so are the addresses. -/
theorem Describes.touches (h : Describes b o m) (i : Instr) :
    List.Forall₂ (fun x A => x.Describes b A) (i.touched o) (i.touches m) := by
  cases i with
  | ldr rt a | str rt a => exact .cons (h.resolve a).1 .nil
  | ldp rt rt2 a | stp rt rt2 a =>
    exact .cons (h.resolve a).1 (.cons ((h.resolve a).1.add rfl) .nil)
  | _ => exact .nil

end Sound

/-! ### Runs -/

/-- A place in the code, the machine there and what is known of its registers. -/
structure Point where
  pc : ℕ
  machine : Machine
  origins : Origins

/-- One step of a run. -/
inductive Step (code : List Instr) : Point → Point → Prop where
  | next {p : Point} {i : Instr} (hi : code[p.pc]? = some i) (hb : i.branches = false) :
      Step code p ⟨p.pc + 1, exec i p.machine, i.flow p.origins⟩
  | b {p : Point} {l : ℕ} (hi : code[p.pc]? = some (.b l)) :
      Step code p ⟨labelPos code l, p.machine, p.origins⟩
  | taken {p : Point} {c : Cond} {l : ℕ} (hi : code[p.pc]? = some (.bcond c l))
      (hc : c.holds p.machine.flags = true) :
      Step code p ⟨labelPos code l, p.machine, p.origins⟩
  | untaken {p : Point} {c : Cond} {l : ℕ} (hi : code[p.pc]? = some (.bcond c l))
      (hc : c.holds p.machine.flags = false) : Step code p ⟨p.pc + 1, p.machine, p.origins⟩

/-- The points of the runs from `p`. -/
abbrev Reaches (code : List Instr) : Point → Point → Prop := Relation.ReflTransGen (Step code)

/-- An instruction at `p` has touched an address `A` that comes from the pointer. -/
def TouchesFromBase (code : List Instr) (p : Point) (A : Word) : Prop :=
  ∃ i x, code[p.pc]? = some i ∧ (x, A) ∈ (i.touched p.origins).zip (i.touches p.machine) ∧
    x.fromBase = true

/-- **Confinement**: on every run of the code from a machine with the pointer in `r`, the loads
and stores that come from the pointer stay at the offsets `S` from it. -/
def ConfinedTo (S : Word → Prop) (r : Gp) (code : List Instr) : Prop :=
  ∀ m p A, Reaches code ⟨0, m, .entry r⟩ p → TouchesFromBase code p A → ∃ c, S c ∧ A = m.read r + c

section Runs

variable {code : List Instr} {b : Word} {S : Word → Prop}

/-- One step keeps the description. -/
theorem Step.describes {p q : Point} (h : Step code p q) (hd : Describes b p.origins p.machine) :
    Describes b q.origins q.machine := by
  cases h with
  | next hi hb => exact hd.exec _
  | b | taken | untaken => exact hd

/-- So do several. -/
theorem Reaches.describes {p q : Point} (h : Reaches code p q)
    (hd : Describes b p.origins p.machine) : Describes b q.origins q.machine := by
  induction h with
  | refl => exact hd
  | tail _ hstep ih => exact hstep.describes ih

/-- At the entry one register holds the base. -/
theorem describes_entry (m : Machine) (n : ℕ) :
    Describes (m.read (.x n)) (.entry (.x n)) m := by
  intro r
  unfold Origins.read Origins.entry
  split_ifs with hz hr
  · rw [hz]
    rfl
  · rw [hr]
    exact (BitVec.add_zero _).symm
  · trivial

/-- What an instruction touches is as described. -/
theorem Describes.of_zip {o : Origins} {m : Machine} (h : Describes b o m) {i : Instr} {x : Origin}
    {A : Word} (hx : (x, A) ∈ (i.touched o).zip (i.touches m)) : x.Describes b A := by
  have hall := h.touches i
  generalize i.touched o = xs, i.touches m = As at hall hx
  induction hall with
  | nil => cases hx
  | cons hd _ ih =>
    rcases List.mem_cons.1 hx with hx | hx
    · cases hx
      exact hd
    · exact ih hx

/-- It is enough that the origins are within the offsets wherever the code comes. -/
theorem confinedTo_of_within {n : ℕ}
    (h : ∀ m p, Reaches code ⟨0, m, .entry (.x n)⟩ p → ∀ i, code[p.pc]? = some i →
      ∀ x ∈ i.touched p.origins, x.Within S) : ConfinedTo S (.x n) code := by
  rintro m p A hreach ⟨i, x, hi, hx, hbase⟩
  have hd := (hreach.describes (describes_entry m n)).of_zip hx
  exact (h m p hreach i hi x (List.of_mem_zip hx).1).address hd hbase

/-- **Invariants**: what every instruction keeps holds on every run, branches or not. -/
theorem confinedTo_of_invariant {n : ℕ} {J : Origins → Prop} (hentry : J (.entry (.x n)))
    (hkeep : ∀ i ∈ code, ∀ o, J o → J (i.flow o) ∧ ∀ x ∈ i.touched o, x.Within S) :
    ConfinedTo S (.x n) code := by
  refine confinedTo_of_within fun m p hreach => ?_
  have hJ : J p.origins := by
    induction hreach with
    | refl => exact hentry
    | tail _ hstep ih =>
      cases hstep with
      | next hi' hb => exact (hkeep _ (List.mem_of_getElem? hi') _ ih).1
      | b | taken | untaken => exact ih
  exact fun i hi => (hkeep i (List.mem_of_getElem? hi) _ hJ).2

end Runs

/-! ### Straight-line code -/

/-- The knowledge after a block. -/
def flows (is : List Instr) (o : Origins) : Origins := is.foldl Instr.flow o

@[simp] theorem flows_nil (o : Origins) : flows [] o = o := rfl

@[simp] theorem flows_cons (i : Instr) (is : List Instr) (o : Origins) :
    flows (i :: is) o = flows is (i.flow o) := rfl

/-- One block after the other. -/
@[simp] theorem flows_append (is js : List Instr) (o : Origins) :
    flows (is ++ js) o = flows js (flows is o) := by
  simp [flows]

/-! ### Knowledge about some registers -/

/-- Another register has its origin as before. -/
theorem Origins.read_write_ne (o : Origins) {r r' : Gp} (h : r' ≠ r) (x : Origin) :
    (o.write r x).read r' = o.read r' := by
  unfold read write
  split_ifs
  · rfl
  · rfl
  · exact if_neg h

/-- The write-back concerns the base only. -/
theorem Mem.flow_read {o : Origins} {a : Mem} {r : Gp} (h : r ∉ a.dest) :
    (a.flow o).read r = o.read r := by
  cases a with
  | pre | post => exact o.read_write_ne (mt List.mem_singleton.2 h) _
  | off | idx | idxLsl => rfl

/-- The other registers keep what is known of them. -/
theorem Instr.flow_read {o : Origins} {i : Instr} {r : Gp} (h : r ∉ i.dest) :
    (i.flow o).read r = o.read r := by
  cases i with
  | ldr rt a =>
    obtain ⟨hrt, ha⟩ := not_or.1 (mt List.mem_cons.2 h)
    exact (Origins.read_write_ne _ hrt _).trans (Mem.flow_read ha)
  | ldp rt rt2 a =>
    obtain ⟨hrt, h⟩ := not_or.1 (mt List.mem_cons.2 h)
    obtain ⟨hrt2, ha⟩ := not_or.1 (mt List.mem_cons.2 h)
    exact (Origins.read_write_ne _ hrt2 _).trans
      ((Origins.read_write_ne _ hrt _).trans (Mem.flow_read ha))
  | str rt a | stp rt rt2 a => exact Mem.flow_read h
  | alu op => cases op <;> exact o.read_write_ne (mt List.mem_singleton.2 h) _
  | cmp | cmpImm | bind | b | bcond | ret => rfl
  | _ => exact o.read_write_ne (mt List.mem_singleton.2 h) _

/-- A block leaves alone the registers that it does not write. -/
theorem flows_read {is : List Instr} {r : Gp} (h : ∀ i ∈ is, r ∉ i.dest) (o : Origins) :
    (flows is o).read r = o.read r := by
  induction is generalizing o with
  | nil => rfl
  | cons i is ih =>
    rw [flows_cons, ih fun j hj => h j (List.mem_cons_of_mem _ hj),
      Instr.flow_read (h i (List.mem_cons_self ..))]

/-- The registers an address is computed from. -/
def Mem.sources : Mem → List Gp
  | .off base _ | .pre base _ | .post base _ => [base]
  | .idx base index | .idxLsl base index _ => [base, index]

/-- The registers an instruction computes a value or an address from. -/
def Instr.sources : Instr → List Gp
  | .movz _ _ _ | .movImm _ _ | .cset _ _ | .cmp _ _ | .cmpImm _ _ | .bind _ | .b _ | .bcond _ _
  | .ret _ => []
  | .movk r _ _ | .mov _ r | .mvn _ r | .neg _ r | .andImm _ r _ | .addImm _ r _ => [r]
  | .alu _ _ rn rm | .csel _ rn rm _ | .addLsl _ rn rm _ => [rn, rm]
  | .ldr _ a | .str _ a | .stp _ _ a | .ldp _ _ a => a.sources

/-- The pointer is in no further register. -/
def Spreads (o o' : Origins) : Prop := ∀ r, o'.read r = o.read r ∨ (o'.read r).fromBase = false

/-- Nothing has changed. -/
theorem Spreads.refl (o : Origins) : Spreads o o := fun _ => .inl rfl

/-- A value that is not from the base is written. -/
theorem Spreads.write {o o' : Origins} (h : Spreads o o') (r : Gp) {x : Origin}
    (hx : x.fromBase = false) : Spreads o (o'.write r x) := by
  intro q
  unfold Origins.read Origins.write
  by_cases hr : r = .xzr
  · rw [if_pos hr]
    exact h q
  · rw [if_neg hr]
    by_cases hq : q = r
    · right
      rw [hq, if_neg hr, if_pos rfl, hx]
    · simp only [if_neg hq]
      exact h q

/-- An address that is not from the base. -/
theorem Mem.spreads {o : Origins} {a : Mem} (h : ∀ r ∈ a.sources, (o.read r).fromBase = false) :
    Spreads o (a.flow o) ∧ (a.origin o).fromBase = false := by
  cases a with
  | off base imm => exact ⟨.refl o, by simpa [Mem.origin, Mem.sources] using h⟩
  | idx base index => exact ⟨.refl o, by simpa [Mem.origin, Mem.sources] using h⟩
  | idxLsl base index amount => exact ⟨.refl o, by simpa [Mem.origin, Mem.sources] using h⟩
  | pre base imm | post base imm =>
    have hbase : (o.read base).fromBase = false := h base (List.mem_cons_self ..)
    exact ⟨(Spreads.refl o).write _ (by simp [hbase]),
      by simp [Mem.origin, hbase]⟩

/-- **Code that computes with other values** leaves the pointer where it is, and touches no
address that comes from it. -/
theorem Instr.spreads {o : Origins} {i : Instr} (h : ∀ r ∈ i.sources, (o.read r).fromBase = false) :
    Spreads o (i.flow o) ∧ ∀ x ∈ i.touched o, x.fromBase = false := by
  have hnone : ∀ x ∈ ([] : List Origin), x.fromBase = false := fun x hx => absurd hx List.not_mem_nil
  have hrefl := Spreads.refl o
  cases i with
  | movz | movImm | cset => exact ⟨hrefl.write _ rfl, hnone⟩
  | movk | mov | mvn | neg | andImm | addImm | csel | addLsl =>
    exact ⟨hrefl.write _ (by simpa [Instr.sources] using h), hnone⟩
  | alu op => cases op <;> exact ⟨hrefl.write _ (by simpa [Instr.sources] using h), hnone⟩
  | ldr rt a =>
    obtain ⟨hflow, haddr⟩ := Mem.spreads h
    exact ⟨hflow.write _ rfl, by simpa [Instr.touched] using haddr⟩
  | str rt a =>
    obtain ⟨hflow, haddr⟩ := Mem.spreads h
    exact ⟨hflow, by simpa [Instr.touched] using haddr⟩
  | stp rt rt2 a =>
    obtain ⟨hflow, haddr⟩ := Mem.spreads h
    exact ⟨hflow, by simpa [Instr.touched] using haddr⟩
  | ldp rt rt2 a =>
    obtain ⟨hflow, haddr⟩ := Mem.spreads h
    exact ⟨(hflow.write _ rfl).write _ rfl, by simpa [Instr.touched] using haddr⟩
  | cmp | cmpImm | bind | b | bcond | ret => exact ⟨hrefl, hnone⟩

/-- The four move-wide instructions load the immediate. -/
theorem flows_movWide (o : Origins) (n : ℕ) (imm : Word) (r : Gp) :
    (flows (movWide (.x n) imm) o).read r = if r = .x n then .num imm else o.read r := by
  have hread := congrArg (fun m => m.read (.x n)) (execs_movWide ⟨fun _ => 0, ⟨false, false, false, false⟩,
    fun _ => 0⟩ n imm)
  simp only [movWide, execs_cons, execs_nil, exec, Machine.write_write, Machine.read_write_x,
    if_true] at hread
  simp only [movWide, flows_cons, flows_nil, Instr.flow, Origins.read_write_x, if_true, Origin.map,
    hread]
  split_ifs <;> rfl

/-- **Following the origins**: the addresses from the pointer stay at the offsets `S`. -/
def originWalk (S : Word → Prop) : Walk Origins Origin where
  step i o := i.flow o
  Allowed i o := ∀ x ∈ i.touched o, x.Within S
  read := Origins.read
  Fixed _ := True
  num := .num
  read_step := Instr.flow_read
  fixed_step _ _ := trivial
  allowed_of_quiet {i _} hquiet x hx := by
    cases i <;> first
      | exact absurd hquiet Bool.false_ne_true
      | exact absurd hx List.not_mem_nil
  read_movWide n imm o := (flows_movWide o n imm (.x n)).trans (if_pos rfl)

/-! ### Kernels -/

/-- The points of a straight-line kernel. -/
theorem reaches_straight {blk : List Instr} {r : Gp} (hs : Straight blk) {m : Machine} {o : Origins}
    {p : Point} (h : Reaches (blk ++ [.ret r]) ⟨0, m, o⟩ p) :
    p.pc ≤ blk.length ∧ p.origins = flows (blk.take p.pc) o := by
  induction h with
  | refl => exact ⟨Nat.zero_le _, rfl⟩
  | @tail q _ _ hstep ih =>
    obtain ⟨hle, horig⟩ := ih
    -- the only instruction that branches is the last one, and it has no successor
    have hstraight : ∀ i, (blk ++ [Instr.ret r])[q.pc]? = some i → i.branches = true →
        i = .ret r := by
      intro i hi hb
      rcases List.mem_append.1 (List.mem_of_getElem? hi) with hmem | hmem
      · rw [hs i hmem] at hb
        cases hb
      · exact List.mem_singleton.1 hmem
    cases hstep with
    | @next i hi hb =>
      have hlt : q.pc < blk.length := by
        by_contra hge
        rw [List.getElem?_append_right (by omega), show q.pc - blk.length = 0 by omega] at hi
        cases hi
        cases hb
      rw [List.getElem?_append_left hlt] at hi
      refine ⟨hlt, ?_⟩
      show i.flow q.origins = flows (blk.take (q.pc + 1)) o
      rw [List.take_add_one, hi, Option.toList_some, flows_append, ← horig]
      rfl
    | b hi => cases hstraight _ hi rfl
    | taken hi _ => cases hstraight _ hi rfl
    | untaken hi _ => cases hstraight _ hi rfl

/-- **A straight-line kernel is confined** if its blocks are. -/
theorem confinedTo_of_triple {S : Word → Prop} {n : ℕ} {blk : List Instr} {r : Gp}
    (hs : Straight blk) {B : Origins → Prop}
    (h : (originWalk S).Triple (· = .entry (.x n)) blk B) :
    ConfinedTo S (.x n) (blk ++ [.ret r]) := by
  refine confinedTo_of_within fun m p hreach i hi x hx => ?_
  obtain ⟨hle, horig⟩ := reaches_straight hs hreach
  rcases Nat.lt_or_ge p.pc blk.length with hlt | hge
  · rw [List.getElem?_append_left hlt] at hi
    rw [horig] at hx
    exact (h _ rfl).1.allowed hi x hx
  · rw [List.getElem?_append_right hge, show p.pc - blk.length = 0 by omega] at hi
    cases hi
    cases hx

/-- A run goes through a straight-line block. -/
theorem reaches_block {code : List Instr} (pre blk post : List Instr) (hc : code = pre ++ blk ++ post)
    (hb : Straight blk) (m : Machine) (o : Origins) :
    Reaches code ⟨pre.length, m, o⟩ ⟨(pre ++ blk).length, execs blk m, flows blk o⟩ := by
  induction blk generalizing pre m o with
  | nil => simpa using Relation.ReflTransGen.refl
  | cons i blk ih =>
    have hi : code[pre.length]? = some i := by
      rw [hc, List.append_assoc, List.getElem?_append_right (Nat.le_refl _)]
      simp
    have hrest := ih (pre ++ [i]) (by rw [hc]; simp) (fun j hj => hb j (List.mem_cons_of_mem _ hj))
      (exec i m) (i.flow o)
    rw [List.length_append, List.length_singleton] at hrest
    refine Relation.ReflTransGen.head (.next hi (hb i (List.mem_cons_self ..))) ?_
    simpa using hrest

/-- **An address outside**: a load or store of the pointer plus `c` that a run comes to. -/
theorem not_confinedTo {S : Word → Prop} {n : ℕ} {code : List Instr} {m : Machine} {p : Point}
    (hreach : Reaches code ⟨0, m, .entry (.x n)⟩ p) {i : Instr} (hi : code[p.pc]? = some i)
    {c : Word} (htouch : (i.touched p.origins).head? = some (.ptr c)) (hc : ¬S c) :
    ¬ConfinedTo S (.x n) code := by
  intro hconf
  have hall := (hreach.describes (describes_entry m n)).touches i
  have htouches : ∃ A rest rest', i.touched p.origins = .ptr c :: rest ∧
      i.touches p.machine = A :: rest' ∧ A = m.read (.x n) + c := by
    cases hx : i.touched p.origins with
    | nil => rw [hx] at htouch; cases htouch
    | cons x rest =>
      rw [hx] at htouch hall
      obtain rfl := Option.some.inj htouch
      cases hA : i.touches p.machine with
      | nil => rw [hA] at hall; cases hall
      | cons A rest' =>
        rw [hA] at hall
        obtain ⟨hd, -⟩ := List.forall₂_cons.1 hall
        exact ⟨A, rest, rest', rfl, rfl, hd⟩
  obtain ⟨A, rest, rest', hx, hA, rfl⟩ := htouches
  obtain ⟨c', hc', heq⟩ := hconf m p (m.read (.x n) + c) hreach
    ⟨i, .ptr c, hi, by rw [hx, hA]; exact List.mem_cons_self .., rfl⟩
  exact hc ((BitVec.add_right_inj _).1 heq ▸ hc')

end A64
end AarchGate
