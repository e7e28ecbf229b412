/-
# The cache over a whole run

The compiler calls `store_slot` and `load_slot` (`src/jit/compiler.cpp`) in any
order, and emits code of its own in between: stores that go to scratchpad words
directly, and code on other registers.  A `CacheOp` is one of these, and `emits`
is what a list of them emits, with the cache as it is left at compile time.

`S` is the set of the slots the cache is used for; direct stores stay out of it.
Slots are non-negative `int`s, so that their byte offsets do not wrap (`SmallSlot`).
`Cached` is the invariant between two operations (`Cached.step`).  Run from any
machine, the emitted code leaves the cache coherent, and a load delivers what was
last stored to its slot, or what was in memory at the start if nothing was
(`cache_run`).
-/

import AarchGate.Jit.CacheExec

namespace AarchGate
namespace Jit

open A64

/-- One operation of the compiler around the cache.  The value and destination
registers of the cache operations are given by their numbers. -/
inductive CacheOp
  | store (slot : ℤ) (val : ℕ)
  | load (slot : ℤ) (dest : ℕ)
  | direct (slot : ℤ) (val : Gp)
  | other (code : List Instr)

/-- What an operation emits, and the cache after it. -/
def CacheOp.emit (c : ScratchpadCache) : CacheOp → List Instr × ScratchpadCache
  | .store slot val => c.storeSlot slot (.x val)
  | .load slot dest => c.loadSlot slot (.x dest)
  | .direct slot val =>
      (movWide tempPtr (byteOffset slot) ++ [.str val (.idx scratchPtr tempPtr)], c)
  | .other code => (code, c)

/-- What a list of operations emits, and the cache after them. -/
def emits (c : ScratchpadCache) : List CacheOp → List Instr × ScratchpadCache
  | [] => ([], c)
  | op :: ops => ((op.emit c).1 ++ (emits (op.emit c).2 ops).1, (emits (op.emit c).2 ops).2)

/-- The code kept the cache registers, the scratchpad pointer and the words of `S`. -/
structure KeepsCached (S : ℤ → Prop) (m m' : Machine) : Prop where
  cache : ∀ k < 8, m'.read (cacheReg k) = m.read (cacheReg k)
  pointer : m'.read scratchPtr = m.read scratchPtr
  words : ∀ s, S s → slotWord m' s = slotWord m s

/-- The operations allowed when the cache is used for the slots `S`: the
registers given to the cache are not its own, and what is emitted in between
stays away from it. -/
def CacheOp.Allowed (S : ℤ → Prop) : CacheOp → Prop
  | .store slot val => S slot ∧ ¬CacheScratch val
  | .load slot dest => S slot ∧ ¬CacheScratch dest ∧ dest ≠ 20
  | .direct slot _ => SmallSlot slot ∧ ¬S slot
  | .other code => Straight code ∧ ∀ m, KeepsCached S m (execs code m)

/-- One sequence after the other. -/
theorem emits_append (c : ScratchpadCache) (ops ops' : List CacheOp) :
    emits c (ops ++ ops') =
      ((emits c ops).1 ++ (emits (emits c ops).2 ops').1, (emits (emits c ops).2 ops').2) := by
  induction ops generalizing c with
  | nil => rfl
  | cons op ops ih => simp only [List.cons_append, emits, ih, List.append_assoc]

section Run

variable {S : ℤ → Prop} {c : ScratchpadCache} {m : Machine} {op : CacheOp} {ops : List CacheOp}

/-- The code has no branches, so that it runs as a block. -/
theorem CacheOp.Allowed.straight (h : op.Allowed S) : Straight (op.emit c).1 := by
  cases op with
  | store slot val => exact (plain_storeSlot (S := fun _ => True) c slot (.x val)).straight
  | load slot dest => exact (plain_loadSlot (S := fun _ => True) c slot (.x dest)).straight
  | direct slot val =>
    have hmov : Plain (fun _ => True) (movWide tempPtr (byteOffset slot)) := plain_movWide _ _
    exact straight_append.2 ⟨hmov.straight, by simp [Instr.branches]⟩
  | other code => exact h.1

/-- It does not branch. -/
theorem straight_emits (h : ∀ op ∈ ops, op.Allowed S) : Straight (emits c ops).1 := by
  induction ops generalizing c with
  | nil => exact straight_nil
  | cons op ops ih =>
    obtain ⟨hop, hops⟩ := List.forall_mem_cons.1 h
    exact straight_append.2 ⟨hop.straight, ih hops⟩

/-- A direct store to another slot. -/
theorem keepsCached_direct (hS : ∀ s, S s → SmallSlot s) {slot : ℤ} (hslot : SmallSlot slot)
    (hout : ¬S slot) (val : Gp) :
    KeepsCached S m (execs ((CacheOp.direct slot val).emit c).1 m) := by
  set w := (m.write tempPtr (byteOffset slot)).read val
  have he : execs ((CacheOp.direct slot val).emit c).1 m =
      (m.write tempPtr (byteOffset slot)).store (slotAddr m slot) w := by
    simp [CacheOp.emit, execs_movWide, slotAddr, w]
  rw [he]
  refine ⟨fun k hk => ?_, by simp, fun s hs => ?_⟩
  · simp only [Machine.read_store, Machine.read_write_x, Gp.x.injEq]
    rw [if_neg (by omega)]
  · have hne : slotAddr m s ≠ slotAddr m slot := fun h =>
      hout ((slotAddr_inj m (hS s hs) hslot).1 h ▸ hs)
    show (if slotAddr m s = slotAddr m slot then w else m.mem (slotAddr m s)) = slotWord m s
    rw [if_neg hne, slotWord]

/-- The invariant between two operations. -/
structure Cached (S : ℤ → Prop) (c : ScratchpadCache) (m : Machine) : Prop where
  coherent : Coherent c m
  within : Within S c

/-- The empty cache. -/
theorem cached_init (m : Machine) : Cached S .init m :=
  ⟨coherent_init m, fun s r h => by simp [ScratchpadCache.init] at h⟩

/-- What one operation does: the invariant is kept, a store leaves the value in
its word, and the other words of `S` stay as they are. -/
structure OpDone (S : ℤ → Prop) (c : ScratchpadCache) (m : Machine) (op : CacheOp) : Prop where
  cached : Cached S (op.emit c).2 (execs (op.emit c).1 m)
  stored : ∀ slot val, op = .store slot val →
    slotWord (execs (op.emit c).1 m) slot = m.read (.x val)
  kept : ∀ s, S s → (∀ val, op ≠ .store s val) →
    slotWord (execs (op.emit c).1 m) s = slotWord m s

/-- Code that stays apart is an operation without a store. -/
theorem Cached.keepsCached (h : Cached S c m) {code : List Instr} (hcache : op.emit c = (code, c))
    (hstore : ∀ slot val, op ≠ .store slot val) (ha : KeepsCached S m (execs code m)) :
    OpDone S c m op := by
  refine ⟨?_, fun slot val he => absurd he (hstore slot val), ?_⟩
  · rw [hcache]
    exact ⟨h.coherent.frame ha.cache fun s r hr => ha.words s (h.within s r hr), h.within⟩
  · intro s hs _
    rw [hcache]
    exact ha.words s hs

/-- **One operation.** -/
theorem Cached.step (hS : ∀ s, S s → SmallSlot s) (h : Cached S c m) (hop : op.Allowed S) :
    OpDone S c m op := by
  cases op with
  | store slot val =>
    obtain ⟨hslot, hval⟩ := hop
    obtain ⟨hcoh, hmem, -, hregs⟩ :=
      storeSlot_exec h.coherent (h.within.mono hS) (hS slot hslot) hval
    have haddr (s : ℤ) : slotAddr (execs (c.storeSlot slot (.x val)).1 m) s = slotAddr m s := by
      rw [slotAddr, slotAddr, hregs 20 (by simp [CacheScratch])]
    refine ⟨⟨hcoh, h.within.storeSlot hslot _⟩, ?_, ?_⟩
    · rintro _ _ ⟨⟩
      rw [CacheOp.emit, slotWord, haddr, hmem]
      exact if_pos rfl
    · intro s hs hne
      rw [CacheOp.emit, slotWord, haddr, hmem]
      refine if_neg fun he => hne val ?_
      rw [(slotAddr_inj m (hS s hs) (hS slot hslot)).1 he]
  | load slot dest =>
    obtain ⟨hslot, hdest, hdest20⟩ := hop
    obtain ⟨hcoh, -, hmem, -, hregs⟩ := loadSlot_exec h.coherent (hS slot hslot) hdest hdest20
    refine ⟨⟨hcoh, h.within.loadSlot hslot _⟩, fun _ _ he => CacheOp.noConfusion he,
      fun s _ _ => ?_⟩
    rw [CacheOp.emit, slotWord, slotAddr, hmem, hregs 20 hdest20.symm (by simp [CacheScratch])]
    rfl
  | direct slot val =>
    exact h.keepsCached rfl (fun _ _ => CacheOp.noConfusion)
      (keepsCached_direct (c := c) hS hop.1 hop.2 val)
  | other code => exact h.keepsCached rfl (fun _ _ => CacheOp.noConfusion) (hop.2 m)

/-- **A run.**  The invariant is kept, and with it the word of every slot that the
operations do not store to. -/
theorem Cached.emits (hS : ∀ s, S s → SmallSlot s) (h : Cached S c m)
    (hops : ∀ op ∈ ops, op.Allowed S) :
    Cached S (emits c ops).2 (execs (emits c ops).1 m) ∧
      ∀ s, S s → (∀ op ∈ ops, ∀ val, op ≠ .store s val) →
        slotWord (execs (emits c ops).1 m) s = slotWord m s := by
  induction ops generalizing c m with
  | nil => exact ⟨h, fun s _ _ => rfl⟩
  | cons op ops ih =>
    obtain ⟨hop, hops⟩ := List.forall_mem_cons.1 hops
    have hstep := h.step hS hop
    obtain ⟨hcached, hwords⟩ := ih hstep.cached hops
    rw [Jit.emits, execs_append]
    refine ⟨hcached, fun s hs hnone => ?_⟩
    obtain ⟨hfirst, hrest⟩ := List.forall_mem_cons.1 hnone
    rw [hwords s hs hrest, hstep.kept s hs hfirst]

/-- What a slot holds after a run with a last store to it. -/
theorem Cached.last_store (hS : ∀ s, S s → SmallSlot s) (h : Cached S c m) {pre post : List CacheOp}
    {s : ℤ} {val : ℕ} (hops : ∀ op ∈ pre ++ .store s val :: post, op.Allowed S)
    (hlast : ∀ op ∈ post, ∀ w, op ≠ .store s w) :
    slotWord (execs (Jit.emits c (pre ++ .store s val :: post)).1 m) s =
      (execs (Jit.emits c pre).1 m).read (.x val) := by
  obtain ⟨hpre, hrest⟩ := List.forall_mem_append.1 hops
  obtain ⟨hstore, hpost⟩ := List.forall_mem_cons.1 hrest
  have hbefore := (h.emits hS hpre).1
  have hstep := hbefore.step hS hstore
  rw [emits_append, execs_append, Jit.emits, execs_append,
    (hstep.cached.emits hS hpost).2 s hstore.1 hlast, hstep.stored s val rfl]

end Run

/-- **The cache is coherent over every run.**  From any machine: the maps are
mutually inverse and each mapped register holds the word of its slot; a load after
the run delivers the value of the last store to its slot, as the value register was
then, or the word that was there at the start. -/
theorem cache_run {S : ℤ → Prop} (hS : ∀ s, S s → SmallSlot s) {ops : List CacheOp}
    (hops : ∀ op ∈ ops, op.Allowed S) (m : Machine) :
    Straight (emits .init ops).1 ∧ Coherent (emits .init ops).2 (execs (emits .init ops).1 m) ∧
      ∀ s dest, (CacheOp.load s dest).Allowed S →
        let got := (execs (emits .init (ops ++ [.load s dest])).1 m).read (.x dest)
        (∀ pre val post, ops = pre ++ .store s val :: post →
            (∀ op ∈ post, ∀ w, op ≠ .store s w) →
            got = (execs (emits .init pre).1 m).read (.x val)) ∧
          ((∀ op ∈ ops, ∀ w, op ≠ .store s w) → got = slotWord m s) := by
  obtain ⟨hcached, hwords⟩ := (cached_init m).emits hS hops
  refine ⟨straight_emits hops, hcached.coherent, fun s dest hload => ?_⟩
  obtain ⟨hs, hdest, hdest20⟩ := hload
  have hgot : (execs (emits .init (ops ++ [.load s dest])).1 m).read (.x dest) =
      slotWord (execs (emits .init ops).1 m) s := by
    rw [emits_append, execs_append]
    simp only [emits, List.append_nil, CacheOp.emit]
    exact (loadSlot_exec hcached.coherent (hS s hs) hdest hdest20).2.1
  refine ⟨fun pre val post he hlast => ?_, fun hnone => hgot.trans (hwords s hs hnone)⟩
  subst he
  exact hgot.trans ((cached_init m).last_store hS hops hlast)

/-- A store to slot 0, a direct store, and loads of eight other slots, which take
all the registers. -/
def nineSlots : List CacheOp :=
  .store 0 4 :: .direct 9 .xzr :: (List.range 8).map fun k : ℕ => .load (k + 1) 2

/-- Nine slots are allowed. -/
theorem nineSlots_allowed : ∀ op ∈ nineSlots, op.Allowed fun s => 0 ≤ s ∧ s < 9 := by
  intro op hop
  simp only [nineSlots, List.mem_cons, List.mem_map, List.mem_range] at hop
  obtain rfl | rfl | ⟨k, hk, rfl⟩ := hop
  · exact ⟨by omega, by simp [CacheScratch]⟩
  · exact ⟨⟨by omega, by omega⟩, by omega⟩
  · exact ⟨by omega, by simp [CacheScratch], by omega⟩

/-- The value of slot 0 is then read from memory. -/
theorem cache_run_nine :
    let m : Machine :=
      ⟨fun r => if r = .x 4 then 7 else 0, ⟨false, false, false, false⟩, fun _ => 0⟩
    (execs (emits .init (nineSlots ++ [.load 0 2])).1 m).read (.x 2) = 7 := by
  intro m
  have hload : (CacheOp.load 0 2).Allowed fun s => 0 ≤ s ∧ s < 9 :=
    ⟨by omega, by simp [CacheScratch], by omega⟩
  have hrun := cache_run (fun s hs => ⟨hs.1, by omega⟩) nineSlots_allowed m
  refine (hrun.2.2 0 2 hload).1 [] 4 _ rfl ?_
  intro op hop w
  simp only [List.mem_cons, List.mem_map] at hop
  obtain rfl | ⟨k, -, rfl⟩ := hop
  · exact CacheOp.noConfusion
  · exact CacheOp.noConfusion

end Jit
end AarchGate
