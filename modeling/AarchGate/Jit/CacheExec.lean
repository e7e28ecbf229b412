/-
# What the cache operations do to the machine

The effect of the code `store_slot` and `load_slot` emit, on a machine the cache
is coherent with.  A load delivers the word of its slot and changes no memory;
a store writes the word through to memory.  Both leave the cache coherent with
the new machine, and touch no register but the temporary `x22`, the cache
registers and the destination.
-/

import AarchGate.Jit.Layout

namespace AarchGate
namespace Jit

open A64 Ir

/-- The slots whose byte offsets do not wrap around. -/
def SmallSlot (s : ℤ) : Prop := 0 ≤ s ∧ s < 2 ^ 61

/-- Slots have addresses of their own. -/
theorem slotAddr_inj (m : Machine) {s t : ℤ} (hs : SmallSlot s) (ht : SmallSlot t) :
    slotAddr m s = slotAddr m t ↔ s = t := by
  obtain ⟨i, rfl⟩ := Int.eq_ofNat_of_zero_le hs.1
  obtain ⟨j, rfl⟩ := Int.eq_ofNat_of_zero_le ht.1
  have hi := hs.2
  have hj := ht.2
  have h := @wordAt_inj (m.read scratchPtr) i j (by omega) (by omega)
  unfold slotAddr
  rw [byteOffset_natCast, byteOffset_natCast]
  rw [wordAt, wordAt] at h
  rw [h, Int.natCast_inj]

/-- The registers a cache operation may write besides its destination. -/
def CacheScratch (n : ℕ) : Prop := n = 22 ∨ 8 ≤ n ∧ n < 16

/-- **`load_slot`** delivers the word of the slot. -/
theorem loadSlot_exec {c : ScratchpadCache} {m : Machine} (hc : Coherent c m) {s : ℤ}
    (hs : SmallSlot s) {d : ℕ} (hd : ¬CacheScratch d) (hd20 : d ≠ 20) :
    let m' := execs (c.loadSlot s (.x d)).1 m
    Coherent (c.loadSlot s (.x d)).2 m' ∧ m'.read (.x d) = slotWord m s ∧ m'.mem = m.mem ∧
      m'.read .sp = m.read .sp ∧
      ∀ n, n ≠ d → ¬CacheScratch n → m'.read (.x n) = m.read (.x n) := by
  have hd22 : d ≠ 22 := fun h => hd (Or.inl h)
  have hd8 : ∀ r < 8, d ≠ 8 + r := fun r hr h => hd (Or.inr (by omega))
  intro m'
  cases h : c.slotToReg s with
  | some r =>
    -- a hit: the register is copied
    have hr := hc.to_reg s r h
    have he : m' = m.write (.x d) (m.read (cacheReg r)) := by
      show execs (c.loadSlot s (.x d)).1 m = _
      rw [ScratchpadCache.loadSlot, h]; rfl
    have hc' : (c.loadSlot s (.x d)).2 = c := by rw [ScratchpadCache.loadSlot, h]
    rw [hc', he]
    refine ⟨hc.frame (fun k hk => ?_) (fun t k hk => ?_), ?_, by simp, by simp, ?_⟩
    · have := hd8 k hk
      simp only [Machine.read_write_x, Gp.x.injEq]
      rw [if_neg (by omega)]
    · simp [slotWord, slotAddr, Ne.symm hd20]
    · simp [hc.holds s r h]
    · intro n hn _
      simp [hn]
  | none =>
    -- a miss: the word is read from memory and a register is taken for it
    have hn8 := hc.next
    have he : m' = ((m.write tempPtr (byteOffset s)).write (.x d) (slotWord m s)).write
        (cacheReg c.nextReg) (slotWord m s) := by
      show execs (c.loadSlot s (.x d)).1 m = _
      rw [ScratchpadCache.loadSlot, h]
      simp [execs_movWide, slotWord, slotAddr]
    have hc' : (c.loadSlot s (.x d)).2 = c.evict.bind s c.nextReg := by
      rw [ScratchpadCache.loadSlot, h]
    rw [hc', he]
    have hmem : ∀ t, slotWord (((m.write tempPtr (byteOffset s)).write (.x d) (slotWord m s)).write
        (cacheReg c.nextReg) (slotWord m s)) t = slotWord m t := by
      intro t
      simp only [slotWord, slotAddr, Machine.mem_write, Machine.read_write_x, Gp.x.injEq]
      rw [if_neg (by omega), if_neg (by omega), if_neg (by omega)]
    have hinv := hc.toMapsInverse.evict_bind hs.1 h
    refine ⟨⟨hinv, fun t k hk => ?_⟩, ?_, by simp, by simp, ?_⟩
    · rw [hmem]
      have hk8 := (hinv.to_reg t k hk).1
      rcases hc.toMapsInverse.evict_bind_cases hk with ⟨rfl, rfl⟩ | ⟨-, hkn, hold⟩
      · simp
      · have := hd8 k hk8
        simp only [Machine.read_write_x, Gp.x.injEq]
        rw [if_neg (by omega), if_neg (by omega), if_neg (by omega), hc.holds t k hold]
    · have := hd8 _ hn8
      simp only [Machine.read_write_x, Gp.x.injEq]
      rw [if_neg (by omega), if_pos trivial]
    · intro n hn hsc
      have h22 : n ≠ 22 := fun h => hsc (Or.inl h)
      have h8 : n ≠ 8 + c.nextReg := fun h => hsc (Or.inr (by omega))
      simp only [Machine.read_write_x, Gp.x.injEq]
      rw [if_neg h8, if_neg hn, if_neg h22]

/-- **`store_slot`** writes the word through to memory. -/
theorem storeSlot_exec {c : ScratchpadCache} {m : Machine} (hc : Coherent c m)
    (hw : Within SmallSlot c) {s : ℤ} (hs : SmallSlot s) {v : ℕ} (hv : ¬CacheScratch v) :
    let m' := execs (c.storeSlot s (.x v)).1 m
    Coherent (c.storeSlot s (.x v)).2 m' ∧
      (m'.mem = fun a => if a = slotAddr m s then m.read (.x v) else m.mem a) ∧
      m'.read .sp = m.read .sp ∧ ∀ n, ¬CacheScratch n → m'.read (.x n) = m.read (.x n) := by
  have hv22 : v ≠ 22 := fun h => hv (Or.inl h)
  intro m'
  -- in both cases register `r` gets the value, and `c'` maps the slot to `r`
  obtain ⟨r, hr8, hcode, hinv, hmap, hother⟩ : ∃ r < 8,
      (c.storeSlot s (.x v)).1 = movWide tempPtr (byteOffset s) ++
        [.str (.x v) (.idx scratchPtr tempPtr), .mov (cacheReg r) (.x v)] ∧
      MapsInverse (c.storeSlot s (.x v)).2 ∧
      (c.storeSlot s (.x v)).2.slotToReg s = some r ∧
      ∀ t k, t ≠ s → (c.storeSlot s (.x v)).2.slotToReg t = some k →
        c.slotToReg t = some k ∧ k ≠ r := by
    cases h : c.slotToReg s with
    | some r =>
      have hb := hc.toMapsInverse.bind_self h
      have hc' : (c.storeSlot s (.x v)).2 = c := by rw [ScratchpadCache.storeSlot, h]; exact hb
      have hr := hc.to_reg s r h
      refine ⟨r, hr.1, by rw [ScratchpadCache.storeSlot, h]; simp, ?_, ?_, fun t k hts hk => ?_⟩
      · rw [hc']; exact hc.toMapsInverse
      · rw [hc']; exact h
      rw [hc'] at hk
      refine ⟨hk, fun hkr => hts ?_⟩
      rw [← (hc.to_reg t k hk).2.2, hkr, hr.2.2]
    | none =>
      have hc' : (c.storeSlot s (.x v)).2 = c.evict.bind s c.nextReg := by
        rw [ScratchpadCache.storeSlot, h]
      have hinv := hc.toMapsInverse.evict_bind hs.1 h
      refine ⟨c.nextReg, hc.next, by rw [ScratchpadCache.storeSlot, h]; simp, ?_, ?_, ?_⟩
      · rw [hc']; exact hinv
      · rw [hc']; simp [ScratchpadCache.bind]
      · intro t k hts hk
        rw [hc'] at hk
        obtain ⟨-, hkr, hold⟩ :=
          (hc.toMapsInverse.evict_bind_cases hk).resolve_left fun h => hts h.1
        exact ⟨hold, hkr⟩
  have he : m' = ((m.write tempPtr (byteOffset s)).store (slotAddr m s) (m.read (.x v))).write
      (cacheReg r) (m.read (.x v)) := by
    show execs (c.storeSlot s (.x v)).1 m = _
    rw [hcode]
    simp [execs_movWide, slotAddr, hv22]
  have hptr : m'.read scratchPtr = m.read scratchPtr := by
    rw [he]
    simp only [Machine.read_write_x, Machine.read_store, Gp.x.injEq]
    rw [if_neg (by omega), if_neg (by omega)]
  have hmem : m'.mem = fun a => if a = slotAddr m s then m.read (.x v) else m.mem a := by
    rw [he]; funext a; simp
  refine ⟨⟨hinv, fun t k hk => ?_⟩, hmem, ?_, ?_⟩
  · have hk8 := (hinv.to_reg t k hk).1
    have haddr : slotAddr m' t = slotAddr m t := by rw [slotAddr, slotAddr, hptr]
    rw [slotWord, haddr, hmem]
    by_cases hts : t = s
    · subst hts
      obtain rfl : r = k := Option.some.inj (hmap.symm.trans hk)
      rw [he]
      simp
    · obtain ⟨hk', hkr⟩ := hother t k hts hk
      have hne : slotAddr m t ≠ slotAddr m s := fun h =>
        hts ((slotAddr_inj m (hw t k hk') hs).1 h)
      simp only [if_neg hne]
      have hold := hc.holds t k hk'
      rw [slotWord] at hold
      rw [← hold, he]
      simp only [Machine.read_write_x, Machine.read_store, Gp.x.injEq]
      rw [if_neg (by omega), if_neg (by omega)]
  · rw [he]; simp
  · intro n hsc
    have h22 : n ≠ 22 := fun h => hsc (Or.inl h)
    have h8 : n ≠ 8 + r := fun h => hsc (Or.inr (by omega))
    rw [he]
    simp only [Machine.read_write_x, Machine.read_store, Gp.x.injEq]
    rw [if_neg h8, if_neg h22]

/-- A cache operation knows no slot it did not know or was not given. -/
theorem Within.loadSlot {S : ℤ → Prop} {c : ScratchpadCache} (h : Within S c) {s : ℤ} (hs : S s)
    (d : Gp) : Within S (c.loadSlot s d).2 := by
  unfold ScratchpadCache.loadSlot
  split
  · exact h
  · exact h.evict_bind hs _

/-- A store binds its slot. -/
theorem Within.storeSlot {S : ℤ → Prop} {c : ScratchpadCache} (h : Within S c) {s : ℤ} (hs : S s)
    (v : Gp) : Within S (c.storeSlot s v).2 := by
  unfold ScratchpadCache.storeSlot
  simp only
  split
  · intro t k hk
    simp only [ScratchpadCache.bind] at hk
    split_ifs at hk with h1
    · exact h1 ▸ hs
    · exact h t k hk
  · exact h.evict_bind hs _

/-- More slots may be bound. -/
theorem Within.mono {S T : ℤ → Prop} {c : ScratchpadCache} (h : Within S c)
    (hST : ∀ s, S s → T s) : Within T c := fun s r hr => hST s (h s r hr)

/-! ### The cache on the scratchpad of a kernel -/

/-- The registers of the cache, with its temporary. -/
def cacheRegs : List Gp := tempPtr :: (List.range 8).map cacheReg

/-- The registers that the cache may write. -/
theorem mem_cacheRegs (n : ℕ) : Gp.x n ∈ cacheRegs ↔ CacheScratch n := by
  simp only [cacheRegs, CacheScratch, List.mem_cons, Gp.x.injEq, List.mem_map, List.mem_range]
  refine or_congr Iff.rfl ⟨?_, fun h => ⟨n - 8, by omega, by omega⟩⟩
  rintro ⟨k, hk, rfl⟩
  omega

/-- The state between two nodes: the environment, and a coherent cache that
knows words of `M` only. -/
structure Ready (L : Layout) (F : ℕ → ℕ → Word) (depth : ℕ) (saved : ℕ → Word) (M : ℕ → Prop)
    (c : ScratchpadCache) (m : Machine) : Prop where
  env : Env L F depth saved m
  coherent : Coherent c m
  within : Within (fun s => ∃ k < maxSlots, M k ∧ s = (k : ℕ)) c

section Ready

variable {L : Layout} {F : ℕ → ℕ → Word} {depth : ℕ} {saved : ℕ → Word} {M : ℕ → Prop}
  {c : ScratchpadCache} {m m' : Machine}

/-- Code that stays out of the cache and of the words it knows. -/
theorem Ready.frame (h : Ready L F depth saved M c m) {rs : List Gp} (hk : Keeps rs m m')
    (hrs : ∀ r ∈ rs, r ≠ fieldPlanesPtr ∧ r ≠ scratchPtr ∧ r ≠ .sp ∧ ∀ k < 8, r ≠ cacheReg k)
    {S : ℕ → Prop} (hp : PadKeeps L S m m') (hS : ∀ k, S k → ¬M k) :
    Ready L F depth saved M c m' := by
  have h20 : m'.read scratchPtr = m.read scratchPtr := hk _ fun hr => (hrs _ hr).2.1 rfl
  refine ⟨h.env.frame (hk _ fun hr => (hrs _ hr).1 rfl) h20 (hk _ fun hr => (hrs _ hr).2.2.1 rfl)
    hp.memKeeps, h.coherent.frame (fun r hr => hk _ fun hm => (hrs _ hm).2.2.2 r hr rfl) ?_,
    h.within⟩
  intro s r hr
  obtain ⟨k, hk, hMk, rfl⟩ := h.within s r hr
  have hE' : slotWord m' (k : ℤ) = pad L m' k := by
    rw [slotWord, slotAddr, h20, h.env.x20, byteOffset_natCast]; rfl
  rw [hE', slotWord_eq_pad h.env]
  exact hp.pad_eq hk fun hSk => hS k hSk hMk

/-- A slot of the scratchpad is small. -/
theorem smallSlot_natCast {k : ℕ} (hk : k < maxSlots) : SmallSlot (k : ℤ) := by
  have hm : maxSlots = 32768 := rfl
  exact ⟨by omega, by omega⟩

/-- A cached load of word `k`. -/
theorem Ready.loadSlot (h : Ready L F depth saved M c m) {k : ℕ} (hk : k < maxSlots) (hM : M k)
    {d : ℕ} (hd : ¬CacheScratch d) (hd19 : d ≠ 19) (hd20 : d ≠ 20) :
    let m' := execs (c.loadSlot k (.x d)).1 m
    Ready L F depth saved M (c.loadSlot k (.x d)).2 m' ∧ m'.read (.x d) = pad L m k ∧
      m'.mem = m.mem ∧ Keeps (.x d :: cacheRegs) m m' := by
  intro m'
  obtain ⟨hcoh, hval, hmem, hsp, hregs⟩ :=
    loadSlot_exec h.coherent (smallSlot_natCast hk) hd hd20
  have hkeep : Keeps (.x d :: cacheRegs) m m' := by
    intro r hr
    rw [List.mem_cons, not_or] at hr
    cases r with
    | x n => exact hregs n (fun h => hr.1 (h ▸ rfl)) fun h => hr.2 ((mem_cacheRegs n).2 h)
    | xzr => rfl
    | sp => exact hsp
  have h19 : m'.read fieldPlanesPtr = m.read fieldPlanesPtr :=
    hregs 19 hd19.symm (by simp [CacheScratch])
  have h20 : m'.read scratchPtr = m.read scratchPtr :=
    hregs 20 hd20.symm (by simp [CacheScratch])
  refine ⟨⟨h.env.frame h19 h20 hsp fun a _ => by rw [hmem], hcoh,
    h.within.loadSlot ⟨k, hk, hM, rfl⟩ _⟩, ?_, hmem, hkeep⟩
  rw [hval, slotWord_eq_pad h.env]

/-- A cached store to word `k`. -/
theorem Ready.storeSlot (h : Ready L F depth saved M c m) {k : ℕ} (hk : k < maxSlots) (hM : M k)
    {v : ℕ} (hv : ¬CacheScratch v) :
    let m' := execs (c.storeSlot k (.x v)).1 m
    Ready L F depth saved M (c.storeSlot k (.x v)).2 m' ∧ pad L m' k = m.read (.x v) ∧
      PadKeeps L (· = k) m m' ∧ Keeps cacheRegs m m' := by
  intro m'
  obtain ⟨hcoh, hmem, hsp, hregs⟩ := storeSlot_exec h.coherent
    (h.within.mono fun s ⟨j, hj, _, hs⟩ => hs ▸ smallSlot_natCast hj) (smallSlot_natCast hk) hv
  have haddr : slotAddr m (k : ℤ) = wordAt L.scratch k := by
    rw [slotAddr, h.env.x20, byteOffset_natCast]; rfl
  have hmem' : ∀ a, m'.mem a = if a = wordAt L.scratch k then m.read (.x v) else m.mem a := by
    intro a
    rw [← haddr]
    exact congrFun hmem a
  have hpad : PadKeeps L (· = k) m m' := by
    intro a ha
    rw [hmem', if_neg]
    rintro rfl
    exact ha ⟨k, hk, rfl, rfl⟩
  refine ⟨⟨h.env.frame (hregs 19 (by simp [CacheScratch])) (hregs 20 (by simp [CacheScratch])) hsp
    hpad.memKeeps, hcoh, h.within.storeSlot ⟨k, hk, hM, rfl⟩ _⟩, ?_, hpad, ?_⟩
  · rw [pad, hmem', if_pos rfl]
  · intro r hr
    cases r with
    | x n => exact hregs n fun h => hr ((mem_cacheRegs n).2 h)
    | xzr => rfl
    | sp => exact hsp

end Ready

/-! ### Plain code -/

/-- The entry of the table of columns an instruction loads. -/
def tableEntry : Instr → Option ℕ
  | .ldr _ (.off base imm) => if base = fieldPlanesPtr then some (imm.toNat / 8) else none
  | _ => none

/-- Code without branches that loads the entries `S` of the table and no others. -/
def Plain (S : ℕ → Prop) (code : List Instr) : Prop :=
  ∀ i ∈ code, i.branches = false ∧ ∀ k, tableEntry i = some k → S k

section Plain

variable {S : ℕ → Prop}

/-- Plain code does not branch. -/
theorem Plain.straight {code : List Instr} (h : Plain S code) : Straight code :=
  fun i hi => (h i hi).1

@[simp] theorem plain_nil : Plain S [] := fun _ h => absurd h List.not_mem_nil

/-- The first instruction and the rest. -/
@[simp] theorem plain_cons {i : Instr} {is : List Instr} :
    Plain S (i :: is) ↔ (i.branches = false ∧ ∀ k, tableEntry i = some k → S k) ∧ Plain S is := by
  simp [Plain]

/-- Both parts are plain. -/
@[simp] theorem plain_append {is js : List Instr} :
    Plain S (is ++ js) ↔ Plain S is ∧ Plain S js := by
  simp only [Plain, List.mem_append]
  exact ⟨fun h => ⟨fun i hi => h i (Or.inl hi), fun i hi => h i (Or.inr hi)⟩,
    fun h i hi => hi.elim (h.1 i) (h.2 i)⟩

/-- Plain pieces are plain together. -/
theorem Plain.flatMap {α : Type*} {l : List α} {f : α → List Instr} (h : ∀ a ∈ l, Plain S (f a)) :
    Plain S (l.flatMap f) := fun i hi => by
  obtain ⟨a, ha, hi⟩ := List.mem_flatMap.1 hi
  exact h a ha i hi

/-- A constant. -/
@[simp] theorem plain_movWide (rd : Gp) (imm : Word) : Plain S (movWide rd imm) := by
  simp [movWide, Instr.branches, tableEntry]

/-- A load through the cache. -/
@[simp] theorem plain_loadSlot (c : ScratchpadCache) (s : ℤ) (d : Gp) :
    Plain S (c.loadSlot s d).1 := by
  unfold ScratchpadCache.loadSlot
  split <;> simp [Instr.branches, tableEntry]

/-- A store through the cache. -/
@[simp] theorem plain_storeSlot (c : ScratchpadCache) (s : ℤ) (v : Gp) :
    Plain S (c.storeSlot s v).1 := by
  unfold ScratchpadCache.storeSlot
  simp only
  split <;> simp [Instr.branches, tableEntry]

end Plain

end Jit
end AarchGate
