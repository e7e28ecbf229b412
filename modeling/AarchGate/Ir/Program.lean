/-
# Programs that build an expression

A client builds an expression with one call of a builder function for every node, the
operands first, and passes the pointers on as they are: `Expr.build`.

The pool of a process only grows, and a call on a full pool returns a null pointer.  So the
program adds as many nodes as the expression has, as far as there is room for them, and it
ends with a pointer to the expression exactly if there is room for all of them
(`Expr.build_builds`).  What a pointer stood for before, it stands for afterwards
(`Stands.grows`).

The nodes of an expression are counted by their kinds (`Expr.count`), and a graph that
represents it has no more nodes of these kinds (`Represents.length_le_count`).
-/

import AarchGate.Ir.Build

namespace AarchGate
namespace Ir

open A64 (Word)

/-! ### The nodes of an expression -/

/-- The number of nodes of the kinds in `p`. -/
def Expr.count (p : NodeKind → Bool) : {t : Ty} → Expr t → ℕ
  | _, .load _ => (p .LOAD).toNat
  | _, .const _ => (p .CONST).toNat
  | _, .add a b => (p .ADD).toNat + a.count p + b.count p
  | _, .sub a b => (p .SUB).toNat + a.count p + b.count p
  | _, .select c a b => (p .SELECT).toNat + c.count p + a.count p + b.count p
  | _, .cmp op a b => (p op.kind).toNat + a.count p + b.count p
  | _, .and a b => (p .AND).toNat + a.count p + b.count p
  | _, .or a b => (p .OR).toNat + a.count p + b.count p
  | _, .not a => (p .NOT).toNat + a.count p

/-- The number of nodes, and so of builder calls. -/
def Expr.nodeCount {t : Ty} (e : Expr t) : ℕ := e.count fun _ => true

/-- A root and what covers its operands. -/
theorem exists_cover_root {g : ℕ → Node} {p : NodeKind → Bool} {root m : ℕ} {D : List ℕ}
    (hD : D.length ≤ m)
    (hchildren : ∀ c ∈ (g root).children, ∀ n, Reach g c n → p (g n).kind = true → n ∈ D) :
    ∃ C : List ℕ, C.length ≤ (p (g root).kind).toNat + m ∧
      ∀ n, Reach g root n → p (g n).kind = true → n ∈ C := by
  have hbelow : ∀ n, Reach g root n → p (g n).kind = true → n = root ∨ n ∈ D := by
    intro n hn hp
    rcases hn.cases_head with rfl | ⟨c, hc, hcn⟩
    · exact Or.inl rfl
    · exact Or.inr (hchildren c hc n hcn hp)
  cases hroot : p (g root).kind with
  | true =>
    refine ⟨root :: D, by rw [List.length_cons, Bool.toNat_true]; omega, fun n hn hp => ?_⟩
    exact List.mem_cons.2 (hbelow n hn hp)
  | false =>
    refine ⟨D, by rw [Bool.toNat_false]; omega, fun n hn hp => (hbelow n hn hp).resolve_left ?_⟩
    rintro rfl
    rw [hroot] at hp
    exact absurd hp Bool.false_ne_true

/-- The nodes of some kinds below a root, in a list no longer than the count. -/
theorem Represents.exists_cover {g : ℕ → Node} (p : NodeKind → Bool) {t : Ty} {e : Expr t} {root : ℕ}
    (he : Represents g e root) : ∃ C : List ℕ, C.length ≤ e.count p ∧
      ∀ n, Reach g root n → p (g n).kind = true → n ∈ C := by
  induction e generalizing root with
  | load f | const v =>
    rw [Expr.count, ← he.1.kind]
    exact exists_cover_root (D := []) (Nat.le_refl 0) fun c hc => by simp [he.1.children] at hc
  | add a b iha ihb | sub a b iha ihb | cmp op a b iha ihb | and a b iha ihb | or a b iha ihb =>
    obtain ⟨l, r, hn, ha, hb⟩ := he
    obtain ⟨A, hA, hcA⟩ := iha ha
    obtain ⟨B, hB, hcB⟩ := ihb hb
    rw [Expr.count, ← hn.kind, Nat.add_assoc]
    refine exists_cover_root (D := A ++ B) (by rw [List.length_append]; omega) fun c hc n hcn hp => ?_
    rw [hn.children, List.mem_pair] at hc
    rw [List.mem_append]
    rcases hc with rfl | rfl
    · exact Or.inl (hcA n hcn hp)
    · exact Or.inr (hcB n hcn hp)
  | select c a b ihc iha ihb =>
    obtain ⟨i, l, r, hn, hc, ha, hb⟩ := he
    obtain ⟨C, hC, hcC⟩ := ihc hc
    obtain ⟨A, hA, hcA⟩ := iha ha
    obtain ⟨B, hB, hcB⟩ := ihb hb
    rw [Expr.count, ← hn.kind, Nat.add_assoc, Nat.add_assoc]
    refine exists_cover_root (D := C ++ (A ++ B))
      (by rw [List.length_append, List.length_append]; omega) fun x hx n hxn hp => ?_
    simp only [hn.children, List.mem_cons, List.not_mem_nil, or_false] at hx
    rw [List.mem_append, List.mem_append]
    rcases hx with rfl | rfl | rfl
    · exact Or.inr (Or.inl (hcA n hxn hp))
    · exact Or.inr (Or.inr (hcB n hxn hp))
    · exact Or.inl (hcC n hxn hp)
  | not a iha =>
    obtain ⟨l, hn, ha⟩ := he
    obtain ⟨A, hA, hcA⟩ := iha ha
    rw [Expr.count, ← hn.kind]
    refine exists_cover_root hA fun c hc n hcn hp => ?_
    rw [hn.children, List.mem_singleton] at hc
    exact hcA n (hc ▸ hcn) hp

/-- **A graph has no more nodes of some kinds than its expression**, and fewer where nodes are
shared. -/
theorem Represents.length_le_count {g : ℕ → Node} {t : Ty} {e : Expr t} {root : ℕ}
    (he : Represents g e root) {p : NodeKind → Bool} {ns : List ℕ} (hnd : ns.Nodup)
    (hns : ∀ n ∈ ns, Reach g root n ∧ p (g n).kind = true) : ns.length ≤ e.count p := by
  obtain ⟨C, hC, hcover⟩ := he.exists_cover p
  exact Nat.le_trans (hnd.length_le_of_subset fun n hn => hcover n (hns n hn).1 (hns n hn).2) hC

/-! ### The program -/

/-- The builder function of a comparison. -/
def Builder.compare : Cmp → Option ℕ → Option ℕ → StateM NodePool (Option ℕ)
  | .gt => Builder.GT
  | .lt => Builder.LT
  | .ge => Builder.GE
  | .le => Builder.LE
  | .eq => Builder.EQ

/-- The comparisons of the builder. -/
theorem Builder.compare_eq (op : Cmp) : Builder.compare op = Builder.binary op.kind .BITMASK := by
  cases op <;> rfl

/-- The calls that build an expression; a client does not test their pointers. -/
def Expr.build : {t : Ty} → Expr t → StateM NodePool (Option ℕ)
  | _, .load f => Builder.Load f
  | _, .const v => Builder.Const v
  | _, .add a b => do
    let l ← a.build
    let r ← b.build
    Builder.Add l r
  | _, .sub a b => do
    let l ← a.build
    let r ← b.build
    Builder.Sub l r
  | _, .select c a b => do
    let i ← c.build
    let l ← a.build
    let r ← b.build
    Builder.Select i l r
  | _, .cmp op a b => do
    let l ← a.build
    let r ← b.build
    Builder.compare op l r
  | _, .and a b => do
    let l ← a.build
    let r ← b.build
    Builder.And l r
  | _, .or a b => do
    let l ← a.build
    let r ← b.build
    Builder.Or l r
  | _, .not a => do
    let l ← a.build
    Builder.Not l

/-- The pool `P'` has `k` nodes more than `P`, as far as there is room; the nodes of `P` are
as they were, and the new ones are not marked. -/
structure Grows (P P' : NodePool) (k : ℕ) : Prop where
  built : Built P'
  le : P.nextIdx ≤ P'.nextIdx
  nextIdx : P'.nextIdx = min NodePool.maxNodes (P.nextIdx + k)
  storage : ∀ i < P.nextIdx, P'.storage i = P.storage i
  annot : ∀ i, P'.annot i = P.annot i ∨ P'.annot i = { resultKind := (P'.annot i).resultKind }

/-- The pointer `n` stands for the expression. -/
structure Stands (P : NodePool) {t : Ty} (e : Expr t) (n : ℕ) : Prop where
  lt : n < P.nextIdx
  represents : Represents P.storage e n

/-- Nothing was allocated. -/
theorem Grows.refl {P : NodePool} (hP : Built P) : Grows P P 0 :=
  ⟨hP, Nat.le_refl _, (Nat.min_eq_right hP.ordered.1).symm, fun _ _ => rfl, fun _ => .inl rfl⟩

/-- One program after the other. -/
theorem Grows.trans {P Q R : NodePool} {j k : ℕ} (h : Grows P Q j) (h' : Grows Q R k) :
    Grows P R (j + k) where
  built := h'.built
  le := Nat.le_trans h.le h'.le
  nextIdx := by
    have h₁ := h.nextIdx
    have h₂ := h'.nextIdx
    omega
  storage i hi := (h'.storage i (Nat.lt_of_lt_of_le hi h.le)).trans (h.storage i hi)
  annot i := (h'.annot i).elim (fun he => (h.annot i).imp he.trans fun hn => he ▸ hn) .inr

/-- No node is marked. -/
theorem Grows.skipJit {P P' : NodePool} {k : ℕ} (h : Grows P P' k)
    (hP : ∀ i, (P.annot i).skipJit = false) (i : ℕ) : (P'.annot i).skipJit = false := by
  rcases h.annot i with he | he
  · rw [he, hP]
  · rw [he]

/-- No pass has written to the pool. -/
theorem Pristine.grows {P P' : NodePool} {k : ℕ} (hP : Pristine P) (h : Grows P P' k) : Pristine P' := by
  refine ⟨h.built, fun i => (h.annot i).elim (fun he => ?_) id⟩
  rw [he]
  exact hP.annot i

/-- **What a pointer stands for stays.** -/
theorem Stands.grows {P P' : NodePool} {k : ℕ} {t : Ty} {e : Expr t} {n : ℕ} (h : Stands P e n)
    (hP : Built P) (hP' : Grows P P' k) : Stands P' e n :=
  ⟨Nat.lt_of_lt_of_le h.lt hP'.le, h.represents.of_agree hP hP'.storage h.lt⟩

/-- A node more. -/
theorem grows_emplace {P : NodePool} (hP : Built P) (nd : Node) (rk : ResultKind)
    (hc : ∀ c ∈ nd.children, c < P.nextIdx) : Grows P (Builder.emplace nd rk P).2 1 := by
  have hbuilt := hP.emplace nd rk hc
  have hmax := hP.ordered.1
  unfold Builder.emplace at hbuilt ⊢
  split_ifs at hbuilt ⊢ with hfull
  · refine ⟨hbuilt, Nat.le_refl _, ?_, fun _ _ => rfl, fun _ => .inl rfl⟩
    show P.nextIdx = _
    omega
  · refine ⟨hbuilt, Nat.le_succ _, ?_, fun i hi => if_neg (by omega), fun i => ?_⟩
    · show P.nextIdx + 1 = _
      omega
    · dsimp only
      split_ifs
      · exact .inr rfl
      · exact .inl rfl

/-- A further builder call keeps it. -/
theorem Stands.emplace {P : NodePool} {t : Ty} {e : Expr t} {n : ℕ} (h : Stands P e n) (hP : Built P)
    (nd : Node) (rk : ResultKind) (hc : ∀ c ∈ nd.children, c < P.nextIdx) :
    Stands (Builder.emplace nd rk P).2 e n := h.grows hP (grows_emplace hP nd rk hc)

/-- What a program does that builds the expression from the pool `P`. -/
structure Builds (P : NodePool) {t : Ty} (e : Expr t) (r : Option ℕ × NodePool) : Prop where
  grows : Grows P r.2 e.nodeCount
  stands : ∀ n, r.1 = some n → Stands r.2 e n ∧ n + 1 = r.2.nextIdx
  isSome : r.1.isSome = true ↔ P.nextIdx + e.nodeCount ≤ NodePool.maxNodes

namespace Builds

variable {P Q : NodePool} {t : Ty} {e : Expr t}

/-- The call for the root, with the operands in the pool. -/
theorem last {m : ℕ} (hQ : Grows P Q m) {nd : Node} {rk : ResultKind}
    (hcount : e.nodeCount = m + 1) (hc : ∀ c ∈ nd.children, c < Q.nextIdx)
    (he : Q.nextIdx < NodePool.maxNodes → ∀ g : ℕ → Node, (∀ i < Q.nextIdx, g i = Q.storage i) →
      g Q.nextIdx = nd → Represents g e Q.nextIdx) : Builds P e (Builder.emplace nd rk Q) := by
  have hgrows := grows_emplace hQ.built nd rk hc
  have hnext := hQ.nextIdx
  refine ⟨hcount ▸ hQ.trans hgrows, fun n hn => ?_, ?_⟩
  · have hold := hgrows.storage
    unfold Builder.emplace at hn hold ⊢
    split_ifs at hn hold ⊢ with hfull
    obtain rfl := Option.some.inj hn
    exact ⟨⟨Nat.lt_succ_self _, he (by omega) _ hold (if_pos rfl)⟩, rfl⟩
  · unfold Builder.emplace
    split_ifs with hfull
    · simp only [Option.isSome_none, Bool.false_eq_true, false_iff]
      omega
    · simp only [Option.isSome_some, true_iff]
      omega

/-- The operand of a later call. -/
theorem lt_of_mem {r : Option ℕ × NodePool} (h : Builds P e r) {k : ℕ} (hQ : Grows r.2 Q k) {c : ℕ}
    (hc : c ∈ r.1.toList) : c < Q.nextIdx :=
  Nat.lt_of_lt_of_le (h.stands c (Option.mem_toList.1 hc)).1.lt hQ.le

/-- An operand that was built before the pool was full. -/
theorem exists_stands {r : Option ℕ × NodePool} (h : Builds P e r) {k : ℕ} (hQ : Grows r.2 Q k)
    (hroom : Q.nextIdx < NodePool.maxNodes) : ∃ n, r.1 = some n ∧ Stands Q e n := by
  have hnext := h.grows.nextIdx
  have hle := hQ.le
  obtain ⟨n, hn⟩ := Option.isSome_iff_exists.1 (h.isSome.2 (by omega))
  exact ⟨n, hn, (h.stands n hn).1.grows h.grows.built hQ⟩

/-- The functions with two operands. -/
theorem binary {s : Ty} {a b : Expr s} {ra rb : Option ℕ × NodePool} (ha : Builds P a ra)
    (hb : Builds ra.2 b rb) {kind : NodeKind} {rk : ResultKind}
    (hcount : e.nodeCount = a.nodeCount + b.nodeCount + 1)
    (he : ∀ {g : ℕ → Node} {n l r : ℕ}, IsBinary (g n) kind l r → Represents g a l →
      Represents g b r → Represents g e n) :
    Builds P e (Builder.binary kind rk ra.1 rb.1 rb.2) := by
  refine last (ha.grows.trans hb.grows) hcount (fun c hc => ?_) fun hroom g hg hnd => ?_
  · simp only [Node.children, Option.toList_none, List.append_nil, List.mem_append] at hc
    rcases hc with hc | hc
    · exact ha.lt_of_mem hb.grows hc
    · exact hb.lt_of_mem (.refl hb.grows.built) hc
  · obtain ⟨l, hl, hsl⟩ := ha.exists_stands hb.grows hroom
    obtain ⟨r, hr, hsr⟩ := hb.exists_stands (.refl hb.grows.built) hroom
    refine he ?_ (hsl.represents.of_agree hb.grows.built hg hsl.lt)
      (hsr.represents.of_agree hb.grows.built hg hsr.lt)
    rw [hnd]
    exact ⟨rfl, hl, hr, rfl, rfl⟩

/-- A `SELECT` of what was built. -/
theorem select {c : Expr .bool} {a b : Expr .num} {rc ra rb : Option ℕ × NodePool}
    (hc : Builds P c rc) (ha : Builds rc.2 a ra) (hb : Builds ra.2 b rb) :
    Builds P (.select c a b) (Builder.Select rc.1 ra.1 rb.1 rb.2) := by
  have hab := ha.grows.trans hb.grows
  refine last (hc.grows.trans hab) ?_ (fun x hx => ?_) fun hroom g hg hnd => ?_
  · simp only [Expr.nodeCount, Expr.count, Bool.toNat_true]
    omega
  · simp only [Node.children, List.append_nil, List.mem_append] at hx
    rcases hx with (hx | hx) | hx
    · exact ha.lt_of_mem hb.grows hx
    · exact hb.lt_of_mem (.refl hb.grows.built) hx
    · exact hc.lt_of_mem hab hx
  · obtain ⟨i, hi, hsi⟩ := hc.exists_stands hab hroom
    obtain ⟨l, hl, hsl⟩ := ha.exists_stands hb.grows hroom
    obtain ⟨r, hr, hsr⟩ := hb.exists_stands (.refl hb.grows.built) hroom
    refine ⟨i, l, r, ?_, hsi.represents.of_agree hb.grows.built hg hsi.lt,
      hsl.represents.of_agree hb.grows.built hg hsl.lt,
      hsr.represents.of_agree hb.grows.built hg hsr.lt⟩
    rw [hnd]
    exact ⟨rfl, hi, hl, hr, rfl⟩

/-- A `NOT` of what was built. -/
theorem not {a : Expr .bool} {ra : Option ℕ × NodePool} (ha : Builds P a ra) :
    Builds P (.not a) (Builder.Not ra.1 ra.2) := by
  refine last ha.grows ?_ (fun c hc => ?_) fun hroom g hg hnd => ?_
  · simp only [Expr.nodeCount, Expr.count, Bool.toNat_true]
    omega
  · simp only [Node.children, Option.toList_none, List.append_nil] at hc
    exact ha.lt_of_mem (.refl ha.grows.built) hc
  · obtain ⟨l, hl, hsl⟩ := ha.exists_stands (.refl ha.grows.built) hroom
    refine ⟨l, ?_, hsl.represents.of_agree ha.grows.built hg hsl.lt⟩
    rw [hnd]
    exact ⟨rfl, hl, rfl, rfl, rfl⟩

end Builds

/-- **The program builds its expression**, from every pool: it fills the pool up or ends with a
pointer to the expression. -/
theorem Expr.build_builds {t : Ty} (e : Expr t) (hnames : ∀ f ∈ e.fields, f.length ≤ 63) {P : NodePool}
    (hP : Built P) : Builds P e (e.build P) := by
  induction e generalizing P with
  | load f =>
    refine .last (.refl hP) rfl (by simp [Node.children]) fun _ g _ hnd => ?_
    rw [Represents, hnd]
    exact ⟨⟨rfl, rfl, rfl, rfl, rfl⟩,
      List.take_of_length_le (hnames f (List.mem_singleton_self f))⟩
  | const v =>
    refine .last (.refl hP) rfl (by simp [Node.children]) fun _ g _ hnd => ?_
    rw [Represents, hnd]
    exact ⟨⟨rfl, rfl, rfl, rfl, rfl⟩, rfl⟩
  | add a b iha ihb | sub a b iha ihb | and a b iha ihb | or a b iha ihb =>
    have ha := iha (fun f hf => hnames f (List.mem_append_left _ hf)) hP
    have hb := ihb (fun f hf => hnames f (List.mem_append_right _ hf)) ha.grows.built
    refine ha.binary hb ?_ fun hn hl hr => ⟨_, _, hn, hl, hr⟩
    simp only [nodeCount, count, Bool.toNat_true]
    omega
  | cmp op a b iha ihb =>
    have ha := iha (fun f hf => hnames f (List.mem_append_left _ hf)) hP
    have hb := ihb (fun f hf => hnames f (List.mem_append_right _ hf)) ha.grows.built
    show Builds P _ (Builder.compare op _ _ _)
    rw [Builder.compare_eq]
    refine ha.binary hb ?_ fun hn hl hr => ⟨_, _, hn, hl, hr⟩
    simp only [nodeCount, count, Bool.toNat_true]
    omega
  | select c a b ihc iha ihb =>
    have hmem : ∀ f, f ∈ c.fields ∨ f ∈ a.fields ∨ f ∈ b.fields → f.length ≤ 63 := fun f hf =>
      hnames f (by rw [fields, List.mem_append, List.mem_append]; tauto)
    have hc := ihc (fun f hf => hmem f (Or.inl hf)) hP
    have ha := iha (fun f hf => hmem f (Or.inr (Or.inl hf))) hc.grows.built
    have hb := ihb (fun f hf => hmem f (Or.inr (Or.inr hf))) ha.grows.built
    exact hc.select ha hb
  | not a iha => exact (iha hnames hP).not

/-! ### The pool of one expression -/

section Pool

variable {t : Ty} (e : Expr t) (hnames : ∀ f ∈ e.fields, f.length ≤ 63)

/-- The pool of a new process that builds the expression. -/
def Expr.pool : NodePool := (e.build .empty).2

include hnames

/-- A builder program in a pool that no pass has written to. -/
theorem Pristine.build {P : NodePool} (hP : Pristine P) : Pristine (e.build P).2 :=
  hP.grows (e.build_builds hnames hP.built).grows

/-- No pass has written to it. -/
theorem Expr.pool_pristine : Pristine e.pool := .build e hnames .empty

/-- **The last node of the pool stands for the expression.** -/
theorem Expr.pool_stands (hroom : e.nodeCount ≤ NodePool.maxNodes) :
    Stands e.pool e (e.nodeCount - 1) := by
  have hbuilds := e.build_builds hnames Built.empty
  have hnext : e.pool.nextIdx = min NodePool.maxNodes (0 + e.nodeCount) := hbuilds.grows.nextIdx
  obtain ⟨n, hn⟩ := Option.isSome_iff_exists.1
    (hbuilds.isSome.2 (show 0 + e.nodeCount ≤ NodePool.maxNodes by omega))
  obtain ⟨hstands, hlast⟩ := hbuilds.stands n hn
  change n + 1 = e.pool.nextIdx at hlast
  obtain rfl : n = e.nodeCount - 1 := by omega
  exact hstands

end Pool

end Ir
end AarchGate
