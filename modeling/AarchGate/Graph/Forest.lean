/-
# Walking a forest that is given by lists of children

`walk` is the recursive walk that visits a vertex and then its successors, and
keeps no record of what it has seen: on a cycle it would not end, and a vertex
that stands in two lists it would visit twice.

`Forest succs roots order` says how such lists come about when vertices are added
one at a time, in the order `order`: each vertex is put into one list, that of the
roots or that of a vertex which is there by then, possibly its own
(`Forest.add_root`, `Forest.add_child`).  A vertex that is its own successor is
then not reachable from a root, and the walk from the roots ends and visits no
vertex twice (`Forest.walk_roots`).
-/

import AarchGate.Graph.PostOrder
import Mathlib.Data.List.Pairwise
import Mathlib.Data.List.Perm.Basic

namespace AarchGate
namespace Graph

/-! ### One after the other -/

section Collect

variable {α β γ : Type*} {f : α → Option (List β)}

/-- Runs `f` on the elements in turn, and puts the results together. -/
def collect (f : α → Option (List β)) : List α → Option (List β)
  | [] => some []
  | a :: as => (f a).bind fun xs => (collect f as).map (xs ++ ·)

/-- The first element and the rest. -/
theorem collect_cons_eq_some {a : α} {as : List α} {out : List β} :
    collect f (a :: as) = some out ↔
      ∃ xs ys, f a = some xs ∧ collect f as = some ys ∧ xs ++ ys = out := by
  simp [collect, Option.bind_eq_some_iff, Option.map_eq_some_iff]

/-- It succeeds if it does on every element. -/
theorem exists_collect {as : List α} (h : ∀ a ∈ as, ∃ xs, f a = some xs) :
    ∃ out, collect f as = some out := by
  induction as with
  | nil => exact ⟨[], rfl⟩
  | cons a as ih =>
    obtain ⟨ha, has⟩ := List.forall_mem_cons.1 h
    obtain ⟨xs, hxs⟩ := ha
    obtain ⟨ys, hys⟩ := ih has
    exact ⟨xs ++ ys, collect_cons_eq_some.2 ⟨xs, ys, hxs, hys, rfl⟩⟩

/-- What was collected comes from an element. -/
theorem mem_of_collect {as : List α} {out : List β} (h : collect f as = some out) {x : β}
    (hx : x ∈ out) : ∃ a ∈ as, ∃ xs, f a = some xs ∧ x ∈ xs := by
  induction as generalizing out with
  | nil =>
    obtain rfl := Option.some.inj h
    exact absurd hx List.not_mem_nil
  | cons a as ih =>
    obtain ⟨xs, ys, hxs, hys, rfl⟩ := collect_cons_eq_some.1 h
    rcases List.mem_append.1 hx with hx | hx
    · exact ⟨a, List.mem_cons_self, xs, hxs, hx⟩
    · obtain ⟨b, hb, zs, hzs, hx⟩ := ih hys hx
      exact ⟨b, List.mem_cons_of_mem a hb, zs, hzs, hx⟩

/-- Results without repetitions, of which no two share an element. -/
theorem nodup_of_collect {as : List α} (has : as.Nodup) {out : List β} (h : collect f as = some out)
    (hf : ∀ a ∈ as, ∀ xs, f a = some xs → xs.Nodup)
    (hdisj : ∀ a ∈ as, ∀ b ∈ as, a ≠ b → ∀ xs ys, f a = some xs → f b = some ys → xs.Disjoint ys) :
    out.Nodup := by
  induction as generalizing out with
  | nil =>
    obtain rfl := Option.some.inj h
    exact List.nodup_nil
  | cons a as ih =>
    obtain ⟨xs, ys, hxs, hys, rfl⟩ := collect_cons_eq_some.1 h
    obtain ⟨ha, has⟩ := List.nodup_cons.1 has
    refine (hf a List.mem_cons_self xs hxs).append ?_ ?_
    · exact ih has hys (fun b hb => hf b (List.mem_cons_of_mem a hb)) fun b hb c hc =>
        hdisj b (List.mem_cons_of_mem a hb) c (List.mem_cons_of_mem a hc)
    · intro x hx hy
      obtain ⟨b, hb, zs, hzs, hz⟩ := mem_of_collect hys hy
      exact hdisj a List.mem_cons_self b (List.mem_cons_of_mem a hb) (fun he => ha (he ▸ hb)) xs zs
        hxs hzs hx hz

/-- Where `f` has a result, `g` has the same. -/
theorem collect_mono {g : α → Option (List β)} (hfg : ∀ a xs, f a = some xs → g a = some xs)
    {as : List α} {out : List β} (h : collect f as = some out) : collect g as = some out := by
  induction as generalizing out with
  | nil => exact h
  | cons a as ih =>
    obtain ⟨xs, ys, hxs, hys, rfl⟩ := collect_cons_eq_some.1 h
    exact collect_cons_eq_some.2 ⟨xs, ys, hfg a xs hxs, ih hys, rfl⟩

/-- What is seen of the results through `p`, when `f` sees of its argument only `k`. -/
theorem map_collect {δ : Type*} {g : δ → Option (List γ)} {p : β → γ} {k : α → δ}
    (hfg : ∀ a, (f a).map (List.map p) = g (k a)) (as : List α) :
    (collect f as).map (List.map p) = collect g (as.map k) := by
  induction as with
  | nil => rfl
  | cons a as ih =>
    rw [List.map_cons, collect, collect, ← hfg, ← ih]
    cases f a with
    | none => rfl
    | some xs => cases collect f as <;> simp

end Collect

/-! ### The walk -/

variable {α : Type*} (succs : α → List α)

/-- The vertices in the order the recursion visits them; `none` if it goes deeper
than `fuel`. -/
def walk : ℕ → α → Option (List α)
  | 0, _ => none
  | fuel + 1, a => (collect (walk fuel) (succs a)).map (a :: ·)

variable {succs}

/-- A walk is the node and the walks below it. -/
theorem walk_succ_eq_some {fuel : ℕ} {a : α} {out : List α} :
    walk succs (fuel + 1) a = some out ↔
      ∃ xs, collect (walk succs fuel) (succs a) = some xs ∧ a :: xs = out := by
  simp [walk, Option.map_eq_some_iff]

/-- A walk stays below its node. -/
theorem reach_of_mem_walk {fuel : ℕ} {a x : α} {out : List α} (h : walk succs fuel a = some out)
    (hx : x ∈ out) : Reach succs a x := by
  induction fuel generalizing a out with
  | zero => simp [walk] at h
  | succ fuel ih =>
    obtain ⟨xs, hxs, rfl⟩ := walk_succ_eq_some.1 h
    rcases List.mem_cons.1 hx with rfl | hx
    · exact Relation.ReflTransGen.refl
    · obtain ⟨c, hc, ys, hys, hx⟩ := mem_of_collect hxs hx
      exact Reach.succ hc (ih hys hx)

/-! ### Forests -/

/-- The lists as they are when the vertices were added in the order `order`: every
vertex stands in exactly one list, and the vertices that have successors were
there before these, a vertex that is its own successor apart. -/
structure Forest [DecidableEq α] (succs : α → List α) (roots order : List α) : Prop where
  nodup : order.Nodup
  perm : (roots ++ order.flatMap succs).Perm order
  leaf : ∀ a, a ∉ order → succs a = []
  forward : ∀ a, ∀ c ∈ succs a, c = a ∨ order.idxOf a < order.idxOf c

variable [DecidableEq α] {roots order : List α}

/-- The empty forest. -/
theorem forest_nil : Forest (fun _ : α => []) [] [] where
  nodup := List.nodup_nil
  perm := List.Perm.refl _
  leaf := fun _ _ => rfl
  forward := fun _ _ hc => absurd hc List.not_mem_nil

section Grow

variable {x p : α}

/-- The places in the order do not change when a vertex is added. -/
theorem idxOf_concat_lt {a c : α} (ha : a ∈ order)
    (h : order.idxOf a < order.idxOf c) : (order ++ [x]).idxOf a < (order ++ [x]).idxOf c := by
  rw [List.idxOf_append_of_mem ha]
  by_cases hc : c ∈ order
  · rwa [List.idxOf_append_of_mem hc]
  · rw [List.idxOf_append_of_notMem hc]
    exact Nat.lt_of_lt_of_le (List.idxOf_lt_length_of_mem ha) (Nat.le_add_right ..)

/-- A parent is in the order. -/
theorem Forest.mem_order (h : Forest succs roots order) {a c : α} (hc : c ∈ succs a) :
    a ∈ order := by
  by_contra ha
  rw [h.leaf a ha] at hc
  exact absurd hc List.not_mem_nil

/-- A new node leaves the others in order. -/
theorem Forest.forward_concat (h : Forest succs roots order) {a c : α} (hc : c ∈ succs a) :
    c = a ∨ (order ++ [x]).idxOf a < (order ++ [x]).idxOf c :=
  (h.forward a c hc).imp_right (idxOf_concat_lt (h.mem_order hc))

/-- A new vertex becomes a root. -/
theorem Forest.add_root (h : Forest succs roots order) (hx : x ∉ order) :
    Forest succs (roots ++ [x]) (order ++ [x]) where
  nodup := h.nodup.append (List.nodup_singleton x) (List.disjoint_singleton.2 hx)
  perm := by
    rw [List.flatMap_append, List.flatMap_singleton, h.leaf x hx, List.append_nil]
    have hcomm : ((roots ++ [x]) ++ order.flatMap succs).Perm
        ((roots ++ order.flatMap succs) ++ [x]) := by
      rw [List.append_assoc, List.append_assoc]
      exact List.Perm.append_left roots List.perm_append_comm
    exact hcomm.trans (h.perm.append_right [x])
  leaf := fun a ha => h.leaf a fun hmem => ha (List.mem_append_left _ hmem)
  forward := fun a c hc => h.forward_concat hc

/-- Lengthening the list of one vertex adds one element to all the lists. -/
theorem flatMap_update_perm {l : List α} (hl : l.Nodup) (hp : p ∈ l) (succs : α → List α) (x : α) :
    (l.flatMap (Function.update succs p (succs p ++ [x]))).Perm (l.flatMap succs ++ [x]) := by
  obtain ⟨l₁, l₂, rfl⟩ := List.append_of_mem hp
  have hsame : ∀ l' : List α, p ∉ l' →
      l'.flatMap (Function.update succs p (succs p ++ [x])) = l'.flatMap succs := by
    intro l' hp'
    refine List.flatMap_congr fun a ha => Function.update_of_ne ?_ ..
    rintro rfl
    exact hp' ha
  obtain ⟨h₁, h₂⟩ : p ∉ l₁ ∧ p ∉ l₂ := by
    have hnd := List.nodup_middle.1 hl
    rw [List.nodup_cons, List.mem_append, not_or] at hnd
    exact hnd.1
  rw [List.flatMap_append, List.flatMap_cons, hsame l₁ h₁, hsame l₂ h₂, Function.update_self,
    List.flatMap_append, List.flatMap_cons]
  simp only [List.append_assoc]
  refine List.Perm.append_left _ (List.Perm.append_left _ ?_)
  exact List.perm_append_comm

/-- A new vertex becomes a successor of one that is there, or of itself. -/
theorem Forest.add_child (h : Forest succs roots order) (hx : x ∉ order) (hp : p ∈ order ++ [x]) :
    Forest (Function.update succs p (succs p ++ [x])) roots (order ++ [x]) := by
  have hnd := (h.add_root hx).nodup
  refine ⟨hnd, ?_, fun a ha => ?_, fun a c hc => ?_⟩
  · have hlists := flatMap_update_perm hnd hp succs x
    rw [List.flatMap_append (f := succs), List.flatMap_singleton, h.leaf x hx,
      List.append_nil] at hlists
    refine (List.Perm.append_left roots hlists).trans ?_
    rw [← List.append_assoc]
    exact h.perm.append_right [x]
  · have hne : a ≠ p := by
      rintro rfl
      exact ha hp
    rw [Function.update_of_ne hne]
    exact h.leaf a fun hmem => ha (List.mem_append_left _ hmem)
  · by_cases ha : a = p
    · subst ha
      rw [Function.update_self, List.mem_append, List.mem_singleton] at hc
      rcases hc with hc | rfl
      · exact h.forward_concat hc
      · rcases List.mem_append.1 hp with hp | hp
        · refine Or.inr ?_
          rw [List.idxOf_append_of_mem hp, List.idxOf_append_of_notMem hx]
          exact Nat.lt_of_lt_of_le (List.idxOf_lt_length_of_mem hp) (Nat.le_add_right ..)
        · exact Or.inl (List.mem_singleton.1 hp).symm
    · rw [Function.update_of_ne ha] at hc
      exact h.forward_concat hc

end Grow

section Walk

variable (h : Forest succs roots order)

include h

/-- A node is listed once. -/
theorem Forest.lists_nodup : (roots ++ order.flatMap succs).Nodup := h.perm.nodup_iff.2 h.nodup

/-- So is a root among the roots. -/
theorem Forest.roots_nodup : roots.Nodup := (List.nodup_append.1 h.lists_nodup).1

/-- And a child among the children. -/
theorem Forest.succs_nodup (a : α) : (succs a).Nodup := by
  by_cases ha : a ∈ order
  · exact (List.nodup_flatMap.1 (List.nodup_append.1 h.lists_nodup).2.1).1 a ha
  · rw [h.leaf a ha]
    exact List.nodup_nil

/-- A vertex is in the list of one vertex at most. -/
theorem Forest.parent_unique {a b c : α} (ha : c ∈ succs a) (hb : c ∈ succs b) : a = b := by
  by_contra hne
  have hpair := (List.nodup_flatMap.1 (List.nodup_append.1 h.lists_nodup).2.1).2
  have hsymm : Std.Symm (Function.onFun List.Disjoint succs) := ⟨fun _ _ hd _ hx hy => hd hy hx⟩
  exact hpair.forall (h.mem_order ha) (h.mem_order hb) hne ha hb

/-- A root is no child. -/
theorem Forest.root_not_mem {r : α} (hr : r ∈ roots) (a : α) : r ∉ succs a := by
  intro hmem
  exact (List.nodup_append.1 h.lists_nodup).2.2 r hr r
    (List.mem_flatMap.2 ⟨a, h.mem_order hmem, hmem⟩) rfl

/-- From a vertex that is not its own successor the links lead to later vertices, of
which the same is true. -/
theorem Forest.forward_of_proper {a c : α} (ha : a ∉ succs a) (hc : c ∈ succs a) :
    order.idxOf a < order.idxOf c ∧ c ∉ succs c := by
  have hne : c ≠ a := fun he => ha (he ▸ hc)
  exact ⟨(h.forward a c hc).resolve_left hne, fun hcc => hne (h.parent_unique hcc hc)⟩

/-- What is below a node comes after it. -/
theorem Forest.idxOf_le_of_reach {a x : α} (ha : a ∉ succs a) (hx : Reach succs a x) :
    order.idxOf a ≤ order.idxOf x ∧ x ∉ succs x := by
  induction hx with
  | refl => exact ⟨Nat.le_refl _, ha⟩
  | tail _ hc ih =>
    obtain ⟨hlt, hproper⟩ := h.forward_of_proper ih.2 hc
    exact ⟨Nat.le_trans ih.1 (Nat.le_of_lt hlt), hproper⟩

/-- What is reachable from two vertices lies on one path with both. -/
theorem Forest.reach_total {a b x : α} (ha : Reach succs a x) (hb : Reach succs b x) :
    Reach succs a b ∨ Reach succs b a := by
  have hunique : Relator.RightUnique (Function.swap fun x y : α => y ∈ succs x) :=
    fun _ _ _ hpa hpb => h.parent_unique hpa hpb
  have ha' := Relation.reflTransGen_swap.2 ha
  have hb' := Relation.reflTransGen_swap.2 hb
  rcases Relation.ReflTransGen.total_of_right_unique hunique ha' hb' with hab | hba
  · exact Or.inr (Relation.reflTransGen_swap.1 hab)
  · exact Or.inl (Relation.reflTransGen_swap.1 hba)

/-- From one successor of a vertex there is no way to another. -/
theorem Forest.not_reach_sibling {a c d : α} (ha : a ∉ succs a) (hc : c ∈ succs a)
    (hd : d ∈ succs a) (hne : c ≠ d) : ¬Reach succs c d := by
  intro hcd
  obtain ⟨hlt, hproper⟩ := h.forward_of_proper ha hc
  rcases Relation.ReflTransGen.cases_tail hcd with rfl | ⟨p, hcp, hpd⟩
  · exact hne rfl
  · obtain rfl := h.parent_unique hpd hd
    have := (h.idxOf_le_of_reach hproper hcp).1
    omega

/-- No root is below another. -/
theorem Forest.not_reach_root {r s : α} (hs : s ∈ roots) (hne : r ≠ s) : ¬Reach succs r s := by
  intro hrs
  rcases Relation.ReflTransGen.cases_tail hrs with rfl | ⟨p, -, hps⟩
  · exact hne rfl
  · exact h.root_not_mem hs p hps

/-- Walks from vertices with no way from one to another have no vertex in common. -/
theorem Forest.walk_disjoint {fuel : ℕ} {c d : α} (hcd : ¬Reach succs c d) (hdc : ¬Reach succs d c)
    {xs ys : List α} (hxs : walk succs fuel c = some xs) (hys : walk succs fuel d = some ys) :
    xs.Disjoint ys := by
  intro x hx hy
  exact (h.reach_total (reach_of_mem_walk hxs hx) (reach_of_mem_walk hys hy)).elim hcd hdc

/-- **The walk from one vertex** ends, and visits no vertex twice. -/
theorem Forest.walk_vertex {fuel : ℕ} {a : α} (ha : a ∉ succs a)
    (hfuel : order.length < order.idxOf a + fuel) :
    ∃ out, walk succs fuel a = some out ∧ out.Nodup := by
  induction fuel generalizing a with
  | zero =>
    have := List.idxOf_le_length (l := order) (a := a)
    omega
  | succ fuel ih =>
    have hchild : ∀ c ∈ succs a, ∃ out, walk succs fuel c = some out ∧ out.Nodup := by
      intro c hc
      obtain ⟨hlt, hproper⟩ := h.forward_of_proper ha hc
      exact ih hproper (by omega)
    obtain ⟨xs, hxs⟩ := exists_collect fun c hc => (hchild c hc).imp fun _ h => h.1
    refine ⟨a :: xs, walk_succ_eq_some.2 ⟨xs, hxs, rfl⟩, List.nodup_cons.2 ⟨fun hmem => ?_, ?_⟩⟩
    · -- the vertex itself is before everything that is reachable from its successors
      obtain ⟨c, hc, ys, hys, hx⟩ := mem_of_collect hxs hmem
      obtain ⟨hlt, hproper⟩ := h.forward_of_proper ha hc
      have := (h.idxOf_le_of_reach hproper (reach_of_mem_walk hys hx)).1
      omega
    · refine nodup_of_collect (h.succs_nodup a) hxs ?_ ?_
      · intro c hc ys hys
        obtain ⟨zs, hzs, hnd⟩ := hchild c hc
        exact Option.some.inj (hys.symm.trans hzs) ▸ hnd
      · intro c hc d hd hne ys zs
        exact h.walk_disjoint (h.not_reach_sibling ha hc hd hne)
          (h.not_reach_sibling ha hd hc hne.symm)

/-- **The walk from the roots** ends, and visits no vertex twice. -/
theorem Forest.walk_roots {fuel : ℕ} (hfuel : order.length < fuel) :
    ∃ out, collect (walk succs fuel) roots = some out ∧ out.Nodup := by
  have hroot : ∀ r ∈ roots, ∃ out, walk succs fuel r = some out ∧ out.Nodup := fun r hr =>
    h.walk_vertex (h.root_not_mem hr r) (by omega)
  obtain ⟨out, hout⟩ := exists_collect fun r hr => (hroot r hr).imp fun _ h => h.1
  refine ⟨out, hout, nodup_of_collect h.roots_nodup hout ?_ ?_⟩
  · intro r hr xs hxs
    obtain ⟨ys, hys, hnd⟩ := hroot r hr
    exact Option.some.inj (hxs.symm.trans hys) ▸ hnd
  · intro r hr s hs hne xs ys
    exact h.walk_disjoint (h.not_reach_root hs hne) (h.not_reach_root hr hne.symm)

end Walk

end Graph
end AarchGate
