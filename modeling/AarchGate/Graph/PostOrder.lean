/-
# Depth-first post-order of a shared graph

`visit` is the recursive walk that visits the successors of a vertex before
the vertex itself and never visits a vertex twice.  On an acyclic graph, given
by a rank that every edge lowers, the list it produces is *post-ordered*: no
vertex stands in it twice, and the successors of every vertex stand before it
(`visit_visited`).  The list holds exactly the vertices reachable from the start
(`mem_visit_iff`), and the start comes last.
-/

import Mathlib.Data.List.Basic
import Mathlib.Data.List.Nodup
import Mathlib.Logic.Relation

namespace AarchGate
namespace Graph

variable {α : Type*} (succs : α → List α)

/-- Appends the unvisited vertices reachable from `a` to `seen`, successors
first. -/
def visit [DecidableEq α] : ℕ → α → List α → List α
  | 0, _, seen => seen
  | fuel + 1, a, seen =>
      if a ∈ seen then seen
      else (succs a).foldl (fun s c => visit fuel c s) seen ++ [a]

/-- Every vertex stands once, after all of its successors. -/
inductive PostOrdered : List α → Prop where
  | nil : PostOrdered []
  | snoc {l : List α} {a : α} (h : PostOrdered l) (hnew : a ∉ l)
      (hsuccs : ∀ c ∈ succs a, c ∈ l) : PostOrdered (l ++ [a])

/-- `b` is reachable from `a`. -/
def Reach (a b : α) : Prop := Relation.ReflTransGen (fun x y => y ∈ succs x) a b

variable {succs}

/-- A node comes once. -/
theorem PostOrdered.nodup {l : List α} (h : PostOrdered succs l) : l.Nodup := by
  induction h with
  | nil => exact List.nodup_nil
  | snoc _ hnew _ ih =>
    rw [List.nodup_append]
    refine ⟨ih, List.nodup_singleton _, fun a ha b hb => ?_⟩
    rw [List.mem_singleton] at hb
    exact fun hab => hnew (hb ▸ hab ▸ ha)

/-- The successors of a vertex stand before it. -/
theorem PostOrdered.split {l : List α} (h : PostOrdered succs l) :
    ∀ {pre post : List α} {a : α}, l = pre ++ a :: post →
      a ∉ pre ∧ ∀ c ∈ succs a, c ∈ pre := by
  induction h with
  | nil => intro pre post a he; simp at he
  | @snoc l x h hnew hsuccs ih =>
    intro pre post a he
    rcases List.eq_nil_or_concat post with rfl | ⟨post', y, rfl⟩
    · obtain ⟨rfl, hx⟩ := List.append_inj' he rfl
      obtain rfl : x = a := by simpa using hx
      exact ⟨hnew, hsuccs⟩
    · have he' : l ++ [x] = (pre ++ a :: post') ++ [y] := by simpa using he
      exact ih (List.append_inj' he' rfl).1

/-- A post-ordered list is closed under successors. -/
theorem PostOrdered.closed {l : List α} (h : PostOrdered succs l) {a c : α} (ha : a ∈ l)
    (hc : c ∈ succs a) : c ∈ l := by
  obtain ⟨pre, post, rfl⟩ := List.append_of_mem ha
  exact List.mem_append_left _ ((h.split rfl).2 c hc)

/-- What is below a child is below the node. -/
theorem Reach.succ {a c x : α} (hc : c ∈ succs a) (h : Reach succs c x) : Reach succs a x :=
  Relation.ReflTransGen.head hc h

section Ranked

variable [DecidableEq α] {rank : α → ℕ}

/-- What one visit does to the list of the vertices seen. -/
structure Visited (succs : α → List α) (a : α) (seen out : List α) : Prop where
  post : PostOrdered succs out
  mem : a ∈ out
  sub : ∀ x ∈ seen, x ∈ out
  reach : ∀ x ∈ out, x ∈ seen ∨ Reach succs a x
  last : a ∉ seen → ∃ t, out = t ++ [a]

/-- Visiting a list of vertices one after the other. -/
theorem foldl_visited {fuel : ℕ} {cs : List α} {seen : List α} (hs : PostOrdered succs seen)
    (ih : ∀ c ∈ cs, ∀ s, PostOrdered succs s → Visited succs c s (visit succs fuel c s)) :
    PostOrdered succs (cs.foldl (fun s c => visit succs fuel c s) seen) ∧
      (∀ c ∈ cs, c ∈ cs.foldl (fun s c => visit succs fuel c s) seen) ∧
      (∀ x ∈ seen, x ∈ cs.foldl (fun s c => visit succs fuel c s) seen) ∧
      ∀ x ∈ cs.foldl (fun s c => visit succs fuel c s) seen,
        x ∈ seen ∨ ∃ c ∈ cs, Reach succs c x := by
  induction cs generalizing seen with
  | nil => exact ⟨hs, by simp, fun x hx => hx, fun x hx => Or.inl hx⟩
  | cons c cs ihcs =>
    have hv := ih c (List.mem_cons_self ..) seen hs
    obtain ⟨h1, h2, h3, h4⟩ := ihcs hv.post fun d hd => ih d (List.mem_cons_of_mem _ hd)
    simp only [List.foldl_cons]
    refine ⟨h1, ?_, fun x hx => h3 x (hv.sub x hx), fun x hx => ?_⟩
    · intro d hd
      rcases List.mem_cons.1 hd with rfl | hd
      · exact h3 _ hv.mem
      · exact h2 d hd
    · rcases h4 x hx with hx | ⟨d, hd, hr⟩
      · rcases hv.reach x hx with hx | hr
        · exact Or.inl hx
        · exact Or.inr ⟨c, List.mem_cons_self .., hr⟩
      · exact Or.inr ⟨d, List.mem_cons_of_mem _ hd, hr⟩

/-- **One visit.**  With more fuel than the rank of the start, the walk keeps
the list post-ordered and adds exactly what is reachable. -/
theorem visit_visited (hrank : ∀ a, ∀ c ∈ succs a, rank c < rank a) :
    ∀ (fuel : ℕ) (a : α) (seen : List α), rank a < fuel → PostOrdered succs seen →
      Visited succs a seen (visit succs fuel a seen) := by
  intro fuel
  induction fuel with
  | zero => intro a seen h; omega
  | succ fuel ih =>
    intro a seen hfuel hs
    unfold visit
    split_ifs with ha
    · exact ⟨hs, ha, fun _ h => h, fun _ h => Or.inl h, fun h => absurd ha h⟩
    · have hc : ∀ c ∈ succs a, ∀ s, PostOrdered succs s →
          Visited succs c s (visit succs fuel c s) := fun c hc s hs =>
        ih c s (by have := hrank a c hc; omega) hs
      obtain ⟨h1, h2, h3, h4⟩ := foldl_visited hs hc
      -- the start itself is not reachable from its successors: the rank drops
      have hdown : ∀ {x y : α}, Reach succs x y → rank y ≤ rank x := by
        intro x y h
        induction h with
        | refl => exact Nat.le_refl _
        | tail _ hyz ihr => exact Nat.le_trans (Nat.le_of_lt (hrank _ _ hyz)) ihr
      have hnew : a ∉ (succs a).foldl (fun s c => visit succs fuel c s) seen := by
        intro hmem
        rcases h4 a hmem with h | ⟨c, hca, hr⟩
        · exact ha h
        · have h5 := hrank a c hca
          have h6 := hdown hr
          omega
      refine ⟨h1.snoc hnew h2, by simp, fun x hx => List.mem_append_left _ (h3 x hx), ?_,
        fun _ => ⟨_, rfl⟩⟩
      intro x hx
      rcases List.mem_append.1 hx with hx | hx
      · rcases h4 x hx with hx | ⟨c, hca, hr⟩
        · exact Or.inl hx
        · exact Or.inr (hr.succ hca)
      · rw [List.mem_singleton] at hx
        exact Or.inr (hx ▸ Relation.ReflTransGen.refl)

/-- **The walk lists exactly the reachable vertices.** -/
theorem mem_visit_iff (hrank : ∀ a, ∀ c ∈ succs a, rank c < rank a) {fuel : ℕ} {a : α}
    (hfuel : rank a < fuel) (x : α) : x ∈ visit succs fuel a [] ↔ Reach succs a x := by
  have hv := visit_visited hrank fuel a [] hfuel .nil
  constructor
  · intro hx
    rcases hv.reach x hx with h | h
    · exact absurd h List.not_mem_nil
    · exact h
  · intro h
    induction h with
    | refl => exact hv.mem
    | tail _ hyz ih => exact hv.post.closed ih hyz

end Ranked

end Graph
end AarchGate
