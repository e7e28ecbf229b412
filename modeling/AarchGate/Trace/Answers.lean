/-
# Systems that answer requests

A system takes a list of requests and answers each one, and it may fail.  Its specification
is a system that never fails, with a condition on the requests that a user may make in a
state.

To show that a system does what its specification says, one gives a relation between their
states and shows that one request keeps it and is answered in the same way (`Implements`).
Then a whole list of requests that are allowed is answered without a failure and as
specified (`Implements.answers_eq`).
-/

import AarchGate.Trace.Along

namespace AarchGate
namespace Trace

variable {σ τ ρ ω ε : Type*}

/-- The answers of a specification. -/
def answers (spec : τ → ρ → ω × τ) : τ → List ρ → List ω
  | _, [] => []
  | t, r :: rs => (spec t r).1 :: answers spec (spec t r).2 rs

/-- The answers of a system that may fail, and its state after them. -/
def serveAll (serve : σ → ρ → Except ε (ω × σ)) : σ → List ρ → Except ε (List ω × σ)
  | s, [] => .ok ([], s)
  | s, r :: rs => do
    let (a, s') ← serve s r
    let (as, s'') ← serveAll serve s' rs
    return (a :: as, s'')

/-- A request that is allowed keeps the relation and is answered as specified. -/
def Implements (serve : σ → ρ → Except ε (ω × σ)) (spec : τ → ρ → ω × τ) (Allows : τ → ρ → Prop)
    (R : τ → σ → Prop) : Prop :=
  ∀ t s r, R t s → Allows t r → ∃ s', serve s r = .ok ((spec t r).1, s') ∧ R (spec t r).2 s'

/-- **A list of requests that are allowed is answered as specified.** -/
theorem Implements.answers_eq {serve : σ → ρ → Except ε (ω × σ)} {spec : τ → ρ → ω × τ}
    {Allows : τ → ρ → Prop} {R : τ → σ → Prop} (h : Implements serve spec Allows R) {rs : List ρ} :
    ∀ {t : τ} {s : σ}, R t s → Along (fun t r => (spec t r).2) Allows t rs →
      ∃ s', serveAll serve s rs = .ok (answers spec t rs, s') ∧
        R (run (fun t r => (spec t r).2) t rs) s' := by
  induction rs with
  | nil => exact fun hR _ => ⟨_, rfl, hR⟩
  | cons r rs ih =>
    intro t s hR hall
    obtain ⟨s', hserve, hR'⟩ := h t s r hR hall.1
    obtain ⟨s'', hrest, hR''⟩ := ih hR' hall.2
    refine ⟨s'', ?_, hR''⟩
    rw [serveAll, hserve]
    simp only [bind, Except.bind, hrest]
    rfl

end Trace
end AarchGate
