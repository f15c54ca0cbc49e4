/-
`Stateful.lean` -- computations with a state that survives a failure.

Rules of the grammar, parts of the static pass and parts of an execution are the same
kind of thing: a function from a state to a result and a state, where a failure has a
state too. A sequence of two of them is opened here, once and for every state, by
what its first part does.
-/

set_option autoImplicit false

namespace MiniPascal

variable {ε σ α β : Type} {s s' s'' : σ}

/-- A sequence is decided by its first part, and after a success by its second. -/
theorem bind_apply (x : EStateM ε σ α) (f : α → EStateM ε σ β) (s : σ) :
    (x >>= f) s = match x s with
      | .ok a s' => f a s'
      | .error e s' => .error e s' := by
  simp only [bind, EStateM.bind]
  cases x s <;> rfl

/-- A sequence succeeds when both of its parts do. -/
theorem bind_eq_ok_iff {x : EStateM ε σ α} {f : α → EStateM ε σ β} {b : β} :
    (x >>= f) s = .ok b s'' ↔ ∃ a s', x s = .ok a s' ∧ f a s' = .ok b s'' := by
  rw [bind_apply]
  cases x s with
  | ok a s' =>
    constructor
    · intro h
      exact ⟨a, s', rfl, h⟩
    · rintro ⟨_, _, h, hf⟩
      cases h
      exact hf
  | error e s' => simp

/-- After a success the second part decides. -/
theorem bind_of_ok {x : EStateM ε σ α} {a : α} (h : x s = .ok a s')
    (f : α → EStateM ε σ β) : (x >>= f) s = f a s' := by
  rw [bind_apply, h]

/-- After a failure there is no second part. -/
theorem bind_of_error {x : EStateM ε σ α} {e : ε} (h : x s = .error e s')
    (f : α → EStateM ε σ β) : (x >>= f) s = .error e s' := by
  rw [bind_apply, h]

/-- Sequences do the same if their first parts do, and their second parts where the first
parts have led. -/
theorem bind_congr_at {x y : EStateM ε σ α} {f g : α → EStateM ε σ β} (h : x s = y s)
    (hnext : ∀ a s', y s = .ok a s' → f a s' = g a s') : (x >>= f) s = (y >>= g) s := by
  rw [bind_apply, bind_apply, h]
  cases hy : y s with
  | ok a s' => exact hnext a s' hy
  | error e s' => rfl

/-- The state that a computation leaves, whether or not it has failed. -/
def stateAfter : EStateM.Result ε σ α → σ
  | .ok _ s => s
  | .error _ s => s

/-- The error that a computation stops with, if it does. -/
def failure? : EStateM.Result ε σ α → Option ε
  | .ok _ _ => none
  | .error e _ => some e

/-- The same outcome with the state seen through a function. -/
def mapState {τ : Type} (f : σ → τ) : EStateM.Result ε σ α → EStateM.Result ε τ α
  | .ok a s => .ok a (f s)
  | .error e s => .error e (f s)

end MiniPascal
