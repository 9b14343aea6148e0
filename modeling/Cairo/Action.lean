import Cairo.Fault

/-!
# Actions

An action changes a state and may fail; a failed action leaves the state as it was at the point of
the failure, so that the work can go on from there.  An answer that only reads the state is an
`Except Fault`, which every action can use.  `within` runs an action on a part of the state.
-/

namespace Cairo

/-- A computation on a state that may fail and keeps the state either way. -/
abbrev Action (σ α : Type) := EStateM Fault σ α

namespace Action

variable {σ τ α : Type}

/-- An answer that leaves the state alone. -/
def ofExcept (x : Except Fault α) : Action σ α := fun s =>
  match x with
  | .ok a => .ok a s
  | .error e => .error e s

instance : MonadLift (Except Fault) (EStateM Fault σ) := ⟨ofExcept⟩

/-- An action on a part of the state. -/
def within (part : σ → τ) (replace : σ → τ → σ) (x : Action τ α) : Action σ α := fun s =>
  match x (part s) with
  | .ok a t => .ok a (replace s t)
  | .error e t => .error e (replace s t)

/-- The answer of an action, without the state. -/
def answer (x : Action σ α) (s : σ) : Except Fault α :=
  match x s with
  | .ok a _ => .ok a
  | .error e _ => .error e

/-- The state that an action ends in, whether it fails or not. -/
def after (x : Action σ α) (s : σ) : σ :=
  match x s with
  | .ok _ t => t
  | .error _ t => t

@[simp] theorem after_ofExcept (x : Except Fault α) (s : σ) :
    after (ofExcept x) s = s := by
  cases x <;> rfl

@[simp] theorem after_within (part : σ → τ) (replace : σ → τ → σ) (x : Action τ α) (s : σ) :
    after (within part replace x) s = replace s (after x (part s)) := by
  unfold after within
  cases x (part s) <;> rfl

/-- An absent answer is a fault. -/
def orThrow (x : Option α) (e : Fault) : Except Fault α :=
  match x with
  | some a => .ok a
  | none => .error e

end Action

end Cairo
