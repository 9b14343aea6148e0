/-!
# Budgets

A budget limits the steps of a run.  A budget without a number never ends; one with a number ends
at zero and may be overdrawn.
-/

namespace Cairo

/-- The steps that a run may still make; `none` is no limit. -/
structure Budget where
  steps : Option Int
deriving DecidableEq, Inhabited

namespace Budget

/-- No step is left. -/
def isConsumed (b : Budget) : Bool :=
  match b.steps with
  | some n => decide (n ≤ 0)
  | none => false

/-- The budget after one more step. -/
def consumeStep (b : Budget) : Budget := ⟨b.steps.map (· - 1)⟩

/-- A budget in a report. -/
def text (b : Budget) : String :=
  match b.steps with
  | some n => "RunResources(n_steps=" ++ toString n ++ ")"
  | none => "RunResources(n_steps=None)"

/-- The bound on the steps of a run without a limit. -/
def unlimitedSteps : Nat := Nat.pow 2 64

/-- The number of steps that a budget allows. -/
def allowance (b : Budget) : Nat :=
  match b.steps with
  | some n => n.toNat
  | none => unlimitedSteps

/-- The budget that remains when `left` of the allowed steps were not made. -/
def remaining (b : Budget) (left : Nat) : Budget :=
  ⟨b.steps.map fun n => n - n.toNat + left⟩

end Budget

end Cairo
