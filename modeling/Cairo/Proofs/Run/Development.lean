import Cairo.Proofs.Machine.Development
import Cairo.Proofs.Run.Builtins

/-!
# Runs develop

Most of what is done to a run does to its machine what its own actions do: the memory develops, and
the range checks keep their segments and rules (`Run.Develops`).  So do loading the program and the
arguments of calls, advancing the run, ending it, and what is read or verified after that.
-/

namespace Cairo.Run

variable {r t : Run} {α : Type}

/-- The segments of the range checks of a run, each with its rule. -/
def posts (r : Run) : List (Option Int × RangeRule) := Builtin.posts r.machine.builtins

/-- The machine of the run develops. -/
def Develops (r t : Run) : Prop := r.machine.Develops t.machine

instance : IsPreorder Run Develops where
  refl r := refl r.machine
  trans _ _ _ h h' := IsTrans.trans (r := Machine.Develops) _ _ _ h h'

/-- The range checks of a run that develops keep their segments and rules. -/
theorem Develops.posts_eq (h : r.Develops t) : t.posts = r.posts := Machine.Develops.posts h

/-- An action that lets the machine develop does so as an action on the run. -/
theorem develops_onMachine {x : Action Machine α} (hx : Action.Ensures Machine.Develops x) :
    Action.Ensures Develops (onMachine x) :=
  .within hx fun _ _ h => h

/-- An action on the segments that lets the memory develop lets the machine develop. -/
theorem develops_onSegments {x : Action Segments α} (hx : Action.Ensures Segments.Develops x) :
    Action.Ensures Develops (onSegments x) :=
  develops_onMachine (Machine.develops_onSegments hx)

/-- An action on the memory that lets it develop lets the machine develop. -/
theorem develops_onMemory {x : Action Memory α} (hx : Action.Ensures Memory.Develops x) :
    Action.Ensures Develops (onMemory x) :=
  develops_onMachine (Machine.develops_onMemory hx)

/-- A change of the machine that leaves the segments and the builtins alone. -/
theorem develops_modifyMachine {f : Machine → Machine}
    (hsegments : ∀ m, (f m).segments = m.segments) (hbuiltins : ∀ m, (f m).builtins = m.builtins) :
    Action.Ensures Develops (onMachine (modify f)) :=
  develops_onMachine (.modify fun m => Machine.develops_of_eq (hsegments m) (hbuiltins m))

/-- A change of the run that leaves the machine alone. -/
theorem develops_modify {f : Run → Run} (hf : ∀ r, (f r).machine = r.machine) :
    Action.Ensures Develops (modify f : Action Run PUnit) := by
  refine .modify fun r => ?_
  unfold Develops
  rw [hf]
  exact refl r.machine

/-- A change of the machine that leaves its contents alone. -/
theorem develops_of_keepsContents {f : Machine → Machine} (hf : Machine.KeepsContents f) :
    Action.Ensures Develops (onMachine (modify f)) :=
  develops_modifyMachine (fun m => (hf m).segments) fun m => (hf m).builtins

/-- What loads the program and prepares a call lets the machine develop. -/
theorem loadingParts_develops : LoadingParts (Action.Ensures.law Develops) :=
  have hchange : ∀ f, KeepsCore f → Action.Ensures Develops (modify f : Action Run PUnit) :=
    fun _ hf => develops_modify fun r => (hf r).machine
  { change := hchange
    add := develops_onSegments (Segments.develops_add none)
    argument := fun d => develops_onSegments (Segments.develops_argument d)
    state := holds_initializeState hchange
      (fun _ _ => develops_onSegments (Segments.develops_load _ _))
      fun _ => develops_onMemory (.modify fun _ => Memory.Marked.develops ⟨_, rfl⟩) }

/-- Handing over the scopes lets the machine develop. -/
theorem develops_shareScopes : Action.Ensures Develops shareScopes :=
  holds_shareScopes loadingParts_develops.change fun _ => develops_of_keepsContents

/-- Running until an address is reached lets the machine develop. -/
theorem develops_runUntil (target : Option Address) (budget : Budget) :
    Action.Ensures Develops (runUntil target budget) :=
  holds_runUntil (L := Action.Ensures.law Develops) (fun _ => develops_of_keepsContents)
    (develops_onMachine Machine.develops_step) target budget

/-- Ending a run lets the machine develop. -/
theorem develops_endRun : Action.Ensures Develops endRun :=
  holds_endRun loadingParts_develops.change
    (develops_onMachine Machine.develops_relocateTemporaries)
    (develops_onMachine Machine.develops_verifyBuiltins)
    (develops_onSegments Segments.develops_computeSizes)

/-- Reading the return values lets the machine develop. -/
theorem develops_readReturnValues : Action.Ensures Develops readReturnValues := by
  unfold readReturnValues
  refine .bind .get fun r => ?_
  dsimp only
  split
  · exact .throw_bind _ _
  · refine develops_onMachine (Machine.develops_onBuiltins (.within (forall₂_readStops
      (Builtin.samePost_finalStack r.machine.segments) r.machine.registers.ap) fun bs bs' h => ?_))
    refine List.forall₂_reverse_iff.mp ?_
    rwa [List.reverse_reverse]

/-- Verifying that a run is secure lets the machine develop. -/
theorem develops_verifySecure : Action.Ensures Develops verifySecure :=
  holds_verifySecure (L := Action.Ensures.law Develops)
    (develops_onMachine Machine.develops_verifyBuiltins)

end Cairo.Run
