import Cairo.Proofs.Machine.Hints
import Cairo.Run.Report

/-!
# Laws of runs

A law of actions on a run is proved for the parts that the run's actions are made of, and holds of
these actions then.  Loading a program takes the parts that `LoadingParts` lists, and setting a run
up those of `SetUpParts`; what runs the program and ends the run takes few parts more.  So each
action is walked through once, for all laws.
-/

namespace Cairo

/-- The machines have the same segments, builtins and trace, and pass over the same instruction. -/
structure Machine.SameContents (s t : Machine) : Prop where
  segments : t.segments = s.segments
  builtins : t.builtins = s.builtins
  trace : t.trace = s.trace
  skipNext : t.skipNext = s.skipNext

/-- The change leaves the contents of a machine alone. -/
def Machine.KeepsContents (f : Machine → Machine) : Prop := ∀ m, SameContents m (f m)

namespace Run

/-- The runs have the same program, machine and linear memory. -/
structure SameCore (r t : Run) : Prop where
  program : t.program = r.program
  machine : t.machine = r.machine
  linearMemory : t.linearMemory = r.linearMemory

/-- The change leaves the core of a run alone. -/
def KeepsCore (f : Run → Run) : Prop := ∀ r, SameCore r (f r)

variable {L : Action.Law Run}

/-- A law of actions on a run as one of actions on its machine. -/
def machineLaw (L : Action.Law Run) : Action.Law Machine :=
  L.within (·.machine) (fun r m => { r with machine := m }) (fun _ _ => rfl) (fun _ => rfl)
    fun _ _ _ => rfl

/-! ## Loading -/

/-- The law holds of what a call is prepared with: changes that leave the core of the run alone, new
segments, arguments, and the loading of the program and the stack. -/
structure LoadingParts (L : Action.Law Run) : Prop where
  change : ∀ f, KeepsCore f → L.Holds (modify f : Action Run PUnit)
  add : L.Holds (onSegments (Segments.add none))
  argument : ∀ d, L.Holds (onSegments (Segments.argument d))
  state : ∀ entrypoint stack, L.Holds (initializeState entrypoint stack)

/-- The law holds of loading the program and the stack if it does of loading data and of marking
cells. -/
theorem holds_initializeState
    (hchange : ∀ f, KeepsCore f → L.Holds (modify f : Action Run PUnit))
    (hload : ∀ a data, L.Holds (onSegments (Segments.load a data)))
    (hmark : ∀ a : Address, L.Holds (onMemory (modify (·.markAccessed a)))) (entrypoint : Int)
    (stack : List Datum) : L.Holds (initializeState entrypoint stack) := by
  have hmarks : ∀ a n, L.Holds (markFrom a n) := fun a n =>
    L.forM fun _ _ => L.bind (L.lift _) fun c => hmark c
  unfold initializeState
  refine L.bind L.get fun r => ?_
  split
  · exact L.bind (L.lift _) fun _ => L.bind (hchange _ fun _ => ⟨rfl, rfl, rfl⟩) fun _ =>
      L.bind (hload _ _) fun _ => L.bind (hmarks _ _) fun _ => L.bind (hload _ _) fun _ => L.pure _
  · exact L.throw _

namespace LoadingParts

/-- A weaker law holds of the same parts. -/
theorem mono {L' : Action.Law Run} (h : LoadingParts L)
    (hL : ∀ {α : Type} {x : Action Run α}, L.Holds x → L'.Holds x) : LoadingParts L' where
  change f hf := hL (h.change f hf)
  add := hL h.add
  argument d := hL (h.argument d)
  state entrypoint stack := hL (h.state entrypoint stack)

variable (h : LoadingParts L)

include h

/-- The law holds of preparing a call. -/
theorem holds_initializeCall (entrypoint : Int) (args : List Datum) (returnFp : Datum) :
    L.Holds (initializeCall entrypoint args returnFp) :=
  L.bind h.add fun _ => L.bind L.get fun _ => L.bind (L.lift _) fun _ => L.bind (L.lift _) fun _ =>
    L.bind (h.change _ fun _ => ⟨rfl, rfl, rfl⟩) fun _ =>
      L.bind (h.state _ _) fun _ =>
        L.bind (h.change _ fun _ => ⟨rfl, rfl, rfl⟩) fun _ => L.pure _

/-- The law holds of preparing the call of the main function. -/
theorem holds_initializeMain : L.Holds initializeMain :=
  L.bind L.get fun _ => L.bind (L.lift _) fun _ => L.bind (L.lift _) fun _ => L.bind h.add fun _ =>
    h.holds_initializeCall _ _ _

end LoadingParts

/-! ## Setting up -/

/-- The law holds of what a run is set up with: what loads the program, changes of the machine that
leave its contents alone, builtins that are new or taken away, segments for the builtins, their
rules, and the check of the cells that are there. -/
structure SetUpParts (L : Action.Law Run) : Prop extends LoadingParts L where
  machine : ∀ f, Machine.KeepsContents f → L.Holds (onMachine (modify f))
  builtins : ∀ f : List Builtin → List Builtin,
    (∀ bs, ∀ b ∈ f bs, b ∈ bs ∨ b.segment = none ∧ b.cache = ∅) →
      L.Holds (onBuiltins (modify f))
  allocate : L.Holds allocateBuiltins
  rules : L.Holds addRules
  validate : L.Holds (onMemory Memory.validateExisting)

/-- The law holds of giving the builtins segments if it does of new segments and of whatever is done
to the builtins. -/
theorem holds_allocateBuiltins (hallocate : ∀ b : Builtin, L.Holds (onSegments b.allocate))
    (hbuiltins : ∀ bs : List Builtin, L.Holds (onBuiltins (set bs))) :
    L.Holds allocateBuiltins :=
  L.bind L.get fun _ => L.bind (L.mapM fun b _ => hallocate b) fun _ => hbuiltins _

/-- The law holds of handing over the scopes if it does of such changes of the run and of its
machine. -/
theorem holds_shareScopes
    (hchange : ∀ f, KeepsCore f → L.Holds (modify f : Action Run PUnit))
    (hmachine : ∀ f, Machine.KeepsContents f → L.Holds (onMachine (modify f))) :
    L.Holds shareScopes := by
  unfold shareScopes
  refine L.bind L.get fun r => ?_
  split
  · exact L.bind (hmachine _ fun _ => ⟨rfl, rfl, rfl, rfl⟩) fun _ =>
      hchange _ fun _ => ⟨rfl, rfl, rfl⟩
  · exact L.pure _

namespace SetUpParts

/-- A weaker law holds of the same parts. -/
theorem mono {L' : Action.Law Run} (h : SetUpParts L)
    (hL : ∀ {α : Type} {x : Action Run α}, L.Holds x → L'.Holds x) : SetUpParts L' where
  toLoadingParts := h.toLoadingParts.mono hL
  machine f hf := hL (h.machine f hf)
  builtins f hf := hL (h.builtins f hf)
  allocate := hL h.allocate
  rules := hL h.rules
  validate := hL h.validate

variable (h : SetUpParts L)

include h

/-- The law holds of a report. -/
theorem holds_report (e : Event) : L.Holds (onMachine (Machine.report e)) :=
  h.machine _ fun _ => ⟨rfl, rfl, rfl, rfl⟩

/-- The law holds of creating the builtins. -/
theorem holds_initializeBuiltins : L.Holds initializeBuiltins := by
  have hset : ∀ bs : List Builtin, (∀ b ∈ bs, b.segment = none ∧ b.cache = ∅) →
      L.Holds (onBuiltins (set bs)) :=
    fun bs hbs => h.builtins (fun _ => bs) fun _ b hb => .inr (hbs b hb)
  refine L.bind L.get fun r => L.bind (L.lift _) fun entries => L.bind (hset _ fun b hb => ?_)
    fun _ => h.holds_report _
  obtain ⟨_, -, rfl⟩ := List.mem_map.mp hb
  exact ⟨rfl, rfl⟩

/-- The law holds of allocating the segments. -/
theorem holds_initializeSegments (programBase : Option Address) :
    L.Holds (initializeSegments programBase) := by
  have hrest : ∀ a, L.Holds (do
      modify ({ · with programBase := some a })
      let executionBase ← onSegments (Segments.add none)
      modify ({ · with executionBase := some executionBase })
      allocateBuiltins : Action Run Unit) := fun a =>
    L.bind (h.change _ fun _ => ⟨rfl, rfl, rfl⟩) fun _ => L.bind h.add fun _ =>
      L.bind (h.change _ fun _ => ⟨rfl, rfl, rfl⟩) fun _ => h.allocate
  unfold initializeSegments
  cases programBase with
  | some a => exact L.bind (L.pure a) hrest
  | none => exact L.bind h.add hrest

/-- The law holds of setting a run up for calls of functions. -/
theorem holds_initializeFunctions : L.Holds initializeFunctions :=
  L.bind h.holds_initializeBuiltins fun _ => h.holds_initializeSegments none

/-- The law holds of setting the machine up. -/
theorem holds_initializeMachine : L.Holds initializeMachine :=
  L.bind L.get fun _ => L.bind (L.lift _) fun _ =>
    L.bind (h.machine _ fun _ => ⟨rfl, rfl, rfl, rfl⟩) fun _ => L.bind h.rules fun _ =>
      L.bind h.validate fun _ => L.bind L.get fun _ => L.bind (L.lift _) fun _ =>
        L.bind (h.machine _ fun _ => ⟨rfl, rfl, rfl, rfl⟩) fun _ =>
          holds_shareScopes h.change h.machine

/-- The law holds of setting a run of the main function up. -/
theorem holds_initializeAll : L.Holds initializeAll :=
  L.bind h.holds_initializeBuiltins fun _ => L.bind (h.holds_initializeSegments none) fun _ =>
    L.bind h.holds_initializeMain fun _ => L.bind h.holds_initializeMachine fun _ => L.pure _

end SetUpParts

/-! ## Running and ending -/

/-- A law of steps holds of running for a number of them. -/
theorem holds_runFor (hstep : L.Holds (onMachine Machine.step)) (count : Int) :
    L.Holds (runFor count) :=
  L.bind L.get fun _ => Machine.holds_runFor (L := machineLaw L) hstep _ _

/-- The law holds of verifying that a run is secure if it does of checking the builtins. -/
theorem holds_verifySecure (hverify : L.Holds (onMachine Machine.verifyBuiltins)) :
    L.Holds verifySecure :=
  L.bind L.get fun _ => L.bind (L.forM fun _ _ => L.bind (L.lift _) fun _ => L.lift _) fun _ =>
    hverify

/-- The law holds of reading the return values if it does of whatever is done to the builtins. -/
theorem holds_readReturnValues
    (hbuiltins : ∀ x : Action (List Builtin) (Option Address), L.Holds (onBuiltins x)) :
    L.Holds readReturnValues := by
  unfold readReturnValues
  refine L.bind L.get fun r => ?_
  dsimp only
  split
  · exact L.throw_bind _ _
  · exact hbuiltins _

/-- The law holds of ending a run if it does of moving the temporary segments, checking the builtins
and computing the sizes. -/
theorem holds_endRun (hchange : ∀ f, KeepsCore f → L.Holds (modify f : Action Run PUnit))
    (hmove : L.Holds (onMachine Machine.relocateTemporaries))
    (hverify : L.Holds (onMachine Machine.verifyBuiltins))
    (hsizes : L.Holds (onSegments Segments.computeSizes)) : L.Holds endRun := by
  unfold endRun
  refine L.bind L.get fun r => ?_
  dsimp only
  split
  · exact L.throw_bind _ _
  · exact L.bind hmove fun _ => L.bind hverify fun _ => L.bind hsizes fun _ =>
      hchange _ fun _ => ⟨rfl, rfl, rfl⟩

section Reports

variable (hmachine : ∀ f, Machine.KeepsContents f → L.Holds (onMachine (modify f)))

include hmachine

/-- A law of steps and reports holds of running until an address is reached. -/
theorem holds_runUntil (hstep : L.Holds (onMachine Machine.step)) (target : Option Address)
    (budget : Budget) : L.Holds (runUntil target budget) :=
  L.bind (Machine.holds_runUntil (L := machineLaw L) hstep _ _) fun _ => L.bind L.get fun _ =>
    L.bind (hmachine _ fun _ => ⟨rfl, rfl, rfl, rfl⟩) fun _ => L.pure _

/-- The law holds of relocating a run if it does of computing the sizes and of keeping the linear
memory. -/
theorem holds_relocate (hchange : ∀ f, KeepsCore f → L.Holds (modify f : Action Run PUnit))
    (hsizes : L.Holds (onSegments Segments.computeSizes))
    (hkeep : ∀ memory, L.Holds (modify ({ · with linearMemory := memory }) : Action Run PUnit)) :
    L.Holds relocate := by
  have hreport : ∀ e, L.Holds (onMachine (Machine.report e)) :=
    fun e => hmachine _ fun _ => ⟨rfl, rfl, rfl, rfl⟩
  unfold relocate
  refine L.bind L.get fun r => ?_
  dsimp only
  split
  · exact L.throw_bind _ _
  · refine L.bind hsizes fun _ => L.bind L.get fun r => L.bind (L.lift _) fun table =>
      L.bind (L.lift _) fun memory => L.bind (hkeep _) fun _ => ?_
    split
    · exact L.bind (L.lift _) fun _ => L.bind (hchange _ fun _ => ⟨rfl, rfl, rfl⟩) fun _ =>
        hreport _
    · exact hreport _

end Reports

end Run

end Cairo
