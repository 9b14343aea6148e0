import Cairo.Builtin.Usage
import Cairo.Layout
import Cairo.Machine.Hints
import Cairo.Program.Basic
import Cairo.Trace.Linear

/-!
# Runs

A run executes a program on a machine.  It keeps where the program and the execution segment
begin, the registers to start with, and the address at which the run ends.  The scopes of a run
are its own: they reach the machine when it is first set up and stay with it.
-/

namespace Cairo

/-- A run of a program. -/
structure Run where
  program : Program
  layout : Layout
  machine : Machine
  programBase : Option Address
  executionBase : Option Address
  initialPc : Option Address
  initialAp : Option Address
  initialFp : Option Address
  finalPc : Option Address
  scopesShared : Bool
  hasEnded : Bool
  linearMemory : Option LinearMemory
  linearTrace : Option (List TraceRow)

namespace Run

variable {α : Type}

/-- A run that is not set up yet. -/
def new (program : Program) (layout : Layout) (tracing recording : Bool) : Run :=
  { program := program, layout := layout, machine := .fresh tracing recording
    programBase := none, executionBase := none, initialPc := none, initialAp := none
    initialFp := none, finalPc := none, scopesShared := false, hasEnded := false
    linearMemory := none, linearTrace := none }

/-- An action on the machine. -/
def onMachine (x : Action Machine α) : Action Run α :=
  Action.within (·.machine) (fun r m => { r with machine := m }) x

/-- An action on the segments. -/
def onSegments (x : Action Segments α) : Action Run α := onMachine (Machine.onSegments x)

/-- An action on the memory. -/
def onMemory (x : Action Memory α) : Action Run α := onMachine (Machine.onMemory x)

/-- An action on the builtins. -/
def onBuiltins (x : Action (List Builtin) α) : Action Run α := onMachine (Machine.onBuiltins x)

/-- The memory of a run. -/
def memory (r : Run) : Memory := r.machine.memory

/-- The builtin of a name. -/
def builtin? (r : Run) (name : String) : Option Builtin :=
  r.machine.builtins.find? (·.kind.name = name)

/-! ### Setting up -/

/-- Creates the builtins that the program declares. -/
def initializeBuiltins : Action Run Unit := do
  let r ← get
  let entries ← r.layout.entries r.program.builtins
  let builtins := entries.map fun (kind, ratio) =>
    { Builtin.ofKind kind with ratio := ratio }
  onBuiltins (set builtins)
  onMachine (Machine.report (.builtinsReady (builtins.map (·.kind.name))))

/-- Gives every builtin a segment. -/
def allocateBuiltins : Action Run Unit := do
  let builtins ← (← get).machine.builtins.mapM fun b => onSegments b.allocate
  onBuiltins (set builtins)

/-- Allocates the segments of the program, of the execution and of the builtins; the first of
them may be given. -/
def initializeSegments (programBase : Option Address) : Action Run Unit := do
  let programBase ← match programBase with
    | some a => pure a
    | none => onSegments (Segments.add none)
  modify ({ · with programBase := some programBase })
  let executionBase ← onSegments (Segments.add none)
  modify ({ · with executionBase := some executionBase })
  allocateBuiltins

/-- Sets a run up for calls of single functions. -/
def initializeFunctions : Action Run Unit := do
  initializeBuiltins
  initializeSegments none

/-- Marks a number of cells from an address on as accessed. -/
def markFrom (a : Address) (n : Nat) : Action Run Unit :=
  (List.range n).forM fun i : Nat => do
    let cell ← a.shift i
    onMemory (modify (·.markAccessed cell))

/-- Loads the program and the stack, and sets where the run begins. -/
def initializeState (entrypoint : Int) (stack : List Datum) : Action Run Unit := do
  let r ← get
  match r.programBase, r.executionBase with
  | some program, some execution =>
    let pc ← program.shift entrypoint
    modify ({ · with initialPc := some pc })
    let _ ← onSegments (Segments.load program (r.program.data.map .value))
    markFrom program r.program.data.length
    let _ ← onSegments (Segments.load execution stack)
  | _, _ => throw (.notInitialized .programBase)

/-- Prepares the call of a function and answers the address that it returns to. -/
def initializeCall (entrypoint : Int) (args : List Datum) (returnFp : Datum) :
    Action Run Address := do
  let final ← onSegments (Segments.add none)
  let stack := args ++ [returnFp, .value (.address final)]
  let execution ← Action.orThrow (← get).executionBase .unsupportedOperand
  let top ← execution.shift stack.length
  modify ({ · with initialAp := some top, initialFp := some top })
  initializeState entrypoint stack
  modify ({ · with finalPc := some final })
  return final

/-- The cells that the builtins put on the stack. -/
def builtinStack (r : Run) : Except Fault (List Datum) := do
  return (← r.machine.builtins.mapM Builtin.initialStack).flatten

/-- Prepares the call of the main function. -/
def initializeMain : Action Run Address := do
  let r ← get
  let stack ← r.builtinStack
  let main ← Action.orThrow r.program.main .missingMain
  let returnFp ← onSegments (Segments.add none)
  initializeCall main stack (.value (.address returnFp))

/-- Adds the rules of the builtins to the memory. -/
def addRules : Action Run Unit := do
  (← get).machine.builtins.forM fun b => do
    let memory ← b.addRule (← get).memory
    onMemory (set memory)

/-- The hints of the program at the addresses where it is loaded. -/
def placedHints (r : Run) : Except Fault (Std.ExtTreeMap Address (List Hint)) := do
  let base ← Action.orThrow r.programBase .unsupportedOperand
  r.program.hints.foldlM (fun found (pc, hs) => do
    return found.insert (← base.shift pc) (hs.map fun h => ⟨h.code⟩)) ∅

/-- Hands the scopes of the run to the machine, once. -/
def shareScopes : Action Run Unit := do
  if !(← get).scopesShared then
    onMachine (modify ({ · with scopes := some .main }))
    modify ({ · with scopesShared := true })

/-- Sets the machine up: its registers, the rules of the builtins, the hints and the scopes. -/
def initializeMachine : Action Run Unit := do
  let r ← get
  let pc ← Action.orThrow r.initialPc (.notInitialized .initialPc)
  onMachine (modify ({ · with registers := ⟨pc, r.initialAp, r.initialFp⟩ }))
  addRules
  onMemory Memory.validateExisting
  let hints ← (← get).placedHints
  onMachine (modify ({ · with hints := hints, processor := some .standard }))
  shareScopes

/-- Sets a run of the main function up and answers the address at which it ends. -/
def initializeAll : Action Run Address := do
  initializeBuiltins
  initializeSegments none
  let final ← initializeMain
  initializeMachine
  return final

end Run

end Cairo
