import Cairo.Budget
import Cairo.Run.Basic

/-!
# Executing runs

A run goes on until the program counter reaches an address (`runUntil`), for a number of steps
(`runFor`), or up to a number of steps.  `endRun` then moves the temporary segments, checks the
builtins and fixes the sizes of the segments; `readReturnValues` checks the stop pointers that
the program leaves on the stack, and `verifySecure` that no builtin cell was forged.
-/

namespace Cairo

namespace Machine

/-- Makes steps until the program counter reaches an address, at most as many as allowed, and
answers how many were left. -/
def runUntil (target : Option Address) : Nat → Action Machine Nat
  | 0 => do
    let pc := (← get).registers.pc
    if some pc ≠ target then
      throw (.endNotReached pc target)
    return 0
  | left + 1 => do
    if some (← get).registers.pc = target then
      return left + 1
    step
    runUntil target left

/-- Makes a number of steps, none of them at the final address. -/
def runFor (final : Option Address) : Nat → Action Machine Unit
  | 0 => pure ()
  | left + 1 => do
    if some (← get).registers.pc = final then
      throw (.endOfProgram (left + 1))
    step
    runFor final left

end Machine

/-- The least power of two that is not less than a number; at least 1. -/
def nextPowerOfTwo (n : Int) : Nat :=
  if n ≤ 1 then 1 else Nat.pow 2 ((n - 1).toNat.log2 + 1)

namespace Run

/-- Runs until an address is reached and answers the budget that is left. -/
def runUntil (target : Option Address) (budget : Budget) : Action Run Budget := do
  let left ← onMachine (Machine.runUntil target budget.allowance)
  let m := (← get).machine
  onMachine (Machine.report (.reached m.registers.pc m.stepCount))
  return budget.remaining left

/-- Runs a number of steps, none of them at the end of the program. -/
def runFor (steps : Int) : Action Run Unit := do
  onMachine (Machine.runFor (← get).finalPc steps.toNat)

/-- Runs until a number of steps was made in all. -/
def runUntilSteps (steps : Int) : Action Run Unit := do
  runFor (steps - (← get).machine.stepCount)

/-- Runs until the number of steps is a power of two. -/
def runUntilNextPowerOfTwo : Action Run Unit := do
  runUntilSteps (nextPowerOfTwo (← get).machine.stepCount)

/-- Ends a run, once. -/
def endRun : Action Run Unit := do
  if (← get).hasEnded then
    throw .runEndedTwice
  onMachine Machine.relocateTemporaries
  onMachine Machine.verifyBuiltins
  let _ ← onSegments Segments.computeSizes
  modify ({ · with hasEnded := true })

/-- Reads the stop pointers of builtins, given from the last to the first, down from a
pointer. -/
def readStops (s : Segments) (pointer : Option Address) : Action (List Builtin) (Option Address)
  | [] => .ok pointer []
  | b :: rest =>
    match Builtin.finalStack s pointer b with
    | .error e b' => .error e (b' :: rest)
    | .ok next b' =>
      match readStops s next rest with
      | .error e rest' => .error e (b' :: rest')
      | .ok last rest' => .ok last (b' :: rest')

/-- Checks the stop pointers on the stack, the last builtin first, and answers the address of the
first of them. -/
def readReturnValues : Action Run (Option Address) := do
  let r ← get
  if !r.hasEnded then
    throw .runNotFinished
  onBuiltins (Action.within List.reverse (fun _ bs => bs.reverse)
    (readStops r.machine.segments r.machine.registers.ap))

/-- No cell of a segment is written at or behind the stop pointer. -/
def checkStop (b : Builtin) (m : Memory) : Except Fault Unit := do
  let i ← b.requireSegment
  match b.stopOffset with
  | some stop =>
    if b.included then
      let s ← m.getSegment i
      match (s.items i).find? fun (a, _) => decide (stop ≤ a.offset) with
      | some (a, _) => throw (.accessBeyondStop b.kind a stop)
      | none => return ()
  | none => return ()

/-- No builtin has a cell behind its stop pointer, an instance without its inputs, or a cell that
is not what the inputs determine. -/
def verifySecure : Action Run Unit := do
  let r ← get
  r.machine.builtins.forM fun b => do
    checkStop b r.memory
    b.securityChecks r.memory
  onMachine Machine.verifyBuiltins

/-- Runs a function from its place in the program. -/
def runFunction (entrypoint : Int) (args : List Datum) (secure : Bool) (budget : Budget) :
    Action Run Unit := do
  let stack ← args.mapM fun d => onSegments (Segments.argument d)
  let final ← initializeCall entrypoint (stack.map .value) (.value (.felt 0))
  initializeMachine
  let _ ← runUntil (some final) budget
  endRun
  if secure then
    verifySecure

/-- Runs the function of a label. -/
def runLabel (name : String) (args : List Datum) (secure : Bool) (budget : Budget) :
    Action Run Unit := do
  let entrypoint ← (← get).program.getLabel name
  runFunction entrypoint args secure budget

end Run

end Cairo
