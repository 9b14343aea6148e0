import Cairo.Builtin.List
import Cairo.Hint
import Cairo.Machine.Event
import Cairo.Machine.Semantics

/-!
# Machines

A machine has memory, builtins, registers, and the hints of its program.  It counts its steps and
keeps the registers of each (`trace`), unless tracing is off.  The rest of the module lifts the
operations on the parts of a machine to the machine.
-/

namespace Cairo

/-- A machine. -/
structure Machine where
  segments : Segments
  builtins : List Builtin
  registers : Registers
  trace : Option (Array Registers)
  stepCount : Int
  skipNext : Bool
  hints : Std.ExtTreeMap Address (List Hint)
  processor : Option HintProcessor
  scopes : Option Scopes
  events : Option (Array Event)

namespace Machine

/-- A new machine, with or without a trace and a record of its events. -/
def fresh (tracing recording : Bool) : Machine :=
  { segments := .empty, builtins := [], registers := .origin
    trace := if tracing then some #[] else none
    stepCount := 0, skipNext := false, hints := ∅, processor := none, scopes := none
    events := if recording then some #[] else none }

instance : Inhabited Machine := ⟨fresh true false⟩

variable {α : Type}

/-- The memory of a machine. -/
def memory (m : Machine) : Memory := m.segments.memory

/-- An action on the segments. -/
def onSegments (x : Action Segments α) : Action Machine α :=
  Action.within (·.segments) (fun m s => { m with segments := s }) x

/-- An action on the memory. -/
def onMemory (x : Action Memory α) : Action Machine α := onSegments (Segments.onMemory x)

/-- An action on the builtins. -/
def onBuiltins (x : Action (List Builtin) α) : Action Machine α :=
  Action.within (·.builtins) (fun m bs => { m with builtins := bs }) x

/-- An action on the registers. -/
def onRegisters (x : Action Registers α) : Action Machine α :=
  Action.within (·.registers) (fun m r => { m with registers := r }) x

/-- Reports an event, if events are recorded. -/
def report (e : Event) : Action Machine Unit :=
  modify fun m => { m with events := m.events.map (·.push e) }

/-- The rows of the trace, unless tracing is off. -/
def traceRows (m : Machine) : Except Fault (List Registers) :=
  Action.orThrow (m.trace.map Array.toList) .tracingDisabled

/-- The value that a cell has by the builtin that owns its segment, if there is one. -/
def deduceCell (a : Address) : Action Machine (Option Felt) := do
  onBuiltins (Builtin.deduceCell (← get).memory a)

/-- Checks every written cell of every builtin. -/
def verifyBuiltins : Action Machine Unit := do
  onBuiltins (Builtin.verifyAll (← get).memory)

/-- Moves the temporary segments to their places, if there are rules for that. -/
def relocateTemporaries : Action Machine Unit := do
  let rules := (← get).memory.relocations
  if !rules.isEmpty && (Memory.resolve rules).isOk then
    report (.relocating rules.length)
  onMemory Memory.relocate

end Machine

end Cairo
