import Cairo.Machine.Execution

/-!
# Running hints

`runHint` runs one hint.  The names that it sees are taken out of the scope that it starts in,
so that no scope keeps them.  A processor's name for a part of the machine stands before that
part; the hint then fails where it asks the datum for something that only the part can do.
`step` runs the hints at the program counter and then the instruction.
-/

namespace Cairo.Machine

variable {α : Type}

/-- What a hint sees under the name of the allocation pointer. -/
def seenAp (m : Machine) (p : HintProcessor) : Datum :=
  p.extra["ap"]?.getD (Datum.ofAddress m.registers.ap)

/-- A part of the machine, unless the processor gives its name another meaning. -/
def seen (p : HintProcessor) (name : String) (fault : Fault) : Except Fault Unit :=
  if p.extra.contains name then .error fault else .ok ()

/-- Writes to an item of a datum, which only a list has. -/
def writeItem (d key : Datum) : Except Fault Unit :=
  match d, key.number? with
  | .list items, some n =>
    if -(items.length : Int) ≤ n ∧ n < items.length then .ok () else .error .indexOutOfRange
  | _, _ => .error .unsupportedOperand

/-- The address that a datum has to be. -/
def asAddress (d : Datum) : Except Fault Address :=
  Action.orThrow d.address? (.expectedAddress d)

/-- Writes the base of a new segment to the allocation pointer. -/
def hintAllocate (p : HintProcessor) (allocate : Action Segments Address) :
    Action Machine Unit := do
  seen p "segments" .noSuchMember
  let base ← onSegments allocate
  let ap := (← get).seenAp p
  match p.extra["memory"]? with
  | some d => writeItem d ap
  | none =>
    let a ← asAddress ap
    onMemory (Memory.insert a (.address base))

/-- The address stored some cells below the allocation pointer. -/
def hintOperand (m : Machine) (p : HintProcessor) (below : Int) : Except Fault Address := do
  let a ← asAddress (← Datum.operate .sub (m.seenAp p) (.integer below))
  m.memory.readAddress a

/-- Adds the relocation rule that stands below the allocation pointer. -/
def hintRelocate (p : HintProcessor) : Action Machine Unit := do
  seen p "memory" .noSuchMember
  let src ← (← get).hintOperand p 2
  let dst ← (← get).hintOperand p 1
  onMemory (Memory.addRelocation src dst)

/-- An action on the scopes, of which there must be some. -/
def onScopes (x : Action Scopes α) : Action Machine α := fun m =>
  match m.scopes with
  | none => .error .noSuchMember m
  | some s =>
    match x s with
    | .ok a t => .ok a { m with scopes := some t }
    | .error e t => .error e { m with scopes := some t }

/-- Does what a hint does. -/
def perform (p : HintProcessor) : HintAction → Action Machine Unit
  | .allocateSegment => hintAllocate p (Segments.add none)
  | .allocateTemporary => hintAllocate p Segments.addTemporary
  | .relocateTemporary => hintRelocate p
  | .enterScope => do
    seen p "vm_enter_scope" .unsupportedOperand
    onScopes (modify (·.enter ∅))
  | .exitScope => do
    seen p "vm_exit_scope" .unsupportedOperand
    onScopes Scopes.exit
  | .skipInstruction => do
    seen p "vm" .noSuchMember
    modify ({ · with skipNext := true })

/-- Runs a hint, if it is a registered one.  Any other code is not executed as it stands but faults
as an unknown name. -/
def runHint (p : HintProcessor) (h : Hint) : Action Machine Unit := do
  onScopes (modify (·.deleteAll p.hiddenNames))
  report (.hintStarted (← get).registers.pc h.code)
  perform p (← Action.orThrow h.action? .noSuchName)

/-- Runs the hints at the program counter. -/
def stepHint : Action Machine Unit := do
  let m ← get
  match m.hints[m.registers.pc]? with
  | none | some [] => return ()
  | some hs =>
    let p ← Action.orThrow m.processor (.noHintProcessor m.registers.pc)
    hs.forM (runHint p)

/-- Runs the hints at the program counter and then the instruction. -/
def step : Action Machine Unit := do
  stepHint
  stepInstruction

end Cairo.Machine
