import Cairo.Builtin.Basic

/-!
# What builtins use, and their stop pointers

The cells and instances that a builtin has used, the cells that the steps of a run allow it, and
the checks at the end of a run: the stop pointer that the program leaves on the stack, and that
every instance with a written cell has all its inputs.
-/

namespace Cairo.Builtin

/-- The used cells of the segment of a builtin. -/
def usedCells (b : Builtin) (s : Segments) : Except Fault (Option Nat) := do
  s.usedSize (← b.requireSegment)

/-- The used cells, where a computation needs them. -/
def requireUsedCells (b : Builtin) (s : Segments) : Except Fault Nat := do
  Action.orThrow (← b.usedCells s) .unsupportedOperand

/-- The used instances; one that is begun counts. -/
def usedInstances (b : Builtin) (s : Segments) : Except Fault Nat := do
  let cells ← b.requireUsedCells s
  return (cells + b.kind.cellsPerInstance - 1) / b.kind.cellsPerInstance

/-- The cells that a number of steps allows a builtin. -/
def allocatedCells (b : Builtin) (steps : Int) : Except Fault Int :=
  match b.kind, b.ratio with
  | .output, _ => .ok 0
  | _, none => .ok 0
  | kind, some ratio =>
    if steps < ratio then .error (.tooFewSteps kind)
    else if ratio = 0 then .error .remainderByZero
    else .ok (kind.cellsPerInstance * steps.fdiv ratio)

/-- The used and the allowed cells, of which the used ones must not be more. -/
def usedAndAllocated (b : Builtin) (s : Segments) (steps : Int) :
    Except Fault (Option Int × Option Int) := do
  let used ← b.usedCells s
  if b.kind = .output then
    return (used.map Int.ofNat, used.map Int.ofNat)
  let size ← b.allocatedCells steps
  let used ← Action.orThrow used .unsupportedOperand
  if (used : Int) > size then
    throw (.tooManyCells b.kind used size)
  return (some used, some size)

/-- The addresses of the cells of a builtin. -/
def accesses (b : Builtin) (s : Segments) : Except Fault (List Address) := do
  let i ← b.requireSegment
  let n ← s.requireSize i
  (List.range n.toNat).mapM fun offset : Nat => Address.make i offset

/-- Checks the stop pointer just below an address, keeps it, and answers the address of the next
one; a builtin that is not included has none and passes the address on. -/
def finalStack (s : Segments) (pointer : Option Address) : Action Builtin (Option Address) := do
  let b ← get
  if b.included then
    let cell ← (← Action.orThrow pointer .unsupportedOperand).shift (-1)
    let stop ← s.memory.readAddress cell
    let used := (← b.usedInstances s) * b.kind.cellsPerInstance
    let expected ← Address.make (← b.requireSegment) used
    if stop ≠ expected then
      throw (.invalidStopPointer b.kind stop expected)
    modify fun b => { b with stopOffset := some stop.offset }
    return some cell
  else
    modify fun b => { b with stopOffset := some 0 }
    return pointer

/-- Some cell of an instance is written. -/
def instanceTouched (b : Builtin) (s : Segment) (n : Nat) : Bool :=
  (List.range b.kind.cellsPerInstance).any fun i =>
    (s[n * b.kind.cellsPerInstance + i]?.join).isSome

/-- The instances of a segment of which some cell is written, in order. -/
def touchedInstances (b : Builtin) (s : Segment) : List Nat :=
  (List.range s.size).filter (b.instanceTouched s)

/-- The input cells of an instance that are not written. -/
def missingInputs (b : Builtin) (m : Memory) (segment : Int) (n : Nat) :
    Except Fault (List Address) := do
  let inputs ← (List.range b.kind.inputCells).mapM fun i : Nat =>
    Address.make segment (n * b.kind.cellsPerInstance + i : Nat)
  return inputs.filter fun a => (m.get? a).isNone

/-- Every instance with a written cell has all its inputs. -/
def securityChecks (b : Builtin) (m : Memory) : Except Fault Unit := do
  if b.kind.cellsPerInstance = b.kind.inputCells then
    return ()
  let i ← b.requireSegment
  let s ← m.getSegment i
  let missing ← (b.touchedInstances s).mapM (b.missingInputs m i)
  if missing.flatten.isEmpty then
    return ()
  throw (.missingCells b.kind missing.flatten)

/-- The 16-bit parts of a field element, least significant first. -/
def partsOf (x : Felt) (count : Nat) : List Nat :=
  (List.range count).map fun i => x.val / Nat.pow 2 (16 * i) % Nat.pow 2 16

/-- The 16-bit parts of all checked values. -/
def checkedParts (b : Builtin) (m : Memory) : Except Fault (List Nat) := do
  let s ← m.getSegment (← b.requireSegment)
  return s.toList.flatMap fun
    | some (.felt x) => partsOf x b.parts
    | _ => []

/-- The least and the greatest number of a list. -/
def extremes : List Nat → Option (Nat × Nat)
  | [] => none
  | n :: rest => some (rest.foldl min n, rest.foldl max n)

/-- The least and the greatest part of the checked values, if there is one. -/
def rangeCheckUsage (b : Builtin) (m : Memory) : Except Fault (Option (Nat × Nat)) := do
  return extremes (← b.checkedParts m)

end Cairo.Builtin
