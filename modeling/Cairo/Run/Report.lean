import Cairo.Instruction.Encoding
import Cairo.Run.Execution

/-!
# What a run used and what it leaves

The resources that a run used, its output, and the run in linear memory.  `relocate` lays the
segments out and keeps the linear memory and, if the run is traced, the linear trace; it can be
done once.
-/

namespace Cairo

/-- The resources that a run used. -/
structure Resources where
  steps : Int
  memoryHoles : Int
  instances : List (BuiltinKind × Nat)

namespace Run

/-- No builtin used more cells than the steps allow. -/
def checkUsedCells (r : Run) : Except Fault Unit :=
  r.machine.builtins.forM fun b => do
    let _ ← b.usedAndAllocated r.machine.segments r.machine.stepCount
    return ()

/-- The cells that were never accessed, outside the segments of builtins. -/
def memoryHoles (r : Run) : Except Fault Int := do
  r.machine.segments.memoryHoles (← r.machine.builtins.mapM Builtin.requireSegment)

/-- The segment and the stop pointer of every builtin. -/
def builtinSegments (r : Run) : Except Fault (List (BuiltinKind × Int × Option Nat)) :=
  r.machine.builtins.mapM fun b => do return (b.kind, ← b.requireSegment, b.stopOffset)

/-- The resources that a run used. -/
def resources (r : Run) : Except Fault Resources := do
  let holes ← r.memoryHoles
  let instances ← r.machine.builtins.mapM fun b => do
    return (b.kind, ← b.usedInstances r.machine.segments)
  return ⟨r.machine.stepCount, holes, instances⟩

/-- The offsets of the instruction of a row of the trace, with their bias. -/
def biasedOffsets (m : Memory) (row : Registers) : Except Fault (List Int) := do
  let i ← Instruction.decode (← m.readFelt row.pc).val
  return [i.off0, i.off1, i.off2].map (· + Instruction.offsetBias)

/-- The least and the greatest of some numbers. -/
def limitsOf : List Int → Option (Int × Int)
  | [] => none
  | n :: rest => some (rest.foldl min n, rest.foldl max n)

/-- The least and the greatest number that a run needs to be in the range of 16 bits: the biased
offsets of its instructions and the parts of its checked values. -/
def rangeLimits (r : Run) : Except Fault (Option (Int × Int)) := do
  let offsets ← (← r.machine.traceRows).mapM (biasedOffsets r.memory)
  let usage ← match r.builtin? BuiltinKind.rangeCheck.name with
    | some b => b.rangeCheckUsage r.memory
    | none => pure none
  let ends : List Int := match usage with
    | some (low, high) => [(low : Int), (high : Int)]
    | none => []
  return limitsOf (offsets.flatten ++ ends)

/-! ### Linear memory -/

/-- Lays the segments of a run out in linear memory, once. -/
def relocate : Action Run Unit := do
  if (← get).linearMemory.isSome then
    throw .alreadyRelocated
  let _ ← onSegments Segments.computeSizes
  let r ← get
  let table ← r.machine.segments.relocationTable
  let memory ← LinearMemory.ofMemory table r.memory
  modify ({ · with linearMemory := some memory })
  match r.machine.trace with
  | some rows =>
    let trace ← (rows.toList.mapM (Registers.linear table) : Except Fault (List TraceRow))
    modify ({ · with linearTrace := some trace })
  | none => pure ()
  onMachine (Machine.report (.relocated (memory.size - 1) table))

/-! ### Output -/

/-- The line of a cell of the output. -/
def outputLine : Option Value → String
  | some v => v.text ++ "\n"
  | none => "<missing>\n"

/-- The output of a run: a line for each cell of the output builtin. -/
def output (r : Run) : Except Fault String :=
  match r.builtin? BuiltinKind.output.name with
  | none => .ok ""
  | some b => do
    let s ← r.memory.getSegment (← b.requireSegment)
    return String.join (s.toList.map outputLine)

end Run

end Cairo
