import Cairo.Instruction.Encoding
import Cairo.Machine.Basic

/-!
# Executing instructions

An instruction is executed in four parts: the cells at its operand addresses are read
(`readCells`), what is missing is deduced and completed (`gather`), the missing cells are written
(`writeMissing`), and the registers change.  `runInstruction` also checks the operands against the
opcode, adds the row of the step to the trace and marks the cells as accessed.
-/

namespace Cairo.Machine

/-- The cells that an instruction finds at its operand addresses. -/
structure FoundCells where
  addresses : OperandAddresses
  dst : Option Value
  op0 : Option Value
  op1 : Option Value

/-- The operand addresses of an instruction and what is written there. -/
def readCells (m : Machine) (i : Instruction) : Except Fault FoundCells := do
  let dst ← m.registers.dstAddress i
  let op0 ← m.registers.op0Address i
  let op1 ← m.registers.op1Address i ((m.memory.get? op0).bind Value.address?)
  return ⟨⟨dst, op0, op1⟩, m.memory.get? dst, m.memory.get? op0, m.memory.get? op1⟩

/-- A cell that was found, or the value that a builtin deduces for it. -/
def orDeduced (a : Address) (found : Option Value) : Action Machine (Option Value) :=
  match found with
  | some v => pure (some v)
  | none => do return (← deduceCell a).map .felt

/-- All operands of an instruction; builtins deduce first, the rules of the instruction second. -/
def gather (i : Instruction) (c : FoundCells) : Action Machine (Operands Value) := do
  let op0 ← orDeduced c.addresses.op0 c.op0
  let op1 ← orDeduced c.addresses.op1 c.op1
  (← get).registers.complete i c.addresses c.dst op0 op1

/-- Writes a value to a cell that was not found. -/
def writeMissing (a : Address) (found : Option Value) (v : Value) : Action Machine Unit :=
  match found with
  | some _ => pure ()
  | none => onMemory (Memory.insert a v)

/-- The operands of an instruction and their addresses; missing ones are written. -/
def computeOperands (i : Instruction) : Action Machine (Operands Value × OperandAddresses) := do
  let c ← (← get).readCells i
  let o ← gather i c
  writeMissing c.addresses.dst c.dst o.dst
  writeMissing c.addresses.op0 c.op0 o.op0
  writeMissing c.addresses.op1 c.op1 o.op1
  return (o, c.addresses)

/-- The machine with the row of a step in its trace and the cells of the step marked. -/
def recordStep (m : Machine) (a : OperandAddresses) : Machine :=
  let memory := (((m.memory.markAccessed m.registers.pc).markAccessed a.dst).markAccessed
    a.op0).markAccessed a.op1
  { m with
    trace := m.trace.map (·.push m.registers)
    segments := { m.segments with memory := memory } }

/-- Executes an instruction. -/
def runInstruction (i : Instruction) : Action Machine Unit := do
  let (o, a) ← computeOperands i
  let m ← get
  let r := m.registers
  let n := m.stepCount
  r.check i o
  modify (·.recordStep a)
  report (.executed n r i.opcode)
  onRegisters (Registers.update i o)
  modify fun m => { m with stepCount := m.stepCount + 1 }

/-- The word at the program counter, and the cell after it. -/
def currentWord (m : Machine) : Except Fault (Felt × Option Value) := do
  let word ← m.memory.readFelt m.registers.pc
  let next ← m.registers.pc.shift 1
  return (word, m.memory.get? next)

/-- The instruction at the program counter. -/
def currentInstruction (m : Machine) : Except Fault Instruction := do
  Instruction.decode (← m.currentWord).1.val

/-- Passes over an instruction. -/
def skip (i : Instruction) : Action Machine Unit := do
  let pc ← (← get).registers.nextPc i
  modify fun m => { m with registers := { m.registers with pc := pc }, skipNext := false }

/-- Executes the instruction at the program counter, or passes over it if a hint asked for
that. -/
def stepInstruction : Action Machine Unit := do
  let m ← get
  let i ← m.currentInstruction
  if m.skipNext then
    skip i
  else
    report (.beforeInstruction m.registers.pc i.opcode m.stepCount)
    runInstruction i
    let m ← get
    report (.afterInstruction m.registers.pc i.opcode m.stepCount)

/-- The values that a function leaves below the allocation pointer. -/
def returnValues (m : Machine) (n : Int) : Except Fault (List Value) := do
  let a ← (← Registers.require m.registers.ap).shift (-n)
  m.memory.readRange a n

end Cairo.Machine
