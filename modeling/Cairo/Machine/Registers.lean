import Cairo.Operand

/-!
# Registers

The program counter, the allocation pointer and the frame pointer, of which the last two may not
be set yet.  An instruction takes the addresses of its operands from them (`dstAddress`,
`op0Address`, `op1Address`) and changes them by its update rules, the program counter last, so
that a failing rule leaves it on the instruction at fault.
-/

namespace Cairo

/-- The registers of a machine. -/
structure Registers where
  pc : Address
  ap : Option Address
  fp : Option Address
deriving DecidableEq, Inhabited

/-- The operands of an instruction, and its result if it has one. -/
structure Operands (α : Type) where
  dst : α
  res : Option α
  op0 : α
  op1 : α

/-- The addresses of the operands of an instruction. -/
structure OperandAddresses where
  dst : Address
  op0 : Address
  op1 : Address
deriving DecidableEq

namespace Registers

/-- All registers at the first cell of the first segment. -/
def origin : Registers := ⟨.base 0, some (.base 0), some (.base 0)⟩

/-- A register that must be set. -/
def require (r : Option Address) : Except Fault Address := Action.orThrow r .unsupportedOperand

/-- The register that an operand address starts from. -/
def from? (r : Registers) : BaseRegister → Option Address
  | .ap => r.ap
  | .fp => r.fp

/-- The address of the destination of an instruction. -/
def dstAddress (r : Registers) (i : Instruction) : Except Fault Address := do
  (← require (r.from? i.dstRegister)).shift i.off0

/-- The address of the first operand of an instruction. -/
def op0Address (r : Registers) (i : Instruction) : Except Fault Address := do
  (← require (r.from? i.op0Register)).shift i.off1

/-- The address of the second operand of an instruction, which may start from the first operand. -/
def op1Address (r : Registers) (i : Instruction) (op0 : Option Address) :
    Except Fault Address := do
  match i.op1Source with
  | .fp => (← require r.fp).shift i.off2
  | .ap => (← require r.ap).shift i.off2
  | .immediate => r.pc.shift i.off2
  | .op0 =>
    match op0 with
    | some a => a.shift i.off2
    | none => throw (.unknownOperand .op0 (← r.op0Address i))

/-- The address of the instruction after this one. -/
def nextPc (r : Registers) (i : Instruction) : Except Fault Address := r.pc.shift i.size

/-! ### Updates -/

variable {α : Type} [Operand α]

/-- The frame pointer after an instruction. -/
def updatedFp (r : Registers) (i : Instruction) (o : Operands α) :
    Except Fault (Option Address) := do
  match i.fpRule with
  | .regular => return r.fp
  | .apPlusTwo => return some (← (← require r.ap).shift 2)
  | .destination =>
    match Operand.address? o.dst with
    | some a => return some a
    | none => return some (← Operand.advance (← require r.fp) o.dst)

/-- The allocation pointer after an instruction. -/
def updatedAp (r : Registers) (i : Instruction) (o : Operands α) :
    Except Fault (Option Address) := do
  match i.apRule with
  | .regular => return r.ap
  | .addOne => return some (← (← require r.ap).shift 1)
  | .addTwo => return some (← (← require r.ap).shift 2)
  | .addResult =>
    match o.res with
    | none => throw (.unconstrainedResult "ap += res")
    | some res => return some (← Operand.advance (← require r.ap) res)

/-- The operand stands for zero; an address never does. -/
def isZero (x : α) : Bool :=
  match Operand.felt? x with
  | some f => f.isZero
  | none => false

/-- The program counter after an instruction. -/
def updatedPc (r : Registers) (i : Instruction) (o : Operands α) : Except Fault Address := do
  match i.pcRule with
  | .regular => r.nextPc i
  | .jump =>
    match o.res with
    | none => throw (.unconstrainedResult "jmp abs")
    | some res => Action.orThrow (Operand.address? res) (.impureJump "jmp abs" (Operand.datum res))
  | .jumpRelative =>
    match o.res with
    | none => throw (.unconstrainedResult "jmp rel")
    | some res =>
      match Operand.felt? res with
      | some f => r.pc.addFelt f
      | none => throw (.impureJump "jmp rel" (Operand.datum res))
  | .jumpNonzero =>
    if isZero o.dst then r.nextPc i
    else
      match Operand.felt? o.op1 with
      | some f => r.pc.addFelt f
      | none => throw (.impureJump "jmp != 0" (Operand.datum o.op1))

/-- Updates the frame pointer. -/
def updateFp (i : Instruction) (o : Operands α) : Action Registers Unit := do
  let fp ← (← get).updatedFp i o
  modify ({ · with fp := fp })

/-- Updates the allocation pointer. -/
def updateAp (i : Instruction) (o : Operands α) : Action Registers Unit := do
  let ap ← (← get).updatedAp i o
  modify ({ · with ap := ap })

/-- Updates the program counter. -/
def updatePc (i : Instruction) (o : Operands α) : Action Registers Unit := do
  let pc ← (← get).updatedPc i o
  modify ({ · with pc := pc })

/-- Updates all registers, the program counter last. -/
def update (i : Instruction) (o : Operands α) : Action Registers Unit := do
  updateFp i o
  updateAp i o
  updatePc i o

end Registers

end Cairo
