import Cairo.Machine.Registers

/-!
# The rules of an instruction

What an instruction demands of its operands, and how a missing operand follows from the others.
A destination determines the second summand or factor that leads to it (`solveOp0`, `solveOp1`),
the result follows from the two operands (`result`), and the destination of an assertion from the
result.  `complete` puts these together, and `check` is what must hold in the end.
-/

namespace Cairo.Registers

variable {α : Type} [Operand α]

/-- The quotient of two operands that are field elements, if the second is not zero. -/
def quotient? (x y : α) : Except Fault (Option α) :=
  match Operand.felt? x, Operand.felt? y with
  | some f, some g =>
    if g.isZero then .ok none else do return some (Operand.ofValue (.felt (← f.div g)))
  | _, _ => .ok none

/-- The first operand that an instruction implies, and the result if it is known with it. -/
def solveOp0 (r : Registers) (i : Instruction) (dst op1 : Option α) :
    Except Fault (Option α × Option α) := do
  match i.opcode, i.result, dst, op1 with
  | .call, _, _, _ => return (some (Operand.ofValue (.address (← r.nextPc i))), none)
  | .assertEq, .add, some d, some y => return (some (← Operand.sub d y), some d)
  | .assertEq, .mul, some d, some y =>
    match ← quotient? d y with
    | some q => return (some q, some d)
    | none => return (none, none)
  | _, _, _, _ => return (none, none)

/-- The second operand that an instruction implies, and the result if it is known with it. -/
def solveOp1 (i : Instruction) (dst op0 : Option α) : Except Fault (Option α × Option α) := do
  match i.opcode, i.result, dst, op0 with
  | .assertEq, .op1, some d, _ => return (some d, some d)
  | .assertEq, .add, some d, some x => return (some (← Operand.sub d x), some d)
  | .assertEq, .mul, some d, some x =>
    match ← quotient? d x with
    | some q => return (some q, some d)
    | none => return (none, none)
  | _, _, _, _ => return (none, none)

/-- The result of an instruction. -/
def result (i : Instruction) (op0 op1 : α) : Except Fault (Option α) := do
  match i.result with
  | .op1 => return some op1
  | .add => return some (← Operand.add op0 op1)
  | .mul =>
    match Operand.felt? op0, Operand.felt? op1 with
    | some f, some g => return some (Operand.ofValue (.felt (f * g)))
    | _, _ => throw (.notFelts (Operand.datum op0) (Operand.datum op1))
  | .unconstrained => return none

/-- The destination that an instruction implies. -/
def impliedDst (r : Registers) (i : Instruction) (res : Option Value) : Option Value :=
  match i.opcode with
  | .assertEq => res
  | .call => r.fp.map .address
  | _ => none

/-- The first operand where it is known, or else what the instruction implies. -/
def knownOp0 (r : Registers) (i : Instruction) (dst op0 op1 : Option Value) :
    Except Fault (Option Value × Option Value) :=
  match op0 with
  | some v => .ok (some v, none)
  | none => r.solveOp0 i dst op1

/-- The second operand where it is known, or else what the instruction implies. -/
def knownOp1 (i : Instruction) (dst op0 op1 : Option Value) :
    Except Fault (Option Value × Option Value) :=
  match op1 with
  | some v => .ok (some v, none)
  | none => solveOp1 i dst op0

/-- All operands of an instruction, from those that are known. -/
def complete (r : Registers) (i : Instruction) (a : OperandAddresses)
    (dst op0 op1 : Option Value) : Except Fault (Operands Value) := do
  let (op0, res₀) ← r.knownOp0 i dst op0 op1
  let (op1, res₁) ← knownOp1 i dst op0 op1
  let op0 ← Action.orThrow op0 (.unknownOperand .op0 a.op0)
  let op1 ← Action.orThrow op1 (.unknownOperand .op1 a.op1)
  let res ← match res₀.or res₁ with
    | some v => pure (some v)
    | none => result i op0 op1
  let dst ← Action.orThrow (dst.or (r.impliedDst i res)) (.unknownOperand .dst a.dst)
  return ⟨dst, res, op0, op1⟩

/-- The operands agree with the opcode: an assertion has its destination as result, and a call
writes the return address and the frame pointer. -/
def check (r : Registers) (i : Instruction) (o : Operands α) : Except Fault Unit := do
  match i.opcode with
  | .assertEq =>
    match o.res with
    | none => throw (.unconstrainedResult "assert_eq")
    | some res =>
      if !Operand.agree o.dst res then
        throw (.assertEqFailed (Operand.datum o.dst) (Operand.datum res))
  | .call =>
    let pc ← r.nextPc i
    if !Operand.agree o.op0 (Operand.ofValue (.address pc)) then
      throw (.callWritesPc (Operand.datum o.op0) pc)
    if !Datum.same (Operand.datum o.dst) (Datum.ofAddress r.fp) then
      throw (.callWritesFp (Operand.datum o.dst) r.fp)
  | _ => return ()

end Cairo.Registers
