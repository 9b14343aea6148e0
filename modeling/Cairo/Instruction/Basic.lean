/-!
# Instructions

An instruction word names three offsets, the registers that two of them are taken from, where the
second operand lies, how the result is formed, and how each register changes.
-/

namespace Cairo

/-- The registers that an operand address may start from. -/
inductive BaseRegister
  | ap
  | fp
deriving DecidableEq, Inhabited

/-- Where the second operand lies. -/
inductive Op1Source
  | immediate
  | ap
  | fp
  | op0
deriving DecidableEq, Inhabited

/-- How the result is formed from the operands. -/
inductive ResultRule
  | op1
  | add
  | mul
  | unconstrained
deriving DecidableEq, Inhabited

/-- How the program counter changes. -/
inductive PcRule
  | regular
  | jump
  | jumpRelative
  | jumpNonzero
deriving DecidableEq, Inhabited

/-- How the allocation pointer changes. -/
inductive ApRule
  | regular
  | addResult
  | addOne
  | addTwo
deriving DecidableEq, Inhabited

/-- How the frame pointer changes. -/
inductive FpRule
  | regular
  | apPlusTwo
  | destination
deriving DecidableEq, Inhabited

/-- What an instruction asserts or saves. -/
inductive Opcode
  | nop
  | assertEq
  | call
  | ret
deriving DecidableEq, Inhabited

/-- A decoded instruction word. -/
structure Instruction where
  off0 : Int
  off1 : Int
  off2 : Int
  dstRegister : BaseRegister
  op0Register : BaseRegister
  op1Source : Op1Source
  result : ResultRule
  pcRule : PcRule
  apRule : ApRule
  fpRule : FpRule
  opcode : Opcode
deriving DecidableEq, Inhabited

/-- The names of the opcodes in reports. -/
def Opcode.name : Opcode → String
  | nop => "NOP"
  | assertEq => "ASSERT_EQ"
  | call => "CALL"
  | ret => "RET"

namespace Instruction

/-- The groups of flags of which at most one may be set. -/
inductive FlagGroup
  | op1Source
  | pcUpdate
  | result
  | opcode
  | apUpdate
deriving DecidableEq

/-- The name of a group of flags in messages. -/
def FlagGroup.name : FlagGroup → String
  | op1Source => "op1 source"
  | pcUpdate => "pc update"
  | result => "res logic"
  | opcode => "opcode"
  | apUpdate => "ap update"

/-- Why a word is no instruction. -/
inductive Defect
  | outOfRange
  | severalFlags (group : FlagGroup)
  | immediateOffset
  | jnzWithResult
  | callWithApUpdate
deriving DecidableEq

/-- The wording of a defect. -/
def Defect.message : Defect → String
  | outOfRange => "encoding is out of range"
  | severalFlags group => "more than one " ++ group.name ++ " flag is set"
  | immediateOffset => "in immediate mode, off2 should be 1"
  | jnzWithResult => "jnz requires an unconstrained res"
  | callWithApUpdate => "call must not update ap explicitly"

/-- The number of memory cells of an instruction: the immediate takes one more. -/
def size (i : Instruction) : Nat :=
  match i.op1Source with
  | .immediate => 2
  | _ => 1

end Instruction

end Cairo
