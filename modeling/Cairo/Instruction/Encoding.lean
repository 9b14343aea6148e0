import Cairo.Fault

/-!
# Instruction words

A word has 63 bits: three offsets of 16 bits, each written with a bias of `2 ^ 15`, and above them
15 flags.  The flags stand in groups of which at most one may be set.  `decode?` reads a word and
names the first rule that it breaks; `encode` writes one.
-/

namespace Cairo.Instruction

/-- The width of an offset in bits. -/
def offsetBits : Nat := 16

/-- What is added to an offset to write it. -/
def offsetBias : Nat := Nat.pow 2 15

/-- The bound of the words. -/
def wordBound : Nat := Nat.pow 2 63

/-- The offset written at a position of a word. -/
def offsetAt (word position : Nat) : Int :=
  ((word / Nat.pow 2 (offsetBits * position) % Nat.pow 2 offsetBits : Nat) : Int) - offsetBias

/-- The flag at a position above the offsets is set. -/
def flagAt (word position : Nat) : Bool :=
  word.testBit (3 * offsetBits + position)

/-- The meaning of the one flag of a group that is set, if any; several are a defect. -/
def select {α : Type} (word : Nat) (group : FlagGroup) (options : List (Nat × α)) :
    Except Defect (Option α) :=
  match options.filter fun o => flagAt word o.1 with
  | [] => .ok none
  | [o] => .ok (some o.2)
  | _ => .error (.severalFlags group)

/-- The register that a flag stands for. -/
def registerOf (flag : Bool) : BaseRegister := if flag then .fp else .ap

/-- The sources of the second operand and their flags. -/
def op1Flags : List (Nat × Op1Source) := [(2, .immediate), (3, .fp), (4, .ap)]

/-- The results that have a flag. -/
def resultFlags : List (Nat × ResultRule) := [(5, .add), (6, .mul)]

/-- The jumps and their flags. -/
def pcFlags : List (Nat × PcRule) := [(7, .jump), (8, .jumpRelative), (9, .jumpNonzero)]

/-- The explicit changes of the allocation pointer and their flags. -/
def apFlags : List (Nat × ApRule) := [(10, .addResult), (11, .addOne)]

/-- The opcodes that have a flag. -/
def opcodeFlags : List (Nat × Opcode) := [(12, .call), (13, .ret), (14, .assertEq)]

/-- The rule for the result: the flag, or what its absence means beside the jump. -/
def resultOf (flag : Option ResultRule) (pcRule : PcRule) : Except Defect ResultRule :=
  match flag, pcRule with
  | none, .jumpNonzero => .ok .unconstrained
  | none, _ => .ok .op1
  | some _, .jumpNonzero => .error .jnzWithResult
  | some r, _ => .ok r

/-- The change of the allocation pointer: the flag, or what the opcode implies. -/
def apRuleOf (flag : Option ApRule) (opcode : Opcode) : Except Defect ApRule :=
  match flag, opcode with
  | none, .call => .ok .addTwo
  | none, _ => .ok .regular
  | some _, .call => .error .callWithApUpdate
  | some r, _ => .ok r

/-- The change of the frame pointer that an opcode implies. -/
def fpRuleOf : Opcode → FpRule
  | .call => .apPlusTwo
  | .ret => .destination
  | _ => .regular

/-- The instruction that a word stands for, or the first defect. -/
def decode? (encoding : Int) : Except Defect Instruction :=
  if 0 ≤ encoding ∧ encoding < wordBound then do
    let word := encoding.toNat
    let off2 := offsetAt word 2
    let op1Source := (← select word .op1Source op1Flags).getD .op0
    if op1Source = .immediate ∧ off2 ≠ 1 then
      throw .immediateOffset
    let pcRule := (← select word .pcUpdate pcFlags).getD .regular
    let result ← resultOf (← select word .result resultFlags) pcRule
    let opcode := (← select word .opcode opcodeFlags).getD .nop
    let apRule ← apRuleOf (← select word .apUpdate apFlags) opcode
    return {
      off0 := offsetAt word 0
      off1 := offsetAt word 1
      off2 := off2
      dstRegister := registerOf (flagAt word 0)
      op0Register := registerOf (flagAt word 1)
      op1Source := op1Source
      result := result
      pcRule := pcRule
      apRule := apRule
      fpRule := fpRuleOf opcode
      opcode := opcode }
  else .error .outOfRange

/-- The instruction that a word stands for. -/
def decode (encoding : Int) : Except Fault Instruction :=
  match decode? encoding with
  | .ok i => .ok i
  | .error defect => .error (.invalidInstruction encoding defect)

/-- The flag of a register. -/
def registerFlag : BaseRegister → Nat
  | .ap => 0
  | .fp => 1

/-- The flag that a table gives to a meaning, as a power of two; none if it has no flag. -/
def flagOf {α : Type} [DecidableEq α] (options : List (Nat × α)) (a : α) : Nat :=
  match options.find? fun o => o.2 = a with
  | some o => Nat.pow 2 o.1
  | none => 0

/-- The flags of an instruction. -/
def flags (i : Instruction) : Nat :=
  registerFlag i.dstRegister + 2 * registerFlag i.op0Register + flagOf op1Flags i.op1Source +
    flagOf resultFlags i.result + flagOf pcFlags i.pcRule + flagOf apFlags i.apRule +
    flagOf opcodeFlags i.opcode

/-- The word of an instruction. -/
def encode (i : Instruction) : Int :=
  (i.off0 + offsetBias) + Int.pow 2 16 * (i.off1 + offsetBias) +
    Int.pow 2 32 * (i.off2 + offsetBias) + Int.pow 2 48 * (flags i : Int)

end Cairo.Instruction
