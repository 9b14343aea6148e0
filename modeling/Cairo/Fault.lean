import Cairo.Datum
import Cairo.Curve.Basic
import Cairo.Instruction.Basic
import Cairo.Builtin.Kind

/-!
# Faults

Every way in which an operation can fail is one constructor of `Fault`, holding what went wrong;
the wording is in `Fault.message`.  The faults that stand for a misuse of a function rather than
for a fact about a machine have no wording.
-/

namespace Cairo

/-- One of the three operands of an instruction. -/
inductive OperandName
  | dst
  | op0
  | op1
deriving DecidableEq

/-- The name of an operand in messages. -/
def OperandName.text : OperandName → String
  | dst => "dst"
  | op0 => "op0"
  | op1 => "op1"

/-- What has to be set before a call. -/
inductive Missing
  | programBase
  | initialPc
  | builtinSegment (kind : BuiltinKind)

/-- The name of what has to be set. -/
def Missing.text : Missing → String
  | programBase => "program_base"
  | initialPc => "initial_pc"
  | builtinSegment kind => kind.name ++ " builtin segment"

/-- The reasons for which an operation fails. -/
inductive Fault
  -- Arithmetic
  | divisionByZero (dividend : Felt)
  | nonResidue (x : Felt)
  | offsetExceeded (a : Address) (shift : Int)
  | offsetOutOfRange (segment offset : Int)
  | addressSum (a b : Address)
  | segmentMismatch (a b : Address)
  | addressFromInteger (n : Int) (a : Address)
  -- Memory
  | inconsistentMemory (a : Address) (old new : Value)
  | unallocatedSegment (segment : Int) (allocated : Nat)
  | unknownCell (a : Address)
  | expectedFelt (a : Address)
  | expectedAddress (what : Datum)
  | temporarySegment (segment : Int)
  | noRelocation (segment : Int)
  | missingSizes
  | duplicateRule (segment : Int)
  | notTemporaryBase (a : Address)
  | notStorable (what : Datum)
  | unsupportedArgument (what : Datum)
  -- Builtins
  | outOfRange (a : Address) (x : Felt) (bound : Nat)
  | foundAddress (builtin : BuiltinKind) (a : Address)
  | pointNotOnCurve (p : Curve.Point)
  | sameXCoordinate (partialSum doubled : Curve.Point) (m : Int)
  | bitwiseInputTooLarge (a : Address) (x : Felt) (bits : Int)
  | invalidStopPointer (builtin : BuiltinKind) (found expected : Address)
  | missingCells (builtin : BuiltinKind) (cells : List Address)
  | tooFewSteps (builtin : BuiltinKind)
  | tooManyCells (builtin : BuiltinKind) (used allocated : Int)
  -- Programs
  | disorderedBuiltins (names : List String)
  | unsupportedBuiltin (name : String)
  | builtinNotInLayout (name layout : String)
  | unknownLayout (name : String)
  | entrypointNotFound (name : String)
  | missingMain
  | unsupportedPrime (p : Nat)
  | invalidInstruction (encoding : Int) (defect : Instruction.Defect)
  | malformedJson
  | malformedProgram
  | identifier
  | notAnIdentifier
  -- Steps
  | unknownOperand (operand : OperandName) (a : Address)
  | assertEqFailed (dst res : Datum)
  | callWritesPc (found : Datum) (expected : Address)
  | callWritesFp (found : Datum) (expected : Option Address)
  | notFelts (x y : Datum)
  | impureJump (what : String) (found : Datum)
  | unconstrainedResult (what : String)
  | inconsistentDeduction (builtin : BuiltinKind) (a : Address) (expected : Felt) (found : Value)
  -- Runs
  | endNotReached (pc : Address) (target : Option Address)
  | endOfProgram (remaining : Int)
  | runEndedTwice
  | accessBeyondStop (builtin : BuiltinKind) (a : Address) (stop : Nat)
  | runNotFinished
  | notInitialized (what : Missing)
  | alreadyRelocated
  | tracingDisabled
  -- Hints
  | noHintProcessor (pc : Address)
  | variableNotInScope (name : String)
  | exitMainScope
  -- Misuse
  | unsupportedOperand
  | remainderByZero
  | invalidArgument
  | tooLarge
  | failedAssertion
  | noSuchMember
  | noSuchName
  | indexOutOfRange

namespace Fault

/-- A number in hexadecimal, without leading zeros. -/
def hexText (n : Nat) : String := String.ofList (Nat.toDigits 16 n)

/-- The wording of a fault, where it has one. -/
def message : Fault → Option String
  | divisionByZero x => some ("Attempted to divide " ++ x.text ++ " by zero")
  | nonResidue x => some (x.text ++ " is not a quadratic residue modulo the field prime")
  | offsetExceeded a shift =>
    some ("Offset of " ++ a.text ++ " shifted by " ++ toString shift ++
      " is out of the [0, 2**64) range")
  | offsetOutOfRange s o =>
    some ("Offset of (" ++ toString s ++ ", " ++ toString o ++
      ") shifted by 0 is out of the [0, 2**64) range")
  | addressSum a b => some ("Cannot add two relocatable values: " ++ a.text ++ " + " ++ b.text)
  | segmentMismatch a b =>
    some ("Cannot subtract relocatable values from different segments: " ++ a.text ++ " - " ++
      b.text)
  | addressFromInteger n a =>
    some ("Cannot subtract a relocatable from an integer: " ++ toString n ++ " - " ++ a.text)
  | inconsistentMemory a old new =>
    some ("Inconsistent memory assignment at address " ++ a.text ++ ". " ++ old.text ++ " != " ++
      new.text ++ ".")
  | unallocatedSegment s n =>
    some ("Can't insert into segment #" ++ toString s ++ "; memory only has " ++ toString n ++
      " segment(s)")
  | unknownCell a => some ("Unknown value for memory cell at address " ++ a.text)
  | expectedFelt a => some ("Expected integer at address " ++ a.text)
  | expectedAddress d => some ("Expected relocatable at address " ++ d.plain)
  | temporarySegment s =>
    some ("Temporary segment found while relocating (flattening), segment: " ++ toString s)
  | noRelocation s =>
    some ("Relocation error: no relocation found for segment " ++ toString s)
  | missingSizes =>
    some ("Segment effective sizes haven't been calculated; " ++
      "call compute_effective_sizes() first")
  | duplicateRule s => some ("A relocation rule already exists for segment " ++ toString s)
  | notTemporaryBase a =>
    some ("The source of a relocation rule must be the base of a temporary segment, got " ++
      a.text)
  | notStorable d =>
    some ("Expected an integer or a relocatable value, got " ++ d.shown)
  | unsupportedArgument d => some ("Unsupported argument type: " ++ d.kindName)
  | outOfRange a x bound =>
    some ("Value " ++ x.text ++ ", in range check builtin at " ++ a.text ++
      ", is out of range [0, " ++ toString bound ++ ").")
  | foundAddress b a => some (b.name ++ " builtin: expected integer at address " ++ a.text)
  | pointNotOnCurve p => some ("EcOp builtin: point " ++ p.text ++ " is not on the curve")
  | sameXCoordinate p q m =>
    some ("EcOp builtin: point " ++ p.text ++ " and " ++ q.text ++
      " share the same x coordinate (m = " ++ toString m ++ ")")
  | bitwiseInputTooLarge a x bits =>
    some ("Bitwise builtin: expected integer at address " ++ a.text ++ " to be smaller than 2^" ++
      toString bits ++ ". Got: " ++ x.text)
  | invalidStopPointer b found expected =>
    some ("Invalid stop pointer for " ++ b.name ++ ". Expected: " ++ expected.text ++
      ", found: " ++ found.text)
  | missingCells b cells =>
    some (b.name ++ " builtin: missing memory cells " ++
      Text.bracketed (cells.map fun a => Text.quoted a.text))
  | tooFewSteps b =>
    some ("Number of steps must be at least the ratio of the " ++ b.name ++ " builtin")
  | tooManyCells b used allocated =>
    some ("The " ++ b.name ++ " builtin used " ++ toString used ++ " cells but the capacity is " ++
      toString allocated)
  | disorderedBuiltins names =>
    some ("Given builtins are not in appropriate order: " ++
      Text.bracketed (names.map Text.quoted))
  | unsupportedBuiltin name => some ("Builtin " ++ name ++ " is not supported")
  | builtinNotInLayout name layout =>
    some ("Builtin " ++ name ++ " is not present in layout " ++ layout)
  | unknownLayout name => some ("Unknown layout: " ++ name)
  | entrypointNotFound name => some ("Entrypoint " ++ name ++ " not found")
  | missingMain => some "Missing main()"
  | unsupportedPrime p => some ("Unsupported prime 0x" ++ hexText p)
  | invalidInstruction n defect =>
    some ("Invalid instruction encoding " ++ toString n ++ ": " ++ defect.message)
  | unknownOperand operand a =>
    some ("Failed to compute or deduce " ++ operand.text ++ " at address " ++ a.text)
  | assertEqFailed dst res =>
    some ("An ASSERT_EQ instruction failed: " ++ dst.plain ++ " != " ++ res.plain ++ ".")
  | callWritesPc found expected =>
    some ("Call failed to write return-pc (op0): " ++ found.plain ++ " != " ++ expected.text)
  | callWritesFp found expected =>
    some ("Call failed to write return-fp (dst): " ++ found.plain ++ " != " ++
      (Datum.ofAddress expected).plain)
  | notFelts x y =>
    some ("Could not complete computation * on (" ++ x.shown ++ ", " ++ y.shown ++ ")")
  | impureJump what found =>
    some ("Could not complete computation " ++ what ++ " on " ++ found.plain)
  | unconstrainedResult what => some ("Res.UNCONSTRAINED cannot be used with " ++ what)
  | inconsistentDeduction b a expected found =>
    some ("Inconsistent auto-deduction for builtin " ++ b.name ++ " at " ++ a.text ++
      ", expected " ++ expected.text ++ ", got " ++ found.text)
  | endNotReached pc target =>
    some ("End of program was not reached: pc is " ++ pc.text ++ ", expected " ++
      (Datum.ofAddress target).plain)
  | endOfProgram remaining =>
    some ("Execution reached the end of the program. Requested remaining steps: " ++
      toString remaining ++ ".")
  | runEndedTwice => some "end_run called twice"
  | accessBeyondStop b a stop =>
    some (b.name ++ " builtin segment accessed at " ++ a.text ++ ", beyond its stop pointer " ++
      toString stop)
  | runNotFinished => some "end_run must be called before this operation"
  | notInitialized what => some ("Runner is not initialized: " ++ what.text ++ " is not set")
  | alreadyRelocated => some "Trace and memory were already relocated"
  | tracingDisabled => some "Tracing is disabled for this run"
  | noHintProcessor pc =>
    some ("Hints found at pc " ++ pc.text ++ " but no hint processor is set")
  | variableNotInScope name => some ("Variable " ++ name ++ " is not in scope")
  | exitMainScope => some "Cannot exit the main scope"
  | malformedJson | malformedProgram | identifier | notAnIdentifier | unsupportedOperand
  | remainderByZero | invalidArgument | tooLarge | failedAssertion | noSuchMember | noSuchName
  | indexOutOfRange => none

end Fault

end Cairo
