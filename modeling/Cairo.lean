import Cairo.Action
import Cairo.Address
import Cairo.Budget
import Cairo.Builtin.Basic
import Cairo.Builtin.Kind
import Cairo.Builtin.List
import Cairo.Builtin.Usage
import Cairo.CommandLine.Arguments
import Cairo.CommandLine.Commands
import Cairo.CommandLine.Markup
import Cairo.CommandLine.Table
import Cairo.Curve.Basic
import Cairo.Curve.Multiply
import Cairo.Datum
import Cairo.Datum.Arithmetic
import Cairo.Fault
import Cairo.Felt.Basic
import Cairo.Felt.SquareRoot
import Cairo.Hash.Pedersen
import Cairo.Hash.Poseidon
import Cairo.Hash.Sha256
import Cairo.Hint
import Cairo.Instruction.Basic
import Cairo.Instruction.Encoding
import Cairo.Layout
import Cairo.Machine.Basic
import Cairo.Machine.Event
import Cairo.Machine.Execution
import Cairo.Machine.Hints
import Cairo.Machine.Registers
import Cairo.Machine.Semantics
import Cairo.Main
import Cairo.Memory.Basic
import Cairo.Memory.Linear
import Cairo.Memory.Relocation
import Cairo.Number.Bytes
import Cairo.Number.Modular
import Cairo.Operand
import Cairo.Program.Basic
import Cairo.Program.Compiled
import Cairo.Program.Identifiers
import Cairo.Program.Reading
import Cairo.Proofs.Action
import Cairo.Proofs.Builtin.Bitwise
import Cairo.Proofs.Builtin.Deduction
import Cairo.Proofs.Builtin.EcOp
import Cairo.Proofs.Builtin.Memoization
import Cairo.Proofs.Builtin.Parts
import Cairo.Proofs.Builtin.Soundness
import Cairo.Proofs.Builtin.Verification
import Cairo.Proofs.Curve.Group
import Cairo.Proofs.Datum.Arithmetic
import Cairo.Proofs.Felt.Conversion
import Cairo.Proofs.Felt.Field
import Cairo.Proofs.Felt.Prime
import Cairo.Proofs.Felt.Residue
import Cairo.Proofs.Felt.SquareRoot
import Cairo.Proofs.Instruction.Decoding
import Cairo.Proofs.Instruction.Words
import Cairo.Proofs.Linear.Machine
import Cairo.Proofs.Linear.Memory
import Cairo.Proofs.Linear.Overlay
import Cairo.Proofs.Linear.Placement
import Cairo.Proofs.Machine.Accesses
import Cairo.Proofs.Machine.Builtins
import Cairo.Proofs.Machine.Calls
import Cairo.Proofs.Machine.Completion
import Cairo.Proofs.Machine.Development
import Cairo.Proofs.Machine.Failures
import Cairo.Proofs.Machine.Faults
import Cairo.Proofs.Machine.Hints
import Cairo.Proofs.Machine.Instruction
import Cairo.Proofs.Machine.Loops
import Cairo.Proofs.Machine.Memory
import Cairo.Proofs.Machine.Refusals
import Cairo.Proofs.Machine.Replay
import Cairo.Proofs.Machine.Scopes
import Cairo.Proofs.Machine.Semantics
import Cairo.Proofs.Machine.Sizes
import Cairo.Proofs.Machine.Solving
import Cairo.Proofs.Machine.Standing
import Cairo.Proofs.Machine.Steps
import Cairo.Proofs.Machine.Trace
import Cairo.Proofs.Machine.Unconstrained
import Cairo.Proofs.Memory.Accesses
import Cairo.Proofs.Memory.Bounds
import Cairo.Proofs.Memory.Cells
import Cairo.Proofs.Memory.Development
import Cairo.Proofs.Memory.Extents
import Cairo.Proofs.Memory.Frame
import Cairo.Proofs.Memory.Insertions
import Cairo.Proofs.Memory.Ranges
import Cairo.Proofs.Memory.Refusals
import Cairo.Proofs.Memory.Registration
import Cairo.Proofs.Memory.Trees
import Cairo.Proofs.Memory.WriteOnce
import Cairo.Proofs.Program.Labels
import Cairo.Proofs.Relocation.Allocation
import Cairo.Proofs.Relocation.Arithmetic
import Cairo.Proofs.Relocation.Cells
import Cairo.Proofs.Relocation.Chains
import Cairo.Proofs.Relocation.Conflicts
import Cairo.Proofs.Relocation.Cycles
import Cairo.Proofs.Relocation.Felts
import Cairo.Proofs.Relocation.Loop
import Cairo.Proofs.Relocation.Losses
import Cairo.Proofs.Relocation.Renaming
import Cairo.Proofs.Relocation.Repeating
import Cairo.Proofs.Relocation.Resolution
import Cairo.Proofs.Relocation.Retry
import Cairo.Proofs.Relocation.Rules
import Cairo.Proofs.Relocation.Stages
import Cairo.Proofs.Run.Advance
import Cairo.Proofs.Run.Budget
import Cairo.Proofs.Run.Builtins
import Cairo.Proofs.Run.Counting
import Cairo.Proofs.Run.Declarations
import Cairo.Proofs.Run.Development
import Cairo.Proofs.Run.Extents
import Cairo.Proofs.Run.Frame
import Cairo.Proofs.Run.Holes
import Cairo.Proofs.Run.Layout
import Cairo.Proofs.Run.Limits
import Cairo.Proofs.Run.Linear
import Cairo.Proofs.Run.Loading
import Cairo.Proofs.Run.Memory
import Cairo.Proofs.Run.Operations
import Cairo.Proofs.Run.Parts
import Cairo.Proofs.Run.Ranges
import Cairo.Proofs.Run.Relocation
import Cairo.Proofs.Run.Secure
import Cairo.Proofs.Run.Setup
import Cairo.Proofs.Run.Sizes
import Cairo.Proofs.Run.Stops
import Cairo.Proofs.Scopes
import Cairo.Proofs.Segments
import Cairo.Proofs.Segments.Arguments
import Cairo.Proofs.Trace.Binary
import Cairo.Proofs.Trace.Profile
import Cairo.Proofs.Value.Arithmetic
import Cairo.Run.Basic
import Cairo.Run.Execution
import Cairo.Run.Report
import Cairo.Scope
import Cairo.Segments
import Cairo.Text.Blank
import Cairo.Text.Format
import Cairo.Text.Json
import Cairo.Text.Numeral
import Cairo.Text.Quoted
import Cairo.Trace.Binary
import Cairo.Trace.Linear
import Cairo.Trace.Profile
import Cairo.Value
import Cairo.Value.Arithmetic
