import Cairo.Number.Bytes
import Cairo.Trace.Linear

/-!
# Binary traces and memories

A trace is written as three words of 8 bytes for each row, in the order `ap`, `fp`, `pc`.  A
memory is written as a record for each written cell: its address in 8 bytes and its content in
32 bytes.  All numbers have their least significant byte first.
-/

namespace Cairo.Binary

/-- The bound of the numbers that fit in a word. -/
def wordBound : Nat := Nat.pow 2 64

/-- A number in 8 bytes. -/
def word (n : Int) : Except Fault (List UInt8) :=
  if 0 ≤ n ∧ n < wordBound then .ok (Bytes.littleEndian 8 n.toNat) else .error .tooLarge

/-- A row of a trace. -/
def row (r : TraceRow) : Except Fault (List UInt8) := do
  return (← word r.ap) ++ (← word r.fp) ++ (← word r.pc)

/-- A trace. -/
def trace (rows : List TraceRow) : Except Fault (List UInt8) := do
  return (← rows.mapM row).flatten

/-- A written cell; an empty one is left out. -/
def cell (address : Nat) : Option Felt → Except Fault (List UInt8)
  | none => .ok []
  | some x => do return (← word address) ++ x.toLittleEndian

/-- The cells of a memory from an address on. -/
def cellsFrom : Nat → List (Option Felt) → Except Fault (List UInt8)
  | _, [] => .ok []
  | address, c :: rest => do return (← cell address c) ++ (← cellsFrom (address + 1) rest)

/-- A memory. -/
def memory (cells : List (Option Felt)) : Except Fault (List UInt8) := cellsFrom 0 cells

/-- The content of a cell that is handed in from outside. -/
def cellContent : Datum → Except Fault (Option Felt)
  | .nothing => .ok none
  | .value (.felt x) => .ok (some x)
  | d =>
    match d.integer? with
    | some n => .ok (some (Felt.ofInt n))
    | none => .error .unsupportedOperand

end Cairo.Binary
