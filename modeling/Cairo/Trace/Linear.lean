import Cairo.Memory.Linear
import Cairo.Machine.Registers

/-!
# Linear memory and linear traces

With a relocation table, the written cells of the real segments become one list of cells, in which
unwritten cells are empty, and the registers of a trace become numbers.
-/

namespace Cairo

/-- A row of a trace in linear memory. -/
structure TraceRow where
  pc : Int
  ap : Int
  fp : Int
deriving DecidableEq, Inhabited

/-- Linear memory; `none` marks a cell that is not written. -/
abbrev LinearMemory := Array (Option Felt)

namespace LinearMemory

/-- The memory before any cell is placed: address 0 is never used. -/
def start : LinearMemory := #[none]

/-- Memory with a cell placed at an address and empty cells up to it; a negative address counts
from the end. -/
def place (m : LinearMemory) (address : Int) (x : Felt) : Except Fault LinearMemory :=
  match address with
  | .ofNat n =>
    .ok ((m ++ Array.replicate (n + 1 - m.size) none).setIfInBounds n (some x))
  | .negSucc n =>
    if n < m.size then .ok (m.setIfInBounds (m.size - 1 - n) (some x))
    else .error .indexOutOfRange

/-- Memory with one more cell of the segments, at its linear address. -/
def placeCell (table : List Int) (m : LinearMemory) (a : Address) (v : Value) :
    Except Fault LinearMemory := do
  let address ← a.linear table
  let x ← v.linear table
  m.place address x

/-- All written cells of the real segments at their linear addresses. -/
def ofMemory (table : List Int) (memory : Memory) : Except Fault LinearMemory :=
  (List.range memory.segments.size).foldlM (fun m (i : Nat) =>
    (memory.itemsOf i).foldlM (fun m (a, v) => placeCell table m a v) m) start

end LinearMemory

namespace Registers

/-- A register in linear memory. -/
def linearRegister (table : List Int) : Option Address → Except Fault Int
  | some a => a.linear table
  | none => .error .noSuchMember

/-- The registers in linear memory. -/
def linear (table : List Int) (r : Registers) : Except Fault TraceRow := do
  return ⟨← r.pc.linear table, ← linearRegister table r.ap, ← linearRegister table r.fp⟩

end Registers

end Cairo
