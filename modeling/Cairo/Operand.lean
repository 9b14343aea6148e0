import Cairo.Datum.Arithmetic

/-!
# Operands

The rules of an instruction need little of what its operands are: sums and differences, whether
two operands agree, and an address moved by an operand.  Memory values are operands, and so are
data from outside, so that each rule is stated once.
-/

namespace Cairo

/-- What the rules of an instruction ask of its operands. -/
class Operand (α : Type) where
  ofValue : Value → α
  datum : α → Datum
  add : α → α → Except Fault α
  sub : α → α → Except Fault α
  agree : α → α → Bool
  advance : Address → α → Except Fault Address

namespace Operand

variable {α : Type} [Operand α]

/-- The field element, if an operand is one. -/
def felt? (x : α) : Option Felt :=
  match datum x with
  | .value (.felt f) => some f
  | _ => none

/-- The address, if an operand is one. -/
def address? (x : α) : Option Address := (datum x).address?

end Operand

/-- The address moved by a value, which must be a field element. -/
def Address.advanceBy (a : Address) : Value → Except Fault Address
  | .felt x => a.addFelt x
  | .address b => .error (.addressSum a b)

/-- The address moved by a datum. -/
def Address.advanceByDatum (a : Address) : Datum → Except Fault Address
  | .value v => a.advanceBy v
  | d =>
    match d.integer? with
    | some n => a.shift n
    | none => .error .unsupportedOperand

instance : Operand Value where
  ofValue := id
  datum := .value
  add := Value.add
  sub := Value.sub
  agree v w := decide (v = w)
  advance := Address.advanceBy

instance : Operand Datum where
  ofValue := .value
  datum := id
  add := Datum.operate .add
  sub := Datum.operate .sub
  agree := Datum.same
  advance := Address.advanceByDatum

end Cairo
