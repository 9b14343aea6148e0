import Cairo.Memory.Basic

/-!
# Linear addresses

A relocation table gives every real segment the linear address of its first cell.  An address is
then a number, and a stored address a field element.
-/

namespace Cairo

/-- The linear address of a cell. -/
def Address.linear (table : List Int) (a : Address) : Except Fault Int :=
  if a.segment < 0 then .error (.temporarySegment a.segment)
  else
    match table[a.segment.toNat]? with
    | some start => .ok (start + a.offset)
    | none => .error (.noRelocation a.segment)

/-- The field element that a value is in linear memory. -/
def Value.linear (table : List Int) : Value → Except Fault Felt
  | .felt x => .ok x
  | .address a => (a.linear table).map Felt.ofInt

end Cairo
