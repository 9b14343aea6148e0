import Cairo.Felt.Basic
import Cairo.Address

/-!
# Values

A memory cell holds a `Value`: a field element or an address.  `text` and `shown` are the two ways
in which messages write a value; inside a list or a pair the second is used.
-/

namespace Cairo

/-- The content of a memory cell. -/
inductive Value
  | felt (x : Felt)
  | address (a : Address)
deriving DecidableEq, Inhabited

namespace Value

/-- The field element, if the value is one. -/
def felt? : Value → Option Felt
  | felt x => some x
  | address _ => none

/-- The address, if the value is one. -/
def address? : Value → Option Address
  | felt _ => none
  | address a => some a

/-- A value as it stands alone in a message. -/
def text : Value → String
  | felt x => x.text
  | address a => a.text

/-- A value as it stands inside a list or a pair. -/
def shown : Value → String
  | felt x => "Felt(" ++ x.text ++ ")"
  | address a => "Relocatable(" ++ toString a.segment ++ ", " ++ toString a.offset ++ ")"

end Value

end Cairo
