import Cairo.Value
import Cairo.Text.Quoted

/-!
# Data from outside

What is handed to a machine from outside may be more than a memory value: a `Datum` is a value, an
integer, a truth value, a text, a list, or nothing.  `plain` and `shown` are the two ways in which
messages write a datum; inside a list or a pair the second is used.
-/

namespace Cairo

/-- What a caller may hand to the machine, or keep in a scope. -/
inductive Datum
  | nothing
  | truth (b : Bool)
  | integer (n : Int)
  | value (v : Value)
  | text (s : String)
  | list (items : List Datum)
deriving Inhabited

namespace Datum

instance : Coe Value Datum := ⟨value⟩

/-- The value, or nothing. -/
def ofOption : Option Value → Datum
  | some v => value v
  | none => nothing

/-- The address, or nothing. -/
def ofAddress (a : Option Address) : Datum := ofOption (a.map .address)

/-- The integer that a datum stands for in arithmetic; a truth value counts as 0 or 1. -/
def integer? : Datum → Option Int
  | truth b => some b.toNat
  | integer n => some n
  | _ => none

/-- The address, if the datum is one. -/
def address? : Datum → Option Address
  | value (.address a) => some a
  | _ => none

mutual

/-- A datum as it stands inside a list or a pair. -/
def shown : Datum → String
  | nothing => "None"
  | truth b => if b then "True" else "False"
  | integer n => toString n
  | value v => v.shown
  | text s => Text.quoted s
  | list items => Text.bracketed (shownAll items)

/-- The items of a list as they stand inside it. -/
def shownAll : List Datum → List String
  | [] => []
  | d :: rest => d.shown :: shownAll rest

end

/-- A datum as it stands alone in a message. -/
def plain : Datum → String
  | value v => v.text
  | text s => s
  | d => d.shown

/-- The name of the kind of a datum. -/
def kindName : Datum → String
  | nothing => "NoneType"
  | truth _ => "bool"
  | integer _ => "int"
  | value (.felt _) => "Felt"
  | value (.address _) => "Relocatable"
  | text _ => "str"
  | list _ => "list"

end Datum

end Cairo
