import Cairo.Text.Json
import Cairo.Program.Identifiers

/-!
# Reading the parts of a compiled program

A part of the wrong shape makes the program malformed, but that is reported only when all parts
were read: a part that cannot be read at all is reported first.  `Reading` combines parts in
this way.
-/

namespace Cairo

/-- The result of reading a part of a compiled program. -/
def Reading (α : Type) : Type := Except Fault α

namespace Reading

variable {α β : Type}

/-- The part is of the wrong shape. -/
def malformed : Reading α := Except.error .malformedProgram

/-- The part cannot be read at all. -/
def refused (e : Fault) : Reading α := Except.error e

/-- The result of reading as an answer. -/
def run (x : Reading α) : Except Fault α := x

/-- Both parts; the fault that is not about a shape comes first. -/
def both (x : Reading (α → β)) (y : Reading α) : Reading β :=
  match x.run, y.run with
  | .ok f, .ok a => Except.ok (f a)
  | .ok _, .error e => Except.error e
  | .error .malformedProgram, .error e => Except.error e
  | .error e, _ => Except.error e

instance : Applicative Reading where
  pure := Except.ok
  seq f x := both f (x ())

/-- A text. -/
def text : Json → Reading String
  | .text s => pure s
  | _ => malformed

/-- The greatest number of binary digits of a number with an exponent. -/
def decimalBits : Nat := 1024

/-- A number with an exponent, without its fraction, unless it is too large. -/
def truncated? (mantissa exponent : Int) : Option Int :=
  let k := exponent.natAbs
  if mantissa = 0 then some 0
  else if exponent < 0 then
    some (if mantissa.natAbs.log2 < k then 0 else mantissa.tdiv (Int.pow 10 k))
  else if decimalBits ≤ k then none
  else
    let n := mantissa * Int.pow 10 k
    if n.natAbs.log2 < decimalBits then some n else none

/-- An integer, also as a decimal text. -/
def integer : Json → Reading Int
  | .integer n => pure n
  | .decimal m e => (truncated? m e).elim malformed pure
  | .text s => (Text.integer? s).elim malformed pure
  | _ => malformed

/-- A number in hexadecimal; what is neither a text nor null cannot be read. -/
def hexadecimal : Json → Reading Nat
  | .text s => (Text.hexadecimal? s).elim malformed pure
  | .null => malformed
  | _ => refused .unsupportedOperand

/-- A dotted name; what is neither a text nor null cannot be read. -/
def dottedName : Json → Reading DottedName
  | .text s => DottedName.ofText s
  | .null => malformed
  | _ => refused .noSuchMember

/-- A list of parts. -/
def list (item : Json → Reading α) : Json → Reading (List α)
  | .list items => items.mapA item
  | _ => malformed

/-- The fields of an object, with their names read. -/
def fields (name : String → Reading α) (value : Json → Reading β) : Json → Reading (List (α × β))
  | .object fs => fs.mapA fun (n, v) => Prod.mk <$> name n <*> value v
  | _ => malformed

/-- A field that must be there. -/
def required (value : Json → Reading α) (name : String) (j : Json) : Reading α :=
  (j.field? name).elim malformed value

/-- A field that may be missing. -/
def optional (value : Json → Reading α) (name : String) (j : Json) : Reading (Option α) :=
  match j.field? name with
  | none => pure none
  | some v => some <$> value v

/-- A part that may be null. -/
def nullable (value : Json → Reading α) : Json → Reading (Option α)
  | .null => pure none
  | v => some <$> value v

/-- An object without fields of other names. -/
def only (names : List String) : Json → Reading Unit
  | .object fs => if fs.all fun (n, _) => names.contains n then pure () else malformed
  | _ => malformed

/-- An object, whatever its fields are. -/
def anyObject : Json → Reading Unit
  | .object _ => pure ()
  | _ => malformed

/-- The first of two readings, if both succeed. -/
def withCheck (x : Reading α) (check : Reading Unit) : Reading α := (fun a _ => a) <$> x <*> check

end Reading

end Cairo
