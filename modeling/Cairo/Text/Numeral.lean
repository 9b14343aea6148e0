import Cairo.Text.Blank

/-!
# Numerals

Numbers written in decimal or hexadecimal digits.
-/

namespace Cairo.Text

/-- The value of a digit below 36, of either case. -/
def digit? (c : Char) : Option Nat :=
  if '0' ≤ c ∧ c ≤ '9' then some (c.toNat - '0'.toNat)
  else if 'a' ≤ c ∧ c ≤ 'z' then some (c.toNat - 'a'.toNat + 10)
  else if 'A' ≤ c ∧ c ≤ 'Z' then some (c.toNat - 'A'.toNat + 10)
  else none

/-- The value of a digit of a base. -/
def digitOf? (base : Nat) (c : Char) : Option Nat := (digit? c).filter (· < base)

/-- The number that a list of digits of a base stands for. -/
def ofDigits? (base : Nat) (cs : List Char) : Option Nat :=
  cs.foldlM (fun n c => (digitOf? base c).map (base * n + ·)) 0

/-- Digits without the single underscores that may stand between them. -/
def joinDigits? : List Char → Option (List Char)
  | [] => none
  | [c] => if c.isDigit then some [c] else none
  | c :: '_' :: rest => if c.isDigit then (joinDigits? rest).map (c :: ·) else none
  | c :: rest => if c.isDigit then (joinDigits? rest).map (c :: ·) else none

/-- The integer that a decimal text stands for: blanks around it, a sign and underscores between
the digits are allowed. -/
def integer? (s : String) : Option Int :=
  let natural (cs : List Char) : Option Nat := (joinDigits? cs).bind (ofDigits? 10)
  match (trimmed s).toList with
  | '-' :: cs => (natural cs).map fun n => -(n : Int)
  | '+' :: cs => (natural cs).map Int.ofNat
  | cs => (natural cs).map Int.ofNat

/-- The number that a hexadecimal text stands for: the mark `0x` and lower-case digits, and
perhaps a line end after them. -/
def hexadecimal? (s : String) : Option Nat :=
  match s.toList with
  | '0' :: 'x' :: cs =>
    let digits := if cs.getLast? = some '\n' then cs.dropLast else cs
    if digits.isEmpty || digits.any Char.isUpper then none else ofDigits? 16 digits
  | _ => none

end Cairo.Text
