import Cairo.Text.Numeral

/-!
# JSON texts

`Json.parse?` reads a JSON text.  Beside the standard grammar it knows the numbers `NaN`,
`Infinity` and `-Infinity`; control characters inside a text must be escaped.  Of several fields
of one name in an object the last one counts, at the place of the first.
-/

namespace Cairo

/-- A JSON value.  A number with a fraction or an exponent is `mantissa * 10 ^ exponent`. -/
inductive Json
  | null
  | truth (b : Bool)
  | integer (n : Int)
  | decimal (mantissa exponent : Int)
  | nonNumber
  | text (s : String)
  | list (items : List Json)
  | object (fields : List (String × Json))
deriving Inhabited

namespace Json

/-- The characters of a text behind the blanks at its front. -/
def skipBlanks (cs : List Char) : List Char :=
  cs.dropWhile fun c => c == ' ' || c == '\t' || c == '\n' || c == '\r'

/-- The decimal digits at the front of a text, and the rest. -/
def takeDigits (cs : List Char) : List Char × List Char :=
  (cs.takeWhile Char.isDigit, cs.dropWhile Char.isDigit)

/-- The number of some decimal digits. -/
def digitsValue (cs : List Char) : Nat := (Text.ofDigits? 10 cs).getD 0

/-- The digits of an integer at the front of a text: a zero, or digits of which the first is not
zero. -/
def takeInteger (cs : List Char) : List Char × List Char :=
  match cs with
  | '0' :: rest => (['0'], rest)
  | _ => takeDigits cs

/-- The digits of a fraction at the front of a text; none if no digit follows the point. -/
def takeFraction (cs : List Char) : List Char × List Char :=
  match cs with
  | '.' :: rest =>
    match takeDigits rest with
    | ([], _) => ([], cs)
    | (digits, rest) => (digits, rest)
  | _ => ([], cs)

/-- The sign of an exponent and the text after it. -/
def takeSign (cs : List Char) : Bool × List Char :=
  match cs with
  | '-' :: rest => (true, rest)
  | '+' :: rest => (false, rest)
  | _ => (false, cs)

/-- The exponent at the front of a text, if a digit follows its mark. -/
def takeExponent (cs : List Char) : Option Int × List Char :=
  match cs with
  | c :: rest =>
    if c == 'e' || c == 'E' then
      let (negative, rest) := takeSign rest
      match takeDigits rest with
      | ([], _) => (none, cs)
      | (digits, rest) =>
        let n : Int := digitsValue digits
        (some (if negative then -n else n), rest)
    else (none, cs)
  | [] => (none, cs)

/-- The number at the front of a text, without its sign. -/
def takeNumber (negative : Bool) (cs : List Char) : Option (Json × List Char) :=
  match takeInteger cs with
  | ([], _) => none
  | (whole, rest) =>
    let (fraction, rest) := takeFraction rest
    let (exponent, rest) := takeExponent rest
    let n : Int := digitsValue (whole ++ fraction)
    let signed := if negative then -n else n
    if fraction.isEmpty && exponent.isNone then some (.integer signed, rest)
    else some (.decimal signed (exponent.getD 0 - fraction.length), rest)

/-- The character that a letter after a backslash stands for. -/
def escaped? : Char → Option Nat
  | '"' => some 0x22
  | '\\' => some 0x5c
  | '/' => some 0x2f
  | 'b' => some 0x08
  | 'f' => some 0x0c
  | 'n' => some 0x0a
  | 'r' => some 0x0d
  | 't' => some 0x09
  | _ => none

/-- The code units of a text up to its closing quote, and the rest. -/
def takeUnits : List Char → Option (List Nat × List Char)
  | [] => none
  | '"' :: rest => some ([], rest)
  | '\\' :: 'u' :: a :: b :: c :: d :: rest => do
    let n ← Text.ofDigits? 16 [a, b, c, d]
    let (units, rest) ← takeUnits rest
    return (n :: units, rest)
  | '\\' :: c :: rest => do
    let n ← escaped? c
    let (units, rest) ← takeUnits rest
    return (n :: units, rest)
  | c :: rest =>
    if c.toNat < 0x20 || c == '\\' then none
    else do
      let (units, rest) ← takeUnits rest
      return (c.toNat :: units, rest)

/-- The character of a code point; what is no code point becomes the replacement character. -/
def character (n : Nat) : Char :=
  if n.isValidChar then Char.ofNat n else '\ufffd'

/-- The characters of code units, in which a pair of surrogates is one character. -/
def joinUnits : List Nat → List Char
  | [] => []
  | [n] => [character n]
  | high :: low :: rest =>
    if 0xd800 ≤ high ∧ high < 0xdc00 ∧ 0xdc00 ≤ low ∧ low < 0xe000 then
      character (0x10000 + (high - 0xd800) * 0x400 + (low - 0xdc00)) :: joinUnits rest
    else character high :: joinUnits (low :: rest)

/-- The text at the front, behind its opening quote. -/
def takeText (cs : List Char) : Option (String × List Char) :=
  (takeUnits cs).map fun (units, rest) => (String.ofList (joinUnits units), rest)

/-- The rest of a text behind a word, if the word is at its front. -/
def dropWord? (word : String) (cs : List Char) : Option (List Char) :=
  if word.toList.isPrefixOf cs then some (cs.drop word.length) else none

/-- The words that stand for values. -/
def words : List (String × Json) :=
  [("null", .null), ("true", .truth true), ("false", .truth false), ("NaN", .nonNumber),
    ("Infinity", .nonNumber), ("-Infinity", .nonNumber)]

/-- The value at the front of a text that is a word or a number. -/
def takeAtom (cs : List Char) : Option (Json × List Char) :=
  match words.findSome? fun (w, v) => (dropWord? w cs).map fun rest => (v, rest) with
  | some r => some r
  | none =>
    match cs with
    | '-' :: rest => takeNumber true rest
    | _ => takeNumber false cs

/-- Fields with one more; a field of the same name is replaced. -/
def setField (name : String) (v : Json) : List (String × Json) → List (String × Json)
  | [] => [(name, v)]
  | (n, w) :: rest => if n = name then (n, v) :: rest else (n, w) :: setField name v rest

mutual

/-- The value at the front of a text.  Every round of nesting or of a list takes at least one
character, so that the length of the text bounds the rounds. -/
def takeValue : Nat → List Char → Option (Json × List Char)
  | 0, _ => none
  | rounds + 1, cs =>
    match cs with
    | '"' :: rest => (takeText rest).map fun (s, rest) => (.text s, rest)
    | '[' :: rest =>
      match skipBlanks rest with
      | ']' :: rest => some (.list [], rest)
      | rest => (takeItems rounds rest).map fun (items, rest) => (.list items, rest)
    | '{' :: rest =>
      match skipBlanks rest with
      | '}' :: rest => some (.object [], rest)
      | rest => (takeFields rounds [] rest).map fun (fields, rest) => (.object fields, rest)
    | _ => takeAtom cs

/-- The items of a list up to its closing bracket. -/
def takeItems : Nat → List Char → Option (List Json × List Char)
  | 0, _ => none
  | rounds + 1, cs =>
    match takeValue rounds cs with
    | none => none
    | some (v, rest) =>
      match skipBlanks rest with
      | ']' :: rest => some ([v], rest)
      | ',' :: rest =>
        (takeItems rounds (skipBlanks rest)).map fun (items, rest) => (v :: items, rest)
      | _ => none

/-- The fields of an object up to its closing brace, after those collected so far. -/
def takeFields : Nat → List (String × Json) → List Char →
    Option (List (String × Json) × List Char)
  | 0, _, _ => none
  | rounds + 1, fields, '"' :: rest =>
    match takeText rest with
    | none => none
    | some (name, rest) =>
      match skipBlanks rest with
      | ':' :: rest =>
        match takeValue rounds (skipBlanks rest) with
        | none => none
        | some (v, rest) =>
          let fields := setField name v fields
          match skipBlanks rest with
          | '}' :: rest => some (fields, rest)
          | ',' :: rest => takeFields rounds fields (skipBlanks rest)
          | _ => none
      | _ => none
  | _ + 1, _, _ => none

end

/-- The value that a JSON text stands for. -/
def parse? (s : String) : Option Json :=
  let cs := s.toList
  match takeValue (2 * cs.length + 1) (skipBlanks cs) with
  | some (v, rest) => if (skipBlanks rest).isEmpty then some v else none
  | none => none

/-- The value of a field of an object. -/
def field? (name : String) : Json → Option Json
  | object fields => fields.lookup name
  | _ => none

end Json

end Cairo
