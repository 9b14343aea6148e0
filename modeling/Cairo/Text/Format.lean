/-!
# Format specifications

A format specification says how a number or a text is laid out in a field: fill and alignment,
sign, base mark, width, grouping of digits, precision and kind, in this order and each optional.
`Spec.parse?` reads one; `formatNat?` and `formatText?` apply it and have no answer where the
specification does not fit what is formatted.
-/

namespace Cairo.Text

/-- Where the content of a field stands; `afterSign` fills between the sign and the digits. -/
inductive Alignment
  | left
  | right
  | center
  | afterSign
deriving DecidableEq

/-- The alignment that a character stands for. -/
def Alignment.ofChar? : Char → Option Alignment
  | '<' => some left
  | '>' => some right
  | '^' => some center
  | '=' => some afterSign
  | _ => none

/-- A format specification. -/
structure Spec where
  fill : Option Char
  align : Option Alignment
  sign : Option Char
  zeroCoercion : Bool
  alternate : Bool
  zeroFill : Bool
  width : Option Nat
  comma : Bool
  underscore : Bool
  precision : Option Nat
  kind : Option Char

/-- The characters of a list that are taken off its front if they are among the given ones. -/
def takeOne (options : List Char) : List Char → Option Char × List Char
  | [] => (none, [])
  | c :: rest => if options.contains c then (some c, rest) else (none, c :: rest)

/-- The number that a run of decimal digits stands for. -/
def decimalValue (digits : List Char) : Nat :=
  digits.foldl (fun n c => 10 * n + (c.toNat - 48)) 0

/-- The number at the front of a text, if there is a digit. -/
def takeNumber (cs : List Char) : Option Nat × List Char :=
  match cs.takeWhile Char.isDigit with
  | [] => (none, cs)
  | digits => (some (decimalValue digits), cs.dropWhile Char.isDigit)

/-- The fill character and the alignment at the front of a specification. -/
def takeAlignment : List Char → Option Char × Option Alignment × List Char
  | c :: d :: rest =>
    match Alignment.ofChar? d with
    | some a => (some c, some a, rest)
    | none =>
      match Alignment.ofChar? c with
      | some a => (none, some a, d :: rest)
      | none => (none, none, c :: d :: rest)
  | [c] =>
    match Alignment.ofChar? c with
    | some a => (none, some a, [])
    | none => (none, none, [c])
  | [] => (none, none, [])

/-- The precision at the front of the rest of a specification; a point needs a number. -/
def takePrecision : List Char → Option (Option Nat × List Char)
  | '.' :: rest =>
    match takeNumber rest with
    | (some n, rest) => some (some n, rest)
    | (none, _) => none
  | cs => some (none, cs)

/-- The specification that a text stands for. -/
def Spec.parse? (s : String) : Option Spec :=
  let (fill, align, cs) := takeAlignment s.toList
  let (sign, cs) := takeOne ['+', '-', ' '] cs
  let (coercion, cs) := takeOne ['z'] cs
  let (mark, cs) := takeOne ['#'] cs
  let (zero, cs) := if fill.isNone then takeOne ['0'] cs else (none, cs)
  let (width, cs) := takeNumber cs
  let (comma, cs) := takeOne [','] cs
  let (underscore, cs) := takeOne ['_'] cs
  match takePrecision cs with
  | none => none
  | some (precision, cs) =>
    let spec (kind : Option Char) : Spec :=
      { fill := fill, align := align, sign := sign, zeroCoercion := coercion.isSome
        alternate := mark.isSome, zeroFill := zero.isSome, width := width
        comma := comma.isSome, underscore := underscore.isSome, precision := precision
        kind := kind }
    match cs with
    | [] => some (spec none)
    | [c] => some (spec (some c))
    | _ => none

/-- A content in a field that is at least `width` wide. -/
def pad (fill : Char) (align : Alignment) (width : Nat) (content : List Char) : List Char :=
  let missing := width - content.length
  match align with
  | .left => content ++ List.replicate missing fill
  | .center =>
    List.replicate (missing / 2) fill ++ content ++ List.replicate (missing - missing / 2) fill
  | _ => List.replicate missing fill ++ content

/-- Digits, least significant first, in groups of `size`, filled with zeros to a least width.
The number of rounds bounds the groups. -/
def groupDigits (separator : Char) (size : Nat) : Nat → List Char → Nat → List Char
  | 0, digits, _ => digits
  | rounds + 1, digits, least =>
    let len := min size (max (max digits.length least) 1)
    let group := digits.take len ++ List.replicate (len - digits.length) '0'
    let digits := digits.drop len
    if digits.isEmpty && least ≤ len then group
    else group ++ separator :: groupDigits separator size rounds digits (least - len - 1)

/-- The base, the digits' alphabet and the mark of a kind of number. -/
structure NumberStyle where
  base : Nat
  upper : Bool
  mark : List Char
  groupSize : Nat

/-- The style of a kind of number. -/
def NumberStyle.ofKind? : Option Char → Option NumberStyle
  | none | some 'd' | some 'n' => some ⟨10, false, [], 3⟩
  | some 'b' => some ⟨2, false, ['0', 'b'], 4⟩
  | some 'o' => some ⟨8, false, ['0', 'o'], 4⟩
  | some 'x' => some ⟨16, false, ['0', 'x'], 4⟩
  | some 'X' => some ⟨16, true, ['0', 'X'], 4⟩
  | _ => none

/-- The digits of a number in a style, most significant first. -/
def NumberStyle.digits (style : NumberStyle) (n : Nat) : List Char :=
  let ds := Nat.toDigits style.base n
  if style.upper then ds.map Char.toUpper else ds

/-- A natural number laid out by a specification. -/
def formatNat? (spec : Spec) (n : Nat) : Option String :=
  match NumberStyle.ofKind? spec.kind with
  | none => none
  | some style =>
    if spec.precision.isSome || spec.zeroCoercion || (spec.comma && spec.underscore) then none
    else if spec.comma && style.base != 10 then none
    else if (spec.comma || spec.underscore) && spec.kind == some 'n' then none
    else
      let sign := match spec.sign with
        | some '+' => ['+']
        | some ' ' => [' ']
        | _ => []
      let front := sign ++ (if spec.alternate then style.mark else [])
      let fill := if spec.zeroFill then '0' else spec.fill.getD ' '
      let align := spec.align.getD (if spec.zeroFill then .afterSign else .right)
      let width := spec.width.getD 0
      let digits := (style.digits n).reverse
      let zeros := if fill == '0' && align = .afterSign then width - front.length else 0
      let body :=
        if spec.comma then groupDigits ',' style.groupSize (digits.length + zeros) digits zeros
        else if spec.underscore then
          groupDigits '_' style.groupSize (digits.length + zeros) digits zeros
        else digits
      let body := body.reverse
      match align with
      | .afterSign =>
        some (String.ofList (front ++ pad fill .right (width - front.length) body))
      | _ => some (String.ofList (pad fill align width (front ++ body)))

/-- A text laid out by a specification; a precision cuts it. -/
def formatText? (spec : Spec) (s : String) : Option String :=
  if spec.sign.isSome || spec.zeroCoercion || spec.alternate || spec.comma || spec.underscore
      || spec.align == some .afterSign || !(spec.kind == none || spec.kind == some 's') then none
  else
    let content := match spec.precision with
      | some n => s.toList.take n
      | none => s.toList
    let fill := if spec.zeroFill then '0' else spec.fill.getD ' '
    some (String.ofList (pad fill (spec.align.getD .left) (spec.width.getD 0) content))

end Cairo.Text
