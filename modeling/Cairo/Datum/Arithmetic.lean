import Cairo.Value.Arithmetic

/-!
# Arithmetic of data

The operators on data from outside, where field elements mix with integers and with addresses.  An
operation with a field element on the left always answers in the field; with an integer on the
left it does so for the operators that the field reflects, which are all but the shifts, powers
and remainders.  Texts and lists can be joined and repeated.  What no rule covers is an unsupported
operand.
-/

namespace Cairo

/-- The arithmetic operators. -/
inductive Operator
  | add
  | sub
  | mul
  | div
  | floorDiv
  | rem
  | pow
  | shiftLeft
  | shiftRight
  | and
  | or
  | xor
deriving DecidableEq

/-- The comparisons. -/
inductive Comparison
  | eq
  | ne
  | lt
  | le
  | gt
  | ge
deriving DecidableEq

namespace Felt

/-- An operator with a field element on the left and an integer on the right. -/
def operate (op : Operator) (x : Felt) (n : Int) : Except Fault Felt :=
  match op with
  | .add => .ok (x + ofInt n)
  | .sub => .ok (x - ofInt n)
  | .mul => .ok (x * ofInt n)
  | .div | .floorDiv => x.div (ofInt n)
  | .rem => if n = 0 then .error .remainderByZero else .ok (x.remainder n)
  | .pow => x.zpow n
  | .shiftLeft => if n < 0 then .error .invalidArgument else .ok (x.shiftLeft n.toNat)
  | .shiftRight => if n < 0 then .error .invalidArgument else .ok (x.shiftRight n.toNat)
  | .and => .ok (x &&& ofInt n)
  | .or => .ok (x ||| ofInt n)
  | .xor => .ok (x ^^^ ofInt n)

/-- An operator with an integer on the left and a field element on the right. -/
def operateReflected (op : Operator) (n : Int) (y : Felt) : Except Fault Felt :=
  match op with
  | .rem | .pow | .shiftLeft | .shiftRight => .error .unsupportedOperand
  | .add | .sub | .mul | .div | .floorDiv | .and | .or | .xor => (ofInt n).operate op y.val

end Felt

/-- A bitwise operation on integers, of which the negative ones have infinitely many ones. -/
def bitwise (f : Nat → Nat → Nat) (m n : Int) : Int :=
  let width := m.natAbs.log2 + n.natAbs.log2 + 3
  let r := f (m % Int.pow 2 width).toNat (n % Int.pow 2 width).toNat
  if r < Nat.pow 2 (width - 1) then r else (r : Int) - Int.pow 2 width

/-- An operator on two integers, as far as its result is an integer. -/
def operateIntegers (op : Operator) (m n : Int) : Except Fault Int :=
  match op with
  | .add => .ok (m + n)
  | .sub => .ok (m - n)
  | .mul => .ok (m * n)
  | .div => if n = 0 then .error .remainderByZero else .error .unsupportedOperand
  | .floorDiv => if n = 0 then .error .remainderByZero else .ok (m.fdiv n)
  | .rem => if n = 0 then .error .remainderByZero else .ok (m.fmod n)
  | .pow =>
    if n < 0 then .error (if m = 0 then .remainderByZero else .unsupportedOperand)
    else .ok (m.pow n.toNat)
  | .shiftLeft => if n < 0 then .error .invalidArgument else .ok (m * Int.pow 2 n.toNat)
  | .shiftRight => if n < 0 then .error .invalidArgument else .ok (m >>> n.toNat)
  | .and => .ok (bitwise (· &&& ·) m n)
  | .or => .ok (bitwise (· ||| ·) m n)
  | .xor => .ok (bitwise (· ^^^ ·) m n)

/-- A list repeated a number of times, not at all if the number is negative. -/
def repeated {α : Type} (n : Int) (xs : List α) : Except Fault (List α) :=
  if n.natAbs < Nat.pow 2 63 then .ok (List.replicate n.toNat xs).flatten else .error .tooLarge

namespace Datum

/-- The number that a datum stands for in comparisons. -/
def number? : Datum → Option Int
  | value (.felt x) => some x.val
  | d => d.integer?

/-- A text or a list repeated a number of times. -/
def repeatedBy (n : Int) : Datum → Except Fault Datum
  | text s => do return text (String.ofList (← repeated n s.toList))
  | list xs => do return list (← repeated n xs)
  | _ => .error .unsupportedOperand

/-- An operator on texts and lists: their sum is the two joined, and a number times one of them
repeats it. -/
def assemble (op : Operator) (d e : Datum) : Except Fault Datum :=
  match op, d, e with
  | .add, text s, text t => .ok (text (s ++ t))
  | .add, list xs, list ys => .ok (list (xs ++ ys))
  | .mul, d, e =>
    match d.number?, e.number? with
    | some n, none => e.repeatedBy n
    | none, some n => d.repeatedBy n
    | _, _ => .error .unsupportedOperand
  | _, _, _ => .error .unsupportedOperand

/-- An operator on two data. -/
def operate (op : Operator) : Datum → Datum → Except Fault Datum
  | value (.felt x), value (.felt y) => do return value (.felt (← x.operate op y.val))
  | value (.address a), value (.address b) =>
    match op with
    | .add => .error (.addressSum a b)
    | .sub => do return value (.felt (← a.sub b))
    | _ => .error .unsupportedOperand
  | value (.address a), value (.felt y) =>
    match op with
    | .add => do return value (.address (← a.addFelt y))
    | .sub => do return value (.address (← a.addFelt (-y)))
    | _ => .error .unsupportedOperand
  | value (.felt x), value (.address b) =>
    match op with
    | .add => do return value (.address (← b.addFelt x))
    | .sub => .error (.addressFromInteger x.val b)
    | _ => .error .unsupportedOperand
  | value (.felt x), d =>
    match d.integer? with
    | some n => do return value (.felt (← x.operate op n))
    | none => assemble op (.value (.felt x)) d
  | d, value (.felt y) =>
    match d.integer? with
    | some n => do return value (.felt (← Felt.operateReflected op n y))
    | none => assemble op d (.value (.felt y))
  | value (.address a), d =>
    match op, d.integer? with
    | .add, some n => do return value (.address (← a.shift n))
    | .sub, some n => do return value (.address (← a.shift (-n)))
    | _, _ => .error .unsupportedOperand
  | d, value (.address b) =>
    match op, d.integer? with
    | .add, some n => do return value (.address (← b.shift n))
    | .sub, some n => .error (.addressFromInteger n b)
    | _, _ => .error .unsupportedOperand
  | d, e =>
    match d.integer?, e.integer? with
    | some m, some n => do return integer (← operateIntegers op m n)
    | _, _ => assemble op d e

mutual

/-- The data are equal; a field element equals the integer that represents it. -/
def same : Datum → Datum → Bool
  | nothing, nothing => true
  | text s, text t => s == t
  | list xs, list ys => sameAll xs ys
  | value (.address a), value (.address b) => a == b
  | d, e =>
    match number? d, number? e with
    | some m, some n => m == n
    | _, _ => false

/-- The lists have equal data in the same places. -/
def sameAll : List Datum → List Datum → Bool
  | [], [] => true
  | d :: ds, e :: es => same d e && sameAll ds es
  | _, _ => false

end

/-- The order of two data, where they have one. -/
def order? : Datum → Datum → Option Ordering
  | value (.address a), value (.address b) => some (compare a b)
  | text s, text t => some (compare s t)
  | d, e =>
    match number? d, number? e with
    | some m, some n => some (compare m n)
    | _, _ => none

/-- A comparison of two data. -/
def compareBy (c : Comparison) (d e : Datum) : Except Fault Bool :=
  match c with
  | .eq => .ok (same d e)
  | .ne => .ok (!same d e)
  | .lt => (Action.orThrow (order? d e) .unsupportedOperand).map (· == .lt)
  | .le => (Action.orThrow (order? d e) .unsupportedOperand).map (· != .gt)
  | .gt => (Action.orThrow (order? d e) .unsupportedOperand).map (· == .gt)
  | .ge => (Action.orThrow (order? d e) .unsupportedOperand).map (· != .lt)

/-- The data are one and the same element of a set; a list cannot be one. -/
def sameElement (d e : Datum) : Except Fault Bool :=
  match d, e with
  | list _, _ => .error .unsupportedOperand
  | _, list _ => .error .unsupportedOperand
  | d, e => .ok (same d e)

/-- The memory value that a datum stands for; integers are reduced. -/
def toValue : Datum → Except Fault Value
  | value v => .ok v
  | d =>
    match d.integer? with
    | some n => .ok (.felt (Felt.ofInt n))
    | none => .error (.notStorable d)

end Datum

end Cairo
