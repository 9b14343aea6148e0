import Cairo.Action

/-!
# Arithmetic of values

A field element added to an address is added to its offset modulo the prime, and the sum has to be
an offset again, so that negative field elements move back; an integer shifts the offset as it
is.  The difference of two addresses of one segment is a field element.  Every other sum or
difference is a fault.
-/

namespace Cairo

namespace Felt

/-- The quotient of two field elements. -/
def div (x y : Felt) : Except Fault Felt :=
  match x.div? y with
  | some q => .ok q
  | none => .error (.divisionByZero x)

/-- A power with an integer exponent; a negative one inverts the positive power. -/
def zpow (x : Felt) (n : Int) : Except Fault Felt :=
  if n < 0 then (1 : Felt).div (x ^ n.natAbs) else .ok (x ^ n.toNat)

/-- A power reduced modulo an arbitrary integer, whose sign it takes, and then in the field; a
negative exponent needs an inverse. -/
def powModulo (x : Felt) (e m : Int) : Except Fault Felt :=
  if m = 0 then .error .invalidArgument
  else
    let base := if e < 0 then Modular.inverse? x.val m.natAbs else some x.val
    match base with
    | none => .error .invalidArgument
    | some b =>
      let r : Int := Modular.power b e.natAbs m.natAbs
      .ok (ofInt (if m < 0 ∧ r ≠ 0 then r + m else r))

end Felt

namespace Address

/-- The address with the given coordinates. -/
def make (segment offset : Int) : Except Fault Address :=
  match mk? segment offset with
  | some a => .ok a
  | none => .error (.offsetOutOfRange segment offset)

/-- The address whose offset is larger by an integer. -/
def shift (a : Address) (k : Int) : Except Fault Address :=
  match mk? a.segment (a.offset + k) with
  | some b => .ok b
  | none => .error (.offsetExceeded a k)

/-- The address whose offset is larger by a field element, modulo the prime. -/
def addFelt (a : Address) (x : Felt) : Except Fault Address :=
  match mk? a.segment ((a.offset + x.val) % prime : Nat) with
  | some b => .ok b
  | none => .error (.offsetExceeded a x.val)

/-- The distance between two addresses of one segment. -/
def sub (a b : Address) : Except Fault Felt :=
  if a.segment = b.segment then .ok (Felt.ofInt ((a.offset : Int) - b.offset))
  else .error (.segmentMismatch a b)

end Address

namespace Value

/-- The sum of two values. -/
def add : Value → Value → Except Fault Value
  | felt x, felt y => .ok (felt (x + y))
  | felt x, address b => (b.addFelt x).map address
  | address a, felt y => (a.addFelt y).map address
  | address a, address b => .error (.addressSum a b)

/-- The difference of two values. -/
def sub : Value → Value → Except Fault Value
  | felt x, felt y => .ok (felt (x - y))
  | felt x, address b => .error (.addressFromInteger x.val b)
  | address a, felt y => (a.addFelt (-y)).map address
  | address a, address b => (a.sub b).map felt

end Value

end Cairo
