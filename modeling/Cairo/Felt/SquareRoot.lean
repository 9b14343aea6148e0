import Cairo.Value.Arithmetic

/-!
# Square roots in the field

The order of the multiplicative group is `2 ^ 192` times an odd number, and 3 is no square.  From
a square `x` the search keeps a candidate `r` and an error `t` with `r * r = x * t`, where the order
of `t` divides a power of two; each round halves that order by a suitable power of a generator of
the part of order `2 ^ 192`.  Of the two roots the smaller one is answered.
-/

namespace Cairo.Felt

/-- The odd part of the order of the multiplicative group. -/
def oddOrder : Nat := Nat.pow 2 59 + 17

/-- The exponent of two in the order of the multiplicative group. -/
def twoAdicity : Nat := 192

/-- A generator of the part of the group whose order is a power of two. -/
def twoPowerGenerator : Felt := (3 : Felt) ^ oddOrder

/-- The result of squaring a number of times. -/
def squareTimes : Nat → Felt → Felt
  | 0, x => x
  | n + 1, x => squareTimes n (x * x)

/-- The rounds of the search: `c` has order `2 ^ (n + 1)` and that of the error `t` divides
`2 ^ n`. -/
def rootLoop : Nat → Felt → Felt → Felt → Felt
  | 0, _, _, r => r
  | n + 1, c, t, r =>
    if squareTimes n t = 1 then rootLoop n (c * c) t r
    else rootLoop n (c * c) (t * (c * c)) (r * c)

/-- The smaller square root of an element, if it has one. -/
def sqrt? (x : Felt) : Option Felt :=
  if x = 0 then some 0
  else if x ^ ((prime - 1) / 2) = 1 then
    let r := rootLoop (twoAdicity - 1) twoPowerGenerator (x ^ oddOrder) (x ^ ((oddOrder + 1) / 2))
    some (ofNat (min r.val (prime - r.val)))
  else none

/-- The smaller square root of an element. -/
def sqrt (x : Felt) : Except Fault Felt :=
  match x.sqrt? with
  | some r => .ok r
  | none => .error (.nonResidue x)

end Cairo.Felt
