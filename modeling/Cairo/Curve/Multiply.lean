import Cairo.Action

/-!
# Adding a multiple of a point

`multiplyAdd` adds a multiple of one point to another by doubling and adding over the bits of the
factor.  It refuses to go on as soon as the two points at hand share their first coordinate, also
where the bit at hand would not add them.
-/

namespace Cairo.Curve

/-- The points share their first coordinate; the modulus must not be zero. -/
def sameX (p q : Point) (modulus : Int) : Except Fault Bool :=
  if modulus = 0 then .error .remainderByZero
  else .ok (decide ((q.x - p.x).fmod modulus = 0))

/-- The point satisfies the equation of a curve; the modulus must not be zero. -/
def liesOn (p : Point) (alpha beta modulus : Int) : Except Fault Bool :=
  if modulus = 0 then .error .remainderByZero else .ok (onCurve p alpha beta modulus)

/-- The sum of `partialSum` and `m` times `doubled`, over the lowest `height` bits of `m`. -/
def multiplyAdd (alpha modulus : Int) : Nat → Point → Point → Int → Except Fault Point
  | 0, partialSum, _, _ => .ok partialSum
  | height + 1, partialSum, doubled, m => do
    if ← sameX partialSum doubled modulus then
      throw (.sameXCoordinate partialSum doubled m)
    let partialSum ←
      if m % 2 = 1 then Action.orThrow (chord? partialSum doubled modulus) .failedAssertion
      else pure partialSum
    let doubled ← Action.orThrow (tangent? doubled alpha modulus) .failedAssertion
    multiplyAdd alpha modulus height partialSum doubled (m / 2)

end Cairo.Curve
