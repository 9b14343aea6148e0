import Cairo.Felt.Basic

/-!
# Points of a curve

Affine points of `y ^ 2 = x ^ 3 + alpha * x + beta` modulo a number, with the chord and the tangent
formula.  Coordinates are integers and need not be reduced; the formulas give reduced ones.  A
formula has no answer where its denominator has no inverse.
-/

namespace Cairo.Curve

/-- An affine point. -/
structure Point where
  x : Int
  y : Int
deriving DecidableEq, Inhabited

/-- The coordinates of a point in a message. -/
def Point.text (p : Point) : String := "(" ++ toString p.x ++ ", " ++ toString p.y ++ ")"

/-- The point satisfies the equation of the curve. -/
def onCurve (p : Point) (alpha beta modulus : Int) : Bool :=
  (p.y * p.y - (p.x * p.x * p.x + alpha * p.x + beta)).fmod modulus = 0

/-- The quotient of two integers modulo a number. -/
def quotient? (n d modulus : Int) : Option Int :=
  (Modular.inverse? (d % modulus.natAbs).toNat modulus.natAbs).map fun i =>
    (n * i).fmod modulus

/-- The third point of the line through two points, reflected. -/
def chord? (p q : Point) (modulus : Int) : Option Point :=
  (quotient? (p.y - q.y) (p.x - q.x) modulus).map fun m =>
    let x := (m * m - p.x - q.x).fmod modulus
    ⟨x, (m * (p.x - x) - p.y).fmod modulus⟩

/-- The second point of the tangent at a point, reflected; a vertical tangent has none. -/
def tangent? (p : Point) (alpha modulus : Int) : Option Point :=
  if p.y.fmod modulus = 0 then none
  else (quotient? (3 * p.x * p.x + alpha) (2 * p.y) modulus).map fun m =>
    let x := (m * m - 2 * p.x).fmod modulus
    ⟨x, (m * (p.x - x) - p.y).fmod modulus⟩

/-- The coefficient of `x` in the equation of the machine's own curve. -/
def alpha : Int := 1

/-- The constant term in the equation of the machine's own curve. -/
def beta : Int := 0x6F21413EFBE40DE150E596D72F7A8C5609AD26C15C915C1F4CDFCB99CEE9E89

end Cairo.Curve
