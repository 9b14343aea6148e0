import Cairo.Curve.Basic

/-!
# The Pedersen hash

The hash of two field elements is the first coordinate of a sum of fixed points of the machine's
curve: a shift point, and four points times the low 248 bits and the remaining bits of each
element.
-/

namespace Cairo.Pedersen

open Curve

/-- A point of the curve; `none` is the point at infinity. -/
abbrev CurvePoint := Option Point

/-- The sum of two points in the group of the curve. -/
def add : CurvePoint → CurvePoint → CurvePoint
  | none, q => q
  | p, none => p
  | some p, some q =>
    if (p.x - q.x).fmod prime = 0 then
      if (p.y + q.y).fmod prime = 0 then none else tangent? p alpha prime
    else chord? p q prime

/-- A sum to which multiples of a point by powers of two are added, over the lowest bits of a
number. -/
def addMultiple : Nat → CurvePoint → CurvePoint → Nat → CurvePoint
  | 0, sum, _, _ => sum
  | bits + 1, sum, p, n =>
    addMultiple bits (if n % 2 = 1 then add sum p else sum) (add p p) (n / 2)

/-- The point that every sum starts from. -/
def shiftPoint : Point :=
  ⟨0x49ee3eba8c1600700ee1b87eb599f16716b0b1022947733551fde4050ca6804,
    0x3ca0cfe4b3bc6ddf346d49d06ea0ed34e621062c0e056c1d0405d266e10268a⟩

/-- The point for the low bits of the first element. -/
def firstLow : Point :=
  ⟨0x234287dcbaffe7f969c748655fca9e58fa8120b6d56eb0c1080d17957ebe47b,
    0x3b056f100f96fb21e889527d41f4e39940135dd7a6c94cc6ed0268ee89e5615⟩

/-- The point for the high bits of the first element. -/
def firstHigh : Point :=
  ⟨0x4fa56f376c83db33f9dab2656558f3399099ec1de5e3018b7a6932dba8aa378,
    0x3fa0984c931c9e38113e0c0e47e4401562761f92a7a23b45168f4e80ff5b54d⟩

/-- The point for the low bits of the second element. -/
def secondLow : Point :=
  ⟨0x4ba4cc166be8dec764910f75b45f74b40c690c74709e90f3aa372f0bd2d6997,
    0x40301cf5c1751f4b971e46c4ede85fcac5c59a5ce5ae7c48151f27b24b219c⟩

/-- The point for the high bits of the second element. -/
def secondHigh : Point :=
  ⟨0x54302dcb0e6cc1c6e44cca8f61a63bb2ca65048d53fb325d36ff12c49a58202,
    0x1b77b3e37d13504b348046268d8ae25ce98ad783c25561a879dcc77e99c2426⟩

/-- The number of bits of the low part of an element. -/
def lowBits : Nat := 248

/-- The number of bits of the high part of an element. -/
def highBits : Nat := 4

/-- The hash of two field elements. -/
def hash (x y : Felt) : Felt :=
  let sum := some shiftPoint
  let sum := addMultiple lowBits sum (some firstLow) (x.val % Nat.pow 2 lowBits)
  let sum := addMultiple highBits sum (some firstHigh) (x.val / Nat.pow 2 lowBits)
  let sum := addMultiple lowBits sum (some secondLow) (y.val % Nat.pow 2 lowBits)
  let sum := addMultiple highBits sum (some secondHigh) (y.val / Nat.pow 2 lowBits)
  match sum with
  | some p => Felt.ofInt p.x
  | none => 0

end Cairo.Pedersen
