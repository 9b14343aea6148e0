import Cairo.Felt.Basic
import Cairo.Hash.Sha256

/-!
# The Poseidon permutation

A permutation of three field elements in 91 rounds.  Every round adds constants, cubes, and mixes
by a fixed matrix; the first four and the last four rounds cube all three elements, the others
the last one only.  The constants are digests of a name and a running number.
-/

namespace Cairo.Poseidon

/-- Three field elements. -/
structure State where
  x : Felt
  y : Felt
  z : Felt
deriving DecidableEq

/-- The number of rounds at either end that cube every element. -/
def fullRounds : Nat := 4

/-- The number of rounds in the middle that cube the last element only. -/
def partialRounds : Nat := 83

/-- The constant of a running number. -/
def roundConstant (n : Nat) : Felt :=
  Felt.ofNat (Sha256.digest ("Hades" ++ toString n).toUTF8.toList)

/-- The constants of all rounds in order. -/
def roundConstants : List State :=
  (List.range (fullRounds + partialRounds + fullRounds)).map fun i =>
    ⟨roundConstant (3 * i), roundConstant (3 * i + 1), roundConstant (3 * i + 2)⟩

/-- The third power. -/
def cube (x : Felt) : Felt := x * x * x

/-- The mixing matrix applied to a state. -/
def mix (s : State) : State :=
  ⟨3 * s.x + s.y + s.z, s.x - s.y + s.z, s.x + s.y - 2 * s.z⟩

/-- A round that cubes every element. -/
def fullRound (s k : State) : State :=
  mix ⟨cube (s.x + k.x), cube (s.y + k.y), cube (s.z + k.z)⟩

/-- A round that cubes the last element only. -/
def partialRound (s k : State) : State :=
  mix ⟨s.x + k.x, s.y + k.y, cube (s.z + k.z)⟩

/-- The permutation. -/
def permute (s : State) : State :=
  let s := (roundConstants.take fullRounds).foldl fullRound s
  let s := ((roundConstants.drop fullRounds).take partialRounds).foldl partialRound s
  (roundConstants.drop (fullRounds + partialRounds)).foldl fullRound s

end Cairo.Poseidon
