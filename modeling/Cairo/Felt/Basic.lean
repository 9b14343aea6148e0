import Cairo.Number.Modular
import Cairo.Number.Bytes

/-!
# Field elements

A `Felt` is an element of the prime field with `2 ^ 251 + 17 * 2 ^ 192 + 1` elements, kept as its
least nonnegative representative.  The ring operations reduce once; division multiplies by an
inverse and fails exactly where there is none; shifts and the bitwise operations act on the
representative and reduce the result.
-/

namespace Cairo

/-- The number of field elements. -/
def prime : Nat := Nat.pow 2 251 + 17 * Nat.pow 2 192 + 1

theorem prime_pos : 0 < prime := by decide

/-- A field element, as its representative below `prime`. -/
structure Felt where
  val : Nat
  val_lt : val < prime
deriving DecidableEq

namespace Felt

@[ext] theorem ext {x y : Felt} (h : x.val = y.val) : x = y := by
  cases x
  cases y
  cases h
  rfl

/-- The field element that a natural number represents. -/
def ofNat (n : Nat) : Felt := ⟨n % prime, Nat.mod_lt _ prime_pos⟩

/-- The field element that an integer represents. -/
def ofInt (n : Int) : Felt :=
  ⟨(n % prime).toNat, by
    have hpos : (0 : Int) < prime := by exact_mod_cast prime_pos
    have h₁ := Int.emod_nonneg n (Int.ne_of_gt hpos)
    have h₂ := Int.emod_lt_of_pos n hpos
    omega⟩

@[simp] theorem val_ofNat (n : Nat) : (ofNat n).val = n % prime := rfl

@[simp] theorem val_ofInt (n : Int) : (ofInt n).val = (n % prime).toNat := rfl

theorem ofInt_natCast (n : Nat) : ofInt n = ofNat n := by
  apply ext
  rw [val_ofInt, val_ofNat]
  omega

@[simp] theorem ofNat_val (x : Felt) : ofNat x.val = x :=
  ext (Nat.mod_eq_of_lt x.val_lt)

instance : Inhabited Felt := ⟨ofNat 0⟩
instance (n : Nat) : OfNat Felt n := ⟨ofNat n⟩
instance : Add Felt := ⟨fun x y => ofNat (x.val + y.val)⟩
instance : Mul Felt := ⟨fun x y => ofNat (x.val * y.val)⟩
instance : Neg Felt := ⟨fun x => ofInt (-x.val)⟩
instance : Sub Felt := ⟨fun x y => ofInt (x.val - y.val)⟩
instance : HPow Felt Nat Felt := ⟨fun x n => ofNat (Modular.power x.val n prime)⟩
instance : AndOp Felt := ⟨fun x y => ofNat (x.val &&& y.val)⟩
instance : OrOp Felt := ⟨fun x y => ofNat (x.val ||| y.val)⟩
instance : XorOp Felt := ⟨fun x y => ofNat (x.val ^^^ y.val)⟩

theorem val_pow (x : Felt) (n : Nat) : (x ^ n).val = Nat.pow x.val n % prime := by
  show Modular.power x.val n prime % prime = _
  rw [Modular.power_eq, Nat.mod_mod]

/-- The element is zero. -/
def isZero (x : Felt) : Bool := x.val == 0

/-- The representative nearest to zero: the upper half of the field stands for the negative
integers. -/
def toSigned (x : Felt) : Int :=
  if x.val > prime / 2 then (x.val : Int) - prime else x.val

/-- The number of binary digits of the representative. -/
def bitLength (x : Felt) : Nat :=
  if x.val = 0 then 0 else x.val.log2 + 1

/-- The representative, where it fits in 64 bits. -/
def toWord? (x : Felt) : Option Nat :=
  if x.val < Nat.pow 2 64 then some x.val else none

/-- The quotient, unless the divisor has no inverse. -/
def div? (x y : Felt) : Option Felt :=
  (Modular.inverse? y.val prime).map fun i => x * ofNat i

/-- Multiplication by a power of two. -/
def shiftLeft (x : Felt) (n : Nat) : Felt := ofNat (x.val * Modular.power 2 n prime)

/-- The representative without its lowest `n` binary digits. -/
def shiftRight (x : Felt) (n : Nat) : Felt :=
  if n < 252 then ofNat (x.val >>> n) else 0

/-- The remainder of the representative by an integer, of the sign of the divisor. -/
def remainder (x : Felt) (d : Int) : Felt := ofInt ((x.val : Int).fmod d)

/-- The 32 bytes of the representative, most significant first. -/
def toBigEndian (x : Felt) : List UInt8 := Bytes.bigEndian 32 x.val

/-- The 32 bytes of the representative, least significant first. -/
def toLittleEndian (x : Felt) : List UInt8 := Bytes.littleEndian 32 x.val

/-- The field element that a list of bytes represents, most significant first. -/
def ofBigEndian (bytes : List UInt8) : Felt := ofNat (Bytes.ofBigEndian bytes)

/-- The field element that a list of bytes represents, least significant first. -/
def ofLittleEndian (bytes : List UInt8) : Felt := ofNat (Bytes.ofLittleEndian bytes)

/-- The representative in decimal. -/
def text (x : Felt) : String := toString x.val

end Felt

end Cairo
