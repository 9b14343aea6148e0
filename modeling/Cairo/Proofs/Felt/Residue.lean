import Mathlib.Data.ZMod.Basic
import Mathlib.Tactic.LinearCombination
import Cairo.Value.Arithmetic

/-!
# Field elements as residues

`residue` sends a field element to its class in `ZMod prime`.  It is injective and commutes with
the ring operations, so that an identity between field elements is an identity in a commutative
ring.  A quotient is what multiplied by the divisor gives the dividend (`mul_eq_of_div`): the
Euclidean algorithm carries for every remainder the factor by which it arises, and ends at `1`.
-/

namespace Cairo

namespace Modular

/-- The Euclidean algorithm answers a number that arises, by the coefficient that it answers with
it, as its two arguments do. -/
theorem euclid_eq_mul {R : Type} [CommRing R] (a : R) (r₀ : Nat) (s₀ : Int) (r₁ : Nat) (s₁ : Int)
    (h₀ : (r₀ : R) = s₀ * a) (h₁ : (r₁ : R) = s₁ * a) :
    ((euclid r₀ s₀ r₁ s₁).1 : R) = (euclid r₀ s₀ r₁ s₁).2 * a := by
  -- The induction is on the calls, which keep the two identities.
  fun_induction euclid r₀ s₀ r₁ s₁ with
  | case1 r₀ s₀ s₁ => exact h₀
  | case2 r₀ s₀ r₁ s₁ hr ih =>
    refine ih h₁ ?_
    have hdiv : (r₀ : R) = (r₁ : R) * (r₀ / r₁ : Nat) + (r₀ % r₁ : Nat) := by
      rw [← Nat.cast_mul, ← Nat.cast_add, Nat.div_add_mod]
    rw [Int.cast_sub, Int.cast_mul, Int.cast_natCast]
    linear_combination h₀ - (r₀ / r₁ : Nat) * h₁ - hdiv

/-- An inverse is one. -/
theorem inverse?_mul {a m i : Nat} (hm : 0 < m) (h : inverse? a m = some i) :
    (i : ZMod m) * a = 1 := by
  unfold inverse? at h
  have hbezout := euclid_eq_mul (a : ZMod m) m 0 (a % m) 1 (by simp) (by simp)
  split at h
  · rename_i x hx
    rw [hx] at hbezout
    obtain rfl := Option.some.inj h
    have hx' : (((x % m).toNat : Int) : ZMod m) = (x : ZMod m) := by
      rw [Int.toNat_of_nonneg (Int.emod_nonneg x (by omega)), ZMod.intCast_mod]
    rw [Int.cast_natCast] at hx'
    rw [hx', ← hbezout]
    exact Nat.cast_one
  · cases h

/-- The Euclidean algorithm answers the greatest common divisor. -/
theorem euclid_fst (r₀ : Nat) (s₀ : Int) (r₁ : Nat) (s₁ : Int) :
    (euclid r₀ s₀ r₁ s₁).1 = Nat.gcd r₁ r₀ := by
  fun_induction euclid r₀ s₀ r₁ s₁ with
  | case1 r₀ s₀ s₁ => exact (Nat.gcd_zero_left r₀).symm
  | case2 r₀ s₀ r₁ s₁ hr ih => rw [ih, ← Nat.gcd_rec]

/-- A number without a common factor with the modulus has an inverse. -/
theorem exists_inverse?_eq_some {a m : Nat} (h : a.Coprime m) : ∃ i, inverse? a m = some i := by
  have hgcd : (euclid m 0 (a % m) 1).1 = 1 := by
    rw [euclid_fst, ← Nat.gcd_rec, Nat.gcd_comm]
    exact h
  unfold inverse?
  split
  next x hx => exact ⟨_, rfl⟩
  next hne => exact (hne _ (Prod.ext hgcd rfl)).elim

end Modular

namespace Felt

/-- The class of a field element modulo the prime. -/
def residue (x : Felt) : ZMod prime := x.val

/-- Field elements of one class are equal. -/
theorem residue_injective : Function.Injective residue := by
  intro x y h
  have hmod := (ZMod.natCast_eq_natCast_iff' _ _ _).mp h
  rw [Nat.mod_eq_of_lt x.val_lt, Nat.mod_eq_of_lt y.val_lt] at hmod
  exact ext hmod

/-- Field elements are equal when their classes are. -/
theorem residue_inj {x y : Felt} : x.residue = y.residue ↔ x = y := residue_injective.eq_iff

/-- The class of the field element that a natural number represents. -/
@[simp] theorem residue_ofNat (n : Nat) : (ofNat n).residue = n := by
  unfold residue
  rw [val_ofNat, ZMod.natCast_mod]

/-- The class of the field element that an integer represents. -/
@[simp] theorem residue_ofInt (n : Int) : (ofInt n).residue = n := by
  have hpos : (prime : Int) ≠ 0 := Int.natCast_ne_zero.mpr (Nat.ne_of_gt prime_pos)
  unfold residue
  rw [val_ofInt, ← Int.cast_natCast, Int.toNat_of_nonneg (Int.emod_nonneg n hpos),
    ZMod.intCast_mod]

/-- The representative of a field element represents its class. -/
theorem natCast_val (x : Felt) : (x.val : ZMod prime) = x.residue := rfl

/-- The class of a sum. -/
@[simp] theorem residue_add (x y : Felt) : (x + y).residue = x.residue + y.residue := by
  show (ofNat (x.val + y.val)).residue = _
  rw [residue_ofNat, Nat.cast_add]
  rfl

/-- The class of a product. -/
@[simp] theorem residue_mul (x y : Felt) : (x * y).residue = x.residue * y.residue := by
  show (ofNat (x.val * y.val)).residue = _
  rw [residue_ofNat, Nat.cast_mul]
  rfl

/-- The class of a negative. -/
@[simp] theorem residue_neg (x : Felt) : (-x).residue = -x.residue := by
  show (ofInt (-x.val)).residue = _
  rw [residue_ofInt, Int.cast_neg, Int.cast_natCast]
  rfl

/-- The class of a difference. -/
@[simp] theorem residue_sub (x y : Felt) : (x - y).residue = x.residue - y.residue := by
  show (ofInt (x.val - y.val)).residue = _
  rw [residue_ofInt, Int.cast_sub, Int.cast_natCast, Int.cast_natCast]
  rfl

/-- A sum does not depend on the order of its summands. -/
protected theorem add_comm (x y : Felt) : x + y = y + x := by
  apply residue_injective
  rw [residue_add, residue_add, add_comm]

/-- A product does not depend on the order of its factors. -/
protected theorem mul_comm (x y : Felt) : x * y = y * x := by
  apply residue_injective
  rw [residue_mul, residue_mul, mul_comm]

/-- A quotient times its divisor is the dividend. -/
theorem mul_eq_of_div {x y q : Felt} (h : x.div y = .ok q) : q * y = x := by
  unfold div div? at h
  cases hi : Modular.inverse? y.val prime with
  | none => simp [hi] at h
  | some i =>
    obtain rfl : x * ofNat i = q := by simpa [hi] using h
    have hinv := Modular.inverse?_mul prime_pos hi
    rw [natCast_val] at hinv
    apply residue_injective
    rw [residue_mul, residue_mul, residue_ofNat, mul_assoc, hinv, mul_one]

instance : NeZero prime := ⟨Nat.ne_of_gt prime_pos⟩

/-- Every class is that of a field element. -/
theorem residue_surjective : Function.Surjective residue := by
  intro z
  exact ⟨ofNat z.val, by rw [residue_ofNat, ZMod.natCast_zmod_val]⟩

/-- A divisor by which there is one quotient only has no common factor with the prime. -/
theorem coprime_of_unique {x y q : Felt} (hq : q * y = x) (hunique : ∀ k, k * y = x → k = q) :
    y.val.Coprime prime := by
  have hinjective : Function.Injective fun z : ZMod prime => z * y.residue := by
    intro z w hzw
    -- A difference of factors with the same product leads from the quotient to another one.
    obtain ⟨k, hk⟩ := residue_surjective (q.residue + (z - w))
    have hproduct : k * y = x := by
      apply residue_injective
      rw [residue_mul, hk, ← hq, residue_mul, add_mul, sub_mul, sub_eq_zero.mpr hzw, add_zero]
    rw [hunique k hproduct, left_eq_add, sub_eq_zero] at hk
    exact hk
  obtain ⟨z, hz⟩ := Finite.surjective_of_injective hinjective 1
  have hunit : IsUnit (y.val : ZMod prime) := isUnit_iff_exists_inv'.mpr ⟨z, hz⟩
  exact (ZMod.isUnit_iff_coprime y.val prime).mp hunit

/-- Division answers the quotient just if there is one only. -/
theorem div_eq_ok_iff {x y q : Felt} :
    x.div y = .ok q ↔ q * y = x ∧ ∀ k, k * y = x → k = q := by
  constructor
  · intro h
    refine ⟨mul_eq_of_div h, fun k hk => ?_⟩
    unfold div div? at h
    cases hi : Modular.inverse? y.val prime with
    | none => simp [hi] at h
    | some i =>
      obtain rfl : x * ofNat i = q := by simpa [hi] using h
      have hinv := Modular.inverse?_mul prime_pos hi
      rw [natCast_val] at hinv
      apply residue_injective
      rw [← hk, residue_mul, residue_mul, residue_ofNat, mul_assoc, mul_comm y.residue, hinv,
        mul_one]
  · rintro ⟨hq, hunique⟩
    obtain ⟨i, hi⟩ := Modular.exists_inverse?_eq_some (coprime_of_unique hq hunique)
    have hdiv : x.div y = .ok (x * ofNat i) := by
      unfold div div?
      rw [hi]
      rfl
    rw [hdiv, hunique _ (mul_eq_of_div hdiv)]

end Felt

end Cairo
