import Mathlib.Algebra.Field.ZMod
import Cairo.Proofs.Felt.Prime
import Cairo.Proofs.Felt.Residue

/-!
# The field of the field elements

The classes modulo the prime are a field, and division and powers of field elements are the ones of
this field: a quotient is there unless the divisor is zero (`div_eq_ok`, `div_zero`), and a power
with an integer exponent is there unless zero would have to be inverted (`zpow_eq_ok`,
`zero_zpow_of_neg`).
-/

namespace Cairo.Felt

variable {x y q : Felt} {n : Int}

scoped instance : Fact prime.Prime := ⟨prime_prime⟩

/-! ## Classes of numbers and powers -/

/-- The class of zero. -/
@[simp] theorem residue_zero : (0 : Felt).residue = 0 := (residue_ofNat 0).trans Nat.cast_zero

/-- The class of one. -/
@[simp] theorem residue_one : (1 : Felt).residue = 1 := (residue_ofNat 1).trans Nat.cast_one

/-- Only zero is of the class of zero. -/
theorem residue_eq_zero : x.residue = 0 ↔ x = 0 := by
  rw [← residue_zero, residue_inj]

/-- The class of a field element that is not zero is not zero. -/
theorem residue_ne_zero : x.residue ≠ 0 ↔ x ≠ 0 := residue_eq_zero.not

/-- An integer represents zero if the prime divides it. -/
theorem ofInt_eq_zero : ofInt n = 0 ↔ (prime : Int) ∣ n := by
  rw [← residue_eq_zero, residue_ofInt, ZMod.intCast_zmod_eq_zero_iff_dvd]

/-- The representative of a field element represents it as an integer, too. -/
@[simp] theorem ofInt_val (x : Felt) : ofInt x.val = x := by
  rw [ofInt_natCast, ofNat_val]

/-- The negative of an integer represents the negative. -/
theorem ofInt_neg (n : Int) : ofInt (-n) = -ofInt n := by
  rw [← residue_inj, residue_neg, residue_ofInt, residue_ofInt, Int.cast_neg]

/-- The class of a power. -/
@[simp] theorem residue_pow (x : Felt) (n : Nat) : (x ^ n).residue = x.residue ^ n := by
  rw [← natCast_val, val_pow, Nat.pow_eq, ZMod.natCast_mod, Nat.cast_pow, natCast_val]

/-! ## Division -/

/-- What multiplied by a divisor gives a field element is their quotient in the field. -/
theorem mul_eq_iff (hy : y ≠ 0) : q * y = x ↔ q.residue = x.residue / y.residue := by
  rw [eq_div_iff (residue_ne_zero.mpr hy), ← residue_mul, residue_inj]

/-- A field element is divided by every other one that is not zero. -/
theorem div_eq_ok (hy : y ≠ 0) : x.div y = .ok q ↔ q.residue = x.residue / y.residue := by
  rw [div_eq_ok_iff, ← mul_eq_iff hy]
  refine ⟨And.left, fun hq => ⟨hq, fun k hk => ?_⟩⟩
  rw [← residue_inj, (mul_eq_iff hy).mp hk, (mul_eq_iff hy).mp hq]

/-- There is a quotient by a divisor that is not zero. -/
theorem exists_div_eq_ok (x : Felt) (hy : y ≠ 0) : ∃ q, x.div y = .ok q := by
  obtain ⟨q, hq⟩ := residue_surjective (x.residue / y.residue)
  exact ⟨q, (div_eq_ok hy).mpr hq⟩

/-- Nothing is divided by zero. -/
protected theorem div_zero (x : Felt) : x.div 0 = .error (.divisionByZero x) := by
  have hnone : ∀ q, x.div 0 ≠ .ok q := by
    intro q h
    obtain ⟨hq, hunique⟩ := div_eq_ok_iff.mp h
    -- Every factor gives zero, so that none is the only one to give the dividend.
    have hevery : ∀ k : Felt, k * 0 = x := by
      intro k
      rw [← hq, ← residue_inj, residue_mul, residue_mul, residue_zero, mul_zero, mul_zero]
    have hone : (1 : Felt) = 0 := (hunique 1 (hevery 1)).trans (hunique 0 (hevery 0)).symm
    exact absurd hone (by decide)
  unfold div at hnone ⊢
  cases hd : x.div? 0 with
  | none => rfl
  | some q => exact absurd (by rw [hd]) (hnone q)

/-- Division fails just for the divisor zero. -/
theorem div_eq_error_iff : x.div y = .error (.divisionByZero x) ↔ y = 0 := by
  constructor
  · intro h
    by_contra hy
    obtain ⟨q, hq⟩ := exists_div_eq_ok x hy
    rw [hq] at h
    cases h
  · rintro rfl
    exact Felt.div_zero x

/-! ## Powers -/

/-- A power of a field element that is not zero is the one in the field. -/
theorem zpow_eq_ok (hx : x ≠ 0) : x.zpow n = .ok y ↔ y.residue = x.residue ^ n := by
  unfold zpow
  by_cases hn : n < 0
  · have hpower : x ^ n.natAbs ≠ 0 := by
      rw [← residue_ne_zero, residue_pow]
      exact pow_ne_zero _ (residue_ne_zero.mpr hx)
    have hexponent : x.residue ^ n = (x.residue ^ n.natAbs)⁻¹ := by
      rw [← zpow_natCast, ← zpow_neg, Int.ofNat_natAbs_of_nonpos hn.le, neg_neg]
    rw [if_pos hn, div_eq_ok hpower, residue_one, residue_pow, hexponent, one_div]
  · have hexponent : x.residue ^ n = x.residue ^ n.toNat := by
      rw [← zpow_natCast, Int.toNat_of_nonneg (not_lt.mp hn)]
    rw [if_neg hn, Except.ok.injEq, ← residue_inj, residue_pow, hexponent, eq_comm]

/-- The power with the exponent zero is one. -/
protected theorem zpow_zero (x : Felt) : x.zpow 0 = .ok 1 := by
  have hpower : x ^ (0 : Nat) = 1 := by
    rw [← residue_inj, residue_pow, residue_one, pow_zero]
  exact congrArg Except.ok hpower

/-- Zero has itself as its powers with positive exponents. -/
theorem zero_zpow_of_pos (hn : 0 < n) : (0 : Felt).zpow n = .ok 0 := by
  have hpower : (0 : Felt) ^ n.toNat = 0 := by
    rw [← residue_eq_zero, residue_pow, residue_zero, zero_pow (by omega)]
  unfold zpow
  rw [if_neg (by omega), hpower]

/-- Zero has no powers with negative exponents. -/
theorem zero_zpow_of_neg (hn : n < 0) : (0 : Felt).zpow n = .error (.divisionByZero 1) := by
  have hpower : (0 : Felt) ^ n.natAbs = 0 := by
    rw [← residue_eq_zero, residue_pow, residue_zero, zero_pow (by omega)]
  unfold zpow
  rw [if_pos hn, hpower, Felt.div_zero]

end Cairo.Felt
