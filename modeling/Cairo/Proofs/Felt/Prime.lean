import Mathlib.FieldTheory.Finite.Basic
import Mathlib.GroupTheory.OrderOfElement
import Cairo.Felt.Basic

/-!
# The modulus is a prime

The modulus of the field elements is `(2 ^ 59 + 17) * 2 ^ 192 + 1`, in which the power of two is
greater than its factor.  Such a number is a prime as soon as some number has its negative one as
the power to its half (`prime_of_pow_eq_neg_one`): modulo a prime factor, the order of that number
has the whole power of two as a factor, so that the prime factor is greater than the square root.
-/

namespace Cairo

/-- Half of the powers of a number modulo a prime give the negative one, so its order is a multiple
of the power of two in the exponent, and the prime is greater than that. -/
theorem two_pow_lt_of_pow_eq_neg_one {q k n : Nat} [Fact q.Prime] (hodd : q ≠ 2) {a : ZMod q}
    (h : a ^ (k * 2 ^ n) = -1) : 2 ^ (n + 1) < q := by
  have hprime : q.Prime := Fact.out
  have htwo : 2 < q := lt_of_le_of_ne hprime.two_le hodd.symm
  have : Fact (2 < q) := ⟨htwo⟩
  have hhalf : ¬ (a ^ k) ^ 2 ^ n = 1 := by
    rw [← pow_mul, h]
    exact ZMod.neg_one_ne_one
  have hfull : (a ^ k) ^ 2 ^ (n + 1) = 1 := by
    rw [pow_succ 2 n, pow_mul, ← pow_mul a, h, neg_one_sq]
  have horder : orderOf (a ^ k) = 2 ^ (n + 1) := orderOf_eq_prime_pow hhalf hfull
  have hne : a ^ k ≠ 0 := by
    intro hzero
    rw [hzero, zero_pow (pow_ne_zero _ two_ne_zero)] at hfull
    exact zero_ne_one hfull
  have hdvd : 2 ^ (n + 1) ∣ q - 1 := by
    rw [← horder]
    exact orderOf_dvd_of_pow_eq_one (ZMod.pow_card_sub_one_eq_one hne)
  have hle : 2 ^ (n + 1) ≤ q - 1 := Nat.le_of_dvd (by omega) hdvd
  omega

/-- A number is a prime if it is one more than a power of two times a smaller factor, and some
number has the negative one as its power to half of that. -/
theorem prime_of_pow_eq_neg_one {p k n : Nat} (hp : p = k * 2 ^ (n + 1) + 1) (hk : k < 2 ^ (n + 1))
    (hpos : 0 < k) {a : ZMod p} (h : a ^ (k * 2 ^ n) = -1) : p.Prime := by
  by_contra hnot
  have htwo : 2 ≤ 2 ^ (n + 1) := Nat.le_self_pow (Nat.succ_ne_zero n) 2
  have hone : p ≠ 1 := by
    have := Nat.mul_pos hpos (Nat.two_pow_pos (n + 1))
    omega
  have hfactor : p.minFac.Prime := Nat.minFac_prime hone
  have : Fact p.minFac.Prime := ⟨hfactor⟩
  have hodd : p.minFac ≠ 2 := by
    intro heven
    have hdvd : 2 ∣ p := heven ▸ Nat.minFac_dvd p
    rw [hp, pow_succ, ← mul_assoc] at hdvd
    omega
  -- The power is the negative one modulo the least factor too.
  have hcast : (ZMod.castHom (Nat.minFac_dvd p) (ZMod p.minFac) a) ^ (k * 2 ^ n) = -1 := by
    rw [← map_pow, h, map_neg, map_one]
  have hgreat : 2 ^ (n + 1) < p.minFac := two_pow_lt_of_pow_eq_neg_one hodd hcast
  have hsquare : p.minFac ^ 2 ≤ p := Nat.minFac_sq_le_self (by omega) hnot
  have hsmall : p ≤ 2 ^ (n + 1) * 2 ^ (n + 1) := by
    have := Nat.mul_le_mul_right (2 ^ (n + 1)) (Nat.succ_le_of_lt hk)
    rw [Nat.succ_mul] at this
    omega
  have hlarge : 2 ^ (n + 1) * 2 ^ (n + 1) < p.minFac * p.minFac :=
    Nat.mul_self_lt_mul_self hgreat
  rw [sq] at hsquare
  omega

/-- A power that is found by squaring to be the last residue is the negative one. -/
theorem pow_eq_neg_one_of_power {p b e : Nat} (hp : 0 < p) (h : Modular.power b e p = p - 1) :
    (b : ZMod p) ^ e = -1 := by
  rw [Modular.power_eq, Nat.pow_eq] at h
  rw [← Nat.cast_pow, ← ZMod.natCast_mod, h, Nat.cast_sub hp, ZMod.natCast_self, Nat.cast_one,
    zero_sub]

/-- Three has the negative one as its power to half of the number before the modulus. -/
theorem three_pow_eq_neg_one : ((3 : Nat) : ZMod prime) ^ ((2 ^ 59 + 17) * 2 ^ 191) = -1 :=
  pow_eq_neg_one_of_power prime_pos (by decide +kernel)

/-- The modulus of the field elements is a prime. -/
theorem prime_prime : prime.Prime :=
  prime_of_pow_eq_neg_one (by decide +kernel) (by decide +kernel) (by decide +kernel)
    three_pow_eq_neg_one

end Cairo
