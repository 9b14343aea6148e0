/-!
# Powers and inverses modulo a number

`power` raises to a natural exponent by squaring, reducing after every product; `power_eq` says
that this is the ordinary power reduced once.  `inverse?` runs the Euclidean algorithm and keeps
one coefficient: it finds an inverse exactly when the two numbers have no common factor.
-/

namespace Cairo.Modular

/-- Binary exponentiation on the lowest `n` bits of `e`, with the product collected so far. -/
def powerLoop (m : Nat) : Nat → Nat → Nat → Nat → Nat
  | 0, _, _, acc => acc
  | n + 1, b, e, acc =>
    powerLoop m n (b * b % m) (e / 2) (if e % 2 = 1 then acc * b % m else acc)

/-- `b ^ e` reduced modulo `m`. -/
def power (b e m : Nat) : Nat :=
  powerLoop m (e.log2 + 1) (b % m) e (1 % m)

theorem powerLoop_mod (m n b e acc : Nat) (he : e < Nat.pow 2 n) :
    powerLoop m n b e acc % m = acc * Nat.pow b e % m := by
  rw [Nat.pow_eq] at he ⊢
  induction n generalizing b e acc with
  | zero =>
    have : e = 0 := by simpa using he
    simp [powerLoop, this]
  | succ n ih =>
    have hhalf : e / 2 < 2 ^ n := by
      rw [Nat.pow_succ] at he
      omega
    rw [powerLoop, ih _ _ _ hhalf]
    have hsq : ∀ k : Nat, (b * b % m) ^ k % m = b ^ (2 * k) % m := by
      intro k
      rw [← Nat.pow_mod, Nat.pow_mul, Nat.pow_two]
    by_cases hodd : e % 2 = 1
    · have hsplit : e = 2 * (e / 2) + 1 := by omega
      rw [if_pos hodd, Nat.mul_mod, hsq, ← Nat.mul_mod, Nat.mul_mod, Nat.mod_mod,
        ← Nat.mul_mod, Nat.mul_assoc, ← Nat.pow_succ', Nat.succ_eq_add_one, ← hsplit]
    · have hsplit : e = 2 * (e / 2) := by omega
      rw [if_neg hodd, Nat.mul_mod, hsq, ← Nat.mul_mod, ← hsplit]

theorem powerLoop_reduced (m n b e acc : Nat) (h : acc % m = acc) :
    powerLoop m n b e acc % m = powerLoop m n b e acc := by
  induction n generalizing b e acc with
  | zero => simpa [powerLoop] using h
  | succ n ih =>
    rw [powerLoop]
    apply ih
    split
    · exact Nat.mod_mod _ _
    · exact h

/-- Squaring with reductions gives the ordinary power reduced once. -/
theorem power_eq (b e m : Nat) : power b e m = Nat.pow b e % m := by
  rw [Nat.pow_eq]
  unfold power
  rw [← powerLoop_reduced m _ _ _ _ (Nat.mod_mod _ _),
    powerLoop_mod m _ _ _ _ Nat.lt_log2_self, Nat.pow_eq, Nat.mul_mod, ← Nat.pow_mod, Nat.mod_mod,
    ← Nat.mul_mod, Nat.one_mul]

/-- The Euclidean algorithm on `r₀` and `r₁`, carrying for each the coefficient by which it
arises from the number to be inverted: the result is the greatest common divisor and its
coefficient. -/
def euclid (r₀ : Nat) (s₀ : Int) (r₁ : Nat) (s₁ : Int) : Nat × Int :=
  if r₁ = 0 then (r₀, s₀)
  else euclid r₁ s₁ (r₀ % r₁) (s₀ - (r₀ / r₁ : Nat) * s₁)
termination_by r₁
decreasing_by exact Nat.mod_lt _ (by omega)

/-- The inverse of `a` modulo `m`, if the two have no common factor. -/
def inverse? (a m : Nat) : Option Nat :=
  match euclid m 0 (a % m) 1 with
  | (1, x) => some (x % m).toNat
  | _ => none

end Cairo.Modular
