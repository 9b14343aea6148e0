import Mathlib.NumberTheory.LegendreSymbol.Basic
import Cairo.Felt.SquareRoot
import Cairo.Proofs.Felt.Field

/-!
# Square roots are found

A field element has a square root exactly when its power to half of the order of the group is one.
The rounds of the search keep `r * r = x * t`, and in each of them the order of the error `t` is
halved (`mul_self_rootLoop`), so that no error is left in the end.  Two elements with one square are
negatives of each other, and only one of them is in the lower half of the field: it is the root
that is answered (`sqrt_mul_self`).
-/

namespace Cairo.Felt

variable {x y c t r s : Felt} {n : Nat}

/-! ## The rounds of the search -/

/-- Squaring a number of times leads to the power with that power of two. -/
theorem residue_squareTimes (n : Nat) (x : Felt) :
    (squareTimes n x).residue = x.residue ^ 2 ^ n := by
  induction n generalizing x with
  | zero => rw [squareTimes, pow_zero, pow_one]
  | succ n ih => rw [squareTimes, ih, residue_mul, ← sq, ← pow_mul, ← pow_succ']

/-- The search ends with a root of the element whose product with the error was the square of the
candidate.  The induction is on the rounds that are left, each of which finds an error whose order
divides a given power of two, and leaves one whose order divides the half of it. -/
theorem mul_self_rootLoop (hr : r * r = x * t) (hc : c.residue ^ 2 ^ n = -1)
    (ht : t.residue ^ 2 ^ n = 1) : rootLoop n c t r * rootLoop n c t r = x := by
  induction n generalizing c t r with
  | zero =>
    have hone : t = 1 := by
      rw [← residue_inj, residue_one, ← ht, pow_zero, pow_one]
    have hx : x * 1 = x := by
      rw [← residue_inj, residue_mul, residue_one, mul_one]
    rw [rootLoop, hr, hone, hx]
  | succ n ih =>
    have hsquare : (c * c).residue ^ 2 ^ n = -1 := by
      rw [residue_mul, ← sq, ← pow_mul, ← pow_succ', hc]
    rw [rootLoop]
    split
    next hhalf =>
      refine ih hr hsquare ?_
      rw [← residue_squareTimes, hhalf, residue_one]
    next hhalf =>
      have hneg : t.residue ^ 2 ^ n = -1 := by
        have hne : t.residue ^ 2 ^ n ≠ 1 := by
          rwa [← residue_squareTimes, ← residue_one, Ne, residue_inj]
        have hsq : (t.residue ^ 2 ^ n) ^ 2 = 1 := by
          rw [← pow_mul, ← pow_succ, ht]
        exact (sq_eq_one_iff.mp hsq).resolve_left hne
      refine ih ?_ hsquare ?_
      · rw [← residue_inj] at hr ⊢
        simp only [residue_mul] at hr ⊢
        linear_combination c.residue ^ 2 * hr
      · rw [residue_mul, mul_pow, hneg, hsquare, neg_one_mul, neg_neg]

/-! ## The two roots of a square -/

/-- The smaller one of a field element and its negative. -/
def smaller (x : Felt) : Felt := if x.val ≤ (-x).val then x else -x

/-- The negative of a field element that is not zero is represented by what is left of the
prime. -/
theorem val_neg (hx : x ≠ 0) : (-x).val = prime - x.val := by
  have hpos : 0 < x.val := Nat.pos_of_ne_zero fun h => hx (ext h)
  have hneg : -x = ofNat (prime - x.val) := by
    rw [← residue_inj, residue_neg, residue_ofNat, Nat.cast_sub x.val_lt.le, ZMod.natCast_self,
      zero_sub, natCast_val]
  rw [hneg, val_ofNat, Nat.mod_eq_of_lt (Nat.sub_lt prime_pos hpos)]

/-- The prime is odd. -/
theorem prime_mod_two : prime % 2 = 1 := by decide +kernel

/-- The negative has the same square. -/
theorem neg_mul_neg_self (x : Felt) : -x * -x = x * x := by
  rw [← residue_inj, residue_mul, residue_mul, residue_neg, neg_mul_neg]

/-- The smaller one has the same square. -/
theorem smaller_mul_self (x : Felt) : x.smaller * x.smaller = x * x := by
  unfold smaller
  split
  · rfl
  · exact neg_mul_neg_self x

/-- The smaller one lies in the lower half of the field. -/
theorem val_smaller_le (x : Felt) : x.smaller.val ≤ prime / 2 := by
  unfold smaller
  by_cases hx : x = 0
  · rw [hx]
    decide +kernel
  · have hneg := val_neg hx
    have hlt := x.val_lt
    split <;> omega

/-- A root in the lower half of the field is smaller than every other root. -/
theorem eq_or_val_lt_of_mul_self_eq (hr : r.val ≤ prime / 2) (h : s * s = r * r) :
    s = r ∨ r.val < s.val := by
  rw [← residue_inj, residue_mul, residue_mul, mul_self_eq_mul_self_iff, ← residue_neg, residue_inj,
    residue_inj] at h
  rcases h with rfl | rfl
  · exact .inl rfl
  · by_cases hzero : r = 0
    · rw [hzero]
      exact .inl (by decide +kernel)
    · have hneg := val_neg hzero
      have hodd := prime_mod_two
      omega

/-- There is one root in the lower half of the field only. -/
theorem eq_of_mul_self_eq (hr : r.val ≤ prime / 2) (hs : s.val ≤ prime / 2) (h : s * s = r * r) :
    s = r := by
  rcases eq_or_val_lt_of_mul_self_eq hr h with heq | hrs
  · exact heq
  · rcases eq_or_val_lt_of_mul_self_eq hs h.symm with heq | hsr
    · exact heq.symm
    · omega

/-! ## The root that is answered -/

/-- The smaller root is answered as the smaller one of the two representatives. -/
theorem ofNat_min_eq_smaller (hr : r ≠ 0) : ofNat (min r.val (prime - r.val)) = r.smaller := by
  rw [← val_neg hr]
  unfold smaller
  split
  next hle => rw [min_eq_left hle, ofNat_val]
  next hle => rw [min_eq_right (Nat.le_of_not_le hle), ofNat_val]

/-- An element that is not zero is a square exactly when its power to half of the order of the group
is one. -/
theorem pow_half_eq_one_iff (hx : x ≠ 0) :
    x ^ ((prime - 1) / 2) = 1 ↔ ∃ y, y * y = x := by
  have hhalf : (prime - 1) / 2 = prime / 2 := by decide +kernel
  rw [← residue_inj, residue_pow, residue_one, hhalf,
    ← ZMod.euler_criterion prime (residue_ne_zero.mpr hx)]
  constructor
  · rintro ⟨z, hz⟩
    obtain ⟨y, rfl⟩ := residue_surjective z
    exact ⟨y, by rw [← residue_inj, residue_mul, hz]⟩
  · rintro ⟨y, rfl⟩
    exact ⟨y.residue, residue_mul y y⟩

/-- The generator has the negative one as its power to half of its order. -/
theorem twoPowerGenerator_pow_half : twoPowerGenerator.residue ^ 2 ^ (twoAdicity - 1) = -1 := by
  have hthree : (3 : Felt).residue = ((3 : Nat) : ZMod prime) := residue_ofNat 3
  unfold twoPowerGenerator
  rw [residue_pow, hthree, ← pow_mul]
  exact three_pow_eq_neg_one

/-- The search starts with a candidate and an error whose product with the element is its square,
and finds a root of every square that is not zero. -/
theorem exists_root (hx : x ≠ 0) (h : x ^ ((prime - 1) / 2) = 1) :
    ∃ r, r * r = x ∧ x.sqrt = .ok r.smaller := by
  have hstart : x ^ ((oddOrder + 1) / 2) * x ^ ((oddOrder + 1) / 2) = x * x ^ oddOrder := by
    have hdouble : (oddOrder + 1) / 2 + (oddOrder + 1) / 2 = oddOrder + 1 := by decide
    rw [← residue_inj, residue_mul, residue_mul, residue_pow, residue_pow, ← pow_add, hdouble,
      pow_succ']
  have herror : (x ^ oddOrder).residue ^ 2 ^ (twoAdicity - 1) = 1 := by
    have horder : oddOrder * 2 ^ (twoAdicity - 1) = (prime - 1) / 2 := by decide +kernel
    rw [residue_pow, ← pow_mul, horder, ← residue_pow, h, residue_one]
  have hroot := mul_self_rootLoop hstart twoPowerGenerator_pow_half herror
  refine ⟨_, hroot, ?_⟩
  have hne : rootLoop (twoAdicity - 1) twoPowerGenerator (x ^ oddOrder)
      (x ^ ((oddOrder + 1) / 2)) ≠ 0 := by
    intro hzero
    rw [hzero] at hroot
    exact hx (hroot.symm.trans (by decide +kernel))
  unfold sqrt sqrt?
  rw [if_neg hx, if_pos h]
  exact congrArg Except.ok (ofNat_min_eq_smaller hne)

/-- The root of a square is the smaller one of the two. -/
theorem sqrt_mul_self (x : Felt) : (x * x).sqrt = .ok x.smaller := by
  by_cases hzero : x * x = 0
  · have hx : x = 0 := by
      rwa [← residue_eq_zero, residue_mul, mul_self_eq_zero, residue_eq_zero] at hzero
    rw [hx]
    rfl
  · obtain ⟨r, hr, hsqrt⟩ := exists_root hzero ((pow_half_eq_one_iff hzero).mpr ⟨x, rfl⟩)
    have hsquares : r.smaller * r.smaller = x.smaller * x.smaller := by
      rw [smaller_mul_self, smaller_mul_self, hr]
    rw [hsqrt, eq_of_mul_self_eq (val_smaller_le x) (val_smaller_le r) hsquares]

/-- What is no square has no root. -/
theorem sqrt_of_not_square (h : ¬ ∃ y, y * y = x) : x.sqrt = .error (.nonResidue x) := by
  have hx : x ≠ 0 := by
    rintro rfl
    exact h ⟨0, by decide +kernel⟩
  unfold sqrt sqrt?
  rw [if_neg hx, if_neg ((pow_half_eq_one_iff hx).not.mpr h)]

/-- If there are elements that have a given one as their square, then the root that is found is one
of them, lies in the lower half of the field and is smaller than every other one of them; if there
are none, then finding the root fails.  So the root of a square is the smaller one of the element
and its negative. -/
theorem sqrt_finds_the_smaller_root :
    (∀ x : Felt, (∃ y, y * y = x) → ∃ r, x.sqrt = .ok r ∧ r * r = x ∧ r.val ≤ prime / 2 ∧
      ∀ s, s * s = x → s = r ∨ r.val < s.val) ∧
    (∀ x : Felt, (¬ ∃ y, y * y = x) → x.sqrt = .error (.nonResidue x)) ∧
    ∀ x : Felt, (x * x).sqrt = .ok (if x.val ≤ (-x).val then x else -x) := by
  refine ⟨?_, fun x => sqrt_of_not_square, sqrt_mul_self⟩
  rintro x ⟨y, rfl⟩
  refine ⟨y.smaller, sqrt_mul_self y, smaller_mul_self y, val_smaller_le y, fun s hs => ?_⟩
  exact eq_or_val_lt_of_mul_self_eq (val_smaller_le y) (hs.trans (smaller_mul_self y).symm)

/-- The first round finds an error for the square of the generator, which has a root nevertheless;
three has none. -/
theorem sqrt_finds_the_smaller_root_of_generator :
    (∃ r, (twoPowerGenerator * twoPowerGenerator).sqrt = .ok r ∧
      r * r = twoPowerGenerator * twoPowerGenerator ∧ r.val ≤ prime / 2 ∧
        ∀ s, s * s = twoPowerGenerator * twoPowerGenerator → s = r ∨ r.val < s.val) ∧
      (3 : Felt).sqrt = .error (.nonResidue 3) := by
  have hthree : ¬ ∃ y, y * y = (3 : Felt) := by
    rw [← pow_half_eq_one_iff (by decide)]
    decide +kernel
  exact ⟨sqrt_finds_the_smaller_root.1 _ ⟨twoPowerGenerator, rfl⟩,
    sqrt_finds_the_smaller_root.2.1 3 hthree⟩

end Cairo.Felt
