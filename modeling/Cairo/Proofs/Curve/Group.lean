import Mathlib.Algebra.Field.ZMod
import Mathlib.AlgebraicGeometry.EllipticCurve.Affine.Point
import Mathlib.Tactic.Positivity
import Cairo.Curve.Multiply
import Cairo.Proofs.Action
import Cairo.Proofs.Felt.Residue

/-!
# Points of a curve as a group

The points of a non-singular curve over a prime field of more than three elements form a group, with
one more point at infinity.  A pair of coordinates that satisfies the equation stands for a point of
it (`Elliptic.point`).  The chord formula gives the sum of two points with different first
coordinates (`point_of_chord?`), and the tangent formula gives the double of a point
(`point_of_tangent?`): where they have an answer, the point at infinity does not turn up.
-/

namespace Cairo.Curve

open WeierstrassCurve (Affine)

/-- The coordinates of a point are representatives modulo a number. -/
structure Point.IsReduced (c : Point) (modulus : Int) : Prop where
  x_nonneg : 0 ≤ c.x
  x_lt : c.x < modulus
  y_nonneg : 0 ≤ c.y
  y_lt : c.y < modulus

/-- A curve `y ^ 2 = x ^ 3 + alpha * x + beta` over a prime field of more than three elements, with
three different roots on the right. -/
structure Elliptic where
  modulus : Nat
  alpha : Int
  beta : Int
  prime : modulus.Prime
  three_lt : 3 < modulus
  nonsingular : (4 * alpha ^ 3 + 27 * beta ^ 2) % modulus ≠ 0

namespace Elliptic

variable (E : Elliptic)

instance : Fact E.modulus.Prime := ⟨E.prime⟩

/-! ## The curve over the residues -/

/-- The curve over the residues. -/
def weierstrass : Affine (ZMod E.modulus) where
  a₁ := 0
  a₂ := 0
  a₃ := 0
  a₄ := E.alpha
  a₆ := E.beta

/-- Two is not zero modulo a prime above three. -/
theorem two_ne_zero : (2 : ZMod E.modulus) ≠ 0 := by
  intro hzero
  have hdvd : E.modulus ∣ 2 := (ZMod.natCast_eq_zero_iff 2 E.modulus).mp (by exact_mod_cast hzero)
  have hle : E.modulus ≤ 2 := Nat.le_of_dvd (by decide) hdvd
  have hlt := E.three_lt
  omega

/-- The discriminant is not zero. -/
theorem discriminant_ne_zero : E.weierstrass.Δ ≠ 0 := by
  have hΔ : E.weierstrass.Δ =
      -(2 ^ 4 * ((4 * E.alpha ^ 3 + 27 * E.beta ^ 2 : Int) : ZMod E.modulus)) := by
    simp only [WeierstrassCurve.Δ, WeierstrassCurve.b₂, WeierstrassCurve.b₄, WeierstrassCurve.b₆,
      WeierstrassCurve.b₈, weierstrass]
    push_cast
    ring
  have hnonsingular : ((4 * E.alpha ^ 3 + 27 * E.beta ^ 2 : Int) : ZMod E.modulus) ≠ 0 := by
    rw [Ne, ZMod.intCast_zmod_eq_zero_iff_dvd]
    exact fun hdvd => E.nonsingular (Int.emod_eq_zero_of_dvd hdvd)
  rw [hΔ]
  exact neg_ne_zero.mpr (mul_ne_zero (pow_ne_zero 4 E.two_ne_zero) hnonsingular)

instance : E.weierstrass.IsElliptic := ⟨E.discriminant_ne_zero.isUnit⟩

/-! ## Residues of integers -/

variable {E}

/-- A remainder represents the class of the number. -/
theorem intCast_fmod (n : Int) : ((n.fmod E.modulus : Int) : ZMod E.modulus) = n := by
  rw [Int.fmod_eq_emod_of_nonneg n (Int.natCast_nonneg _), ZMod.intCast_mod]

/-- A remainder is zero when the number represents zero. -/
theorem fmod_eq_zero_iff (n : Int) : n.fmod E.modulus = 0 ↔ (n : ZMod E.modulus) = 0 := by
  rw [ZMod.intCast_zmod_eq_zero_iff_dvd, Int.fmod_eq_emod_of_nonneg n (Int.natCast_nonneg _)]
  exact ⟨Int.dvd_of_emod_eq_zero, Int.emod_eq_zero_of_dvd⟩

/-- Points made of remainders are reduced. -/
theorem isReduced_fmod (x y : Int) :
    Point.IsReduced ⟨x.fmod E.modulus, y.fmod E.modulus⟩ E.modulus := by
  have hpos : (0 : Int) < E.modulus := Int.natCast_pos.mpr E.prime.pos
  exact ⟨Int.fmod_nonneg_of_pos x hpos, Int.fmod_lt_of_pos x hpos, Int.fmod_nonneg_of_pos y hpos,
    Int.fmod_lt_of_pos y hpos⟩

/-- A quotient represents the quotient of the classes. -/
theorem intCast_of_quotient? {n d k : Int} (h : quotient? n d E.modulus = some k) :
    (k : ZMod E.modulus) = n / d := by
  obtain ⟨_, hfound, rfl⟩ := Option.map_eq_some_iff.mp h
  obtain ⟨i, hi, hcast⟩ := Option.bind_eq_some_iff.mp hfound
  obtain rfl := Option.some.inj hcast
  have hinv : (i : ZMod E.modulus) * ((d % E.modulus).toNat : Nat) = 1 :=
    Modular.inverse?_mul E.prime.pos hi
  have hd : (((d % E.modulus).toNat : Nat) : ZMod E.modulus) = d := by
    have hnonneg : 0 ≤ d % E.modulus :=
      Int.emod_nonneg d (Int.natCast_ne_zero.mpr E.prime.ne_zero)
    rw [← Int.cast_natCast, Int.toNat_of_nonneg hnonneg, ZMod.intCast_mod]
  rw [hd] at hinv
  rw [intCast_fmod, Int.cast_mul, Int.cast_natCast, eq_inv_of_mul_eq_one_left hinv, div_eq_mul_inv]

/-! ## Coordinates of points -/

variable (E)

/-- The coordinates satisfy the equation. -/
def Contains (c : Point) : Prop := onCurve c E.alpha E.beta E.modulus = true

instance (c : Point) : Decidable (E.Contains c) := inferInstanceAs (Decidable (_ = true))

/-- The equation of the curve over the residues is the one for integers modulo the prime. -/
theorem equation_iff_contains (c : Point) :
    E.weierstrass.Equation (c.x : ZMod E.modulus) c.y ↔ E.Contains c := by
  have hcast : ((c.y * c.y - (c.x * c.x * c.x + E.alpha * c.x + E.beta) : Int) : ZMod E.modulus) =
      c.y ^ 2 + 0 * c.x * c.y + 0 * c.y - (c.x ^ 3 + 0 * c.x ^ 2 + E.alpha * c.x + E.beta) := by
    push_cast
    ring
  unfold Contains onCurve
  rw [decide_eq_true_iff, fmod_eq_zero_iff, hcast, Affine.equation_iff']
  rfl

/-- The point of the group that coordinates stand for. -/
def point (c : Point) (h : E.Contains c) : E.weierstrass.Point :=
  .mk ((E.equation_iff_contains c).mpr h)

variable {E}

/-- Coordinates that represent those of a point stand for it. -/
theorem exists_point_eq {c : Point} {x y : ZMod E.modulus} (h : E.weierstrass.Nonsingular x y)
    (hx : (c.x : ZMod E.modulus) = x) (hy : (c.y : ZMod E.modulus) = y) :
    ∃ hc, E.point c hc = .some x y h := by
  subst hx hy
  exact ⟨(E.equation_iff_contains c).mp h.1, rfl⟩

/-! ## Sums and doubles -/

/-- The chord through two points with different first coordinates leads to their sum. -/
theorem point_of_chord? {p q r : Point} (hp : E.Contains p) (hq : E.Contains q)
    (hx : (p.x : ZMod E.modulus) ≠ q.x) (h : chord? p q E.modulus = some r) :
    r.IsReduced E.modulus ∧ ∃ hr, E.point r hr = E.point p hp + E.point q hq := by
  obtain ⟨k, hk, rfl⟩ := Option.map_eq_some_iff.mp h
  have hslope : (k : ZMod E.modulus) = E.weierstrass.slope p.x q.x p.y q.y := by
    rw [intCast_of_quotient? hk, Affine.slope_of_X_ne hx, Int.cast_sub, Int.cast_sub]
  refine ⟨isReduced_fmod _ _, ?_⟩
  have hsum : E.point p hp + E.point q hq = _ := Affine.Point.add_of_X_ne hx
  rw [hsum]
  refine exists_point_eq _ ?_ ?_
  · rw [intCast_fmod, ← hslope]
    simp only [Affine.addX, weierstrass]
    push_cast
    ring
  · rw [intCast_fmod, ← hslope]
    simp only [Affine.addY, Affine.negAddY, Affine.negY, Affine.addX, weierstrass]
    push_cast [intCast_fmod]
    ring

/-- The tangent at a point leads to its double, if it has an answer. -/
theorem point_of_tangent? {p r : Point} (hp : E.Contains p)
    (h : tangent? p E.alpha E.modulus = some r) :
    r.IsReduced E.modulus ∧ ∃ hr, E.point r hr = E.point p hp + E.point p hp := by
  unfold tangent? at h
  split at h
  · cases h
  rename_i hy
  obtain ⟨k, hk, rfl⟩ := Option.map_eq_some_iff.mp h
  have hyne : (p.y : ZMod E.modulus) ≠ E.weierstrass.negY p.x p.y := by
    intro heq
    have hdouble : 2 * (p.y : ZMod E.modulus) = 0 := by
      simp only [Affine.negY, weierstrass] at heq
      linear_combination heq
    have hzero : (p.y : ZMod E.modulus) = 0 := (mul_eq_zero.mp hdouble).resolve_left E.two_ne_zero
    exact hy ((fmod_eq_zero_iff p.y).mpr hzero)
  have hslope : (k : ZMod E.modulus) = E.weierstrass.slope p.x p.x p.y p.y := by
    rw [intCast_of_quotient? hk, Affine.slope_of_Y_ne rfl hyne]
    simp only [Affine.negY, weierstrass]
    push_cast
    ring
  refine ⟨isReduced_fmod _ _, ?_⟩
  have hdouble : E.point p hp + E.point p hp = _ := Affine.Point.add_self_of_Y_ne hyne
  rw [hdouble]
  refine exists_point_eq _ ?_ ?_
  · rw [intCast_fmod, ← hslope]
    simp only [Affine.addX, weierstrass]
    push_cast
    ring
  · rw [intCast_fmod, ← hslope]
    simp only [Affine.addY, Affine.negAddY, Affine.negY, Affine.addX, weierstrass]
    push_cast [intCast_fmod]
    ring

/-! ## Multiples -/

/-- The lowest bits of a number are its parity and the lowest bits of its half. -/
theorem emod_two_pow_succ (m : Int) (height : Nat) :
    m % 2 ^ (height + 1) = m % 2 + 2 * (m / 2 % 2 ^ height) := by
  have hpos : (0 : Int) < 2 ^ height := by positivity
  have hnonneg : 0 ≤ m / 2 % 2 ^ height := Int.emod_nonneg _ hpos.ne'
  have hlt : m / 2 % 2 ^ height < 2 ^ height := Int.emod_lt_of_pos _ hpos
  have hsplit : m = m % 2 + 2 * (m / 2 % 2 ^ height) + 2 ^ (height + 1) * (m / 2 / 2 ^ height) := by
    have hhalf := Int.emod_add_mul_ediv (m / 2) (2 ^ height)
    have hparity := Int.emod_add_mul_ediv m 2
    rw [pow_succ]
    linear_combination -2 * hhalf - hparity
  have hbound : m % 2 + 2 * (m / 2 % 2 ^ height) < 2 ^ (height + 1) := by
    rw [pow_succ]
    omega
  conv_lhs => rw [hsplit, Int.add_mul_emod_self_left]
  exact Int.emod_eq_of_lt (by omega) hbound

/-- A round of the multiplication finds different first coordinates, adds the doubled point if the
lowest bit says so, and doubles it. -/
theorem multiplyAdd_succ_ok {alpha modulus m : Int} {height : Nat} {p q r : Point}
    (h : multiplyAdd alpha modulus (height + 1) p q m = .ok r) :
    ∃ p' q', (q.x - p.x).fmod modulus ≠ 0 ∧
      (m % 2 = 1 ∧ chord? p q modulus = some p' ∨ m % 2 = 0 ∧ p' = p) ∧
        tangent? q alpha modulus = some q' ∧
          multiplyAdd alpha modulus height p' q' (m / 2) = .ok r := by
  unfold multiplyAdd at h
  obtain ⟨same, hsame, h⟩ := Answer.bind_eq_ok.mp h
  have hne : same = false ∧ (q.x - p.x).fmod modulus ≠ 0 := by
    unfold sameX at hsame
    split at hsame
    · cases hsame
    · obtain rfl := Except.ok.inj hsame
      cases hdec : decide ((q.x - p.x).fmod modulus = 0) with
      | true =>
        rw [hdec] at h
        cases h
      | false => exact ⟨rfl, of_decide_eq_false hdec⟩
  obtain ⟨rfl, hne⟩ := hne
  rw [if_neg Bool.false_ne_true] at h
  dsimp only at h
  split at h
  · rename_i hodd
    obtain ⟨p', hp', h⟩ := Answer.bind_eq_ok.mp h
    obtain ⟨q', hq', h⟩ := Answer.bind_eq_ok.mp h
    exact ⟨p', q', hne, .inl ⟨hodd, Answer.orThrow_eq_ok.mp hp'⟩, Answer.orThrow_eq_ok.mp hq', h⟩
  · rename_i heven
    obtain ⟨_, hp', h⟩ := Answer.bind_eq_ok.mp h
    obtain rfl := Answer.pure_eq_ok.mp hp'
    obtain ⟨q', hq', h⟩ := Answer.bind_eq_ok.mp h
    exact ⟨p, q', hne, .inr ⟨by omega, rfl⟩, Answer.orThrow_eq_ok.mp hq', h⟩

/-- The sum of a point and a multiple of another one, over the lowest bits of the factor.  The
induction is on the bits that are left: a round keeps the sum that is asked for, and as the two
first coordinates differ, its chord is not vertical. -/
theorem point_of_multiplyAdd {height : Nat} {m : Int} {p q r : Point} (hp : E.Contains p)
    (hq : E.Contains q) (h : multiplyAdd E.alpha E.modulus height p q m = .ok r) :
    (p.IsReduced E.modulus → r.IsReduced E.modulus) ∧
      ∃ hr, E.point r hr = E.point p hp + (m % 2 ^ height) • E.point q hq := by
  induction height generalizing p q m with
  | zero =>
    obtain rfl := Except.ok.inj h
    refine ⟨id, hp, ?_⟩
    rw [pow_zero, Int.emod_one, zero_zsmul, add_zero]
  | succ height ih =>
    obtain ⟨p', q', hx, hsum, hdouble, hrest⟩ := multiplyAdd_succ_ok h
    have hxne : (p.x : ZMod E.modulus) ≠ q.x := by
      intro heq
      refine hx ((fmod_eq_zero_iff _).mpr ?_)
      rw [Int.cast_sub, heq, sub_self]
    obtain ⟨-, hq', hqdouble⟩ := point_of_tangent? hq hdouble
    have hp' : (p.IsReduced E.modulus → p'.IsReduced E.modulus) ∧
        ∃ hc, E.point p' hc = E.point p hp + (m % 2) • E.point q hq := by
      rcases hsum with ⟨hodd, hchord⟩ | ⟨heven, rfl⟩
      · obtain ⟨hreduced, hc, hadd⟩ := point_of_chord? hp hq hxne hchord
        exact ⟨fun _ => hreduced, hc, by rw [hadd, hodd, one_zsmul]⟩
      · exact ⟨id, hp, by rw [heven, zero_zsmul, add_zero]⟩
    obtain ⟨hreduced, hc, hadd⟩ := hp'
    obtain ⟨hreducedRest, hr, hend⟩ := ih hc hq' hrest
    refine ⟨fun hred => hreducedRest (hreduced hred), hr, ?_⟩
    rw [hend, hadd, hqdouble, emod_two_pow_succ, add_zsmul, mul_comm, mul_zsmul, two_zsmul,
      add_assoc]

end Elliptic

end Cairo.Curve
