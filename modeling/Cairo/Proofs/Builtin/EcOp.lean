import Mathlib.Tactic.NormNum.Prime
import Cairo.Proofs.Builtin.Memoization
import Cairo.Proofs.Curve.Group
import Cairo.Proofs.Felt.Prime

/-!
# The builtin for curves

The builtin for curves deduces the coordinates of the sum of a point and a multiple of another one.
The formulas work modulo the prime of the field elements, on a curve that is not singular, so the
sum is the one in the group of its points.  A factor is a field element and has fewer bits than the
multiplication goes over, so the whole of it counts.
-/

namespace Cairo

namespace Curve

/-- The curve of the machine. -/
def own : Elliptic where
  modulus := prime
  alpha := alpha
  beta := beta
  prime := prime_prime
  three_lt := by decide
  nonsingular := by decide +kernel

namespace Elliptic

/-- The last coordinates stand for the sum of the first point and a multiple of the second one. -/
def IsSum (E : Elliptic) (p q : Point) (k : Int) (r : Point) : Prop :=
  ∃ (hp : E.Contains p) (hq : E.Contains q) (hr : E.Contains r),
    E.point r hr = E.point p hp + k • E.point q hq

end Elliptic

end Curve

namespace Builtin

open Curve

variable {b b' b₀ : Builtin} {m m₀ : Memory} {a : Address} {x : Felt}

/-- A point that passes its check lies on the curve of the machine. -/
theorem contains_of_checkPoint {p : Point} (h : checkPoint p = .ok ()) : own.Contains p := by
  unfold checkPoint at h
  split at h
  · assumption
  · cases h

/-- The outputs are the coordinates of a sum in the group of the curve. -/
theorem ecOpOutputs_ok {px py qx qy k : Felt} {values : List Felt}
    (h : ecOpOutputs px py qx qy k = .ok values) :
    ∃ r : Point, own.IsSum ⟨px.val, py.val⟩ ⟨qx.val, qy.val⟩ k.val r ∧ r.IsReduced prime ∧
      values = [Felt.ofInt r.x, Felt.ofInt r.y] := by
  unfold ecOpOutputs at h
  obtain ⟨⟨⟩, hp, h⟩ := Answer.bind_eq_ok.mp h
  obtain ⟨⟨⟩, hq, h⟩ := Answer.bind_eq_ok.mp h
  obtain ⟨r, hr, h⟩ := Answer.bind_eq_ok.mp h
  obtain rfl := Answer.pure_eq_ok.mp h
  have hreduced : Point.IsReduced ⟨px.val, py.val⟩ prime :=
    ⟨Int.natCast_nonneg _, Int.ofNat_lt.mpr px.val_lt, Int.natCast_nonneg _,
      Int.ofNat_lt.mpr py.val_lt⟩
  obtain ⟨hend, hcontains, hsum⟩ := Elliptic.point_of_multiplyAdd (E := own)
    (contains_of_checkPoint hp) (contains_of_checkPoint hq) hr
  -- The factor has no bits beyond those that the multiplication goes over.
  have hbits : (k.val : Int) % 2 ^ scalarHeight = k.val := by
    have hlt : k.val < 2 ^ scalarHeight := Nat.lt_trans k.val_lt (by decide)
    exact Int.emod_eq_of_lt (Int.natCast_nonneg _) (by exact_mod_cast hlt)
  rw [hbits] at hsum
  exact ⟨r, ⟨_, _, hcontains, hsum⟩, hend hreduced, rfl⟩

/-- The representative of a reduced coordinate is this coordinate. -/
theorem val_ofInt_of_reduced {n : Int} (hnonneg : 0 ≤ n) (hlt : n < prime) :
    ((Felt.ofInt n).val : Int) = n := by
  rw [Felt.val_ofInt, Int.emod_eq_of_lt hnonneg hlt, Int.toNat_of_nonneg hnonneg]

/-- The builtin for curves gives a cell the first or the second coordinate of the sum that the
inputs of its instance ask for, by its place behind them. -/
theorem deduceFresh_ecOp (hkind : b.kind = .ecOp) (h : b.deduceFresh m a = .ok (some x)) :
    ∃ (px py qx qy k : Felt) (r : Point),
      m.HoldsFrom (b.instanceStart a) ([px, py, qx, qy, k].map .felt) ∧
        own.IsSum ⟨px.val, py.val⟩ ⟨qx.val, qy.val⟩ k.val r ∧ r.IsReduced prime ∧
          (b.placeInInstance a = 5 ∧ (x.val : Int) = r.x ∨
            b.placeInInstance a = 6 ∧ (x.val : Int) = r.y) := by
  obtain ⟨values, hvalues, hx⟩ := deduceFresh_eq_some_iff.mp h
  obtain ⟨hplace, xs, hlength, hholds, houtputs⟩ := instanceOutputs_eq_some_iff.mp hvalues
  have hfelts := feltOutputs_of_outputs houtputs
  have hlt := b.placeInInstance_lt a
  rw [hkind] at hplace hlength hfelts hlt
  match xs, hlength with
  | [px, py, qx, qy, k], _ =>
    obtain ⟨r, hsum, hreduced, rfl⟩ := ecOpOutputs_ok hfelts
    refine ⟨px, py, qx, qy, k, r, hholds, hsum, hreduced, ?_⟩
    have hcases : b.placeInInstance a = 5 ∨ b.placeInInstance a = 6 := by
      have hfive : 5 ≤ b.placeInInstance a := hplace
      have hseven : b.placeInInstance a < 7 := hlt
      omega
    unfold outputAt at hx
    rw [hkind] at hx
    rcases hcases with h5 | h6
    · rw [h5] at hx
      obtain rfl := Option.some.inj hx
      exact .inl ⟨h5, val_ofInt_of_reduced hreduced.x_nonneg hreduced.x_lt⟩
    · rw [h6] at hx
      obtain rfl := Option.some.inj hx
      exact .inr ⟨h6, val_ofInt_of_reduced hreduced.y_nonneg hreduced.y_lt⟩

/-- Adding a multiple of a point gives the sum in the group of the curve, over the lowest bits of
the factor; and whatever has happened to a memory and to a builtin for curves that remembers nothing
at first, a cell that it deduces is a coordinate of the sum with the whole factor. -/
theorem adds_multiples_in_the_group :
    (∀ (E : Elliptic) (p q r : Point) (k : Int) (height : Nat), E.Contains p → E.Contains q →
      multiplyAdd E.alpha E.modulus height p q k = .ok r →
        E.IsSum p q (k % 2 ^ height) r ∧ (p.IsReduced E.modulus → r.IsReduced E.modulus)) ∧
    ∀ (b₀ b b' : Builtin) (m₀ m : Memory) (uses : List Use) (a : Address) (x : Felt),
      b₀.kind = .ecOp → b₀.cache = ∅ → (∀ u ∈ uses, u.IsReal) → afterUses uses (m₀, b₀) = (m, b) →
        deduce m a b = .ok (some x) b' →
          ∃ (px py qx qy k : Felt) (r : Point),
            m.HoldsFrom (b.instanceStart a) ([px, py, qx, qy, k].map .felt) ∧
              own.IsSum ⟨px.val, py.val⟩ ⟨qx.val, qy.val⟩ k.val r ∧ r.IsReduced prime ∧
                (b.placeInInstance a = 5 ∧ (x.val : Int) = r.x ∨
                  b.placeInInstance a = 6 ∧ (x.val : Int) = r.y) := by
  constructor
  · intro E p q r k height hp hq h
    obtain ⟨hreduced, hr, hsum⟩ := Elliptic.point_of_multiplyAdd hp hq h
    exact ⟨⟨hp, hq, hr, hsum⟩, hreduced⟩
  · intro b₀ b b' m₀ m uses a x hkind hempty huses hrun hdeduce
    obtain ⟨hremembers, cache, hcache⟩ :=
      remembers_afterUses huses (remembers_of_isEmpty hempty m₀)
    rw [hrun] at hremembers hcache
    have hkind' : b.kind = .ecOp := by
      rw [show b = _ from hcache]
      exact hkind
    exact deduceFresh_ecOp hkind' (hremembers.deduce_ok hdeduce)

/-- A curve with nineteen points over the field of seventeen elements. -/
def small : Elliptic where
  modulus := 17
  alpha := 2
  beta := 2
  prime := by norm_num
  three_lt := by decide
  nonsingular := by decide

/-- The inputs of one instance are written: two points and the number thirty-four. -/
def multiplying : List Use :=
  [.call .addSegment, .call (.load (.base 0)
    [.value (.felt 2962412995502985605007699495352191122971573493113767820301112397466445942584),
      .value (.felt 214950771763870898744428659242275426967582168179217139798831865603966154129),
      .value (.felt 874739451078007766457464989774322083649278607533249481151382481072868806602),
      .value (.felt 152666792071518830868575557812948353041420400780739481342941381225525861407),
      .value (.felt 34)])]

/-- The first coordinate of the sum that these inputs ask for. -/
def multiplied : Felt :=
  2778063437308421278851140253538604815869848682781135193774472480292420096757

/-- The points `(6, 3)` and `(9, 16)` are the double and the quintuple of `(5, 1)`, and the first
output is deduced from the inputs above. -/
theorem adds_multiples_in_the_group_multiplying :
    small.IsSum ⟨6, 3⟩ ⟨5, 1⟩ 3 ⟨9, 16⟩ ∧
      ∃ m b b', afterUses multiplying (.empty, .ofKind .ecOp) = (m, b) ∧
        deduce m ⟨0, 5, by decide⟩ b = .ok (some multiplied) b' ∧
          ∃ (px py qx qy k : Felt) (r : Point),
            own.IsSum ⟨px.val, py.val⟩ ⟨qx.val, qy.val⟩ k.val r ∧ (multiplied.val : Int) = r.x := by
  have hsmall : multiplyAdd small.alpha small.modulus 2 ⟨6, 3⟩ ⟨5, 1⟩ 3 = .ok ⟨9, 16⟩ :=
    Answer.eq_ok_of_toOption (by decide +kernel)
  have hsum := (adds_multiples_in_the_group.1 small ⟨6, 3⟩ ⟨5, 1⟩ ⟨9, 16⟩ 3 2 (by decide +kernel)
    (by decide +kernel) hsmall).1
  have hreal : ∀ u ∈ multiplying, u.IsReal := by simp [multiplying, Use.IsReal]
  have hdeduce : deduce (afterUses multiplying (.empty, .ofKind .ecOp)).1 ⟨0, 5, by decide⟩
      (afterUses multiplying (.empty, .ofKind .ecOp)).2 = .ok (some multiplied) _ :=
    Action.eq_ok_of_toOption (by decide +kernel)
  obtain ⟨px, py, qx, qy, k, r, -, hown, -, hplace⟩ := adds_multiples_in_the_group.2
    (.ofKind .ecOp) _ _ .empty _ multiplying _ _ rfl rfl hreal Prod.mk.eta.symm hdeduce
  refine ⟨hsum, _, _, _, Prod.mk.eta.symm, hdeduce, px, py, qx, qy, k, r, hown, ?_⟩
  rcases hplace with ⟨-, hx⟩ | ⟨hsix, -⟩
  · exact hx
  · cases hsix

end Builtin

end Cairo
