import Cairo.Datum.Arithmetic
import Cairo.Proofs.Felt.Field
import Cairo.Proofs.Value.Arithmetic

/-!
# Laws of the operators on data

On memory values the operators add and subtract as the machine does (`operate_add`, `operate_sub`),
so that a difference is what added to the subtrahend gives the minuend, and there is a sum exactly
where `Value.IsSum` says so.  An integer moves an address as the field element that it represents
does, unless it is so large that a sum comes round the prime.

A field element on the left meets field elements and integers alike (`operate_felt`): division and
powers are those of the field.
-/

namespace Cairo

/-! ## Sums of values -/

namespace Value

/-- The last value is the sum of the first two.  Offsets are added modulo the prime; as the sum is
an address, its offset is in range. -/
inductive IsSum : Value → Value → Value → Prop
  | felts {x y z : Felt} (hval : z.val = (x.val + y.val) % prime) :
    IsSum (felt x) (felt y) (felt z)
  | address_felt {a b : Address} {x : Felt} (hsegment : b.segment = a.segment)
    (hoffset : b.offset = (a.offset + x.val) % prime) : IsSum (address a) (felt x) (address b)
  | felt_address {a b : Address} {x : Felt} (hsegment : b.segment = a.segment)
    (hoffset : b.offset = (a.offset + x.val) % prime) : IsSum (felt x) (address a) (address b)

/-- A sum of values is there exactly where it ought to be. -/
theorem add_eq_ok_iff_isSum {v w z : Value} : v.add w = .ok z ↔ IsSum v w z := by
  constructor
  · intro h
    cases v with
    | felt x =>
      cases w with
      | felt y =>
        obtain rfl := Except.ok.inj h
        exact .felts rfl
      | address a =>
        obtain ⟨b, hb, rfl⟩ := Answer.map_eq_ok.mp h
        obtain ⟨hsegment, hoffset⟩ := Address.addFelt_eq_ok_iff_offset.mp hb
        exact .felt_address hsegment hoffset
    | address a =>
      cases w with
      | felt x =>
        obtain ⟨b, hb, rfl⟩ := Answer.map_eq_ok.mp h
        obtain ⟨hsegment, hoffset⟩ := Address.addFelt_eq_ok_iff_offset.mp hb
        exact .address_felt hsegment hoffset
      | address b => cases h
  · intro h
    cases h with
    | felts hval => exact congrArg (fun z => Except.ok (felt z)) (Felt.ext hval.symm)
    | address_felt hsegment hoffset =>
      exact Answer.map_eq_ok.mpr ⟨_, Address.addFelt_eq_ok_iff_offset.mpr ⟨hsegment, hoffset⟩, rfl⟩
    | felt_address hsegment hoffset =>
      exact Answer.map_eq_ok.mpr ⟨_, Address.addFelt_eq_ok_iff_offset.mpr ⟨hsegment, hoffset⟩, rfl⟩

end Value

namespace Datum

open Value (IsSum)
open scoped Felt

/-! ## Operators on values and integers -/

/-- An operator with a field element on the left treats a field element on the right as the integer
that represents it. -/
theorem operate_felt (op : Operator) (x : Felt) {d : Datum} {n : Int} (hd : d.number? = some n) :
    operate op (.value (.felt x)) d = (x.operate op n).map fun y => .value (.felt y) := by
  show _ = (fun y => value (.felt y)) <$> x.operate op n
  rw [← bind_pure_comp]
  cases d with
  | truth b =>
    obtain rfl := Option.some.inj hd
    rfl
  | integer m =>
    obtain rfl := Option.some.inj hd
    rfl
  | value v =>
    cases v with
    | felt y =>
      obtain rfl := Option.some.inj hd
      rfl
    | address a => cases hd
  | nothing => cases hd
  | text s => cases hd
  | list items => cases hd

/-- An address that an operator answers is the address of a value. -/
theorem bind_pure_address (r : Except Fault Address) :
    (do return value (.address (← r))) = (r.map Value.address).map value :=
  (bind_pure_comp _ _).trans (Functor.map_map Value.address value r).symm

/-- Memory values are added as the machine adds them. -/
theorem operate_add (v w : Value) :
    operate .add (.value v) (.value w) = (v.add w).map .value := by
  cases v with
  | felt x =>
    cases w with
    | felt y =>
      rw [operate_felt .add x rfl]
      show Except.ok (value (.felt (x + Felt.ofInt y.val))) = _
      rw [Felt.ofInt_val]
      rfl
    | address b => exact bind_pure_address (b.addFelt x)
  | address a =>
    cases w with
    | felt y => exact bind_pure_address (a.addFelt y)
    | address b => rfl

/-- Memory values are subtracted as the machine subtracts them. -/
theorem operate_sub (v w : Value) :
    operate .sub (.value v) (.value w) = (v.sub w).map .value := by
  cases v with
  | felt x =>
    cases w with
    | felt y =>
      rw [operate_felt .sub x rfl]
      show Except.ok (value (.felt (x - Felt.ofInt y.val))) = _
      rw [Felt.ofInt_val]
      rfl
    | address b => rfl
  | address a =>
    cases w with
    | felt y => exact bind_pure_address (a.addFelt (-y))
    | address b =>
      exact (bind_pure_comp _ _).trans (Functor.map_map Value.felt value (a.sub b)).symm

/-- An integer shifts an address, forth when it is added and back when it is taken away. -/
theorem operate_integer (a : Address) {d : Datum} {k : Int} (hd : d.integer? = some k) :
    operate .add (.value (.address a)) d = ((a.shift k).map Value.address).map value ∧
      operate .sub (.value (.address a)) d = ((a.shift (-k)).map Value.address).map value := by
  cases d with
  | truth b =>
    obtain rfl := Option.some.inj hd
    exact ⟨bind_pure_address _, bind_pure_address _⟩
  | integer n =>
    obtain rfl := Option.some.inj hd
    exact ⟨bind_pure_address _, bind_pure_address _⟩
  | value v => cases hd
  | nothing => cases hd
  | text s => cases hd
  | list items => cases hd

/-! ## Sums and differences -/

/-- Different values are different data. -/
theorem value_injective : Function.Injective value := fun _ _ => value.inj

/-- A sum of data that are values. -/
theorem operate_add_eq_ok {v w z : Value} :
    operate .add (.value v) (.value w) = .ok (.value z) ↔ v.add w = .ok z := by
  rw [operate_add, Answer.map_eq_ok_apply value_injective]

/-- A difference of data that are values. -/
theorem operate_sub_eq_ok {v w z : Value} :
    operate .sub (.value v) (.value w) = .ok (.value z) ↔ v.sub w = .ok z := by
  rw [operate_sub, Answer.map_eq_ok_apply value_injective]

/-- An operator on values that has no value to answer fails. -/
theorem exists_map_value_eq_error {r : Except Fault Value} (h : ∀ v, r ≠ .ok v) :
    ∃ e, r.map Datum.value = .error e := by
  cases r with
  | ok v => exact absurd rfl (h v)
  | error e => exact ⟨e, rfl⟩

/-- Two answers are the same address, or both of them are faults of an offset out of range. -/
inductive MoveAlike : Except Fault Datum → Except Fault Datum → Prop
  | address (a : Address) :
    MoveAlike (.ok (.value (.address a))) (.ok (.value (.address a)))
  | outOfRange (a : Address) (k l : Int) :
    MoveAlike (.error (.offsetExceeded a k)) (.error (.offsetExceeded a l))

/-- An address is moved alike by a small integer and by the field element that it represents. -/
theorem moveAlike_shift_addFelt {a : Address} {k : Int}
    (hk : |k| ≤ (prime : Int) - offsetBound) :
    MoveAlike (((a.shift k).map Value.address).map value)
      (((a.addFelt (.ofInt k)).map Value.address).map value) := by
  cases hshift : a.shift k with
  | ok b =>
    rw [(Address.addFelt_ofInt_eq_ok hk).mpr hshift]
    exact .address b
  | error e =>
    cases hadd : a.addFelt (.ofInt k) with
    | ok b =>
      rw [(Address.addFelt_ofInt_eq_ok hk).mp hadd] at hshift
      cases hshift
    | error e' =>
      obtain rfl := Address.eq_offsetExceeded_of_shift hshift
      obtain rfl := Address.eq_offsetExceeded_of_addFelt hadd
      exact .outOfRange a k _

/-- A value is the difference of two others exactly when it is what makes up the first one together
with the second one, in either order; where there is no such value the operator fails, and so does
the sum of values that have none.  An integer that is not larger than the prime without the range of
the offsets moves an address as the field element that it represents. -/
theorem operate_sub_inverts_operate_add :
    (∀ d v w : Value,
      (operate .sub (.value d) (.value v) = .ok (.value w) ↔
        operate .add (.value w) (.value v) = .ok (.value d)) ∧
      (operate .add (.value w) (.value v) = .ok (.value d) ↔ IsSum w v d) ∧
      (operate .add (.value w) (.value v) = .ok (.value d) →
        operate .add (.value v) (.value w) = .ok (.value d))) ∧
    (∀ v w : Value, (∀ d, ¬ IsSum w v d) → ∃ e, operate .add (.value w) (.value v) = .error e) ∧
    (∀ d v : Value, (∀ w, ¬ IsSum w v d) → ∃ e, operate .sub (.value d) (.value v) = .error e) ∧
    ∀ (a : Address) (n : Datum) (k : Int), n.integer? = some k →
      |k| ≤ (prime : Int) - offsetBound →
        MoveAlike (operate .add (.value (.address a)) n)
          (operate .add (.value (.address a)) (.value (.felt (.ofInt k)))) ∧
        MoveAlike (operate .sub (.value (.address a)) n)
          (operate .sub (.value (.address a)) (.value (.felt (.ofInt k)))) := by
  refine ⟨fun d v w => ⟨?_, ?_, ?_⟩, fun v w h => ?_, fun d v h => ?_, fun a n k hn hk => ⟨?_, ?_⟩⟩
  · rw [operate_sub_eq_ok, operate_add_eq_ok, Value.sub_eq_ok_iff]
  · rw [operate_add_eq_ok, Value.add_eq_ok_iff_isSum]
  · rw [operate_add_eq_ok, operate_add_eq_ok]
    exact Value.add_comm_of_ok
  · rw [operate_add]
    exact exists_map_value_eq_error fun d hd => h d (Value.add_eq_ok_iff_isSum.mp hd)
  · rw [operate_sub]
    refine exists_map_value_eq_error fun w hw => h w ?_
    exact Value.add_eq_ok_iff_isSum.mp (Value.sub_eq_ok_iff.mp hw)
  · rw [(operate_integer a hn).1, operate_add]
    exact moveAlike_shift_addFelt hk
  · have hneg : |(-k)| ≤ (prime : Int) - offsetBound := by rwa [abs_neg]
    have hback : (Value.address a).sub (.felt (.ofInt k)) =
        (a.addFelt (.ofInt (-k))).map Value.address := by
      rw [Felt.ofInt_neg]
      rfl
    rw [(operate_integer a hn).2, operate_sub, hback]
    exact moveAlike_shift_addFelt hneg

/-- A pointer goes back by three when the last field element but two is added; two pointers have no
sum, and a number less a pointer is nothing.  The greatest integer that is allowed for leads from
the last offset to the last class modulo the prime, which is no offset, and back from the first one
to the class of the bound of the offsets. -/
theorem operate_sub_inverts_operate_add_limits :
    operate .add (.value (.address ⟨1, 5, by decide⟩)) (.value (.felt (.ofInt (-3)))) =
        .ok (.value (.address ⟨1, 2, by decide⟩)) ∧
      operate .add (.value (.felt (.ofInt (-3)))) (.value (.address ⟨1, 5, by decide⟩)) =
        .ok (.value (.address ⟨1, 2, by decide⟩)) ∧
      (∃ e, operate .add (.value (.address (.base 0))) (.value (.address (.base 0))) = .error e) ∧
      (∃ e, operate .sub (.value (.felt 7)) (.value (.address (.base 0))) = .error e) ∧
      MoveAlike
        (operate .add (.value (.address ⟨0, offsetBound - 1, by decide⟩))
          (.integer (prime - offsetBound)))
        (operate .add (.value (.address ⟨0, offsetBound - 1, by decide⟩))
          (.value (.felt (.ofInt (prime - offsetBound))))) ∧
      MoveAlike (operate .sub (.value (.address (.base 0))) (.integer (prime - offsetBound)))
        (operate .sub (.value (.address (.base 0)))
          (.value (.felt (.ofInt (prime - offsetBound))))) := by
  obtain ⟨hvalues, hadd, hsub, hmoves⟩ := operate_sub_inverts_operate_add
  have hlimit : |(prime : Int) - offsetBound| ≤ (prime : Int) - offsetBound :=
    (abs_of_nonneg (sub_nonneg.mpr (Int.ofNat_le.mpr offsetBound_lt_prime.le))).le
  have hback := (hvalues (.address ⟨1, 2, by decide⟩) (.felt (.ofInt (-3)))
    (.address ⟨1, 5, by decide⟩)).2
  have hsum := hback.1.mpr (.address_felt rfl (by decide +kernel))
  exact ⟨hsum, hback.2 hsum, hadd _ _ nofun, hsub _ _ nofun, (hmoves _ _ _ rfl hlimit).1,
    (hmoves _ _ _ rfl hlimit).2⟩

/-! ## Division and powers -/

/-- Different field elements are different data. -/
theorem value_felt_injective : Function.Injective fun y : Felt => value (.felt y) :=
  fun _ _ h => Value.felt.inj (value.inj h)

/-- An operator with a field element on the left and a number on the right. -/
theorem operate_felt_eq_ok {op : Operator} {x y : Felt} {d : Datum} {n : Int}
    (hd : d.number? = some n) :
    operate op (.value (.felt x)) d = .ok (.value (.felt y)) ↔ x.operate op n = .ok y := by
  rw [operate_felt op x hd]
  exact Answer.map_eq_ok_apply value_felt_injective

/-- An operator with a field element on the left fails on a number as it does in the field. -/
theorem operate_felt_eq_error {op : Operator} {x : Felt} {d : Datum} {n : Int} {e : Fault}
    (hd : d.number? = some n) :
    operate op (.value (.felt x)) d = .error e ↔ x.operate op n = .error e := by
  rw [operate_felt op x hd]
  exact Answer.map_eq_error

/-- By a number that the prime does not divide there is one quotient. -/
theorem exists_quotient (x : Felt) {d : Datum} {n : Int} (hd : d.number? = some n)
    (hn : ¬ (prime : Int) ∣ n) :
    ∃ q : Felt, operate .div (.value (.felt x)) d = .ok (.value (.felt q)) ∧
      ∀ k : Felt, operate .mul (.value (.felt k)) d = .ok (.value (.felt x)) ↔ k = q := by
  have hne : Felt.ofInt n ≠ 0 := Felt.ofInt_eq_zero.not.mpr hn
  obtain ⟨q, hq⟩ := Felt.exists_div_eq_ok x hne
  refine ⟨q, (operate_felt_eq_ok hd).mpr hq, fun k => ?_⟩
  rw [operate_felt_eq_ok hd]
  show Except.ok (k * Felt.ofInt n) = _ ↔ _
  rw [Except.ok.injEq, Felt.mul_eq_iff hne, ← (Felt.div_eq_ok hne).mp hq, Felt.residue_inj]

/-- The last field element is the power of the first one. -/
def IsPower (x : Felt) (n : Int) (y : Felt) : Prop :=
  operate .pow (.value (.felt x)) (.integer n) = .ok (.value (.felt y))

/-- A power of a field element that is not zero is the one in the field. -/
theorem isPower_iff {x y : Felt} {n : Int} (hx : x ≠ 0) :
    IsPower x n y ↔ y.residue = x.residue ^ n :=
  (operate_felt_eq_ok rfl).trans (Felt.zpow_eq_ok hx)

/-- A field element is divided by every number that the prime does not divide, and the quotient is
what alone multiplied by it gives the dividend; on the other numbers division fails, as the division
of this dividend by zero.  The powers of a field element that is not zero are those in the field:
exponents add up where powers are multiplied, and are multiplied where a power is raised.  The power
of zero is zero, one, or the failing division of one by zero, by the sign of the exponent. -/
theorem operate_div_and_operate_pow_obey_field_laws :
    (∀ (x : Felt) (d : Datum) (n : Int), d.number? = some n →
      (¬ (prime : Int) ∣ n → ∃ q : Felt,
        operate .div (.value (.felt x)) d = .ok (.value (.felt q)) ∧
          ∀ k : Felt, operate .mul (.value (.felt k)) d = .ok (.value (.felt x)) ↔ k = q) ∧
      ((prime : Int) ∣ n ↔
        operate .div (.value (.felt x)) d = .error (.divisionByZero x))) ∧
    (∀ (x : Felt) (m n : Int), x ≠ 0 → ∃ y z w : Felt,
      IsPower x m y ∧ y.residue = x.residue ^ m ∧ IsPower x n z ∧ IsPower x (m + n) (y * z) ∧
        IsPower x (m * n) w ∧ IsPower y n w) ∧
    ∀ n : Int, (0 < n → IsPower 0 n 0) ∧ (n = 0 → IsPower 0 n 1) ∧
      (n < 0 → operate .pow (.value (.felt 0)) (.integer n) = .error (.divisionByZero 1)) := by
  refine ⟨fun x d n hd => ⟨exists_quotient x hd, ?_⟩, fun x m n hx => ?_, fun n => ⟨?_, ?_, ?_⟩⟩
  · rw [operate_felt_eq_error hd, ← Felt.ofInt_eq_zero]
    exact Felt.div_eq_error_iff.symm
  · have hne : x.residue ≠ 0 := Felt.residue_ne_zero.mpr hx
    obtain ⟨y, hy⟩ := Felt.residue_surjective (x.residue ^ m)
    obtain ⟨z, hz⟩ := Felt.residue_surjective (x.residue ^ n)
    obtain ⟨w, hw⟩ := Felt.residue_surjective (x.residue ^ (m * n))
    have hyne : y ≠ 0 := Felt.residue_ne_zero.mp (hy ▸ zpow_ne_zero m hne)
    refine ⟨y, z, w, (isPower_iff hx).mpr hy, hy, (isPower_iff hx).mpr hz, ?_,
      (isPower_iff hx).mpr hw, ?_⟩
    · rw [isPower_iff hx, Felt.residue_mul, hy, hz, zpow_add₀ hne]
    · rw [isPower_iff hyne, hw, hy, zpow_mul]
  · exact fun hn => (operate_felt_eq_ok rfl).mpr (Felt.zero_zpow_of_pos hn)
  · rintro rfl
    exact (operate_felt_eq_ok rfl).mpr (Felt.zpow_zero 0)
  · exact fun hn => (operate_felt_eq_error rfl).mpr (Felt.zero_zpow_of_neg hn)

/-- A divisor that is negative and not reduced has a quotient, a multiple of the prime has none, and
exponents of either sign are added and multiplied. -/
theorem operate_div_and_operate_pow_obey_field_laws_unreduced :
    (∃ q : Felt,
      operate .div (.value (.felt 5)) (.integer (-2 * prime - 3)) = .ok (.value (.felt q)) ∧
        ∀ k : Felt, operate .mul (.value (.felt k)) (.integer (-2 * prime - 3)) =
          .ok (.value (.felt 5)) ↔ k = q) ∧
      operate .div (.value (.felt 5)) (.integer (3 * prime)) = .error (.divisionByZero 5) ∧
      (∃ y z w : Felt, IsPower 5 (-7) y ∧ y.residue = (5 : Felt).residue ^ (-7 : Int) ∧
        IsPower 5 3 z ∧ IsPower 5 (-7 + 3) (y * z) ∧ IsPower 5 (-7 * 3) w ∧ IsPower y 3 w) ∧
      IsPower 0 4 0 ∧ IsPower 0 0 1 ∧
        operate .pow (.value (.felt 0)) (.integer (-4)) = .error (.divisionByZero 1) := by
  obtain ⟨hdiv, hpow, hzero⟩ := operate_div_and_operate_pow_obey_field_laws
  exact ⟨(hdiv 5 _ _ rfl).1 (by decide +kernel), (hdiv 5 _ _ rfl).2.mp (by decide +kernel),
    hpow 5 (-7) 3 (by decide), (hzero 4).1 (by decide), (hzero 0).2.1 rfl,
    (hzero (-4)).2.2 (by decide)⟩

end Datum

end Cairo
