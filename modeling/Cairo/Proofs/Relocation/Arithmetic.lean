import Cairo.Proofs.Datum.Arithmetic
import Cairo.Proofs.Linear.Memory
import Cairo.Proofs.Relocation.Rules

/-!
# Relocation and address arithmetic

Relocation by rules and by a table shifts all addresses of one segment by the same amount.  A number
added to an address is added modulo the prime, and the sum has to be an offset.  As two offsets
together are smaller than the prime, nothing else can happen when the shift comes first
(`relocateAddress_of_isMove`), so both kinds of relocation commute with sums and keep differences
(`relocation_commutes_with_arithmetic`).
-/

namespace Cairo

open Datum (operate)

/-! ## Moves -/

namespace Address

/-- The second address is in the segment of the first one, and modulo the prime its offset is larger
by a number. -/
def IsMove (n : Int) (a b : Address) : Prop :=
  b.segment = a.segment ∧ (b.offset : ZMod prime) = a.offset + n

/-- A sum of an address and anything else is an address, moved by a number. -/
theorem isMove_of_operate_add {a : Address} {x w : Datum}
    (h : operate .add (.value (.address a)) x = .ok w) :
    ∃ b n, w = .value (.address b) ∧ x.number? = some n ∧ IsMove n a b := by
  have hshift : ∀ n, x.integer? = some n →
      ∃ b, w = .value (.address b) ∧ IsMove n a b := by
    intro n hn
    rw [(Datum.operate_integer a hn).1] at h
    obtain ⟨v, hv, rfl⟩ := Answer.map_eq_ok.mp h
    obtain ⟨b, hb, rfl⟩ := Answer.map_eq_ok.mp hv
    obtain ⟨hsegment, hoffset⟩ := shift_eq_ok.mp hb
    refine ⟨b, rfl, hsegment, ?_⟩
    rw [← Int.cast_natCast, hoffset, Int.cast_add, Int.cast_natCast]
  cases x with
  | value v =>
    rw [Datum.operate_add] at h
    obtain ⟨z, hz, rfl⟩ := Answer.map_eq_ok.mp h
    cases v with
    | felt y =>
      obtain ⟨b, hb, rfl⟩ := Value.add_address_felt.mp hz
      obtain ⟨hsegment, hoffset⟩ := addFelt_eq_ok.mp hb
      refine ⟨b, y.val, rfl, rfl, hsegment, ?_⟩
      rw [hoffset, Int.cast_natCast, Felt.natCast_val]
    | address c => cases hz
  | truth t =>
    obtain ⟨b, hb⟩ := hshift _ rfl
    exact ⟨b, _, hb.1, rfl, hb.2⟩
  | integer n =>
    obtain ⟨b, hb⟩ := hshift _ rfl
    exact ⟨b, _, hb.1, rfl, hb.2⟩
  | nothing => cases h
  | text s => cases h
  | list items => cases h

/-- Addresses that are moved by the same number keep their distance: if one of them has been shifted
before, the sum for the other is shifted likewise. -/
theorem shift_of_isMove {a b c d base : Address} {n : Int} (hab : IsMove n a b)
    (hcd : IsMove n c d) (hc : base.shift a.offset = .ok c) : base.shift b.offset = .ok d := by
  obtain ⟨hcsegment, hcoffset⟩ := shift_eq_ok.mp hc
  refine shift_eq_ok.mpr ⟨hcd.1.trans hcsegment, ?_⟩
  -- Both sides are of one class, and the sum of two offsets is smaller than the prime.
  have hclass : ((d.offset : Nat) : ZMod prime) =
      ((base.offset + b.offset : Nat) : ZMod prime) := by
    have hsum : c.offset = base.offset + a.offset := by omega
    rw [hcd.2, Nat.cast_add, hab.2, hsum, Nat.cast_add, add_assoc]
  have hbound : base.offset + b.offset < prime := by
    have hbase := base.offset_lt
    have hb := b.offset_lt
    have hprime : offsetBound + offsetBound < prime := by decide
    omega
  rw [ZMod.natCast_eq_natCast_iff', Nat.mod_eq_of_lt (d.offset_lt.trans offsetBound_lt_prime),
    Nat.mod_eq_of_lt hbound] at hclass
  rw [hclass, Int.natCast_add]

/-- Two addresses of one segment have a difference. -/
theorem sub_eq_ok_ofInt {a b : Address} (h : a.segment = b.segment) :
    a.sub b = .ok (.ofInt ((a.offset : Int) - b.offset)) := by
  unfold sub
  rw [if_pos h]

end Address

namespace Memory

open Address (IsMove)

/-- Rules relocate all addresses of a segment by the same shift. -/
theorem exists_shift_of_relocateAddress {rules : Relocations} {a c : Address}
    (h : relocateAddress rules a = .ok c) : ∃ base : Address, base.shift a.offset = .ok c ∧
      ∀ b : Address, b.segment = a.segment → relocateAddress rules b = base.shift b.offset := by
  by_cases hmoved : IsMoved rules a.segment
  · obtain ⟨hneg, base, hbase⟩ := hmoved
    have hshift : ∀ b : Address, b.segment = a.segment →
        relocateAddress rules b = base.shift b.offset := fun b hb =>
      relocateAddress_of_segment_eq hneg hbase hb
    exact ⟨base, hshift a rfl ▸ h, hshift⟩
  · -- In a segment that is not moved the shift is by nothing, from the base on.
    have hshift : ∀ b : Address, b.segment = a.segment →
        relocateAddress rules b = (Address.base a.segment).shift b.offset := by
      intro b hb
      rw [relocateAddress_of_not_isMoved (hb ▸ hmoved), Address.shift_base _ b.offset_lt]
      exact congrArg Except.ok (Address.ext hb rfl)
    exact ⟨.base a.segment, hshift a rfl ▸ h, hshift⟩

/-- Where an address and its relocated address are moved by the same number, the first sum is
relocated to the second one. -/
theorem relocateAddress_of_isMove {rules : Relocations} {a b c d : Address} {n : Int}
    (hab : IsMove n a b) (hc : relocateAddress rules a = .ok c) (hcd : IsMove n c d) :
    relocateAddress rules b = .ok d := by
  obtain ⟨base, hbase, hshift⟩ := exists_shift_of_relocateAddress hc
  rw [hshift b hab.1]
  exact Address.shift_of_isMove hab hcd hbase

/-- Relocated addresses of one segment have the distance that they had before. -/
theorem sub_of_relocateAddress {rules : Relocations} {a b c d : Address}
    (hsegment : a.segment = b.segment) (hc : relocateAddress rules a = .ok c)
    (hd : relocateAddress rules b = .ok d) : c.sub d = a.sub b := by
  obtain ⟨base, hbase, hshift⟩ := exists_shift_of_relocateAddress hc
  rw [hshift b hsegment.symm] at hd
  obtain ⟨hcsegment, hcoffset⟩ := Address.shift_eq_ok.mp hbase
  obtain ⟨hdsegment, hdoffset⟩ := Address.shift_eq_ok.mp hd
  have hdistance : (c.offset : Int) - d.offset = a.offset - b.offset := by omega
  rw [Address.sub_eq_ok_ofInt (hcsegment.trans hdsegment.symm), Address.sub_eq_ok_ofInt hsegment,
    hdistance]

end Memory

/-! ## Tables -/

namespace Value

open Address (IsMove)

/-- The field element of an address whose segment has an entry in the table. -/
theorem linear_address {table : List Int} {i start : Int} (hi : 0 ≤ i)
    (hstart : table[i.toNat]? = some start) {a : Address} (ha : a.segment = i) :
    linear table (.address a) = .ok (.ofInt (start + a.offset)) := by
  subst ha
  exact Answer.map_eq_ok.mpr ⟨_, Address.linear_eq_ok.mpr ⟨hi, start, hstart, rfl⟩, rfl⟩

/-- The field elements of an address and of one that is moved by a number differ by the number. -/
theorem ofInt_offset_of_isMove {a b : Address} {n : Int} (h : IsMove n a b) (start : Int) :
    Felt.ofInt (start + a.offset) + Felt.ofInt n = Felt.ofInt (start + b.offset) := by
  rw [← Felt.residue_inj, Felt.residue_add, Felt.residue_ofInt, Felt.residue_ofInt,
    Felt.residue_ofInt]
  push_cast
  rw [h.2, add_assoc]

/-- The field elements of two addresses of one segment differ as their offsets do. -/
theorem ofInt_offset_sub (start : Int) (m n : Nat) :
    Felt.ofInt (start + m) - Felt.ofInt (start + n) = Felt.ofInt ((m : Int) - n) := by
  rw [← Felt.residue_inj, Felt.residue_sub, Felt.residue_ofInt, Felt.residue_ofInt,
    Felt.residue_ofInt]
  push_cast
  ring

end Value

namespace Memory

/-- Relocation commutes with the arithmetic of addresses.  If sums of an address and of its image
under some rules with the same datum are there, the second sum is the image of the first one; the
difference of two addresses is that of their images.  A table that has an entry for a segment turns
all its addresses, and all sums with them, into field elements with the same sums and
differences. -/
theorem relocation_commutes_with_arithmetic :
    (∀ (rules : Relocations) (a : Address) (v : Value) (x w z : Datum),
      operate .add (.value (.address a)) x = .ok w →
      relocateValue rules (.address a) = .ok v → operate .add (.value v) x = .ok z →
        ∃ b d, w = .value b ∧ z = .value d ∧ relocateValue rules b = .ok d) ∧
    (∀ (rules : Relocations) (a b : Address) (v w : Value), a.segment = b.segment →
      relocateValue rules (.address a) = .ok v → relocateValue rules (.address b) = .ok w →
        ∃ x : Felt, operate .sub (.value (.address a)) (.value (.address b)) =
            .ok (.value (.felt x)) ∧
          operate .sub (.value v) (.value w) = .ok (.value (.felt x))) ∧
    ∀ (table : List Int) (a : Address), 0 ≤ a.segment → a.segment < table.length →
      ∃ y, Value.linear table (.address a) = .ok y ∧
        (∀ x w, operate .add (.value (.address a)) x = .ok w → ∃ b z, w = .value b ∧
          b.linear table = .ok z ∧ operate .add (.value (.felt y)) x = .ok (.value (.felt z))) ∧
        ∀ b : Address, b.segment = a.segment → ∃ z d : Felt,
          Value.linear table (.address b) = .ok z ∧
          operate .sub (.value (.address a)) (.value (.address b)) = .ok (.value (.felt d)) ∧
          operate .sub (.value (.felt y)) (.value (.felt z)) = .ok (.value (.felt d)) := by
  refine ⟨?_, ?_, ?_⟩
  · intro rules a v x w z hw hv hz
    obtain ⟨c, hc, rfl⟩ := Answer.map_eq_ok.mp hv
    obtain ⟨b, n, rfl, hn, hab⟩ := Address.isMove_of_operate_add hw
    obtain ⟨d, k, rfl, hk, hcd⟩ := Address.isMove_of_operate_add hz
    obtain rfl := Option.some.inj (hn.symm.trans hk)
    refine ⟨.address b, .address d, rfl, rfl, Answer.map_eq_ok.mpr ⟨d, ?_, rfl⟩⟩
    exact relocateAddress_of_isMove hab hc hcd
  · intro rules a b v w hsegment hv hw
    obtain ⟨c, hc, rfl⟩ := Answer.map_eq_ok.mp hv
    obtain ⟨d, hd, rfl⟩ := Answer.map_eq_ok.mp hw
    have hsub := Address.sub_eq_ok_ofInt hsegment
    refine ⟨_, Datum.operate_sub_eq_ok.mpr (Answer.map_eq_ok.mpr ⟨_, hsub, rfl⟩),
      Datum.operate_sub_eq_ok.mpr (Answer.map_eq_ok.mpr ⟨_, ?_, rfl⟩)⟩
    rw [sub_of_relocateAddress hsegment hc hd, hsub]
  · intro table a hreal hlt
    obtain ⟨start, hstart⟩ : ∃ start, table[a.segment.toNat]? = some start :=
      ⟨_, List.getElem?_eq_getElem (by omega)⟩
    have hlinear : ∀ {b : Address}, b.segment = a.segment →
        Value.linear table (.address b) = .ok (.ofInt (start + b.offset)) :=
      fun hb => Value.linear_address hreal hstart hb
    refine ⟨_, hlinear rfl, fun x w hw => ?_, fun b hb => ?_⟩
    · obtain ⟨b, n, rfl, hn, hab⟩ := Address.isMove_of_operate_add hw
      refine ⟨.address b, _, rfl, hlinear hab.1, (Datum.operate_felt_eq_ok hn).mpr ?_⟩
      exact congrArg Except.ok (Value.ofInt_offset_of_isMove hab start)
    · refine ⟨_, _, hlinear hb, Datum.operate_sub_eq_ok.mpr (Answer.map_eq_ok.mpr
        ⟨_, Address.sub_eq_ok_ofInt hb.symm, rfl⟩), Datum.operate_sub_eq_ok.mpr ?_⟩
      exact congrArg (fun x => Except.ok (Value.felt x)) (Value.ofInt_offset_sub start _ _)

/-- The field element of minus three moves an address of a temporary segment back, and modulo the
prime so does the sum after its relocation; the table has a negative start, which is reduced. -/
theorem relocation_commutes_with_arithmetic_moving_back :
    relocateValue [(-1, ⟨2, 10, by decide⟩)] (.address ⟨-1, 2, by decide⟩) =
        .ok (.address ⟨2, 12, by decide⟩) ∧
      (∃ x : Felt,
        operate .sub (.value (.address ⟨-1, 2, by decide⟩)) (.value (.address ⟨-1, 5, by decide⟩)) =
          .ok (.value (.felt x)) ∧
        operate .sub (.value (.address ⟨2, 12, by decide⟩))
          (.value (.address ⟨2, 15, by decide⟩)) = .ok (.value (.felt x))) ∧
      ∃ y : Felt, Value.linear [1, 4, -20] (.address ⟨2, 15, by decide⟩) = .ok y ∧
        ∃ z, Value.linear [1, 4, -20] (.address ⟨2, 12, by decide⟩) = .ok z ∧
          operate .add (.value (.felt y)) (.integer (-3)) = .ok (.value (.felt z)) := by
  obtain ⟨hadd, hsub, htable⟩ := relocation_commutes_with_arithmetic
  have hfive : relocateValue [(-1, ⟨2, 10, by decide⟩)] (.address ⟨-1, 5, by decide⟩) =
      .ok (.address ⟨2, 15, by decide⟩) := rfl
  have hback : operate .add (.value (.address ⟨-1, 5, by decide⟩))
      (.value (.felt (.ofInt (-3)))) = .ok (.value (.address ⟨-1, 2, by decide⟩)) :=
    Datum.operate_add_eq_ok.mpr (Value.add_eq_ok_iff_isSum.mpr
      (.address_felt rfl (by decide +kernel)))
  have hback' : operate .add (.value (.address ⟨2, 15, by decide⟩))
      (.value (.felt (.ofInt (-3)))) = .ok (.value (.address ⟨2, 12, by decide⟩)) :=
    Datum.operate_add_eq_ok.mpr (Value.add_eq_ok_iff_isSum.mpr
      (.address_felt rfl (by decide +kernel)))
  obtain ⟨_, _, ⟨⟩, ⟨⟩, htwo⟩ := hadd _ _ _ _ _ _ hback hfive hback'
  obtain ⟨y, hy, hsum, -⟩ := htable [1, 4, -20] ⟨2, 15, by decide⟩ (by decide) (by decide)
  obtain ⟨_, z, ⟨⟩, hz, hyz⟩ :=
    hsum (.integer (-3)) (.value (.address ⟨2, 12, by decide⟩)) rfl
  exact ⟨htwo, hsub _ _ _ _ _ rfl htwo hfive, y, hy, z, hz, hyz⟩

end Memory

end Cairo
