import Cairo.Proofs.Action
import Cairo.Proofs.Felt.Residue

/-!
# Sums and differences of values

An address moves within its segment.  Since offsets are smaller than the prime, a move by a field
element is determined by the classes of the offsets (`addFelt_eq_ok`), and what a difference
gives can be added again (`add_of_sub`).
-/

namespace Cairo

/-- Offsets are smaller than the prime. -/
theorem offsetBound_lt_prime : offsetBound < prime := by decide

namespace Address

/-- An address that is made of coordinates has them. -/
theorem make_eq_ok {i o : Int} {a : Address} :
    make i o = .ok a ↔ a.segment = i ∧ (a.offset : Int) = o := by
  rw [← mk?_eq_some_iff]
  unfold make
  cases mk? i o with
  | none => simp
  | some b => simp

/-- An address is shifted by an integer within its segment. -/
theorem shift_eq_ok {a b : Address} {k : Int} :
    a.shift k = .ok b ↔ b.segment = a.segment ∧ (b.offset : Int) = a.offset + k := by
  rw [← mk?_eq_some_iff]
  unfold shift
  cases mk? a.segment (a.offset + k) with
  | none => simp
  | some c => simp

/-- The cells of a segment are reached from its base. -/
theorem shift_base (i : Int) {k : Nat} (hk : k < offsetBound) :
    (base i).shift k = .ok ⟨i, k, hk⟩ := by
  rw [shift_eq_ok]
  simp

/-- An offset of a segment is smaller than the bound. -/
theorem exists_shift_base {i k : Int} :
    (∃ a, (base i).shift k = .ok a) ↔ 0 ≤ k ∧ k < offsetBound := by
  constructor
  · rintro ⟨a, ha⟩
    obtain ⟨-, hoffset⟩ := shift_eq_ok.mp ha
    have := a.offset_lt
    rw [offset_base] at hoffset
    omega
  · rintro ⟨hk, hlt⟩
    obtain ⟨n, rfl⟩ := Int.eq_ofNat_of_zero_le hk
    exact ⟨_, shift_base i (Int.ofNat_lt.mp hlt)⟩

/-- Two moves within a segment make up one. -/
theorem shift_trans {a b c : Address} {j k : Int} (hb : a.shift j = .ok b) :
    b.shift k = .ok c ↔ a.shift (j + k) = .ok c := by
  obtain ⟨hseg, hoff⟩ := shift_eq_ok.mp hb
  rw [shift_eq_ok, shift_eq_ok, hseg, hoff, Int.add_assoc]

/-- An address moved by a field element has the sum modulo the prime as its offset. -/
theorem addFelt_eq_ok_iff_offset {a b : Address} {x : Felt} :
    a.addFelt x = .ok b ↔ b.segment = a.segment ∧ b.offset = (a.offset + x.val) % prime := by
  rw [← Int.ofNat_inj, ← mk?_eq_some_iff]
  unfold addFelt
  cases mk? a.segment ((a.offset + x.val) % prime : Nat) with
  | none => simp
  | some c => simp

/-- An address is moved by a field element within its segment, modulo the prime. -/
theorem addFelt_eq_ok {a b : Address} {x : Felt} :
    a.addFelt x = .ok b ↔
      b.segment = a.segment ∧ (b.offset : ZMod prime) = a.offset + x.residue := by
  rw [addFelt_eq_ok_iff_offset, ← Felt.natCast_val, ← Nat.cast_add, ZMod.natCast_eq_natCast_iff',
    Nat.mod_eq_of_lt (b.offset_lt.trans offsetBound_lt_prime)]

/-- Shifting fails only where the offset leaves its range. -/
theorem eq_offsetExceeded_of_shift {a : Address} {k : Int} {e : Fault} (h : a.shift k = .error e) :
    e = .offsetExceeded a k := by
  unfold shift at h
  split at h
  · cases h
  · exact (Except.error.inj h).symm

/-- Adding a field element fails only where the offset leaves its range. -/
theorem eq_offsetExceeded_of_addFelt {a : Address} {x : Felt} {e : Fault}
    (h : a.addFelt x = .error e) : e = .offsetExceeded a x.val := by
  unfold addFelt at h
  split at h
  · cases h
  · exact (Except.error.inj h).symm

/-- An integer moves an address as the field element that it represents does, if it is so small
that modulo the prime it leads from an offset to no other offset than their sum. -/
theorem addFelt_ofInt_eq_ok {a b : Address} {k : Int} (hk : |k| ≤ (prime : Int) - offsetBound) :
    a.addFelt (.ofInt k) = .ok b ↔ a.shift k = .ok b := by
  rw [addFelt_eq_ok, shift_eq_ok, Felt.residue_ofInt]
  refine and_congr_right fun _ => ⟨fun h => ?_, fun h => ?_⟩
  · have hdvd : (prime : Int) ∣ b.offset - (a.offset + k) := by
      rw [← ZMod.intCast_zmod_eq_zero_iff_dvd]
      push_cast
      rw [h, sub_self]
    have hlt : |(b.offset : Int) - (a.offset + k)| < prime := by
      have ha := a.offset_lt
      have hb := b.offset_lt
      have hlow := (abs_le.mp hk).1
      have hhigh := (abs_le.mp hk).2
      rw [abs_lt]
      omega
    exact sub_eq_zero.mp (Int.eq_zero_of_abs_lt_dvd hdvd hlt)
  · rw [← Int.cast_natCast, h, Int.cast_add, Int.cast_natCast]

/-- The difference of two addresses of one segment is that of their offsets. -/
theorem sub_eq_ok {a b : Address} {x : Felt} :
    a.sub b = .ok x ↔ a.segment = b.segment ∧ x.residue = a.offset - b.offset := by
  unfold sub
  by_cases hseg : a.segment = b.segment
  · rw [if_pos hseg, Except.ok.injEq, ← Felt.residue_inj, Felt.residue_ofInt, Int.cast_sub,
      Int.cast_natCast, Int.cast_natCast]
    exact ⟨fun h => ⟨hseg, h.symm⟩, fun h => h.2.symm⟩
  · rw [if_neg hseg]
    exact ⟨nofun, fun h => absurd h.1 hseg⟩

end Address

namespace Value

/-- The sum of two field elements. -/
theorem add_felt_felt (x y : Felt) : add (.felt x) (.felt y) = .ok (.felt (x + y)) := rfl

/-- The sum of an address and a field element is an address. -/
theorem add_address_felt {a : Address} {x : Felt} {v : Value} :
    add (.address a) (.felt x) = .ok v ↔ ∃ b, a.addFelt x = .ok b ∧ v = .address b := by
  show (a.addFelt x).map address = _ ↔ _
  rw [Answer.map_eq_ok]
  simp only [eq_comm]

/-- Sums that exist do not depend on the order of their summands. -/
theorem add_comm_of_ok {v w z : Value} (h : v.add w = .ok z) : w.add v = .ok z := by
  cases v with
  | felt x =>
    cases w with
    | felt y =>
      rw [add_felt_felt] at h ⊢
      rwa [Felt.add_comm]
    | address b => exact h
  | address a =>
    cases w with
    | felt y => exact h
    | address b => cases h

/-- What is left of a value when another one is taken away gives the value together with it. -/
theorem add_of_sub {d v w : Value} (h : d.sub v = .ok w) : w.add v = .ok d := by
  cases d with
  | felt x =>
    cases v with
    | felt y =>
      obtain rfl : felt (x - y) = w := Except.ok.inj h
      have hsum : x - y + y = x := by
        apply Felt.residue_injective
        rw [Felt.residue_add, Felt.residue_sub, sub_add_cancel]
      rw [add_felt_felt, hsum]
    | address b => cases h
  | address a =>
    cases v with
    | felt y =>
      obtain ⟨b, hb, rfl⟩ := Answer.map_eq_ok.mp h
      obtain ⟨hseg, hoff⟩ := Address.addFelt_eq_ok.mp hb
      refine add_address_felt.mpr ⟨a, Address.addFelt_eq_ok.mpr ⟨hseg.symm, ?_⟩, rfl⟩
      rw [hoff, Felt.residue_neg, neg_add_cancel_right]
    | address b =>
      obtain ⟨x, hx, rfl⟩ := Answer.map_eq_ok.mp h
      obtain ⟨hseg, hoff⟩ := Address.sub_eq_ok.mp hx
      refine add_comm_of_ok (add_address_felt.mpr ⟨a, Address.addFelt_eq_ok.mpr ⟨hseg, ?_⟩, rfl⟩)
      rw [hoff, add_sub_cancel]

/-- A sum does not depend on the order of its summands. -/
theorem add_eq_ok_comm {v w z : Value} : v.add w = .ok z ↔ w.add v = .ok z :=
  ⟨add_comm_of_ok, add_comm_of_ok⟩

/-- A difference is what added to the subtrahend gives the minuend. -/
theorem sub_eq_ok_iff {d v w : Value} : d.sub v = .ok w ↔ w.add v = .ok d := by
  refine ⟨add_of_sub, fun h => ?_⟩
  cases w with
  | felt x =>
    cases v with
    | felt y =>
      obtain rfl : felt (x + y) = d := Except.ok.inj h
      have hdifference : x + y - y = x := by
        apply Felt.residue_injective
        rw [Felt.residue_sub, Felt.residue_add, add_sub_cancel_right]
      show Except.ok (felt (x + y - y)) = _
      rw [hdifference]
    | address b =>
      obtain ⟨a, ha, rfl⟩ := Answer.map_eq_ok.mp h
      obtain ⟨hseg, hoff⟩ := Address.addFelt_eq_ok.mp ha
      refine Answer.map_eq_ok.mpr ⟨x, Address.sub_eq_ok.mpr ⟨hseg, ?_⟩, rfl⟩
      rw [hoff, add_sub_cancel_left]
  | address a =>
    cases v with
    | felt y =>
      obtain ⟨b, hb, rfl⟩ := Answer.map_eq_ok.mp h
      obtain ⟨hseg, hoff⟩ := Address.addFelt_eq_ok.mp hb
      refine Answer.map_eq_ok.mpr ⟨a, Address.addFelt_eq_ok.mpr ⟨hseg.symm, ?_⟩, rfl⟩
      rw [hoff, Felt.residue_neg, add_neg_cancel_right]
    | address b => cases h

end Value

end Cairo
