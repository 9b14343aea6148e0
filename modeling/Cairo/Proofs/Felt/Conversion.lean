import Mathlib.Data.Nat.Digits.Defs
import Cairo.Proofs.Felt.Residue

/-!
# Bytes and integers of field elements

A field element is written in 32 bytes, and any bytes are read as the number that they state
(`Bytes.stated`), reduced modulo the prime; so the bytes that are written again as they were read
are those that state a representative in 32 digits (`toBigEndian_ofBigEndian_iff`).  The prime is
odd, so that just one of the integers that represent a field element lies at most half of the prime
away from zero, and `toSigned` finds it (`toSigned_ofInt_iff`).
-/

namespace Cairo

namespace Bytes

/-- The number that bytes state as the digits of a numeral with base 256, most significant first. -/
def stated (bytes : List UInt8) : Nat := Nat.ofDigits 256 (bytes.reverse.map UInt8.toNat)

/-- The least significant byte first, bytes are read as the digits of a numeral with base 256. -/
theorem ofLittleEndian_eq_ofDigits (bytes : List UInt8) :
    ofLittleEndian bytes = Nat.ofDigits 256 (bytes.map UInt8.toNat) := by
  induction bytes with
  | nil => rfl
  | cons b rest ih => rw [ofLittleEndian, ih, List.map_cons, Nat.ofDigits_cons]

/-- The most significant byte first, bytes are read as the number that they state. -/
theorem ofBigEndian_eq_stated (bytes : List UInt8) : ofBigEndian bytes = stated bytes :=
  ofLittleEndian_eq_ofDigits bytes.reverse

/-- Bytes that are read are written again in a width of as many bytes. -/
theorem littleEndian_ofLittleEndian (bytes : List UInt8) :
    littleEndian bytes.length (ofLittleEndian bytes) = bytes := by
  induction bytes with
  | nil => rfl
  | cons b rest ih =>
    have hlow : UInt8.ofNat (b.toNat + 256 * ofLittleEndian rest) = b := by
      apply UInt8.toNat_inj.mp
      rw [UInt8.toNat_ofNat', Nat.add_mul_mod_self_left, Nat.mod_eq_of_lt b.toNat_lt]
    have hhigh : (b.toNat + 256 * ofLittleEndian rest) / 256 = ofLittleEndian rest := by
      rw [Nat.add_mul_div_left _ _ (by decide), Nat.div_eq_of_lt b.toNat_lt, Nat.zero_add]
    rw [List.length_cons, ofLittleEndian, littleEndian, hlow, hhigh, ih]

/-- The same holds of the other order. -/
theorem bigEndian_ofBigEndian (bytes : List UInt8) :
    bigEndian bytes.length (ofBigEndian bytes) = bytes := by
  unfold bigEndian ofBigEndian
  rw [← List.length_reverse, littleEndian_ofLittleEndian, List.reverse_reverse]

/-- The bytes of a field element are read as its representative. -/
theorem ofLittleEndian_toLittleEndian (x : Felt) : ofLittleEndian x.toLittleEndian = x.val := by
  unfold Felt.toLittleEndian
  rw [ofLittleEndian_littleEndian]
  exact Nat.mod_eq_of_lt (Nat.lt_trans x.val_lt (by decide))

/-- The same holds of the other order. -/
theorem ofBigEndian_toBigEndian (x : Felt) : ofBigEndian x.toBigEndian = x.val := by
  have hreverse : x.toBigEndian.reverse = x.toLittleEndian := List.reverse_reverse _
  unfold ofBigEndian
  rw [hreverse, ofLittleEndian_toLittleEndian]

end Bytes

namespace Felt

/-! ## Bytes -/

/-- Bytes that are read as a field element are written again as they were, the most significant
first, just if they are 32 and state a number below the prime. -/
theorem toBigEndian_ofBigEndian_iff (bytes : List UInt8) :
    (ofBigEndian bytes).toBigEndian = bytes ↔ bytes.length = 32 ∧ Bytes.stated bytes < prime := by
  rw [← Bytes.ofBigEndian_eq_stated]
  constructor
  · intro h
    have hread : Bytes.ofBigEndian bytes = (ofBigEndian bytes).val := by
      rw [← Bytes.ofBigEndian_toBigEndian, h]
    exact ⟨h ▸ Bytes.length_bigEndian 32 _, hread ▸ (ofBigEndian bytes).val_lt⟩
  · rintro ⟨hlength, hlt⟩
    unfold ofBigEndian toBigEndian
    rw [val_ofNat, Nat.mod_eq_of_lt hlt, ← hlength, Bytes.bigEndian_ofBigEndian]

/-! ## Integers -/

/-- The prime is odd. -/
theorem two_mul_half_prime : 2 * (prime / 2) + 1 = prime := by decide

/-- A field element is represented by the integer near zero that it stands for. -/
theorem ofInt_toSigned (x : Felt) : ofInt x.toSigned = x := by
  rw [← residue_inj, residue_ofInt]
  unfold toSigned
  split
  · rw [Int.cast_sub, Int.cast_natCast, Int.cast_natCast, ZMod.natCast_self, sub_zero, natCast_val]
  · rw [Int.cast_natCast, natCast_val]

/-- The integer that a field element stands for lies at most half of the prime away from zero. -/
theorem abs_toSigned_le (x : Felt) : |x.toSigned| ≤ (prime / 2 : Nat) := by
  have hlt := x.val_lt
  have hodd := two_mul_half_prime
  unfold toSigned
  rw [abs_le]
  split <;> omega

/-- Two integers that represent the same field element differ by a multiple of the prime. -/
theorem dvd_sub_of_ofInt_eq {m n : Int} (h : ofInt m = ofInt n) : (prime : Int) ∣ n - m := by
  rw [← residue_inj, residue_ofInt, residue_ofInt] at h
  exact (ZMod.intCast_eq_intCast_iff_dvd_sub m n prime).mp h

/-- An integer is found again from the field element that it represents just if it lies at most half
of the prime away from zero. -/
theorem toSigned_ofInt_iff (n : Int) : (ofInt n).toSigned = n ↔ |n| ≤ (prime / 2 : Nat) := by
  constructor
  · intro h
    rw [← h]
    exact abs_toSigned_le _
  · intro hn
    have hm := abs_toSigned_le (ofInt n)
    have hodd := two_mul_half_prime
    have hnear : |n - (ofInt n).toSigned| < prime := by
      rw [abs_le] at hn hm
      rw [abs_lt]
      omega
    have hzero := Int.eq_zero_of_abs_lt_dvd (dvd_sub_of_ofInt_eq (ofInt_toSigned (ofInt n))) hnear
    exact (sub_eq_zero.mp hzero).symm

/-! ## Both -/

/-- A field element is read back from its bytes, of which there are 32 in either order, and from the
integer that it stands for, which lies at most half of the prime away from zero.  Bytes are read as
the number that they state modulo the prime, and they are written again as they were just if they
are 32 and state a number below the prime; an integer is found again just if it lies at most half of
the prime away from zero. -/
theorem bytes_and_integers_are_read_back :
    (∀ x : Felt, ofBigEndian x.toBigEndian = x ∧ ofLittleEndian x.toLittleEndian = x ∧
      x.toLittleEndian = x.toBigEndian.reverse ∧ x.toBigEndian.length = 32 ∧
      x.toLittleEndian.length = 32 ∧ ofInt x.toSigned = x ∧ |x.toSigned| ≤ (prime / 2 : Nat)) ∧
    (∀ bytes : List UInt8, (ofBigEndian bytes).val = Bytes.stated bytes % prime ∧
      ((ofBigEndian bytes).toBigEndian = bytes ↔
        bytes.length = 32 ∧ Bytes.stated bytes < prime)) ∧
    ∀ n : Int, (ofInt n).toSigned = n ↔ |n| ≤ (prime / 2 : Nat) := by
  refine ⟨fun x => ⟨?_, ?_, (List.reverse_reverse _).symm, Bytes.length_bigEndian 32 _,
    Bytes.length_littleEndian 32 _, ofInt_toSigned x, abs_toSigned_le x⟩,
    fun bytes => ⟨?_, toBigEndian_ofBigEndian_iff bytes⟩, toSigned_ofInt_iff⟩
  · unfold ofBigEndian
    rw [Bytes.ofBigEndian_toBigEndian, ofNat_val]
  · unfold ofLittleEndian
    rw [Bytes.ofLittleEndian_toLittleEndian, ofNat_val]
  · unfold ofBigEndian
    rw [val_ofNat, Bytes.ofBigEndian_eq_stated]

end Felt

end Cairo
