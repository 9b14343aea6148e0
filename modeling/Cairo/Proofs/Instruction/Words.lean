import Mathlib.Algebra.Ring.Int.Defs
import Mathlib.Algebra.Ring.Nat
import Cairo.Instruction.Encoding

/-!
# Words of instructions

A word spells an instruction when each of its parts, read by itself, is what the instruction has:
three biased offsets, and one bit for each flag (`Spells`).  A word is determined by what it spells
(`Spells.unique_word`), and `encode` writes the word that spells an instruction with offsets in
range (`spells_encode`).
-/

namespace Cairo.Instruction

/-- The instruction has the flag at a position above the offsets. -/
def hasFlag (i : Instruction) : Nat → Bool
  | 0 => i.dstRegister = .fp
  | 1 => i.op0Register = .fp
  | 2 => i.op1Source = .immediate
  | 3 => i.op1Source = .fp
  | 4 => i.op1Source = .ap
  | 5 => i.result = .add
  | 6 => i.result = .mul
  | 7 => i.pcRule = .jump
  | 8 => i.pcRule = .jumpRelative
  | 9 => i.pcRule = .jumpNonzero
  | 10 => i.apRule = .addResult
  | 11 => i.apRule = .addOne
  | 12 => i.opcode = .call
  | 13 => i.opcode = .ret
  | 14 => i.opcode = .assertEq
  | _ => false

/-- The word has 63 bits: three offsets of 16 bits, biased by `2 ^ 15`, and the flags of the
instruction. -/
structure Spells (word : Nat) (i : Instruction) : Prop where
  lt : word < 2 ^ 63
  off0 : i.off0 = (word % 2 ^ 16 : Nat) - 2 ^ 15
  off1 : i.off1 = (word / 2 ^ 16 % 2 ^ 16 : Nat) - 2 ^ 15
  off2 : i.off2 = (word / 2 ^ 32 % 2 ^ 16 : Nat) - 2 ^ 15
  flags : ∀ k < 15, word.testBit (48 + k) = i.hasFlag k

/-- A number of 63 bits is determined by its three lower parts and its bits above them. -/
theorem eq_of_parts {v w : Nat} (hv : v < 2 ^ 63) (hw : w < 2 ^ 63)
    (h0 : v % 2 ^ 16 = w % 2 ^ 16) (h1 : v / 2 ^ 16 % 2 ^ 16 = w / 2 ^ 16 % 2 ^ 16)
    (h2 : v / 2 ^ 32 % 2 ^ 16 = w / 2 ^ 32 % 2 ^ 16)
    (hflags : ∀ k < 15, v.testBit (48 + k) = w.testBit (48 + k)) : v = w := by
  have htop : v / 2 ^ 48 = w / 2 ^ 48 := by
    refine Nat.eq_of_testBit_eq fun k => ?_
    rw [Nat.testBit_div_two_pow, Nat.testBit_div_two_pow, Nat.add_comm k]
    rcases Nat.lt_or_ge k 15 with hk | hk
    · exact hflags k hk
    · have hpow : 2 ^ 63 ≤ 2 ^ (48 + k) := Nat.pow_le_pow_right (by omega) (by omega)
      rw [Nat.testBit_lt_two_pow (Nat.lt_of_lt_of_le hv hpow),
        Nat.testBit_lt_two_pow (Nat.lt_of_lt_of_le hw hpow)]
  omega

/-- An instruction is spelled by one word only. -/
theorem Spells.unique_word {v w : Nat} {i : Instruction} (hv : Spells v i) (hw : Spells w i) :
    v = w := by
  have h0 := hv.off0.symm.trans hw.off0
  have h1 := hv.off1.symm.trans hw.off1
  have h2 := hv.off2.symm.trans hw.off2
  refine eq_of_parts hv.lt hw.lt (by omega) (by omega) (by omega) fun k hk => ?_
  rw [hv.flags k hk, hw.flags k hk]

/-! ## The word that is written -/

/-- The flags that are written are those of the instruction. -/
theorem flags_eq_ofBits (i : Instruction) :
    i.flags = Nat.ofBits fun k : Fin 15 => i.hasFlag k := by
  have hdst : registerFlag i.dstRegister = (i.hasFlag 0).toNat := by
    unfold hasFlag registerFlag
    cases i.dstRegister <;> rfl
  have hop0 : registerFlag i.op0Register = (i.hasFlag 1).toNat := by
    unfold hasFlag registerFlag
    cases i.op0Register <;> rfl
  have hop1 : flagOf op1Flags i.op1Source =
      4 * (i.hasFlag 2).toNat + 8 * (i.hasFlag 3).toNat + 16 * (i.hasFlag 4).toNat := by
    unfold hasFlag
    cases i.op1Source <;> simp [flagOf, op1Flags]
  have hres : flagOf resultFlags i.result =
      32 * (i.hasFlag 5).toNat + 64 * (i.hasFlag 6).toNat := by
    unfold hasFlag
    cases i.result <;> simp [flagOf, resultFlags]
  have hpc : flagOf pcFlags i.pcRule =
      128 * (i.hasFlag 7).toNat + 256 * (i.hasFlag 8).toNat + 512 * (i.hasFlag 9).toNat := by
    unfold hasFlag
    cases i.pcRule <;> simp [flagOf, pcFlags]
  have hap : flagOf apFlags i.apRule =
      1024 * (i.hasFlag 10).toNat + 2048 * (i.hasFlag 11).toNat := by
    unfold hasFlag
    cases i.apRule <;> simp [flagOf, apFlags]
  have hopcode : flagOf opcodeFlags i.opcode =
      4096 * (i.hasFlag 12).toNat + 8192 * (i.hasFlag 13).toNat +
        16384 * (i.hasFlag 14).toNat := by
    unfold hasFlag
    cases i.opcode <;> simp [flagOf, opcodeFlags]
  have hbits : (Nat.ofBits fun k : Fin 15 => i.hasFlag k) =
      Fin.foldr 15 (fun k v => 2 * v + (i.hasFlag k).toNat) 0 := rfl
  rw [hbits, flags, hdst, hop0, hop1, hres, hpc, hap, hopcode]
  simp only [Fin.foldr_succ, Fin.foldr_zero, Fin.val_succ, Fin.val_zero, Nat.zero_add,
    Nat.reduceAdd]
  omega

/-- A flag that is written is a flag of the instruction. -/
theorem testBit_flags (i : Instruction) {k : Nat} (hk : k < 15) :
    i.flags.testBit k = i.hasFlag k := by
  rw [flags_eq_ofBits, Nat.testBit_ofBits_lt _ k hk]

/-- The flags that are written have 15 bits. -/
theorem flags_lt (i : Instruction) : i.flags < 2 ^ 15 := by
  rw [flags_eq_ofBits]
  exact Nat.ofBits_lt_two_pow _

/-- The offset fits into 16 bits with its bias. -/
def IsOffset (z : Int) : Prop := -2 ^ 15 ≤ z ∧ z < 2 ^ 15

/-- The word that is written for an instruction with offsets in range is a natural number and
spells the instruction. -/
theorem spells_encode {i : Instruction} (h0 : IsOffset i.off0) (h1 : IsOffset i.off1)
    (h2 : IsOffset i.off2) : 0 ≤ encode i ∧ Spells (encode i).toNat i := by
  obtain ⟨a, ha⟩ := Int.eq_ofNat_of_zero_le (show 0 ≤ i.off0 + 2 ^ 15 by have := h0.1; omega)
  obtain ⟨b, hb⟩ := Int.eq_ofNat_of_zero_le (show 0 ≤ i.off1 + 2 ^ 15 by have := h1.1; omega)
  obtain ⟨c, hc⟩ := Int.eq_ofNat_of_zero_le (show 0 ≤ i.off2 + 2 ^ 15 by have := h2.1; omega)
  have hword : encode i = (a + 2 ^ 16 * b + 2 ^ 32 * c + 2 ^ 48 * i.flags : Nat) := by
    have hencode : encode i = (i.off0 + 2 ^ 15) + 2 ^ 16 * (i.off1 + 2 ^ 15) +
        2 ^ 32 * (i.off2 + 2 ^ 15) + 2 ^ 48 * i.flags := rfl
    omega
  have hflags := flags_lt i
  obtain ⟨-, h0⟩ := h0
  obtain ⟨-, h1⟩ := h1
  obtain ⟨-, h2⟩ := h2
  have htop : (encode i).toNat / 2 ^ 48 = i.flags := by omega
  refine ⟨by omega, ⟨by omega, by omega, by omega, by omega, fun k hk => ?_⟩⟩
  rw [← testBit_flags i hk, ← htop, Nat.testBit_div_two_pow, Nat.add_comm]

end Cairo.Instruction
