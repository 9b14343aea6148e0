import Mathlib.Data.List.Nodup
import Mathlib.Tactic.IntervalCases
import Cairo.Proofs.Action
import Cairo.Proofs.Instruction.Words

/-!
# Decoding instructions

Decoding accepts exactly the words of the format (`IsWord`), answers the instruction that the word
spells, and answers only instructions that a word can be written for (`IsEncodable`).  Since words
and encodable instructions determine each other by `Spells`, decoding and encoding are inverse to
each other.
-/

namespace Cairo.Instruction

/-- No two bits of the word at the given positions above the offsets are set together. -/
def AtMostOneFlag (word : Nat) (positions : List Nat) : Prop :=
  positions.Pairwise fun j k => ¬ (word.testBit (48 + j) ∧ word.testBit (48 + k))

/-- The integer is in the format of instruction words. -/
structure IsWord (n : Int) : Prop where
  nonneg : 0 ≤ n
  lt : n < 2 ^ 63
  op1Source : AtMostOneFlag n.toNat [2, 3, 4]
  result : AtMostOneFlag n.toNat [5, 6]
  pcUpdate : AtMostOneFlag n.toNat [7, 8, 9]
  apUpdate : AtMostOneFlag n.toNat [10, 11]
  opcode : AtMostOneFlag n.toNat [12, 13, 14]
  jumpNonzero : n.toNat.testBit (48 + 9) →
    ¬ n.toNat.testBit (48 + 5) ∧ ¬ n.toNat.testBit (48 + 6)
  call : n.toNat.testBit (48 + 12) →
    ¬ n.toNat.testBit (48 + 10) ∧ ¬ n.toNat.testBit (48 + 11)
  immediate : n.toNat.testBit (48 + 2) → n.toNat / 2 ^ 32 % 2 ^ 16 = 2 ^ 15 + 1

/-- The fields go together: the offsets are in range, an immediate follows its instruction, and the
fields without flags are what the jump and the opcode imply. -/
structure IsEncodable (i : Instruction) : Prop where
  off0 : IsOffset i.off0
  off1 : IsOffset i.off1
  off2 : IsOffset i.off2
  immediate : i.op1Source = .immediate → i.off2 = 1
  unconstrained : i.result = .unconstrained ↔ i.pcRule = .jumpNonzero
  addTwo : i.apRule = .addTwo ↔ i.opcode = .call
  apPlusTwo : i.fpRule = .apPlusTwo ↔ i.opcode = .call
  destination : i.fpRule = .destination ↔ i.opcode = .ret

/-! ## One group of flags -/

section Groups

variable {α : Type} {word : Nat} {group : FlagGroup} {options : List (Nat × α)}

/-- A group of flags has a meaning when at most one of its flags is set. -/
theorem exists_select (group : FlagGroup) (options : List (Nat × α))
    (h : AtMostOneFlag word (options.map (·.1))) : ∃ x, select word group options = .ok x := by
  have hset : (options.filter fun o => flagAt word o.1).Pairwise fun _ _ => False := by
    rw [List.pairwise_filter]
    exact (List.pairwise_map.mp h).imp fun hne ho ho' => hne ⟨ho, ho'⟩
  unfold select
  generalize (options.filter fun o => flagAt word o.1) = set at hset ⊢
  match set with
  | [] => exact ⟨none, rfl⟩
  | [o] => exact ⟨some o.2, rfl⟩
  | o :: o' :: _ => exact absurd ((List.pairwise_cons.mp hset).1 o' List.mem_cons_self) id

/-- A flag of a group is set when its meaning is the one of the group. -/
theorem select_ok {x : Option α} (h : select word group options = .ok x)
    (hnodup : (options.map (·.2)).Nodup) :
    ∀ o ∈ options, word.testBit (48 + o.1) = true ↔ x = some o.2 := by
  intro o ho
  have hfilter : word.testBit (48 + o.1) = true ↔
      o ∈ options.filter fun o => flagAt word o.1 := by
    rw [List.mem_filter]
    exact ⟨fun hset => ⟨ho, hset⟩, And.right⟩
  rw [hfilter]
  unfold select at h
  split at h
  next hnone =>
    cases h
    rw [hnone]
    exact ⟨nofun, nofun⟩
  next o' hone =>
    cases h
    have ho' : o' ∈ options := List.mem_of_mem_filter (hone ▸ List.mem_singleton_self o')
    rw [hone, List.mem_singleton, Option.some.injEq]
    constructor
    · rintro rfl
      rfl
    · intro heq
      exact (List.inj_on_of_nodup_map hnodup ho' ho heq).symm
  next => cases h

/-- A group of flags means nothing, or what one of its flags stands for. -/
theorem mem_of_select {a : α} (h : select word group options = .ok (some a)) :
    a ∈ options.map (·.2) := by
  unfold select at h
  split at h
  next => cases h
  next o hone =>
    cases h
    exact List.mem_map_of_mem (List.mem_of_mem_filter (hone ▸ List.mem_singleton_self o))
  next => cases h

/-- A group of flags means nothing when none of them is set. -/
theorem eq_none_of_select {x : Option α} (h : select word group options = .ok x)
    (hnodup : (options.map (·.2)).Nodup)
    (hclear : ∀ o ∈ options, ¬ word.testBit (48 + o.1) = true) : x = none := by
  cases x with
  | none => rfl
  | some a =>
    obtain ⟨o, ho, rfl⟩ := List.mem_map.mp (mem_of_select h)
    exact absurd ((select_ok h hnodup o ho).mpr rfl) (hclear o ho)

/-- The flags of a group are those of the meaning that it is read as, with a default that has no
flag. -/
theorem testBit_of_select [DecidableEq α] {x : Option α} {default a : α} {k : Nat}
    (h : select word group options = .ok x) (hnodup : (options.map (·.2)).Nodup)
    (hdefault : default ∉ options.map (·.2)) (hk : (k, a) ∈ options) :
    word.testBit (48 + k) = decide (x.getD default = a) := by
  have hne : default ≠ a := fun heq => hdefault (heq ▸ List.mem_map_of_mem hk)
  rw [Bool.eq_iff_iff, select_ok h hnodup (k, a) hk, decide_eq_true_iff]
  cases x with
  | none => simp [hne]
  | some b => simp

/-- Of the flags of a group at most one is set when they are those of one meaning. -/
theorem atMostOneFlag_of_meaning [DecidableEq α] {a : α} (hnodup : (options.map (·.2)).Nodup)
    (h : ∀ o ∈ options, word.testBit (48 + o.1) = decide (a = o.2)) :
    AtMostOneFlag word (options.map (·.1)) := by
  rw [AtMostOneFlag, List.pairwise_map]
  refine (List.pairwise_map.mp hnodup).imp_of_mem fun ho ho' hne hset => hne ?_
  have heq := of_decide_eq_true ((h _ ho).symm.trans hset.1)
  have heq' := of_decide_eq_true ((h _ ho').symm.trans hset.2)
  exact heq.symm.trans heq'

end Groups

/-! ## Fields that depend on several groups -/

/-- The result follows from its flag, which the conditional jump excludes. -/
theorem resultOf_eq_ok {flag : Option ResultRule} {pcRule : PcRule} {r : ResultRule} :
    resultOf flag pcRule = .ok r ↔ (pcRule = .jumpNonzero → flag = none) ∧
      r = flag.getD (if pcRule = .jumpNonzero then .unconstrained else .op1) := by
  cases flag <;> cases pcRule <;> simp [resultOf, eq_comm]

/-- The change of the allocation pointer follows from its flag, which a call excludes. -/
theorem apRuleOf_eq_ok {flag : Option ApRule} {opcode : Opcode} {r : ApRule} :
    apRuleOf flag opcode = .ok r ↔ (opcode = .call → flag = none) ∧
      r = flag.getD (if opcode = .call then .addTwo else .regular) := by
  cases flag <;> cases opcode <;> simp [apRuleOf, eq_comm]

/-! ## The whole word -/

/-- The meanings of the groups of flags of a word. -/
structure Meanings where
  op1Source : Option Op1Source
  pcRule : Option PcRule
  result : Option ResultRule
  opcode : Option Opcode
  apRule : Option ApRule

/-- The groups of flags of a word have the given meanings. -/
structure Meanings.Of (word : Nat) (m : Meanings) : Prop where
  op1Source : select word .op1Source op1Flags = .ok m.op1Source
  pcRule : select word .pcUpdate pcFlags = .ok m.pcRule
  result : select word .result resultFlags = .ok m.result
  opcode : select word .opcode opcodeFlags = .ok m.opcode
  apRule : select word .apUpdate apFlags = .ok m.apRule

/-- The instruction with the offsets and registers of a word, and with the given rules. -/
def ofMeanings (word : Nat) (m : Meanings) (result : ResultRule) (apRule : ApRule) : Instruction :=
  { off0 := offsetAt word 0
    off1 := offsetAt word 1
    off2 := offsetAt word 2
    dstRegister := registerOf (flagAt word 0)
    op0Register := registerOf (flagAt word 1)
    op1Source := m.op1Source.getD .op0
    result := result
    pcRule := m.pcRule.getD .regular
    apRule := apRule
    fpRule := fpRuleOf (m.opcode.getD .nop)
    opcode := m.opcode.getD .nop }

/-- An integer in range is decoded when each group of flags has a meaning and the meanings go
together. -/
theorem decode?_eq_ok {n : Int} {i : Instruction} :
    decode? n = .ok i ↔ 0 ≤ n ∧ n < 2 ^ 63 ∧ ∃ m result apRule, Meanings.Of n.toNat m ∧
      (m.op1Source.getD .op0 = .immediate → offsetAt n.toNat 2 = 1) ∧
        resultOf m.result (m.pcRule.getD .regular) = .ok result ∧
          apRuleOf m.apRule (m.opcode.getD .nop) = .ok apRule ∧
            i = ofMeanings n.toNat m result apRule := by
  unfold decode?
  split
  next hn =>
    constructor
    · intro h
      obtain ⟨op1, hop1, h⟩ := Answer.bind_eq_ok.mp h
      dsimp only at h
      split at h
      · cases h
      next himmediate =>
        obtain ⟨pc, hpc, h⟩ := Answer.bind_eq_ok.mp h
        obtain ⟨res, hres, h⟩ := Answer.bind_eq_ok.mp h
        obtain ⟨result, hresult, h⟩ := Answer.bind_eq_ok.mp h
        obtain ⟨op, hop, h⟩ := Answer.bind_eq_ok.mp h
        obtain ⟨ap, hap, h⟩ := Answer.bind_eq_ok.mp h
        obtain ⟨apRule, hapRule, h⟩ := Answer.bind_eq_ok.mp h
        obtain rfl := Answer.pure_eq_ok.mp h
        refine ⟨hn.1, hn.2, ⟨op1, pc, res, op, ap⟩, result, apRule, ⟨hop1, hpc, hres, hop, hap⟩, ?_,
          hresult, hapRule, rfl⟩
        exact fun hop1 => Decidable.not_not.mp fun hne => himmediate ⟨hop1, hne⟩
    · rintro ⟨-, -, m, result, apRule, hm, himmediate, hresult, hapRule, rfl⟩
      refine Answer.bind_eq_ok.mpr ⟨_, hm.op1Source, ?_⟩
      dsimp only
      rw [if_neg fun h => h.2 (himmediate h.1)]
      refine Answer.bind_eq_ok.mpr ⟨_, hm.pcRule, Answer.bind_eq_ok.mpr ⟨_, hm.result, ?_⟩⟩
      refine Answer.bind_eq_ok.mpr ⟨_, hresult, Answer.bind_eq_ok.mpr ⟨_, hm.opcode, ?_⟩⟩
      refine Answer.bind_eq_ok.mpr ⟨_, hm.apRule, Answer.bind_eq_ok.mpr ⟨_, hapRule, ?_⟩⟩
      exact Answer.pure_eq_ok.mpr rfl
  next hn => exact ⟨nofun, fun h => absurd ⟨h.1, h.2.1⟩ hn⟩

/-! ## What decoding answers -/

/-- The offset at a position of a word fits into 16 bits. -/
theorem isOffset_offsetAt (word position : Nat) : IsOffset (offsetAt word position) := by
  have hlt : word / 2 ^ (16 * position) % 2 ^ 16 < 2 ^ 16 := Nat.mod_lt _ (by decide)
  have hoffset : offsetAt word position =
      (word / 2 ^ (16 * position) % 2 ^ 16 : Nat) - 2 ^ 15 := rfl
  rw [hoffset]
  exact ⟨by omega, by omega⟩

/-- A register is the frame pointer when its flag is set. -/
theorem registerOf_eq_fp {flag : Bool} : registerOf flag = .fp ↔ flag = true := by
  cases flag <;> decide

/-- A word spells the instruction that it is decoded to. -/
theorem spells_of_decode? {n : Int} {i : Instruction} (h : decode? n = .ok i) :
    Spells n.toNat i := by
  obtain ⟨hnonneg, hlt, m, result, apRule, hm, -, hresult, hapRule, rfl⟩ := decode?_eq_ok.mp h
  obtain ⟨-, rfl⟩ := resultOf_eq_ok.mp hresult
  obtain ⟨-, rfl⟩ := apRuleOf_eq_ok.mp hapRule
  refine ⟨by omega, by simp [ofMeanings, offsetAt, offsetBits, offsetBias], rfl, rfl, ?_⟩
  intro k hk
  interval_cases k
  case «0» => exact Bool.eq_iff_iff.mpr (registerOf_eq_fp.symm.trans (decide_eq_true_iff).symm)
  case «1» => exact Bool.eq_iff_iff.mpr (registerOf_eq_fp.symm.trans (decide_eq_true_iff).symm)
  case «2» | «3» | «4» =>
    exact testBit_of_select hm.op1Source (by decide) (by decide) (by decide)
  case «5» | «6» =>
    exact testBit_of_select hm.result (by decide) (by split <;> decide) (by decide)
  case «7» | «8» | «9» =>
    exact testBit_of_select hm.pcRule (by decide) (by decide) (by decide)
  case «10» | «11» =>
    exact testBit_of_select hm.apRule (by decide) (by split <;> decide) (by decide)
  case «12» | «13» | «14» =>
    exact testBit_of_select hm.opcode (by decide) (by decide) (by decide)

/-- An instruction that a word is decoded to can be encoded. -/
theorem isEncodable_of_decode? {n : Int} {i : Instruction} (h : decode? n = .ok i) :
    IsEncodable i := by
  obtain ⟨-, -, m, result, apRule, hm, himmediate, hresult, hapRule, rfl⟩ := decode?_eq_ok.mp h
  obtain ⟨hjnz, rfl⟩ := resultOf_eq_ok.mp hresult
  obtain ⟨hcall, rfl⟩ := apRuleOf_eq_ok.mp hapRule
  refine ⟨isOffset_offsetAt _ _, isOffset_offsetAt _ _, isOffset_offsetAt _ _, himmediate, ?_, ?_,
    ?_, ?_⟩
  · simp only [ofMeanings]
    cases hres : m.result with
    | none => simp
    | some a =>
      have ha : a ≠ .unconstrained := by
        rintro rfl
        exact absurd (mem_of_select (hres ▸ hm.result)) (by decide)
      have hpc : m.pcRule.getD .regular ≠ .jumpNonzero :=
        fun h => nomatch hres.symm.trans (hjnz h)
      simp [ha, hpc]
  · simp only [ofMeanings]
    cases hap : m.apRule with
    | none => simp
    | some a =>
      have ha : a ≠ .addTwo := by
        rintro rfl
        exact absurd (mem_of_select (hap ▸ hm.apRule)) (by decide)
      have hop : m.opcode.getD .nop ≠ .call :=
        fun h => nomatch hap.symm.trans (hcall h)
      simp [ha, hop]
  · simp only [ofMeanings]
    cases m.opcode.getD .nop <;> decide
  · simp only [ofMeanings]
    cases m.opcode.getD .nop <;> decide

/-! ## Fields that are told from flags -/

/-- A register is told from its flag. -/
theorem register_eq {a b : BaseRegister} (h : decide (a = .fp) = decide (b = .fp)) : a = b := by
  revert h
  cases a <;> cases b <;> decide

/-- The source of the second operand is told from its flags. -/
theorem op1Source_eq (a b : Op1Source) (h : ∀ o ∈ op1Flags, decide (a = o.2) = decide (b = o.2)) :
    a = b := by
  revert h
  cases a <;> cases b <;> decide

/-- The change of the program counter is told from its flags. -/
theorem pcRule_eq (a b : PcRule) (h : ∀ o ∈ pcFlags, decide (a = o.2) = decide (b = o.2)) :
    a = b := by
  revert h
  cases a <;> cases b <;> decide

/-- The opcode is told from its flags. -/
theorem opcode_eq (a b : Opcode) (h : ∀ o ∈ opcodeFlags, decide (a = o.2) = decide (b = o.2)) :
    a = b := by
  revert h
  cases a <;> cases b <;> decide

/-- The result is told from its flags, and from whether it is constrained. -/
theorem result_eq (a b : ResultRule) (h : ∀ o ∈ resultFlags, decide (a = o.2) = decide (b = o.2))
    (hfree : a = .unconstrained ↔ b = .unconstrained) : a = b := by
  revert h hfree
  cases a <;> cases b <;> decide

/-- The change of the allocation pointer is told from its flags, and from whether it is that of a
call. -/
theorem apRule_eq (a b : ApRule) (h : ∀ o ∈ apFlags, decide (a = o.2) = decide (b = o.2))
    (htwo : a = .addTwo ↔ b = .addTwo) : a = b := by
  revert h htwo
  cases a <;> cases b <;> decide

/-- The change of the frame pointer is told from whether it is that of a call or of a return. -/
theorem fpRule_eq (a b : FpRule) (htwo : a = .apPlusTwo ↔ b = .apPlusTwo)
    (hdst : a = .destination ↔ b = .destination) : a = b := by
  revert htwo hdst
  cases a <;> cases b <;> decide

/-! ## Which words are decoded -/

namespace Spells

variable {word : Nat} {i j : Instruction}

/-- The flags of a word, group by group, are those of the instruction that it spells. -/
theorem testBit_groups (h : Spells word i) :
    (∀ o ∈ op1Flags, word.testBit (48 + o.1) = decide (i.op1Source = o.2)) ∧
      (∀ o ∈ resultFlags, word.testBit (48 + o.1) = decide (i.result = o.2)) ∧
        (∀ o ∈ pcFlags, word.testBit (48 + o.1) = decide (i.pcRule = o.2)) ∧
          (∀ o ∈ apFlags, word.testBit (48 + o.1) = decide (i.apRule = o.2)) ∧
            ∀ o ∈ opcodeFlags, word.testBit (48 + o.1) = decide (i.opcode = o.2) := by
  have hflag : ∀ k : Fin 15, word.testBit (48 + k) = i.hasFlag k := fun k => h.flags k k.isLt
  refine ⟨?_, ?_, ?_, ?_, ?_⟩
  · exact List.forall_mem_cons.mpr ⟨hflag 2, List.forall_mem_cons.mpr ⟨hflag 3,
      List.forall_mem_singleton.mpr (hflag 4)⟩⟩
  · exact List.forall_mem_cons.mpr ⟨hflag 5, List.forall_mem_singleton.mpr (hflag 6)⟩
  · exact List.forall_mem_cons.mpr ⟨hflag 7, List.forall_mem_cons.mpr ⟨hflag 8,
      List.forall_mem_singleton.mpr (hflag 9)⟩⟩
  · exact List.forall_mem_cons.mpr ⟨hflag 10, List.forall_mem_singleton.mpr (hflag 11)⟩
  · exact List.forall_mem_cons.mpr ⟨hflag 12, List.forall_mem_cons.mpr ⟨hflag 13,
      List.forall_mem_singleton.mpr (hflag 14)⟩⟩

/-- A word that spells an encodable instruction is in the format. -/
theorem isWord {n : Int} (hn : 0 ≤ n) (h : Spells n.toNat i) (hi : IsEncodable i) :
    IsWord n := by
  have hlt := h.lt
  have hoff2 := h.off2
  obtain ⟨hop1, hres, hpc, hap, hop⟩ := h.testBit_groups
  -- A flag that is set is that of the meaning which the instruction has.
  have meaning : ∀ {α : Type} [DecidableEq α] {a b : α} {k : Nat},
      n.toNat.testBit (48 + k) = decide (a = b) → n.toNat.testBit (48 + k) = true → a = b :=
    fun hflag hset => of_decide_eq_true (hflag.symm.trans hset)
  refine ⟨hn, by omega, atMostOneFlag_of_meaning (by decide) hop1,
    atMostOneFlag_of_meaning (by decide) hres, atMostOneFlag_of_meaning (by decide) hpc,
    atMostOneFlag_of_meaning (by decide) hap, atMostOneFlag_of_meaning (by decide) hop, ?_, ?_, ?_⟩
  · intro hset
    have hnone := hi.unconstrained.mpr (meaning (hpc (9, .jumpNonzero) (by decide)) hset)
    rw [hnone] at hres
    exact ⟨fun hadd => (nomatch meaning (hres (5, .add) (by decide)) hadd),
      fun hmul => (nomatch meaning (hres (6, .mul) (by decide)) hmul)⟩
  · intro hset
    have htwo := hi.addTwo.mpr (meaning (hop (12, .call) (by decide)) hset)
    rw [htwo] at hap
    exact ⟨fun hadd => (nomatch meaning (hap (10, .addResult) (by decide)) hadd),
      fun hone => (nomatch meaning (hap (11, .addOne) (by decide)) hone)⟩
  · intro hset
    have hone := hi.immediate (meaning (hop1 (2, .immediate) (by decide)) hset)
    omega

/-- A word spells one encodable instruction only. -/
theorem unique (hi : Spells word i) (hj : Spells word j) (hi' : IsEncodable i)
    (hj' : IsEncodable j) : i = j := by
  obtain ⟨hop1, hres, hpc, hap, hop⟩ := hi.testBit_groups
  obtain ⟨hop1', hres', hpc', hap', hop'⟩ := hj.testBit_groups
  have hflag : ∀ k < 15, i.hasFlag k = j.hasFlag k :=
    fun k hk => (hi.flags k hk).symm.trans (hj.flags k hk)
  -- The fields with flags are told from their flags, the others from the fields they go with.
  have hdst : i.dstRegister = j.dstRegister := register_eq (hflag 0 (by decide))
  have hop0 : i.op0Register = j.op0Register := register_eq (hflag 1 (by decide))
  have hop1 : i.op1Source = j.op1Source :=
    op1Source_eq _ _ fun o ho => (hop1 o ho).symm.trans (hop1' o ho)
  have hpc : i.pcRule = j.pcRule := pcRule_eq _ _ fun o ho => (hpc o ho).symm.trans (hpc' o ho)
  have hop : i.opcode = j.opcode := opcode_eq _ _ fun o ho => (hop o ho).symm.trans (hop' o ho)
  have hres : i.result = j.result := by
    refine result_eq _ _ (fun o ho => (hres o ho).symm.trans (hres' o ho)) ?_
    rw [hi'.unconstrained, hj'.unconstrained, hpc]
  have hap : i.apRule = j.apRule := by
    refine apRule_eq _ _ (fun o ho => (hap o ho).symm.trans (hap' o ho)) ?_
    rw [hi'.addTwo, hj'.addTwo, hop]
  have hfp : i.fpRule = j.fpRule := by
    refine fpRule_eq _ _ ?_ ?_
    · rw [hi'.apPlusTwo, hj'.apPlusTwo, hop]
    · rw [hi'.destination, hj'.destination, hop]
  have hoff0 := hi.off0.trans hj.off0.symm
  have hoff1 := hi.off1.trans hj.off1.symm
  have hoff2 := hi.off2.trans hj.off2.symm
  cases i
  cases j
  simp only [mk.injEq]
  exact ⟨hoff0, hoff1, hoff2, hdst, hop0, hop1, hres, hpc, hap, hfp, hop⟩

end Spells

/-- An integer in the format is decoded. -/
theorem exists_decode?_of_isWord {n : Int} (h : IsWord n) : ∃ i, decode? n = .ok i := by
  obtain ⟨op1, hop1⟩ := exists_select .op1Source op1Flags h.op1Source
  obtain ⟨pc, hpc⟩ := exists_select .pcUpdate pcFlags h.pcUpdate
  obtain ⟨res, hres⟩ := exists_select .result resultFlags h.result
  obtain ⟨op, hop⟩ := exists_select .opcode opcodeFlags h.opcode
  obtain ⟨ap, hap⟩ := exists_select .apUpdate apFlags h.apUpdate
  have himmediate : op1.getD .op0 = .immediate → offsetAt n.toNat 2 = 1 := by
    intro heq
    have hset : n.toNat.testBit (48 + 2) = decide (op1.getD .op0 = .immediate) :=
      testBit_of_select hop1 (by decide) (by decide) (by decide)
    have hone := h.immediate (hset.trans (decide_eq_true heq))
    have hoffset : offsetAt n.toNat 2 = (n.toNat / 2 ^ 32 % 2 ^ 16 : Nat) - 2 ^ 15 := rfl
    omega
  have hjump : pc.getD .regular = .jumpNonzero → res = none := by
    intro heq
    have hset : n.toNat.testBit (48 + 9) = decide (pc.getD .regular = .jumpNonzero) :=
      testBit_of_select hpc (by decide) (by decide) (by decide)
    obtain ⟨hadd, hmul⟩ := h.jumpNonzero (hset.trans (decide_eq_true heq))
    refine eq_none_of_select hres (by decide) ?_
    exact List.forall_mem_cons.mpr ⟨hadd, List.forall_mem_singleton.mpr hmul⟩
  have hcall : op.getD .nop = .call → ap = none := by
    intro heq
    have hset : n.toNat.testBit (48 + 12) = decide (op.getD .nop = .call) :=
      testBit_of_select hop (by decide) (by decide) (by decide)
    obtain ⟨hadd, hone⟩ := h.call (hset.trans (decide_eq_true heq))
    refine eq_none_of_select hap (by decide) ?_
    exact List.forall_mem_cons.mpr ⟨hadd, List.forall_mem_singleton.mpr hone⟩
  exact ⟨_, decode?_eq_ok.mpr ⟨h.nonneg, h.lt, ⟨op1, pc, res, op, ap⟩, _, _,
    ⟨hop1, hpc, hres, hop, hap⟩, himmediate, resultOf_eq_ok.mpr ⟨hjump, rfl⟩,
    apRuleOf_eq_ok.mpr ⟨hcall, rfl⟩, rfl⟩⟩

/-- An integer is decoded to an instruction when it is the integer that spells it, and the
instruction can be encoded. -/
theorem decode?_eq_ok_iff_spells {n : Int} {i : Instruction} :
    decode? n = .ok i ↔ 0 ≤ n ∧ Spells n.toNat i ∧ IsEncodable i := by
  constructor
  · intro h
    exact ⟨(decode?_eq_ok.mp h).1, spells_of_decode? h, isEncodable_of_decode? h⟩
  · rintro ⟨hn, hspells, hi⟩
    obtain ⟨j, hj⟩ := exists_decode?_of_isWord (hspells.isWord hn hi)
    rw [hj, hspells.unique (spells_of_decode? hj) hi (isEncodable_of_decode? hj)]

/-- The word of an encodable instruction is decoded to it. -/
theorem decode?_encode {i : Instruction} (hi : IsEncodable i) : decode? (encode i) = .ok i := by
  obtain ⟨hn, hspells⟩ := spells_encode hi.off0 hi.off1 hi.off2
  exact decode?_eq_ok_iff_spells.mpr ⟨hn, hspells, hi⟩

/-- A decoded instruction is encoded to the integer that it was decoded from. -/
theorem encode_of_decode? {n : Int} {i : Instruction} (h : decode? n = .ok i) :
    encode i = n := by
  obtain ⟨hn, hspells, hi⟩ := decode?_eq_ok_iff_spells.mp h
  obtain ⟨hn', hspells'⟩ := spells_encode hi.off0 hi.off1 hi.off2
  have hword := hspells'.unique_word hspells
  omega

/-- Decoding names the defect of an integer that is no instruction, and is otherwise unchanged. -/
theorem decode_eq_ok {n : Int} {i : Instruction} : decode n = .ok i ↔ decode? n = .ok i := by
  unfold decode
  cases decode? n with
  | ok j => simp
  | error defect => simp

/-- Decoding accepts exactly the integers in the format of instruction words.  What is decoded is
the encodable instruction that the integer spells, and is encoded to the same integer; every
encodable instruction is what its word is decoded to. -/
theorem decode_accepts_the_format_and_inverts_encode :
    (∀ n, (∃ i, decode n = .ok i) ↔ IsWord n) ∧
      (∀ n i, decode n = .ok i → IsEncodable i ∧ Spells n.toNat i ∧ encode i = n) ∧
        ∀ i, IsEncodable i → decode (encode i) = .ok i := by
  simp only [decode_eq_ok]
  refine ⟨fun n => ⟨?_, exists_decode?_of_isWord⟩, fun n i h => ?_, fun i => decode?_encode⟩
  · rintro ⟨i, h⟩
    obtain ⟨hn, hspells, hi⟩ := decode?_eq_ok_iff_spells.mp h
    exact hspells.isWord hn hi
  · obtain ⟨-, hspells, hi⟩ := decode?_eq_ok_iff_spells.mp h
    exact ⟨hi, hspells, encode_of_decode? h⟩

end Cairo.Instruction
