import Cairo.Machine.Semantics
import Cairo.Proofs.Memory.Cells
import Cairo.Proofs.Value.Arithmetic

/-!
# What an instruction means

`Executes r i m a o r'` says that the instruction `i`, with the registers `r` and over the memory
`m`, has the operands `o` at the addresses `a` and leads to the registers `r'`.  It mentions no
deduction: all three cells are there and the result is formed from the operands (`Fetches`), the
opcode holds of them, and the new registers are computed from the old ones.  The lemmas before it
say that the functions of a machine which form, check and update do exactly this.
-/

namespace Cairo

/-! ## Operands that are values -/

namespace Operand

/-- The field element of a value. -/
@[simp] theorem felt?_value (v : Value) : felt? v = v.felt? := by
  cases v <;> rfl

/-- The address of a value. -/
@[simp] theorem address?_value (v : Value) : address? v = v.address? := by
  cases v <;> rfl

end Operand

namespace Value

/-- A value is the address that it is seen as. -/
theorem address?_eq_some {v : Value} {a : Address} : v.address? = some a ↔ v = .address a := by
  cases v with
  | felt x => simp [address?]
  | address b => simp [address?]

end Value

namespace Felt

/-- The field element zero is the one that is recognized as such. -/
theorem isZero_iff {x : Felt} : x.isZero = true ↔ x = 0 := by
  rw [isZero, beq_iff_eq]
  constructor
  · intro h
    exact ext h
  · rintro rfl
    rfl

end Felt

/-! ## The result -/

/-- The rule gives a result for two operands. -/
def ResultRule.Gives (x y : Value) : ResultRule → Option Value → Prop
  | .op1, res => res = some y
  | .add, res => ∃ v, x.add y = .ok v ∧ res = some v
  | .mul, res => ∃ f g, x = .felt f ∧ y = .felt g ∧ res = some (.felt (f * g))
  | .unconstrained, res => res = none

namespace Registers

/-- A machine forms the result that the rule gives. -/
theorem result_eq_ok {i : Instruction} {x y : Value} {res : Option Value} :
    result i x y = .ok res ↔ i.result.Gives x y res := by
  unfold result
  cases i.result with
  | op1 => exact Answer.pure_eq_ok.trans eq_comm
  | add =>
    refine Answer.bind_eq_ok.trans (exists_congr fun v => and_congr_right fun _ => ?_)
    exact Answer.pure_eq_ok.trans eq_comm
  | mul =>
    simp only [Operand.felt?_value, ResultRule.Gives]
    cases x with
    | address a => simp [Value.felt?, Answer.throw_eq_ok]
    | felt f =>
      cases y with
      | address b => simp [Value.felt?, Answer.throw_eq_ok]
      | felt g =>
        refine Answer.pure_eq_ok.trans ⟨?_, ?_⟩
        · rintro rfl
          exact ⟨f, g, rfl, rfl, rfl⟩
        · rintro ⟨_, _, ⟨⟩, ⟨⟩, rfl⟩
          rfl
  | unconstrained => exact Answer.pure_eq_ok.trans eq_comm

/-! ## The opcode -/

/-- What an opcode demands of the operands: the result of an assertion is its destination, and a
call has saved the address after it and the frame pointer. -/
structure Admits (r : Registers) (i : Instruction) (o : Operands Value) : Prop where
  assertEq : i.opcode = .assertEq → o.res = some o.dst
  call : i.opcode = .call → ∃ pc fp, r.nextPc i = .ok pc ∧ o.op0 = .address pc ∧
    r.fp = some fp ∧ o.dst = .address fp

/-- A value is the same as a register when the register is set to it. -/
theorem same_ofAddress_iff {v : Value} {a : Option Address} :
    Datum.same (.value v) (Datum.ofAddress a) = true ↔ ∃ b, a = some b ∧ v = .address b := by
  cases a with
  | none => cases v <;> simp [Datum.ofAddress, Datum.ofOption, Datum.same, Datum.number?,
      Datum.integer?]
  | some b => cases v <;> simp [Datum.ofAddress, Datum.ofOption, Datum.same, Datum.number?,
      Datum.integer?]

/-- A machine checks what the opcode demands. -/
theorem check_eq_ok {r : Registers} {i : Instruction} {o : Operands Value} :
    r.check i o = .ok () ↔ r.Admits i o := by
  unfold check
  cases hop : i.opcode with
  | nop => exact ⟨fun _ => ⟨by simp [hop], by simp [hop]⟩, fun _ => rfl⟩
  | ret => exact ⟨fun _ => ⟨by simp [hop], by simp [hop]⟩, fun _ => rfl⟩
  | assertEq =>
    constructor
    · intro h
      refine ⟨fun _ => ?_, by simp [hop]⟩
      cases hres : o.res with
      | none => simp [hres, Answer.throw_eq_ok] at h
      | some res =>
        by_cases heq : o.dst = res
        · rw [heq]
        · simp [hres, heq, Operand.agree, Answer.throw_eq_ok] at h
    · intro h
      simp [h.assertEq hop, Operand.agree, Answer.pure_eq_ok]
  | call =>
    constructor
    · intro h
      refine ⟨by simp [hop], fun _ => ?_⟩
      obtain ⟨pc, hpc, h⟩ := Answer.bind_eq_ok.mp h
      by_cases hop0 : o.op0 = .address pc
      · by_cases hdst : Datum.same (.value o.dst) (Datum.ofAddress r.fp) = true
        · obtain ⟨fp, hfp, hdst⟩ := same_ofAddress_iff.mp hdst
          exact ⟨pc, fp, hpc, hop0, hfp, hdst⟩
        · simp [hop0, hdst, Operand.agree, Operand.ofValue, Operand.datum, Answer.throw_eq_ok] at h
      · simp [hop0, Operand.agree, Operand.ofValue, Answer.throw_eq_ok, Answer.bind_eq_ok] at h
    · intro h
      obtain ⟨pc, fp, hpc, hop0, hfp, hdst⟩ := h.call hop
      have hsame : Datum.same (.value o.dst) (Datum.ofAddress r.fp) = true :=
        same_ofAddress_iff.mpr ⟨fp, hfp, hdst⟩
      refine Answer.bind_eq_ok.mpr ⟨pc, hpc, ?_⟩
      simp [hop0, hsame, Operand.agree, Operand.ofValue, Operand.datum, Answer.pure_eq_ok]

/-! ## The registers afterwards -/

end Registers

/-- The rule changes the frame pointer to a given one. -/
def FpRule.Updates (r : Registers) (dst : Value) (fp : Option Address) : FpRule → Prop
  | .regular => fp = r.fp
  | .apPlusTwo => ∃ b a, r.ap = some b ∧ b.shift 2 = .ok a ∧ fp = some a
  | .destination =>
    match dst with
    | .address a => fp = some a
    | .felt x => ∃ b a, r.fp = some b ∧ b.addFelt x = .ok a ∧ fp = some a

/-- The rule changes the allocation pointer to a given one. -/
def ApRule.Updates (r : Registers) (res : Option Value) (ap : Option Address) : ApRule → Prop
  | .regular => ap = r.ap
  | .addResult => ∃ b x a, r.ap = some b ∧ res = some (.felt x) ∧ b.addFelt x = .ok a ∧ ap = some a
  | .addOne => ∃ b a, r.ap = some b ∧ b.shift 1 = .ok a ∧ ap = some a
  | .addTwo => ∃ b a, r.ap = some b ∧ b.shift 2 = .ok a ∧ ap = some a

/-- The rule changes the program counter, of an instruction of the given size, to a given one. -/
def PcRule.Updates (r : Registers) (size : Nat) (o : Operands Value) (pc : Address) :
    PcRule → Prop
  | .regular => r.pc.shift size = .ok pc
  | .jump => o.res = some (.address pc)
  | .jumpRelative => ∃ x, o.res = some (.felt x) ∧ r.pc.addFelt x = .ok pc
  | .jumpNonzero =>
    (o.dst = .felt 0 → r.pc.shift size = .ok pc) ∧
      (o.dst ≠ .felt 0 → ∃ x, o.op1 = .felt x ∧ r.pc.addFelt x = .ok pc)

namespace Registers

/-- A register that is required is set. -/
theorem require_eq_ok {r : Option Address} {a : Address} : require r = .ok a ↔ r = some a :=
  Answer.orThrow_eq_ok

/-- A register shifted by an integer, as a new content. -/
theorem shifted_eq_ok {r a' : Option Address} {k : Int} :
    (do return some (← (← require r).shift k) : Except Fault (Option Address)) = .ok a' ↔
      ∃ b a, r = some b ∧ b.shift k = .ok a ∧ a' = some a := by
  simp only [Answer.bind_eq_ok, require_eq_ok, Answer.pure_eq_ok]
  constructor
  · rintro ⟨b, hb, a, ha, rfl⟩
    exact ⟨b, a, hb, ha, rfl⟩
  · rintro ⟨b, a, hb, ha, rfl⟩
    exact ⟨b, hb, a, ha, rfl⟩

/-- A register moved by a value, as a new content: the value is a field element. -/
theorem advanced_eq_ok {r a' : Option Address} {v : Value} :
    (do return some (← Operand.advance (← require r) v) : Except Fault (Option Address)) = .ok a' ↔
      ∃ b x a, r = some b ∧ v = .felt x ∧ b.addFelt x = .ok a ∧ a' = some a := by
  simp only [Answer.bind_eq_ok, require_eq_ok, Answer.pure_eq_ok]
  constructor
  · rintro ⟨b, hb, a, ha, rfl⟩
    cases v with
    | felt x => exact ⟨b, x, a, hb, rfl, ha, rfl⟩
    | address c => cases ha
  · rintro ⟨b, x, a, hb, rfl, ha, rfl⟩
    exact ⟨b, hb, a, ha, rfl⟩

/-- A machine computes the frame pointer that the rule gives. -/
theorem updatedFp_eq_ok {r : Registers} {i : Instruction} {o : Operands Value}
    {fp : Option Address} : r.updatedFp i o = .ok fp ↔ i.fpRule.Updates r o.dst fp := by
  unfold updatedFp
  cases i.fpRule with
  | regular => exact Answer.pure_eq_ok.trans eq_comm
  | apPlusTwo => exact shifted_eq_ok
  | destination =>
    simp only [Operand.address?_value, FpRule.Updates]
    cases hdst : o.dst with
    | address a => exact Answer.pure_eq_ok.trans eq_comm
    | felt x =>
      refine advanced_eq_ok.trans ⟨?_, ?_⟩
      · rintro ⟨b, _, a, hb, ⟨⟩, ha, rfl⟩
        exact ⟨b, a, hb, ha, rfl⟩
      · rintro ⟨b, a, hb, ha, rfl⟩
        exact ⟨b, x, a, hb, rfl, ha, rfl⟩

/-- A machine computes the allocation pointer that the rule gives. -/
theorem updatedAp_eq_ok {r : Registers} {i : Instruction} {o : Operands Value}
    {ap : Option Address} : r.updatedAp i o = .ok ap ↔ i.apRule.Updates r o.res ap := by
  unfold updatedAp
  cases i.apRule with
  | regular => exact Answer.pure_eq_ok.trans eq_comm
  | addOne => exact shifted_eq_ok
  | addTwo => exact shifted_eq_ok
  | addResult =>
    simp only [ApRule.Updates]
    cases hres : o.res with
    | none => simp [Answer.throw_eq_ok]
    | some res =>
      simp only [Option.some.injEq]
      exact advanced_eq_ok

/-- An operand stands for zero when it is the field element zero. -/
theorem isZero_iff {v : Value} : isZero v = true ↔ v = .felt 0 := by
  unfold isZero
  rw [Operand.felt?_value]
  cases v with
  | felt x => simp [Value.felt?, Felt.isZero_iff]
  | address a => simp [Value.felt?]

/-- A machine computes the program counter that the rule gives. -/
theorem updatedPc_eq_ok {r : Registers} {i : Instruction} {o : Operands Value} {pc : Address} :
    r.updatedPc i o = .ok pc ↔ i.pcRule.Updates r i.size o pc := by
  unfold updatedPc
  cases i.pcRule with
  | regular => exact Iff.rfl
  | jump =>
    simp only [PcRule.Updates, Operand.address?_value]
    cases hres : o.res with
    | none => simp [Answer.throw_eq_ok]
    | some res => simp [Answer.orThrow_eq_ok, Value.address?_eq_some]
  | jumpRelative =>
    simp only [PcRule.Updates, Operand.felt?_value]
    cases hres : o.res with
    | none => simp [Answer.throw_eq_ok]
    | some res => cases res <;> simp [Value.felt?, Answer.throw_eq_ok]
  | jumpNonzero =>
    simp only [PcRule.Updates, Operand.felt?_value]
    by_cases hdst : o.dst = .felt 0
    · rw [if_pos (isZero_iff.mpr hdst)]
      exact ⟨fun h => ⟨fun _ => h, fun hne => absurd hdst hne⟩, fun h => h.1 hdst⟩
    · rw [if_neg fun h => hdst (isZero_iff.mp h)]
      cases hop1 : o.op1 <;> simp [hdst, Value.felt?, Answer.throw_eq_ok]

/-- A machine updates its registers as the three rules say, all from the old registers. -/
theorem update_eq_ok {r r' : Registers} {i : Instruction} {o : Operands Value} :
    update i o r = .ok () r' ↔
      i.fpRule.Updates r o.dst r'.fp ∧ i.apRule.Updates r o.res r'.ap ∧
        i.pcRule.Updates r i.size o r'.pc := by
  simp only [← updatedFp_eq_ok, ← updatedAp_eq_ok, ← updatedPc_eq_ok]
  unfold update updateFp updateAp updatePc
  simp only [Action.bind_eq_ok, Action.get_eq_ok, Action.lift_eq_ok, Action.modify_eq_ok]
  constructor
  · rintro ⟨_, _, ⟨_, _, ⟨rfl, rfl⟩, fp, _, ⟨hfp, rfl⟩, rfl⟩, _, _,
      ⟨_, _, ⟨rfl, rfl⟩, ap, _, ⟨hap, rfl⟩, rfl⟩, _, _, ⟨rfl, rfl⟩, pc, _, ⟨hpc, rfl⟩, rfl⟩
    exact ⟨hfp, hap, hpc⟩
  · rintro ⟨hfp, hap, hpc⟩
    exact ⟨(), _, ⟨_, _, ⟨rfl, rfl⟩, r'.fp, _, ⟨hfp, rfl⟩, rfl⟩, (), _,
      ⟨_, _, ⟨rfl, rfl⟩, r'.ap, _, ⟨hap, rfl⟩, rfl⟩, _, _, ⟨rfl, rfl⟩, r'.pc, _, ⟨hpc, rfl⟩, rfl⟩

/-! ## Executing an instruction -/

/-- The instruction, with the registers before it and over a memory, has the given operands at the
given addresses, and a result that they give. -/
structure Fetches (r : Registers) (i : Instruction) (m : Memory) (a : OperandAddresses)
    (o : Operands Value) : Prop where
  dstAddress : r.dstAddress i = .ok a.dst
  op0Address : r.op0Address i = .ok a.op0
  op1Address : r.op1Address i o.op0.address? = .ok a.op1
  dst : m.get? a.dst = some o.dst
  op0 : m.get? a.op0 = some o.op0
  op1 : m.get? a.op1 = some o.op1
  result : i.result.Gives o.op0 o.op1 o.res

/-- The instruction, with the registers before it and over a memory, has the given operands at the
given addresses, of which its opcode holds, and leads to the given registers. -/
structure Executes (r : Registers) (i : Instruction) (m : Memory) (a : OperandAddresses)
    (o : Operands Value) (r' : Registers) : Prop extends r.Fetches i m a o where
  admits : r.Admits i o
  fp : i.fpRule.Updates r o.dst r'.fp
  ap : i.apRule.Updates r o.res r'.ap
  pc : i.pcRule.Updates r i.size o r'.pc

/-- Operands over a memory are operands over every memory with the same cells, and perhaps
more. -/
theorem Fetches.mono {r : Registers} {i : Instruction} {m m' : Memory} {a : OperandAddresses}
    {o : Operands Value} (h : r.Fetches i m a o) (hm : m.Extends m') : r.Fetches i m' a o :=
  { h with dst := hm _ _ h.dst, op0 := hm _ _ h.op0, op1 := hm _ _ h.op1 }

/-- What an instruction does over a memory it does over every memory with the same cells, and
perhaps more. -/
theorem Executes.mono {r r' : Registers} {i : Instruction} {m m' : Memory} {a : OperandAddresses}
    {o : Operands Value} (h : r.Executes i m a o r') (hm : m.Extends m') :
    r.Executes i m' a o r' :=
  { h with toFetches := h.toFetches.mono hm }

end Registers

end Cairo
