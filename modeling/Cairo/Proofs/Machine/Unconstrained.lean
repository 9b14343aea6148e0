import Cairo.Proofs.Instruction.Decoding
import Cairo.Proofs.Machine.Faults
import Cairo.Proofs.Machine.Trace

/-!
# Instructions without a result

The operands of an instruction come without a result just if its rule leaves the result open
(`res_eq_none_iff`), and of the instructions that words stand for those are the conditional jumps.
A result is used in four places: an assertion compares it, the allocation pointer may move by it,
and two kinds of jumps go to it or by it.  The two jumps are other jumps than the conditional one,
so their use never fails for lack of a result; the other two may go together with a conditional
jump, and then they do fail (`result_missing_only_at_jumpNonzero`).
-/

namespace Cairo

/-- The result that a rule gives is missing just if the rule leaves it open. -/
theorem ResultRule.Gives.eq_none_iff {rule : ResultRule} {x y : Value} {res : Option Value}
    (h : rule.Gives x y res) : res = none ↔ rule = .unconstrained := by
  cases rule with
  | op1 =>
    obtain rfl : res = some y := h
    exact ⟨nofun, nofun⟩
  | add =>
    obtain ⟨v, -, rfl⟩ := h
    exact ⟨nofun, nofun⟩
  | mul =>
    obtain ⟨f, g, -, -, rfl⟩ := h
    exact ⟨nofun, nofun⟩
  | unconstrained => exact ⟨fun _ => rfl, fun _ => h⟩

/-! ## The uses of a result -/

namespace Registers

variable {r : Registers} {i : Instruction} {o : Operands Value} {what : String}

/-- The check of an opcode lacks a result just if the opcode is an assertion. -/
theorem check_eq_error_unconstrained :
    r.check i o = .error (.unconstrainedResult what) ↔
      i.opcode = .assertEq ∧ o.res = none ∧ what = "assert_eq" := by
  constructor
  · have hfails : Answer.FailsOnly
        (Fault.IsOfStepFor fun what => i.opcode = .assertEq ∧ o.res = none ∧ what = "assert_eq")
        (r.check i o) := r.failsOnly_check i fun hop hres => ⟨hop, hres, rfl⟩
    exact hfails _
  · rintro ⟨hop, hres, rfl⟩
    unfold check
    rw [hop, hres]
    rfl

/-- The new frame pointer needs no result. -/
theorem updatedFp_ne_error_unconstrained :
    r.updatedFp i o ≠ .error (.unconstrainedResult what) := by
  have hfails : Answer.FailsOnly (Fault.IsOfStepFor fun _ => False) (r.updatedFp i o) :=
    r.failsOnly_updatedFp i o
  exact hfails _

/-- The new allocation pointer lacks a result just if it is the old one moved by the result. -/
theorem updatedAp_eq_error_unconstrained :
    r.updatedAp i o = .error (.unconstrainedResult what) ↔
      i.apRule = .addResult ∧ o.res = none ∧ what = "ap += res" := by
  constructor
  · have hfails : Answer.FailsOnly
        (Fault.IsOfStepFor fun what => i.apRule = .addResult ∧ o.res = none ∧ what = "ap += res")
        (r.updatedAp i o) := r.failsOnly_updatedAp i fun hap hres => ⟨hap, hres, rfl⟩
    exact hfails _
  · rintro ⟨hap, hres, rfl⟩
    unfold updatedAp
    rw [hap, hres]
    rfl

/-- The new program counter lacks no result if only a conditional jump has none. -/
theorem updatedPc_ne_error_unconstrained (hjnz : o.res = none → i.pcRule = .jumpNonzero) :
    r.updatedPc i o ≠ .error (.unconstrainedResult what) := by
  have hfails : Answer.FailsOnly (Fault.IsOfStepFor fun _ => False) (r.updatedPc i o) := by
    refine r.failsOnly_updatedPc i (fun hpc hres => ?_) fun hpc hres => ?_
    · exact nomatch hpc.symm.trans (hjnz hres)
    · exact nomatch hpc.symm.trans (hjnz hres)
  exact hfails _

/-- If only a conditional jump has no result, the update of the registers lacks one just if the
frame pointer is updated and the allocation pointer is to be moved by the result. -/
theorem exists_update_eq_error_unconstrained (hjnz : o.res = none → i.pcRule = .jumpNonzero) :
    (∃ r', update i o r = .error (.unconstrainedResult what) r') ↔
      (∃ fp, i.fpRule.Updates r o.dst fp) ∧ i.apRule = .addResult ∧ o.res = none ∧
        what = "ap += res" := by
  simp only [← updatedFp_eq_ok]
  unfold update
  constructor
  · rintro ⟨r', h⟩
    rcases Action.bind_eq_error.mp h with hfails | ⟨_, r₁, hfp, h⟩
    · exact absurd (Action.modify_computed_eq_error.mp hfails).1 updatedFp_ne_error_unconstrained
    rcases Action.bind_eq_error.mp h with hfails | ⟨_, r₂, -, hfails⟩
    · refine ⟨?_, updatedAp_eq_error_unconstrained.mp (Action.modify_computed_eq_error.mp hfails).1⟩
      cases hupdated : r.updatedFp i o with
      | ok fp => exact ⟨fp, rfl⟩
      | error e =>
        have hfails : updateFp i o r = .error e r :=
          Action.modify_computed_eq_error.mpr ⟨hupdated, rfl⟩
        cases hfails.symm.trans hfp
    · exact absurd (Action.modify_computed_eq_error.mp hfails).1
        (updatedPc_ne_error_unconstrained hjnz)
  · rintro ⟨⟨fp, hfp⟩, huse⟩
    have hupdated : updateFp i o r = .ok () { r with fp := fp } := by
      unfold updateFp
      rw [Action.get_bind, Action.lift_bind_of_ok hfp]
      rfl
    have hfails : updateAp i o { r with fp := fp } =
        .error (.unconstrainedResult what) { r with fp := fp } :=
      Action.modify_computed_eq_error.mpr ⟨updatedAp_eq_error_unconstrained.mpr huse, rfl⟩
    exact ⟨_, (Action.bind_of_ok hupdated).trans (Action.bind_of_error hfails)⟩

end Registers

/-! ## Instructions that words stand for -/

namespace Machine

variable {i : Instruction} {s t : Machine} {o : Operands Value} {a : OperandAddresses}
  {what : String}

/-- The operands that a machine computes come without a result just if the rule of the instruction
leaves it open, also when some of them were deduced. -/
theorem res_eq_none_iff (h : computeOperands i s = .ok (o, a) t) :
    o.res = none ↔ i.result = .unconstrained := by
  obtain ⟨_, _, -, hfetches, -⟩ := computeOperands_ok h
  exact hfetches.result.eq_none_iff

/-- Computing the operands of an instruction needs no result. -/
theorem computeOperands_ne_error_unconstrained :
    computeOperands i s ≠ .error (.unconstrainedResult what) t := by
  have hfails : Action.FailsOnly (Fault.IsOfStepFor fun _ => False) (computeOperands i) :=
    failsOnly_computeOperands i
  exact hfails s _ t

/-- An instruction that can be encoded lacks a result just if it is a conditional jump whose
operands are computed, and it either is an assertion, or else comes to move the allocation pointer
by the result. -/
theorem exists_runInstruction_eq_error_unconstrained (hi : i.IsEncodable) (s : Machine)
    (what : String) :
    (∃ t, runInstruction i s = .error (.unconstrainedResult what) t) ↔
      i.pcRule = .jumpNonzero ∧ ∃ o a u, computeOperands i s = .ok (o, a) u ∧
        (i.opcode = .assertEq ∧ what = "assert_eq" ∨
          i.opcode ≠ .assertEq ∧ i.apRule = .addResult ∧ what = "ap += res" ∧
            ∃ fp, i.fpRule.Updates s.registers o.dst fp) := by
  have hjnz : ∀ {o a u}, computeOperands i s = .ok (o, a) u →
      (o.res = none ↔ i.pcRule = .jumpNonzero) :=
    fun hoperands => (res_eq_none_iff hoperands).trans hi.unconstrained
  have hregisters : ∀ {p u}, computeOperands i s = .ok p u → u.registers = s.registers :=
    fun hoperands => ((stands_computeOperands i).of_ok hoperands).registers
  constructor
  · rintro ⟨t, h⟩
    rcases runInstruction_eq_error.mp h with
      hfails | ⟨o, a, u, hoperands, ⟨hcheck, -⟩ | ⟨hcheck, r, hupdate, -⟩⟩
    · exact absurd hfails computeOperands_ne_error_unconstrained
    · obtain ⟨hop, hres, hwhat⟩ := Registers.check_eq_error_unconstrained.mp hcheck
      exact ⟨(hjnz hoperands).mp hres, o, a, u, hoperands, .inl ⟨hop, hwhat⟩⟩
    · obtain ⟨hfp, hap, hres, hwhat⟩ :=
        (Registers.exists_update_eq_error_unconstrained (hjnz hoperands).mp).mp ⟨r, hupdate⟩
      rw [hregisters hoperands] at hfp
      refine ⟨(hjnz hoperands).mp hres, o, a, u, hoperands, .inr ⟨fun hop => ?_, hap, hwhat, hfp⟩⟩
      -- The check of an assertion would have lacked the result before.
      cases (Registers.check_eq_error_unconstrained.mpr ⟨hop, hres, rfl⟩).symm.trans hcheck
  · rintro ⟨hpc, o, a, u, hoperands, huse⟩
    have hres : o.res = none := (hjnz hoperands).mpr hpc
    rcases huse with ⟨hop, hwhat⟩ | ⟨hop, hap, hwhat, hfp⟩
    · have hcheck : u.registers.check i o = .error (.unconstrainedResult what) :=
        Registers.check_eq_error_unconstrained.mpr ⟨hop, hres, hwhat⟩
      exact ⟨u, runInstruction_of_check_error hoperands hcheck⟩
    · rw [← hregisters hoperands] at hfp
      -- A call moves the allocation pointer by a rule of its own.
      have hcall : i.opcode ≠ .call := fun hcall => nomatch hap.symm.trans (hi.addTwo.mpr hcall)
      have hcheck : u.registers.check i o = .ok () :=
        Registers.check_eq_ok.mpr ⟨fun h => absurd h hop, fun h => absurd h hcall⟩
      obtain ⟨r, hupdate⟩ :=
        (Registers.exists_update_eq_error_unconstrained (hjnz hoperands).mp).mpr
          ⟨hfp, hap, hres, hwhat⟩
      exact ⟨_, runInstruction_of_update_error hoperands hcheck hupdate⟩

/-- Whatever word an instruction is decoded from, and whatever state a machine is in, the operands
that the machine computes come without a result just if the instruction is a conditional jump.  No
jump to the result or by it ever lacks one, whether the program counter is updated from any
registers or the whole instruction is executed.  An instruction fails for lack of a result just if
it is a conditional jump whose operands are computed, and it either is an assertion, or else comes
to move the allocation pointer by the result. -/
theorem result_missing_only_at_jumpNonzero {n : Int} (hi : Instruction.decode n = .ok i)
    (s : Machine) :
    (∀ o a t, computeOperands i s = .ok (o, a) t → (o.res = none ↔ i.pcRule = .jumpNonzero) ∧
      ∀ r what, Registers.updatedPc r i o ≠ .error (.unconstrainedResult what)) ∧
    (∀ t, runInstruction i s ≠ .error (.unconstrainedResult "jmp abs") t ∧
      runInstruction i s ≠ .error (.unconstrainedResult "jmp rel") t) ∧
    ∀ what, (∃ t, runInstruction i s = .error (.unconstrainedResult what) t) ↔
      i.pcRule = .jumpNonzero ∧ ∃ o a u, computeOperands i s = .ok (o, a) u ∧
        (i.opcode = .assertEq ∧ what = "assert_eq" ∨
          i.opcode ≠ .assertEq ∧ i.apRule = .addResult ∧ what = "ap += res" ∧
            ∃ fp, i.fpRule.Updates s.registers o.dst fp) := by
  have hencodable : i.IsEncodable :=
    Instruction.isEncodable_of_decode? (Instruction.decode_eq_ok.mp hi)
  have hiff := exists_runInstruction_eq_error_unconstrained hencodable s
  have hnever : ∀ what t, what ≠ "assert_eq" → what ≠ "ap += res" →
      runInstruction i s ≠ .error (.unconstrainedResult what) t := by
    intro what t hassert hadd h
    obtain ⟨-, _, _, _, -, ⟨-, hwhat⟩ | ⟨-, -, hwhat, -⟩⟩ := (hiff what).mp ⟨t, h⟩
    · exact hassert hwhat
    · exact hadd hwhat
  refine ⟨fun o a t hoperands => ?_, fun t => ⟨?_, ?_⟩, hiff⟩
  · have hjnz := (res_eq_none_iff hoperands).trans hencodable.unconstrained
    exact ⟨hjnz, fun r what => Registers.updatedPc_ne_error_unconstrained hjnz.mp⟩
  · exact hnever _ t (by decide) (by decide)
  · exact hnever _ t (by decide) (by decide)

/-- A jump by an immediate value, unless the cell before the frame pointer holds zero, that also has
the given opcode and changes the allocation pointer in the given way. -/
def jumpUnlessZero (opcode : Opcode) (apRule : ApRule) : Instruction :=
  { off0 := -1, off1 := -1, off2 := 1, dstRegister := .fp, op0Register := .fp
    op1Source := .immediate, result := .unconstrained, pcRule := .jumpNonzero, apRule := apRule
    fpRule := .regular, opcode := opcode }

/-- A machine with a jump by five before it and a one before its frame pointer. -/
def jumping (word : Felt) : Machine := loaded [.felt word, .felt 5] [.felt 1]

/-- A conditional jump that is also an assertion lacks a result to assert, and one that also moves
the allocation pointer by the result lacks a result to add. -/
theorem result_missing_only_at_jumpNonzero_asserting_adding :
    Instruction.decode 0x420780017fff7fff = .ok (jumpUnlessZero .assertEq .regular) ∧
      (∃ t, runInstruction (jumpUnlessZero .assertEq .regular) (jumping 0x420780017fff7fff) =
        .error (.unconstrainedResult "assert_eq") t) ∧
        Instruction.decode 0x060780017fff7fff = .ok (jumpUnlessZero .nop .addResult) ∧
          ∃ t, runInstruction (jumpUnlessZero .nop .addResult) (jumping 0x060780017fff7fff) =
            .error (.unconstrainedResult "ap += res") t := by
  have hasserting : Instruction.decode 0x420780017fff7fff =
      .ok (jumpUnlessZero .assertEq .regular) := rfl
  have hadding : Instruction.decode 0x060780017fff7fff = .ok (jumpUnlessZero .nop .addResult) := rfl
  obtain ⟨-, -, hasserts⟩ :=
    result_missing_only_at_jumpNonzero hasserting (jumping 0x420780017fff7fff)
  obtain ⟨-, -, hadds⟩ := result_missing_only_at_jumpNonzero hadding (jumping 0x060780017fff7fff)
  obtain ⟨⟨o, a⟩, hoperands⟩ := Action.exists_eq_ok_of_isOk
    (x := computeOperands (jumpUnlessZero .assertEq .regular)) (s := jumping 0x420780017fff7fff)
    (by decide +kernel)
  obtain ⟨⟨o', a'⟩, hoperands'⟩ := Action.exists_eq_ok_of_isOk
    (x := computeOperands (jumpUnlessZero .nop .addResult)) (s := jumping 0x060780017fff7fff)
    (by decide +kernel)
  refine ⟨hasserting, (hasserts _).mpr ⟨rfl, o, a, _, hoperands, .inl ⟨rfl, rfl⟩⟩, hadding, ?_⟩
  exact (hadds _).mpr ⟨rfl, o', a', _, hoperands', .inr ⟨nofun, rfl, rfl, _, rfl⟩⟩

end Machine

end Cairo
