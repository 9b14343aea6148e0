import Cairo.Proofs.Machine.Instruction
import Cairo.Proofs.Machine.Standing
import Cairo.Proofs.Memory.Refusals

/-!
# Steps that are refused and run again

A step fails when a builtin rejects an operand that it writes.  The value stays in the cell, and an
operand that is found is neither written nor checked; so when the step is run again, it goes on with
the operands that it had (`computeOperands_again`), and it may succeed.
-/

namespace Cairo.Machine

/-! ## Registers while the operands are computed -/

/-- The machines have the same registers. -/
def SameRegisters (s t : Machine) : Prop := t.registers = s.registers

instance : IsPreorder Machine SameRegisters where
  refl _ := rfl
  trans _ _ _ h h' := Eq.trans h' h

/-- Computing the operands leaves the registers alone, also when it fails. -/
theorem sameRegisters_computeOperands (i : Instruction) :
    Action.Respects SameRegisters (computeOperands i) :=
  (stands_computeOperands i).mono fun _ _ h => h.registers

/-! ## Running a step again -/

/-- An instruction that failed while it wrote its operands has the same operands when it is executed
again with all of them in their cells.  Nothing is written then, so no rule is asked. -/
theorem computeOperands_again {i : Instruction} {c : FoundCells} {o : Operands Value}
    {s t u : Machine} {e : Fault} (hread : s.readCells i = .ok c)
    (hgather : gather i c s = .ok o u) (h : computeOperands i s = .error e t)
    (hdst : t.memory.get? c.addresses.dst = some o.dst)
    (hop0 : t.memory.get? c.addresses.op0 = some o.op0)
    (hop1 : t.memory.get? c.addresses.op1 = some o.op1) :
    computeOperands i t = .ok (o, c.addresses) t := by
  have hregisters : t.registers = s.registers := (sameRegisters_computeOperands i).of_error h
  obtain ⟨hdstAddress, hop0Address, hop1Address, -⟩ := readCells_ok hread
  obtain ⟨-, -, hfound0, -, hgives⟩ := gather_ok hgather
  apply computeOperands_of_fetches
  rw [hregisters]
  have hop1Address' := op1Address_of_found hop1Address hfound0
  exact ⟨hdstAddress, hop0Address, hop1Address', hdst, hop0, hop1, hgives⟩

/-- A machine that is about to write a number to its stack, which is the segment of a range check of
one part. -/
def pushing (n : Felt) : Machine :=
  let s := loaded [.felt pushImmediateWord, .felt n] [.felt 0]
  { s.withMemory (s.memory.addRule 1 ⟨1⟩) with
    builtins := [{ Builtin.ofKind .rangeCheck with parts := 1, segment := some 1 }] }

/-- Writing a number that is too large fails, but leaves the number in its cell; the same step
succeeds when it is run again. -/
theorem exists_stepInstruction_refused_then_ok :
    ∃ (s t u : Machine) (a : Address), s.memory.get? a = none ∧
      stepInstruction s = .error (.outOfRange a 65536 (RangeRule.bound ⟨1⟩)) t ∧
        t.memory.get? a = some (.felt 65536) ∧ stepInstruction t = .ok () u := by
  have hfirst : stepInstruction (pushing 65536) =
      .error (.outOfRange ⟨1, 1, by decide⟩ 65536 (RangeRule.bound ⟨1⟩))
        (stepInstruction.after (pushing 65536)) := rfl
  have hsecond : stepInstruction (stepInstruction.after (pushing 65536)) =
      .ok () (stepInstruction.after (stepInstruction.after (pushing 65536))) :=
    Action.eq_ok_of_isOk (by decide +kernel)
  exact ⟨_, _, _, _, by decide +kernel, hfirst, by decide +kernel, hsecond⟩

end Cairo.Machine
