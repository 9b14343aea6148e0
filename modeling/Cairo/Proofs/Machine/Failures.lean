import Cairo.Proofs.Machine.Refusals
import Cairo.Proofs.Machine.Trace

/-!
# Instructions that fail

An instruction can fail at many places: its word may not be one, its operands may have no address, a
builtin or its own rule may not give what is missing, one of the three cells may refuse its value,
the opcode may not hold, and one of the registers may have no new value.  By then some of its
effects have happened.  Wherever it fails, it is left in place (`LeftInPlace`): the machine stands
at the instruction that failed, has not counted it, has everything that was written before, and has
written operands of this instruction at most.
-/

namespace Cairo

namespace Memory

/-! ## Where a memory is written -/

/-- What was written stays as it is, and what is written besides is at addresses of one sort. -/
structure WritesAt (P : Address → Prop) (m m' : Memory) : Prop where
  kept : m.Extends m'
  others : ∀ a, ¬ P a → m'.get? a = m.get? a

instance (P : Address → Prop) : IsPreorder Memory (WritesAt P) where
  refl _ := ⟨refl _, fun _ _ => rfl⟩
  trans _ _ _ h h' := ⟨IsTrans.trans _ _ _ h.kept h'.kept,
    fun a ha => (h'.others a ha).trans (h.others a ha)⟩

/-- An insertion writes at its address, also when it fails. -/
theorem writesAt_insert {P : Address → Prop} {a : Address} (ha : P a) (v : Value) :
    Action.Respects (WritesAt P) (insert a v) := by
  refine respects_insert_of (fun m s hs hnew => ?_) ?_
  · refine ⟨extends_put hs hnew v, fun b hb => ?_⟩
    have hne : b ≠ a := by
      rintro rfl
      exact hb ha
    rw [get?_put hs, if_neg hne]
  · exact (respects_validateCell a).mono fun m m' h => ⟨h.extends, fun b _ => h.get?_eq b⟩

end Memory

namespace Registers

/-! ## Registers that are not updated -/

/-- The program counter is the same. -/
def SamePc (r r' : Registers) : Prop := r'.pc = r.pc

instance : IsPreorder Registers SamePc where
  refl _ := rfl
  trans _ _ _ h h' := Eq.trans h' h

/-- The program counter is updated last, so an update that fails has not changed it. -/
theorem samePc_of_update_error {i : Instruction} {o : Operands Value} {r r' : Registers} {e : Fault}
    (h : update i o r = .error e r') : r.SamePc r' := by
  have hfp : Action.Respects SamePc (updateFp i o) :=
    .bind .get fun _ => .bind (.lift _) fun _ => .modify fun _ => rfl
  have hap : Action.Respects SamePc (updateAp i o) :=
    .bind .get fun _ => .bind (.lift _) fun _ => .modify fun _ => rfl
  have hpc : Action.Atomic (updatePc i o) := .get_bind fun _ => .lift_bind fun _ => .modify _
  unfold update at h
  rcases Action.bind_eq_error.mp h with hfirst | ⟨_, r₁, hfirst, h⟩
  · exact hfp.of_error hfirst
  have h₁ : r.SamePc r₁ := hfp.of_ok hfirst
  rcases Action.bind_eq_error.mp h with hsecond | ⟨_, r₂, hsecond, hthird⟩
  · exact IsTrans.trans _ _ _ h₁ (hap.of_error hsecond)
  have h₂ : r.SamePc r₂ := IsTrans.trans _ _ _ h₁ (hap.of_ok hsecond)
  have hlast : r' = r₂ := hpc r₂ e r' hthird
  rw [hlast]
  exact h₂

end Registers

namespace Machine

variable {i : Instruction} {s t u : Machine} {e : Fault}

/-! ## Operands that are written -/

/-- The addresses of the operands of an instruction, by the registers of a machine and by what is
written at the first operand, from which the second one may start. -/
structure HasOperandsAt (s : Machine) (i : Instruction) (a : OperandAddresses) : Prop where
  dst : s.registers.dstAddress i = .ok a.dst
  op0 : s.registers.op0Address i = .ok a.op0
  op1 : s.registers.op1Address i ((s.memory.get? a.op0).bind Value.address?) = .ok a.op1

/-- An address is that of an operand of an instruction. -/
def IsOperand (s : Machine) (i : Instruction) (b : Address) : Prop :=
  ∃ a, s.HasOperandsAt i a ∧ (b = a.dst ∨ b = a.op0 ∨ b = a.op1)

/-- The report before an instruction changes nothing that its operands depend on. -/
theorem isOperand_announced {j : Instruction} {b : Address} :
    (s.announced j).IsOperand i b ↔ s.IsOperand i b := by
  constructor
  · rintro ⟨a, ⟨hdst, hop0, hop1⟩, hmem⟩
    exact ⟨a, ⟨hdst, hop0, hop1⟩, hmem⟩
  · rintro ⟨a, ⟨hdst, hop0, hop1⟩, hmem⟩
    exact ⟨a, ⟨hdst, hop0, hop1⟩, hmem⟩

/-- The memory of the second machine is that of the first one, written at addresses of one sort. -/
def WritesAt (P : Address → Prop) (s t : Machine) : Prop := s.memory.WritesAt P t.memory

instance (P : Address → Prop) : IsPreorder Machine (WritesAt P) where
  refl _ := refl (r := Memory.WritesAt P) _
  trans _ _ _ := IsTrans.trans (r := Memory.WritesAt P) _ _ _

section Writes

variable {P : Address → Prop}

/-- A deduction writes nothing. -/
theorem writesAt_orDeduced (a : Address) (found : Option Value) :
    Action.Respects (WritesAt P) (orDeduced a found) := by
  cases found with
  | some v => exact .pure _
  | none =>
    have hdeduce : Action.Respects (WritesAt P) (deduceCell a) :=
      .bind .get fun _ => .within (S := fun _ _ => True) (fun _ => trivial) fun _ _ _ => refl _
    exact .bind hdeduce fun _ => .pure _

/-- Gathering the operands writes nothing. -/
theorem writesAt_gather (i : Instruction) (c : FoundCells) :
    Action.Respects (WritesAt P) (gather i c) :=
  .bind (writesAt_orDeduced _ _) fun _ => .bind (writesAt_orDeduced _ _) fun _ =>
    .bind .get fun _ => .lift _

/-- A missing operand is written at its address. -/
theorem writesAt_writeMissing {a : Address} (ha : P a) (found : Option Value) (v : Value) :
    Action.Respects (WritesAt P) (writeMissing a found v) := by
  cases found with
  | some w => exact .pure _
  | none =>
    have hinsert : Action.Respects (Memory.WritesAt P) (Memory.insert a v) :=
      Memory.writesAt_insert ha v
    have hsegments : Action.Respects (fun x y : Segments => x.memory.WritesAt P y.memory)
        (Segments.onMemory (Memory.insert a v)) := .within hinsert fun _ _ h => h
    exact .within hsegments fun _ _ h => h

end Writes

/-- Computing the operands of an instruction writes at their addresses, also when it fails. -/
theorem writesAt_computeOperands (i : Instruction) :
    Action.Respects (fun s t => s.WritesAt (s.IsOperand i) t) (computeOperands i) := by
  refine .get_bind fun s => Action.Respects.rel_lift_bind fun c hread => ?_
  obtain ⟨hdst, hop0, hop1, -, hcell0, -⟩ := readCells_ok hread
  rw [hcell0] at hop1
  have haddresses : s.HasOperandsAt i c.addresses := ⟨hdst, hop0, hop1⟩
  have hwrites : Action.Respects (WritesAt (s.IsOperand i))
      (gather i c >>= fun o => writeMissing c.addresses.dst c.dst o.dst >>= fun _ =>
        writeMissing c.addresses.op0 c.op0 o.op0 >>= fun _ =>
          writeMissing c.addresses.op1 c.op1 o.op1 >>= fun _ => pure (o, c.addresses)) :=
    .bind (writesAt_gather i c) fun o =>
      .bind (writesAt_writeMissing ⟨_, haddresses, .inl rfl⟩ _ _) fun _ =>
        .bind (writesAt_writeMissing ⟨_, haddresses, .inr (.inl rfl)⟩ _ _) fun _ =>
          .bind (writesAt_writeMissing ⟨_, haddresses, .inr (.inr rfl)⟩ _ _) fun _ => .pure _
  exact hwrites s

/-! ## Failing in place -/

/-- What an instruction that fails leaves behind.  The program counter and the count of steps are as
before, every written cell holds its value, and a cell that is written now is an operand of the
instruction at the program counter. -/
structure LeftInPlace (s t : Machine) : Prop where
  pc : t.registers.pc = s.registers.pc
  stepCount : t.stepCount = s.stepCount
  kept : s.memory.Extends t.memory
  written : ∀ b v, s.memory.get? b = none → t.memory.get? b = some v →
    ∃ i, s.currentInstruction = .ok i ∧ s.IsOperand i b

/-- Nothing at all has happened. -/
theorem leftInPlace_refl (s : Machine) : s.LeftInPlace s := by
  refine ⟨rfl, rfl, refl _, fun b v hnone hsome => ?_⟩
  rw [hnone] at hsome
  cases hsome

/-- A machine whose memory is written at operands of its instruction has left it in place. -/
theorem leftInPlace_of_writesAt (hi : s.currentInstruction = .ok i)
    (hpc : t.registers.pc = s.registers.pc) (hcount : t.stepCount = s.stepCount)
    (hwrites : s.WritesAt (s.IsOperand i) t) : s.LeftInPlace t := by
  refine ⟨hpc, hcount, hwrites.kept, fun b v hnone hsome => ?_⟩
  refine ⟨i, hi, ?_⟩
  by_contra hother
  rw [hwrites.others b hother, hnone] at hsome
  cases hsome

/-- An instruction that fails has changed neither the program counter nor the count of steps, and
has written at its operands. -/
theorem runInstruction_error (h : runInstruction i s = .error e t) :
    t.registers.pc = s.registers.pc ∧ t.stepCount = s.stepCount ∧
      s.WritesAt (s.IsOperand i) t := by
  have hwrites := writesAt_computeOperands i s
  rcases runInstruction_eq_error.mp h with hoperands | ⟨o, a, u, hoperands, hlater⟩
  · -- The operands cannot be computed, and some of them may be written.
    have hstands : s.Stands t := (stands_computeOperands i).of_error hoperands
    rw [Action.after_of_error hoperands] at hwrites
    exact ⟨congrArg Registers.pc hstands.registers, hstands.stepCount, hwrites⟩
  have hstands : s.Stands u := (stands_computeOperands i).of_ok hoperands
  have hpc : u.registers.pc = s.registers.pc := congrArg Registers.pc hstands.registers
  rw [Action.after_of_ok hoperands] at hwrites
  rcases hlater with ⟨-, rfl⟩ | ⟨-, r, hupdate, rfl⟩
  · -- The opcode does not hold of the operands.
    exact ⟨hpc, hstands.stepCount, hwrites⟩
  · -- The step is recorded, which marks cells and writes none.
    have hsame : u.registers.SamePc r := Registers.samePc_of_update_error hupdate
    have hmarks : u.WritesAt (s.IsOperand i) (u.interruptedIn i a r) :=
      ⟨fun _ _ hv => hv, fun _ _ => rfl⟩
    exact ⟨hsame.trans hpc, hstands.stepCount, IsTrans.trans _ _ _ hwrites hmarks⟩

/-- Passing over an instruction has no effect when it fails. -/
theorem atomic_skip (i : Instruction) : Action.Atomic (skip i) :=
  .get_bind fun _ => .lift_bind fun _ => .modify _

/-- Whatever state a machine is in, and wherever its instruction fails, the instruction is left in
place. -/
theorem leftInPlace_of_stepInstruction_error (h : stepInstruction s = .error e t) :
    s.LeftInPlace t := by
  cases hi : s.currentInstruction with
  | error e' =>
    rw [stepInstruction_of_error hi] at h
    cases h
    exact leftInPlace_refl s
  | ok i =>
    by_cases hskip : s.skipNext = true
    · rw [stepInstruction_of_skipNext hi hskip] at h
      obtain rfl := atomic_skip i s e t h
      exact leftInPlace_refl t
    · rw [stepInstruction_of_not_skipNext hi hskip] at h
      rcases Action.bind_eq_error.mp h with hrun | ⟨_, u, -, hreport⟩
      · obtain ⟨hpc, hcount, hkept, hothers⟩ := runInstruction_error hrun
        have hwrites : s.WritesAt (s.IsOperand i) t :=
          ⟨hkept, fun b hb => hothers b (mt isOperand_announced.mp hb)⟩
        exact leftInPlace_of_writesAt hi hpc hcount hwrites
      · cases hreport

/-- Writing a number that is too large for the segment of a range check fails in place: the number
is left in its cell, which is the destination of the instruction. -/
theorem leftInPlace_pushing :
    ∃ e t, stepInstruction (pushing 65536) = .error e t ∧ (pushing 65536).LeftInPlace t ∧
      (pushing 65536).memory.get? ⟨1, 1, by decide⟩ = none ∧
        t.memory.get? ⟨1, 1, by decide⟩ = some (.felt 65536) := by
  have hfails : stepInstruction (pushing 65536) =
      .error (.outOfRange ⟨1, 1, by decide⟩ 65536 (RangeRule.bound ⟨1⟩))
        (stepInstruction.after (pushing 65536)) := rfl
  exact ⟨_, _, hfails, leftInPlace_of_stepInstruction_error hfails, by decide +kernel,
    by decide +kernel⟩

end Machine

end Cairo
