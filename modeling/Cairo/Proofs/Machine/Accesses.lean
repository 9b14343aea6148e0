import Cairo.Proofs.Machine.Memory
import Cairo.Proofs.Machine.Replay
import Cairo.Proofs.Memory.Accesses

/-!
# A machine accesses what is written

A step marks the program counter, from which an instruction was read, and the addresses of its
operands, which are written by then (`keepsAccesses_recordStep`).  Hints and operands mark nothing.
So the accessed addresses of a machine stay written through its steps, also where one of them fails
(`keepsAccesses_step`).
-/

namespace Cairo

/-- What hints and operands do to a memory keeps the accesses written. -/
theorem Memory.writesRespect_keepsAccesses : WritesRespect KeepsAccesses where
  addSegment := keepsAccesses_addSegment
  addTemporary := keepsAccesses_addTemporary
  insert := keepsAccesses_insert
  addRelocation := keepsAccesses_addRelocation

namespace Machine

variable {s t : Machine}

/-- If the accessed addresses of the first machine are written, those of the second one are. -/
def KeepsAccesses (s t : Machine) : Prop := s.memory.KeepsAccesses t.memory

instance : IsPreorder Machine KeepsAccesses where
  refl s := refl s.memory
  trans _ _ _ h h' := IsTrans.trans (r := Memory.KeepsAccesses) _ _ _ h h'

/-! ## Instructions -/

/-- Recording a step keeps the accesses written, if its instruction and its operands are. -/
theorem keepsAccesses_recordStep {i : Instruction} {a : OperandAddresses} {o : Operands Value}
    (hpc : (s.memory.get? s.registers.pc).isSome)
    (hfetches : s.registers.Fetches i s.memory a o) : s.KeepsAccesses (s.recordStep a) := by
  have hdst : (s.memory.get? a.dst).isSome := Option.isSome_of_eq_some hfetches.dst
  have hop0 : (s.memory.get? a.op0).isSome := Option.isSome_of_eq_some hfetches.op0
  have hop1 : (s.memory.get? a.op1).isSome := Option.isSome_of_eq_some hfetches.op1
  -- The marks are set one after the other, and none of them changes a cell.
  intro hs
  have hfirst := Memory.AccessesWritten.markAccessed hs hpc
  have hsecond := hfirst.markAccessed hdst
  have hthird := hsecond.markAccessed hop0
  exact hthird.markAccessed hop1

/-- An instruction that was read at the program counter keeps the accesses written. -/
theorem keepsAccesses_runInstruction (i : Instruction)
    (hpc : (s.memory.get? s.registers.pc).isSome) :
    s.KeepsAccesses ((runInstruction i).after s) := by
  have hoperands : Action.Respects KeepsAccesses (computeOperands i) :=
    through_computeOperands Memory.writesRespect_keepsAccesses i
  refine Action.Respects.rel_bind_trans (hoperands s) fun ⟨o, a⟩ u hu => ?_
  obtain ⟨bs, m, rfl, hfetches, hext, -⟩ := computeOperands_ok hu
  -- The word at the program counter is still there when the operands are.
  obtain ⟨word, hword⟩ := Option.isSome_iff_exists.mp hpc
  have hpc' : (m.get? s.registers.pc).isSome := Option.isSome_of_eq_some (hext _ _ hword)
  have hrecord : KeepsAccesses _ (({ s with builtins := bs }.withMemory m).recordStep a) :=
    keepsAccesses_recordStep hpc' hfetches
  refine Action.Respects.rel_lift_bind fun _ _ => ?_
  refine Action.Respects.rel_bind_trans hrecord fun _ v _ => ?_
  refine Action.Respects.bind (through_report _) (fun _ => ?_) v
  exact .bind (through_onRegisters _) fun _ => .modify fun _ => id

/-- The instruction at the program counter keeps the accesses written. -/
theorem keepsAccesses_stepInstruction : Action.Respects KeepsAccesses stepInstruction := by
  unfold stepInstruction
  refine .get_bind fun s => Action.Respects.rel_lift_bind fun i hi => ?_
  split
  · have hskip : Action.Respects KeepsAccesses (skip i) :=
      .bind .get fun _ => .bind (.lift _) fun _ => .modify fun _ => id
    exact hskip s
  · obtain ⟨word, _, hword, -⟩ := currentInstruction_eq_ok.mp hi
    have hreport : ∀ e, Action.Respects KeepsAccesses (report e) := through_report
    refine Action.Respects.rel_bind_trans (hreport _ s) fun _ u hu => ?_
    obtain rfl := Action.modify_eq_ok.mp hu
    have hpc : (s.memory.get? s.registers.pc).isSome := Option.isSome_of_eq_some hword
    refine Action.Respects.rel_bind_trans (keepsAccesses_runInstruction i hpc) fun _ v _ => ?_
    exact Action.Respects.bind .get (fun _ => hreport _) v

/-- A step keeps the accesses written. -/
theorem keepsAccesses_step : Action.Respects KeepsAccesses step :=
  .bind (through_stepHint Memory.writesRespect_keepsAccesses) fun _ => keepsAccesses_stepInstruction

/-- Steps keep the accesses written. -/
theorem keepsAccesses_steps (n : Nat) : Action.Respects KeepsAccesses (steps n) := by
  induction n with
  | zero => exact .pure _
  | succ n ih => exact .bind keepsAccesses_step fun _ => ih

end Machine

end Cairo
