import Cairo.Proofs.Machine.Standing
import Cairo.Proofs.Machine.Steps

/-!
# The trace and the count of steps

An instruction adds its row to the trace before it updates the registers, and its step is counted
after that.  So there are three ways how far it gets (`Extent`): it fails before the row is added,
it fails between the two, or it succeeds.  Whatever is done to a new machine, its trace has a row
for each instruction of the second and third kind, its count is the number of those of the third
kind, and each row holds the registers before its instruction (`trace_of_operations`).
-/

namespace Cairo.Machine

/-! ## How far an instruction gets -/

/-- How far a machine gets with an instruction. -/
inductive Extent
  /-- No row is added to the trace. -/
  | unrecorded
  /-- A row is added to the trace, and the update of the registers fails. -/
  | interrupted
  /-- A row is added to the trace, and the step is counted. -/
  | counted
deriving DecidableEq

/-- How far a machine gets when it executes an instruction. -/
def executionExtent (i : Instruction) (s : Machine) : Extent :=
  match computeOperands i s with
  | .error .. => .unrecorded
  | .ok (o, _) t =>
    match t.registers.check i o, (Registers.update i o).answer t.registers with
    | .error _, _ => .unrecorded
    | .ok _, .error _ => .interrupted
    | .ok _, .ok _ => .counted

/-- The machine that has reported the instruction that it is about to execute. -/
def announced (s : Machine) (i : Instruction) : Machine :=
  (report (.beforeInstruction s.registers.pc i.opcode s.stepCount)).after s

/-- How far a machine gets with the instruction at its program counter. -/
def instructionExtent (s : Machine) : Extent :=
  match s.currentInstruction with
  | .error _ => .unrecorded
  | .ok i => if s.skipNext then .unrecorded else executionExtent i (s.announced i)

/-- How far a machine gets with the hints and the instruction at its program counter. -/
def stepExtent (s : Machine) : Extent :=
  match stepHint s with
  | .error .. => .unrecorded
  | .ok _ t => t.instructionExtent

/-! ## How an instruction ends -/

variable {i : Instruction} {s t u : Machine} {o : Operands Value} {a : OperandAddresses} {e : Fault}

/-- The machine with its row in the trace and other registers. -/
def interruptedIn (s : Machine) (i : Instruction) (a : OperandAddresses) (r : Registers) :
    Machine :=
  { s.recordStep a with
    events := s.events.map (·.push (.executed s.stepCount s.registers i.opcode))
    registers := r }

/-- How a machine ends with an instruction: its operands cannot be computed, or its opcode does not
hold of them, or its registers cannot be updated, or all of this is done. -/
inductive Ends (i : Instruction) (s : Machine) : Prop
  | operands {e : Fault} {u : Machine} (hoperands : computeOperands i s = .error e u)
  | opcode {o : Operands Value} {a : OperandAddresses} {u : Machine} {e : Fault}
      (hoperands : computeOperands i s = .ok (o, a) u) (hcheck : u.registers.check i o = .error e)
  | registers {o : Operands Value} {a : OperandAddresses} {u : Machine} {e : Fault} {r : Registers}
      (hoperands : computeOperands i s = .ok (o, a) u) (hcheck : u.registers.check i o = .ok ())
      (hupdate : Registers.update i o u.registers = .error e r)
  | done {o : Operands Value} {a : OperandAddresses} {u : Machine} {r : Registers}
      (hoperands : computeOperands i s = .ok (o, a) u) (hcheck : u.registers.check i o = .ok ())
      (hupdate : Registers.update i o u.registers = .ok () r)

/-- Every machine ends with every instruction in one of these ways. -/
theorem ends (i : Instruction) (s : Machine) : Ends i s := by
  cases hoperands : computeOperands i s with
  | error e u => exact .operands hoperands
  | ok p u =>
    obtain ⟨o, a⟩ := p
    cases hcheck : u.registers.check i o with
    | error e => exact .opcode hoperands hcheck
    | ok _ =>
      cases hupdate : Registers.update i o u.registers with
      | error e r => exact .registers hoperands hcheck hupdate
      | ok _ r => exact .done hoperands hcheck hupdate

/-- An instruction fails with its operands. -/
theorem runInstruction_of_operands_error (hoperands : computeOperands i s = .error e u) :
    runInstruction i s = .error e u :=
  Action.bind_of_error hoperands

/-- An instruction whose opcode does not hold of its operands fails before its row is added. -/
theorem runInstruction_of_check_error (hoperands : computeOperands i s = .ok (o, a) u)
    (hcheck : u.registers.check i o = .error e) : runInstruction i s = .error e u := by
  unfold runInstruction
  rw [Action.bind_of_ok hoperands]
  dsimp only
  rw [Action.get_bind, Action.lift_bind_of_error hcheck]

/-- An instruction whose registers cannot be updated fails after its row is added. -/
theorem runInstruction_of_update_error {r : Registers}
    (hoperands : computeOperands i s = .ok (o, a) u) (hcheck : u.registers.check i o = .ok ())
    (hupdate : Registers.update i o u.registers = .error e r) :
    runInstruction i s = .error e (u.interruptedIn i a r) := by
  unfold runInstruction
  rw [Action.bind_of_ok hoperands]
  dsimp only
  rw [Action.get_bind, Action.lift_bind_of_ok hcheck]
  refine Action.bind_of_error (x := onRegisters (Registers.update i o)) ?_
  exact Action.within_eq_error.mpr ⟨r, hupdate, rfl⟩

/-- An instruction fails with its operands, or when its opcode does not hold of them, or when its
registers cannot be updated. -/
theorem runInstruction_eq_error :
    runInstruction i s = .error e t ↔ computeOperands i s = .error e t ∨
      ∃ o a u, computeOperands i s = .ok (o, a) u ∧
        (u.registers.check i o = .error e ∧ t = u ∨ u.registers.check i o = .ok () ∧
          ∃ r, Registers.update i o u.registers = .error e r ∧ t = u.interruptedIn i a r) := by
  constructor
  · intro h
    cases ends i s with
    | operands hoperands =>
      rw [runInstruction_of_operands_error hoperands] at h
      cases h
      exact .inl hoperands
    | opcode hoperands hcheck =>
      rw [runInstruction_of_check_error hoperands hcheck] at h
      cases h
      exact .inr ⟨_, _, _, hoperands, .inl ⟨hcheck, rfl⟩⟩
    | registers hoperands hcheck hupdate =>
      rw [runInstruction_of_update_error hoperands hcheck hupdate] at h
      cases h
      exact .inr ⟨_, _, _, hoperands, .inr ⟨hcheck, _, hupdate, rfl⟩⟩
    | done hoperands hcheck hupdate =>
      have hruns := runInstruction_eq_ok.mpr
        ⟨_, _, _, _, hoperands, Registers.check_eq_ok.mp hcheck, hupdate, rfl⟩
      cases hruns.symm.trans h
  · rintro (hoperands | ⟨o, a, u, hoperands, ⟨hcheck, rfl⟩ | ⟨hcheck, r, hupdate, rfl⟩⟩)
    · exact runInstruction_of_operands_error hoperands
    · exact runInstruction_of_check_error hoperands hcheck
    · exact runInstruction_of_update_error hoperands hcheck hupdate

/-- An instruction whose operands cannot be computed is not recorded. -/
theorem executionExtent_of_operands_error (hoperands : computeOperands i s = .error e u) :
    executionExtent i s = .unrecorded := by
  unfold executionExtent
  rw [hoperands]

/-- An instruction whose opcode does not hold of its operands is not recorded. -/
theorem executionExtent_of_check_error (hoperands : computeOperands i s = .ok (o, a) u)
    (hcheck : u.registers.check i o = .error e) : executionExtent i s = .unrecorded := by
  unfold executionExtent
  simp [hoperands, hcheck]

/-- An instruction whose registers cannot be updated is interrupted. -/
theorem executionExtent_of_update_error {r : Registers}
    (hoperands : computeOperands i s = .ok (o, a) u) (hcheck : u.registers.check i o = .ok ())
    (hupdate : Registers.update i o u.registers = .error e r) :
    executionExtent i s = .interrupted := by
  unfold executionExtent Action.answer
  simp [hoperands, hcheck, hupdate]

/-- An instruction whose registers are updated is counted. -/
theorem executionExtent_of_update_ok {r : Registers}
    (hoperands : computeOperands i s = .ok (o, a) u) (hcheck : u.registers.check i o = .ok ())
    (hupdate : Registers.update i o u.registers = .ok () r) :
    executionExtent i s = .counted := by
  unfold executionExtent Action.answer
  simp [hoperands, hcheck, hupdate]

/-- An instruction is interrupted just if its opcode holds of its operands and the update of the
registers fails. -/
theorem executionExtent_eq_interrupted_iff :
    executionExtent i s = .interrupted ↔ ∃ o a u e r, computeOperands i s = .ok (o, a) u ∧
      u.registers.Admits i o ∧ Registers.update i o u.registers = .error e r := by
  constructor
  · intro h
    cases ends i s with
    | operands hoperands => cases (executionExtent_of_operands_error hoperands).symm.trans h
    | opcode hoperands hcheck =>
      cases (executionExtent_of_check_error hoperands hcheck).symm.trans h
    | registers hoperands hcheck hupdate =>
      exact ⟨_, _, _, _, _, hoperands, Registers.check_eq_ok.mp hcheck, hupdate⟩
    | done hoperands hcheck hupdate =>
      cases (executionExtent_of_update_ok hoperands hcheck hupdate).symm.trans h
  · rintro ⟨o, a, u, e, r, hoperands, hadmits, hupdate⟩
    exact executionExtent_of_update_error hoperands (Registers.check_eq_ok.mpr hadmits) hupdate

/-! ## What is recorded -/

/-- The rows that an instruction adds to the trace, when the registers before it are given. -/
def Extent.rows (r : Registers) : Extent → List Registers
  | unrecorded => []
  | interrupted | counted => [r]

/-- The steps that are counted for an instruction. -/
def Extent.steps : Extent → Nat
  | unrecorded | interrupted => 0
  | counted => 1

/-- The second machine has the trace and the count of steps of the first one. -/
structure SameRecord (s t : Machine) : Prop where
  trace : t.trace = s.trace
  stepCount : t.stepCount = s.stepCount

instance : IsPreorder Machine SameRecord where
  refl _ := ⟨rfl, rfl⟩
  trans _ _ _ h h' := ⟨h'.trace.trans h.trace, h'.stepCount.trans h.stepCount⟩

/-- A machine that stands has the same record. -/
theorem Stands.sameRecord (h : s.Stands t) : s.SameRecord t := ⟨h.trace, h.stepCount⟩

/-- Between the two machines lies an instruction from the given registers, which got so far. -/
structure Records (r : Registers) (x : Extent) (s t : Machine) : Prop where
  trace : t.trace = s.trace.map (· ++ (x.rows r).toArray)
  stepCount : t.stepCount = s.stepCount + x.steps

variable {r : Registers} {x : Extent}

/-- Nothing is recorded between machines with the same record. -/
theorem SameRecord.records (h : s.SameRecord t) : Records r .unrecorded s t := by
  refine ⟨?_, h.stepCount.trans (Int.add_zero _).symm⟩
  rw [h.trace]
  simp [Extent.rows]

/-- What is recorded later is recorded since an earlier machine with the same record. -/
theorem SameRecord.trans_records (h : s.SameRecord t) (h' : Records r x t u) : Records r x s u :=
  ⟨by rw [h'.trace, h.trace], by rw [h'.stepCount, h.stepCount]⟩

/-- What is recorded is still recorded in a later machine with the same record. -/
theorem Records.trans_sameRecord (h : Records r x s t) (h' : t.SameRecord u) : Records r x s u :=
  ⟨h'.trace.trans h.trace, h'.stepCount.trans h.stepCount⟩

/-- The execution of an instruction records the registers before it, as far as it gets. -/
theorem records_runInstruction (i : Instruction) (s : Machine) :
    Records s.registers (executionExtent i s) s ((runInstruction i).after s) := by
  -- Once the operands are there, the machine has the registers and the record that it began with.
  have hbegin : ∀ {p u x t}, computeOperands i s = .ok p u → Records u.registers x u t →
      Records s.registers x s t := by
    intro p u x t hoperands hrecords
    have hstands : s.Stands u := (stands_computeOperands i).of_ok hoperands
    rw [← hstands.registers]
    exact hstands.sameRecord.trans_records hrecords
  cases ends i s with
  | operands hoperands =>
    rw [executionExtent_of_operands_error hoperands,
      Action.after_of_error (runInstruction_of_operands_error hoperands)]
    exact ((stands_computeOperands i).of_error hoperands).sameRecord.records
  | @opcode o a u e hoperands hcheck =>
    rw [executionExtent_of_check_error hoperands hcheck,
      Action.after_of_error (runInstruction_of_check_error hoperands hcheck)]
    exact hbegin hoperands (refl u : u.SameRecord u).records
  | registers hoperands hcheck hupdate =>
    rw [executionExtent_of_update_error hoperands hcheck hupdate,
      Action.after_of_error (runInstruction_of_update_error hoperands hcheck hupdate)]
    refine hbegin hoperands ⟨?_, (Int.add_zero _).symm⟩
    simp [interruptedIn, recordStep, Extent.rows]
  | done hoperands hcheck hupdate =>
    have hrun := runInstruction_eq_ok.mpr
      ⟨_, _, _, _, hoperands, Registers.check_eq_ok.mp hcheck, hupdate, rfl⟩
    rw [executionExtent_of_update_ok hoperands hcheck hupdate, Action.after_of_ok hrun]
    refine hbegin hoperands ⟨?_, rfl⟩
    simp [recordStep, Extent.rows]

/-- Passing over an instruction records nothing. -/
theorem sameRecord_skip (i : Instruction) : Action.Respects SameRecord (skip i) :=
  .bind .get fun _ => .bind (.lift _) fun _ => .modify fun _ => ⟨rfl, rfl⟩

/-- A machine that does not know its instruction fails. -/
theorem stepInstruction_of_error (hi : s.currentInstruction = .error e) :
    stepInstruction s = .error e s := by
  unfold stepInstruction
  rw [Action.get_bind, Action.lift_bind_of_error hi]

/-- A machine passes over its instruction if it was asked to. -/
theorem stepInstruction_of_skipNext (hi : s.currentInstruction = .ok i)
    (hskip : s.skipNext = true) :
    stepInstruction s = skip i s := by
  unfold stepInstruction
  rw [Action.get_bind, Action.lift_bind_of_ok hi, if_pos hskip]

/-- A machine executes its instruction between two reports if it was not asked to pass over it. -/
theorem stepInstruction_of_not_skipNext (hi : s.currentInstruction = .ok i)
    (hskip : ¬ s.skipNext = true) :
    stepInstruction s = (runInstruction i >>= fun _ => get >>= fun m =>
      report (.afterInstruction m.registers.pc i.opcode m.stepCount)) (s.announced i) := by
  unfold stepInstruction
  rw [Action.get_bind, Action.lift_bind_of_ok hi, if_neg hskip]
  rfl

/-- The instruction at the program counter records the registers before it, as far as it gets. -/
theorem records_stepInstruction (s : Machine) :
    Records s.registers s.instructionExtent s (stepInstruction.after s) := by
  unfold instructionExtent
  cases hi : s.currentInstruction with
  | error e =>
    rw [Action.after_of_error (stepInstruction_of_error hi)]
    exact (refl s : s.SameRecord s).records
  | ok i =>
    dsimp only
    split
    next hskip =>
      rw [Action.after_congr (stepInstruction_of_skipNext hi hskip)]
      exact (sameRecord_skip i s).records
    next hskip =>
      have hannounced : s.SameRecord (s.announced i) := (stands_report _ s).sameRecord
      rw [Action.after_congr (stepInstruction_of_not_skipNext hi hskip)]
      refine hannounced.trans_records ?_
      have hrecords := records_runInstruction i (s.announced i)
      refine Action.Respects.rel_bind hrecords fun _ u hrun => ?_
      rw [Action.after_of_ok hrun] at hrecords
      exact hrecords.trans_sameRecord (stands_report _ u).sameRecord

/-- A step records the registers before it, as far as it gets. -/
theorem records_step (s : Machine) : Records s.registers s.stepExtent s (step.after s) := by
  unfold stepExtent
  cases hhints : stepHint s with
  | error e t =>
    have hfails : step s = .error e t := Action.bind_of_error hhints
    rw [Action.after_of_error hfails]
    exact (stands_stepHint.of_error hhints).sameRecord.records
  | ok _ t =>
    have hstands : s.Stands t := stands_stepHint.of_ok hhints
    have hrest : step s = stepInstruction t := Action.bind_of_ok hhints
    rw [Action.after_congr hrest, ← hstands.registers]
    exact hstands.sameRecord.trans_records (records_stepInstruction t)

/-! ## Runs -/

/-- A change of machines that touches neither the trace nor the count of steps. -/
structure Alteration where
  apply : Machine → Machine
  sameRecord : ∀ s, SameRecord s (apply s)

/-- Something that is done to a machine from outside. -/
inductive Operation
  | step
  | instruction
  | execute (i : Instruction)
  | alter (change : Alteration)

namespace Operation

/-- The machine after an operation, which may have failed. -/
def after : Operation → Machine → Machine
  | step, s => Machine.step.after s
  | instruction, s => stepInstruction.after s
  | execute i, s => (runInstruction i).after s
  | alter change, s => change.apply s

/-- How far a machine gets with the instruction of an operation. -/
def extent : Operation → Machine → Extent
  | step, s => s.stepExtent
  | instruction, s => s.instructionExtent
  | execute i, s => executionExtent i s
  | alter _, _ => .unrecorded

/-- An operation records the registers before it, as far as it gets. -/
theorem records_after (operation : Operation) (s : Machine) :
    Records s.registers (operation.extent s) s (operation.after s) := by
  cases operation with
  | step => exact records_step s
  | instruction => exact records_stepInstruction s
  | execute i => exact records_runInstruction i s
  | alter change => exact (change.sameRecord s).records

end Operation

/-- The machine after a list of operations, each of which may have failed. -/
def afterOperations (s : Machine) (operations : List Operation) : Machine :=
  operations.foldl (fun s operation => operation.after s) s

/-- The registers just before those of the operations that get as far as is asked for. -/
def registersBefore (p : Extent → Bool) : Machine → List Operation → List Registers
  | _, [] => []
  | s, operation :: rest =>
    (if p (operation.extent s) then [s.registers] else []) ++
      registersBefore p (operation.after s) rest

/-- A list of operations adds the registers before those that are recorded to the trace, and the
number of those that are counted to the count of steps. -/
theorem record_afterOperations (s : Machine) (operations : List Operation) :
    (s.afterOperations operations).trace =
        s.trace.map (· ++ (s.registersBefore (· ≠ .unrecorded) operations).toArray) ∧
      (s.afterOperations operations).stepCount =
        s.stepCount + (s.registersBefore (· = .counted) operations).length := by
  induction operations generalizing s with
  | nil => exact ⟨by simp [afterOperations, registersBefore], (Int.add_zero _).symm⟩
  | cons operation rest ih =>
    obtain ⟨htrace, hcount⟩ := operation.records_after s
    obtain ⟨htraceRest, hcountRest⟩ := ih (operation.after s)
    rw [htrace] at htraceRest
    rw [hcount] at hcountRest
    refine ⟨htraceRest.trans ?_, hcountRest.trans ?_⟩
    · rw [registersBefore]
      cases operation.extent s <;> simp [Extent.rows, Function.comp_def]
    · rw [registersBefore]
      cases operation.extent s <;> simp [Extent.steps, Int.add_assoc, Int.add_comm]

/-- The operations that are recorded are those that are counted and those that are interrupted. -/
theorem length_registersBefore_recorded (s : Machine) (operations : List Operation) :
    (s.registersBefore (· ≠ .unrecorded) operations).length =
      (s.registersBefore (· = .counted) operations).length +
        (s.registersBefore (· = .interrupted) operations).length := by
  induction operations generalizing s with
  | nil => rfl
  | cons operation rest ih =>
    have hrest := ih (operation.after s)
    simp only [registersBefore, List.length_append, hrest]
    cases operation.extent s <;> simp <;> omega

/-- Where no operation is interrupted, those that are recorded are those that are counted. -/
theorem registersBefore_recorded_eq_counted {operations : List Operation}
    (h : s.registersBefore (· = .interrupted) operations = []) :
    s.registersBefore (· ≠ .unrecorded) operations =
      s.registersBefore (· = .counted) operations := by
  induction operations generalizing s with
  | nil => rfl
  | cons operation rest ih =>
    obtain ⟨hfirst, hrest⟩ := List.append_eq_nil_iff.mp h
    rw [registersBefore, registersBefore, ih hrest]
    cases hextent : operation.extent s with
    | unrecorded => rfl
    | interrupted => simp [hextent] at hfirst
    | counted => rfl

/-- Whatever is done to a new machine, its trace holds the registers before each instruction that
was recorded, and its count of steps is the number of those that were counted.  There is one row
more than that for each instruction that failed while it updated the registers.  If none did, the
rows are the registers before the steps that were counted. -/
theorem trace_of_operations (recording : Bool) (operations : List Operation) :
    let s := fresh true recording
    let t := s.afterOperations operations
    ∃ rows, t.trace = some rows ∧
      rows.toList = s.registersBefore (· ≠ .unrecorded) operations ∧
        t.stepCount = (s.registersBefore (· = .counted) operations).length ∧
          (rows.size : Int) =
            t.stepCount + (s.registersBefore (· = .interrupted) operations).length ∧
              (s.registersBefore (· = .interrupted) operations = [] →
                rows.toList = s.registersBefore (· = .counted) operations) := by
  intro s t
  obtain ⟨htrace, hcount⟩ := record_afterOperations s operations
  have hlength := length_registersBefore_recorded s operations
  have hcount' : t.stepCount = (s.registersBefore (· = .counted) operations).length :=
    hcount.trans (Int.zero_add _)
  refine ⟨_, htrace, by simp, hcount', ?_, fun hnone => ?_⟩
  · simp only [Array.empty_append, List.size_toArray]
    omega
  · simpa using registersBefore_recorded_eq_counted hnone

/-- Gives a machine some code in its first segment and a stack in its second one. -/
def loading (code stack : List Value) : Alteration where
  apply s := { s with
    segments := (loaded code stack).segments
    registers := (loaded code stack).registers }
  sameRecord _ := ⟨rfl, rfl⟩

/-- Two numbers are written to the stack. -/
def pushes : List Operation :=
  [.alter (loading [.felt pushImmediateWord, .felt 5, .felt pushImmediateWord, .felt 7] [.felt 0]),
    .step, .step]

/-- Writing two numbers to the stack leaves two rows, which hold the registers before the two
steps. -/
theorem trace_of_operations_pushes :
    (fresh true false).registersBefore (· = .interrupted) pushes = [] ∧
      ∃ rows, ((fresh true false).afterOperations pushes).trace = some rows ∧
        ((fresh true false).afterOperations pushes).stepCount = 2 ∧
          rows.toList = (fresh true false).registersBefore (· = .counted) pushes := by
  have hnone : (fresh true false).registersBefore (· = .interrupted) pushes = [] := by
    decide +kernel
  obtain ⟨rows, htrace, -, -, -, hrows⟩ := trace_of_operations false pushes
  exact ⟨hnone, rows, htrace, by decide +kernel, hrows hnone⟩

/-- A jump to the number five, which is no address. -/
def jumps : List Operation :=
  [.alter (loading [.felt 0x8780017fff7fff, .felt 5] [.felt 0]), .step]

/-- A jump to a number fails after its row was added, and its step is not counted. -/
theorem exists_size_trace_ne_stepCount :
    ∃ (operations : List Operation) (rows : Array Registers),
      ((fresh true false).afterOperations operations).trace = some rows ∧
        (rows.size : Int) ≠ ((fresh true false).afterOperations operations).stepCount := by
  refine ⟨jumps, #[⟨.base 0, some ⟨1, 1, by decide⟩, some ⟨1, 1, by decide⟩⟩], ?_⟩
  decide +kernel

end Cairo.Machine
