import Cairo.Proofs.Machine.Hints

/-!
# What a machine does to its memory

A machine changes its memory in a few ways only: hints and operands allocate segments, write cells
and add relocation rules (`WritesRespect`), steps mark cells, and from outside cells are checked,
rules added and temporary segments moved (`ChangesRespect`).  A relation between memories that all
of these respect holds of the memory before and the memory after whatever the machine does
(`Through`), so that an invariant of the memory has to be proved for the single changes only.
-/

namespace Cairo

/-- What hints and operands do to a memory respects a relation. -/
structure Memory.WritesRespect (R : Memory → Memory → Prop) : Prop where
  addSegment : Action.Respects R Memory.addSegment
  addTemporary : Action.Respects R Memory.addTemporary
  insert : ∀ a v, Action.Respects R (Memory.insert a v)
  addRelocation : ∀ src dst, Action.Respects R (Memory.addRelocation src dst)

/-- Everything that is done to the memory of a machine respects a relation. -/
structure Memory.ChangesRespect (R : Memory → Memory → Prop) : Prop extends WritesRespect R where
  check : ∀ a, Action.Respects R (Memory.validateCell a)
  addRule : ∀ m i r, R m (Memory.addRule m i r)
  mark : ∀ m a, R m (Memory.markAccessed m a)
  relocate : Action.Respects R Memory.relocate

variable {R : Memory → Memory → Prop} {α : Type}

/-- Calls respect what all changes respect. -/
theorem Memory.ChangesRespect.calls (h : ChangesRespect R) : CallsRespect R :=
  { h with }

/-! ## Segments -/

namespace Segments

/-- The memories of the segments are related. -/
def Through (R : Memory → Memory → Prop) (s t : Segments) : Prop := R s.memory t.memory

instance [IsPreorder Memory R] : IsPreorder Segments (Through R) where
  refl s := refl s.memory
  trans s t u h h' := IsTrans.trans s.memory t.memory u.memory h h'

/-- An action on the memory respects through the segments what it respects. -/
theorem through_onMemory {x : Action Memory α} (hx : Action.Respects R x) :
    Action.Respects (Through R) (onMemory x) :=
  .within hx fun _ _ h => h

variable [IsPreorder Memory R]

/-- A new segment respects what allocating it in the memory does. -/
theorem through_add (h : Memory.WritesRespect R) : Action.Respects (Through R) (add none) :=
  .bind (through_onMemory h.addSegment) fun _ => .pure _

/-- A new temporary segment respects what allocating it in the memory does. -/
theorem through_addTemporary (h : Memory.WritesRespect R) :
    Action.Respects (Through R) addTemporary :=
  .bind (through_onMemory h.addTemporary) fun _ => .pure _

/-- Loading data respects what insertions do. -/
theorem through_load (h : Memory.WritesRespect R) (a : Address) (data : List Datum) :
    Action.Respects (Through R) (load a data) :=
  through_onMemory (Memory.respects_load_of (fun _ b v _ => h.insert b v) data)

/-- Writing an argument respects what new segments and insertions do. -/
theorem through_argument (h : Memory.WritesRespect R) (d : Datum) :
    Action.Respects (Through R) (argument d) :=
  respects_argument_of (through_add h) (through_load h) d

/-- Setting the size of a segment leaves the memory alone. -/
theorem through_finalize (s : Segments) (i : Int) (size : Option Int) (offsets : List Int) :
    Through R s (s.finalize i size offsets) := by
  unfold finalize
  split
  · exact refl s.memory
  · exact refl s.memory

/-- Computing the sizes leaves the memory alone. -/
theorem through_computeSizes : Action.Respects (Through R) computeSizes := by
  unfold computeSizes
  refine .bind .get fun s => ?_
  split
  · exact .pure _
  · exact .bind (.modify fun s => refl s.memory) fun _ => .pure _

end Segments

/-! ## Machines -/

namespace Machine

/-- The memories of the machines are related. -/
def Through (R : Memory → Memory → Prop) (s t : Machine) : Prop := R s.memory t.memory

instance [IsPreorder Memory R] : IsPreorder Machine (Through R) where
  refl s := refl s.memory
  trans s t u h h' := IsTrans.trans s.memory t.memory u.memory h h'

/-- An action on the segments respects through the machine what it respects through them. -/
theorem through_onSegments {x : Action Segments α} (hx : Action.Respects (Segments.Through R) x) :
    Action.Respects (Through R) (onSegments x) :=
  .within hx fun _ _ h => h

/-- An action on the memory respects through the machine what it respects. -/
theorem through_onMemory {x : Action Memory α} (hx : Action.Respects R x) :
    Action.Respects (Through R) (onMemory x) :=
  through_onSegments (Segments.through_onMemory hx)

variable [IsPreorder Memory R]

/-- An action on the builtins leaves the memory alone. -/
theorem through_onBuiltins (x : Action (List Builtin) α) :
    Action.Respects (Through R) (onBuiltins x) :=
  .within (S := fun _ _ => True) (fun _ => trivial) fun s _ _ => refl s.memory

/-- An action on the registers leaves the memory alone. -/
theorem through_onRegisters (x : Action Registers α) :
    Action.Respects (Through R) (onRegisters x) :=
  .within (S := fun _ _ => True) (fun _ => trivial) fun s _ _ => refl s.memory

/-- A report leaves the memory alone. -/
theorem through_report (e : Event) : Action.Respects (Through R) (report e) :=
  .modify fun s => refl s.memory

/-- An action on the scopes leaves the memory alone. -/
theorem through_onScopes (x : Action Scopes α) : Action.Respects (Through R) (onScopes x) := by
  intro s
  unfold Action.after onScopes
  cases s.scopes with
  | none => exact refl s
  | some scopes =>
    dsimp only
    cases x scopes with
    | ok a t => exact refl s.memory
    | error e t => exact refl s.memory

/-- Deducing a cell leaves the memory alone. -/
theorem through_deduceCell (a : Address) : Action.Respects (Through R) (deduceCell a) :=
  .bind .get fun _ => through_onBuiltins _

/-- Checking the builtins leaves the memory alone. -/
theorem through_verifyBuiltins : Action.Respects (Through R) verifyBuiltins :=
  .bind .get fun _ => through_onBuiltins _

/-- Computing the operands respects what insertions do. -/
theorem through_computeOperands (h : Memory.WritesRespect R) (i : Instruction) :
    Action.Respects (Through R) (computeOperands i) :=
  respects_computeOperands_of through_deduceCell (fun a v => through_onMemory (h.insert a v)) i

/-- The hints at the program counter respect what they do to the memory. -/
theorem through_stepHint (h : Memory.WritesRespect R) : Action.Respects (Through R) stepHint :=
  respects_stepHint_of
    { report := through_report
      onScopes := through_onScopes
      add := through_onSegments (Segments.through_add h)
      addTemporary := through_onSegments (Segments.through_addTemporary h)
      insert := fun a v => through_onMemory (h.insert a v)
      addRelocation := fun src dst => through_onMemory (h.addRelocation src dst)
      skip := fun s => refl s.memory }

/-- Moving the temporary segments respects what relocating the memory does. -/
theorem through_relocateTemporaries (h : Memory.ChangesRespect R) :
    Action.Respects (Through R) relocateTemporaries := by
  unfold relocateTemporaries
  refine .bind .get fun s => ?_
  dsimp only
  split
  · exact .bind (through_report _) fun _ => through_onMemory h.relocate
  · exact through_onMemory h.relocate

/-- Recording a step respects what marks do. -/
theorem through_recordStep (h : Memory.ChangesRespect R) (s : Machine) (a : OperandAddresses) :
    Through R s (s.recordStep a) := by
  have hpc : R s.memory (s.memory.markAccessed s.registers.pc) := h.mark _ _
  have hdst := IsTrans.trans _ _ _ hpc (h.mark _ a.dst)
  have hop0 := IsTrans.trans _ _ _ hdst (h.mark _ a.op0)
  have hop1 := IsTrans.trans _ _ _ hop0 (h.mark _ a.op1)
  exact hop1

/-- The instruction at the program counter respects what is done to the memory. -/
theorem through_stepInstruction (h : Memory.ChangesRespect R) :
    Action.Respects (Through R) stepInstruction := by
  have hskip : ∀ i, Action.Respects (Through R) (skip i) := fun i =>
    .bind .get fun _ => .bind (.lift _) fun _ => .modify fun s => refl s.memory
  have hrun : ∀ i, Action.Respects (Through R) (runInstruction i) := fun i =>
    .bind (through_computeOperands h.toWritesRespect i) fun _ => .bind .get fun _ =>
      .bind (.lift _) fun _ => .bind (.modify fun s => through_recordStep h s _) fun _ =>
        .bind (through_report _) fun _ => .bind (through_onRegisters _) fun _ =>
          .modify fun s => refl s.memory
  unfold stepInstruction
  refine .bind .get fun s => .bind (.lift _) fun i => ?_
  split
  · exact hskip i
  · exact .bind (through_report _) fun _ => .bind (hrun i) fun _ => .bind .get fun _ =>
      through_report _

/-- A step respects what is done to the memory. -/
theorem through_step (h : Memory.ChangesRespect R) : Action.Respects (Through R) step :=
  .bind (through_stepHint h.toWritesRespect) fun _ => through_stepInstruction h

end Machine

end Cairo
