import Cairo.Proofs.Builtin.Soundness
import Cairo.Proofs.Machine.Memory
import Cairo.Run.Execution

/-!
# Machines keep their builtins sound

A machine is sound when its builtins are, over its memory.  What a machine does to its memory keeps
field elements, and what it does to its builtins keeps each of them sound, so that every action of a
machine keeps it sound: a deduction, an instruction, a hint, a step, and the run of many steps, also
where one of them fails.
-/

namespace Cairo.Machine

variable {α : Type} {s t : Machine}

/-- All builtins of the machine are sound over its memory. -/
def IsSound (s : Machine) : Prop := Builtin.AllSound s.memory s.builtins

/-- The second machine is sound if the first one is. -/
def StaysSound (s t : Machine) : Prop := s.IsSound → t.IsSound

instance : IsPreorder Machine StaysSound where
  refl _ := id
  trans _ _ _ h h' := h' ∘ h

/-- A machine stays sound with the same builtins over a memory that keeps field elements. -/
theorem staysSound_of_keepsFelts (hbuiltins : t.builtins = s.builtins)
    (hkeeps : s.memory.KeepsFelts t.memory) : s.StaysSound t := by
  intro hs b hb
  rw [hbuiltins] at hb
  exact (hs b hb).of_keepsFelts hkeeps

/-- An action that lets the machine resume keeps it sound. -/
theorem staysSound_of_resumes {x : Action Machine α} (hx : Action.Respects Resumes x) :
    Action.Respects StaysSound x :=
  hx.mono fun _ _ h => staysSound_of_keepsFelts h.builtins h.extends.keepsFelts

/-! ## Actions on a part of the machine -/

/-- An action on the segments that keeps field elements keeps the machine sound. -/
theorem staysSound_onSegments {x : Action Segments α}
    (hx : Action.Respects (Segments.Through Memory.KeepsFelts) x) :
    Action.Respects StaysSound (onSegments x) :=
  .within hx fun _ _ h => staysSound_of_keepsFelts rfl h

/-- An action on the memory that keeps field elements keeps the machine sound. -/
theorem staysSound_onMemory {x : Action Memory α} (hx : Action.Respects Memory.KeepsFelts x) :
    Action.Respects StaysSound (onMemory x) :=
  staysSound_onSegments (Segments.through_onMemory hx)

/-- An action on the registers keeps the machine sound. -/
theorem staysSound_onRegisters (x : Action Registers α) :
    Action.Respects StaysSound (onRegisters x) :=
  .within (S := fun _ _ => True) (fun _ => trivial) fun _ _ _ => id

/-- A report keeps the machine sound. -/
theorem staysSound_report (e : Event) : Action.Respects StaysSound (report e) :=
  staysSound_of_resumes (respects_report e)

/-- Deducing a cell keeps the machine sound. -/
theorem staysSound_deduceCell (a : Address) : Action.Respects StaysSound (deduceCell a) := by
  refine .get_bind fun s hs => ?_
  unfold onBuiltins
  rw [Action.after_within]
  -- The builtin that owns the cell has a real segment, as it is one of the machine.
  refine hs.of_forall₂ (Builtin.forall₂_deduceCell (fun b hb hsound => ?_) s.builtins)
  exact Builtin.staysSound_deduce s.memory (hsound.segment_nonneg _ hb) b hsound

/-- Checking the builtins keeps the machine sound. -/
theorem staysSound_verifyBuiltins : Action.Respects StaysSound verifyBuiltins := by
  refine .get_bind fun s hs => ?_
  unfold onBuiltins
  rw [Action.after_within]
  exact hs.of_forall₂ (Builtin.forall₂_onEach (Builtin.staysSound_verify s.memory) s.builtins)

/-- Moving the temporary segments keeps the machine sound. -/
theorem staysSound_relocateTemporaries : Action.Respects StaysSound relocateTemporaries := by
  unfold relocateTemporaries
  refine .bind .get fun s => ?_
  dsimp only
  split
  · exact .bind (staysSound_report _) fun _ => staysSound_onMemory Memory.keepsFelts_relocate
  · exact staysSound_onMemory Memory.keepsFelts_relocate

/-! ## Instructions -/

/-- Computing the operands keeps the machine sound. -/
theorem staysSound_computeOperands (i : Instruction) :
    Action.Respects StaysSound (computeOperands i) :=
  respects_computeOperands_of staysSound_deduceCell
    (fun a v => staysSound_of_resumes (respects_onMemory (Memory.respects_insert a v))) i

/-- Recording a step keeps the machine sound. -/
theorem staysSound_recordStep (s : Machine) (a : OperandAddresses) :
    s.StaysSound (s.recordStep a) :=
  staysSound_of_keepsFelts rfl fun b _ _ hx => ((marked_recordStep s a).get?_eq b).trans hx

/-- Executing an instruction keeps the machine sound. -/
theorem staysSound_runInstruction (i : Instruction) :
    Action.Respects StaysSound (runInstruction i) :=
  .bind (staysSound_computeOperands i) fun _ => .bind .get fun _ => .bind (.lift _) fun _ =>
    .bind (.modify fun s => staysSound_recordStep s _) fun _ => .bind (staysSound_report _) fun _ =>
      .bind (staysSound_onRegisters _) fun _ => .modify fun _ => id

/-- Passing over an instruction keeps the machine sound. -/
theorem staysSound_skip (i : Instruction) : Action.Respects StaysSound (skip i) :=
  .bind .get fun _ => .bind (.lift _) fun _ => .modify fun _ => id

/-- The instruction at the program counter keeps the machine sound. -/
theorem staysSound_stepInstruction : Action.Respects StaysSound stepInstruction := by
  unfold stepInstruction
  refine .bind .get fun s => .bind (.lift _) fun i => ?_
  split
  · exact staysSound_skip i
  · exact .bind (staysSound_report _) fun _ => .bind (staysSound_runInstruction i) fun _ =>
      .bind .get fun _ => staysSound_report _

/-! ## Hints -/

/-- The hints at the program counter keep the machine sound. -/
theorem staysSound_stepHint : Action.Respects StaysSound stepHint :=
  respects_stepHint_of
    { report := staysSound_report
      onScopes := fun x => staysSound_of_resumes (respects_onScopes x)
      add := staysSound_of_resumes (respects_onSegments Segments.respects_add)
      addTemporary := staysSound_of_resumes (respects_onSegments Segments.respects_addTemporary)
      insert := fun a v => staysSound_of_resumes (respects_onMemory (Memory.respects_insert a v))
      addRelocation := fun src dst =>
        staysSound_of_resumes (respects_onMemory (Memory.respects_addRelocation src dst))
      skip := fun _ => id }

/-! ## Steps -/

/-- A step keeps the machine sound. -/
theorem staysSound_step : Action.Respects StaysSound step :=
  .bind staysSound_stepHint fun _ => staysSound_stepInstruction

end Cairo.Machine
