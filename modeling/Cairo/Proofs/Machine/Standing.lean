import Cairo.Proofs.Machine.Hints

/-!
# What hints and operands leave alone

Hints, and the operands of an instruction while they are computed, may change the memory, the
builtins, the scopes and the record of events.  The machine stands where it was (`Stands`): its
registers, its trace and its count of steps are the same, and so are the sizes that are known of its
segments.  This holds of each of these actions also when it fails.
-/

namespace Cairo.Machine

/-- The second machine has the registers, the trace, the count of steps and the known sizes of the
first one. -/
structure Stands (s t : Machine) : Prop where
  registers : t.registers = s.registers
  trace : t.trace = s.trace
  stepCount : t.stepCount = s.stepCount
  usedSizes : t.segments.usedSizes = s.segments.usedSizes
  fixedSizes : t.segments.fixedSizes = s.segments.fixedSizes

instance : IsPreorder Machine Stands where
  refl _ := ⟨rfl, rfl, rfl, rfl, rfl⟩
  trans _ _ _ h h' := ⟨h'.registers.trans h.registers, h'.trace.trans h.trace,
    h'.stepCount.trans h.stepCount, h'.usedSizes.trans h.usedSizes,
    h'.fixedSizes.trans h.fixedSizes⟩

variable {α : Type}

/-! ## Parts of a machine -/

/-- A machine stands while its segments grow. -/
theorem stands_onSegments {x : Action Segments α} (hx : Action.Respects Segments.Grows x) :
    Action.Respects Stands (onSegments x) :=
  .within hx fun _ _ h => ⟨rfl, rfl, rfl, h.usedSizes, h.fixedSizes⟩

/-- A machine stands whatever is done to its memory. -/
theorem stands_onMemory (x : Action Memory α) : Action.Respects Stands (onMemory x) := by
  intro s
  unfold onMemory onSegments Segments.onMemory
  rw [Action.after_within, Action.after_within]
  exact ⟨rfl, rfl, rfl, rfl, rfl⟩

/-- A machine stands whatever is done to its builtins. -/
theorem stands_onBuiltins (x : Action (List Builtin) α) :
    Action.Respects Stands (onBuiltins x) := by
  intro s
  unfold onBuiltins
  rw [Action.after_within]
  exact ⟨rfl, rfl, rfl, rfl, rfl⟩

/-- A machine stands whatever is done to its scopes. -/
theorem stands_onScopes (x : Action Scopes α) : Action.Respects Stands (onScopes x) := by
  intro s
  unfold Action.after onScopes
  cases s.scopes with
  | none => exact refl s
  | some scopes =>
    dsimp only
    cases x scopes with
    | ok a t => exact ⟨rfl, rfl, rfl, rfl, rfl⟩
    | error e t => exact ⟨rfl, rfl, rfl, rfl, rfl⟩

/-- A machine stands while it reports an event. -/
theorem stands_report (e : Event) : Action.Respects Stands (report e) :=
  .modify fun _ => ⟨rfl, rfl, rfl, rfl, rfl⟩

/-! ## Operands -/

/-- A machine stands while a builtin deduces a value. -/
theorem stands_deduceCell (a : Address) : Action.Respects Stands (deduceCell a) :=
  .bind .get fun _ => stands_onBuiltins _

/-- A machine stands while the operands of an instruction are computed. -/
theorem stands_computeOperands (i : Instruction) : Action.Respects Stands (computeOperands i) :=
  respects_computeOperands_of stands_deduceCell (fun _ _ => stands_onMemory _) i

/-! ## Hints -/

/-- A machine stands while the hints at its program counter run. -/
theorem stands_stepHint : Action.Respects Stands stepHint :=
  respects_stepHint_of
    { report := stands_report
      onScopes := stands_onScopes
      add := stands_onSegments Segments.respects_add
      addTemporary := stands_onSegments Segments.respects_addTemporary
      insert := fun _ _ => stands_onMemory _
      addRelocation := fun _ _ => stands_onMemory _
      skip := fun _ => ⟨rfl, rfl, rfl, rfl, rfl⟩ }

end Cairo.Machine
