import Cairo.Proofs.Machine.Standing

/-!
# Steps leave the known sizes alone

Sizes of segments become known when they are computed or set, and no step does either.  The lemmas
follow the actions of a machine, whether they succeed or fail, from writing a cell to a whole
step; hints and operands leave more than the sizes alone (`Stands`).
-/

namespace Cairo

/-- The same sizes are known of the segments, be they computed or set. -/
def Segments.SameSizes (s t : Segments) : Prop :=
  t.usedSizes = s.usedSizes ∧ t.fixedSizes = s.fixedSizes

instance : IsPreorder Segments Segments.SameSizes where
  refl _ := ⟨rfl, rfl⟩
  trans _ _ _ h h' := ⟨h'.1.trans h.1, h'.2.trans h.2⟩

namespace Machine

/-- The same sizes are known of the segments of both machines. -/
def SameSizes (s t : Machine) : Prop := s.segments.SameSizes t.segments

instance : IsPreorder Machine SameSizes where
  refl s := refl s.segments
  trans _ _ _ h h' := ⟨h'.1.trans h.1, h'.2.trans h.2⟩

variable {α : Type}

/-! ## Parts of a machine -/

/-- While a machine stands, no sizes become known. -/
theorem sameSizes_of_stands {x : Action Machine α} (hx : Action.Respects Stands x) :
    Action.Respects SameSizes x :=
  hx.mono fun _ _ h => ⟨h.usedSizes, h.fixedSizes⟩

/-- No action on the memory makes sizes known. -/
theorem sameSizes_onMemory (x : Action Memory α) : Action.Respects SameSizes (onMemory x) :=
  sameSizes_of_stands (stands_onMemory x)

/-- No action on the builtins makes sizes known. -/
theorem sameSizes_onBuiltins (x : Action (List Builtin) α) :
    Action.Respects SameSizes (onBuiltins x) :=
  sameSizes_of_stands (stands_onBuiltins x)

/-- No action on the registers makes sizes known. -/
theorem sameSizes_onRegisters (x : Action Registers α) :
    Action.Respects SameSizes (onRegisters x) :=
  .within (S := fun _ _ => True) (fun _ => trivial) fun _ _ _ => ⟨rfl, rfl⟩

/-- No report makes sizes known. -/
theorem sameSizes_report (e : Event) : Action.Respects SameSizes (report e) :=
  sameSizes_of_stands (stands_report e)

/-- No deduction makes sizes known. -/
theorem sameSizes_deduceCell (a : Address) : Action.Respects SameSizes (deduceCell a) :=
  sameSizes_of_stands (stands_deduceCell a)

/-- No check of the builtins makes sizes known. -/
theorem sameSizes_verifyBuiltins : Action.Respects SameSizes verifyBuiltins :=
  .bind .get fun _ => sameSizes_onBuiltins _

/-- Moving the temporary segments makes no sizes known. -/
theorem sameSizes_relocateTemporaries : Action.Respects SameSizes relocateTemporaries := by
  unfold relocateTemporaries
  refine .bind .get fun s => ?_
  dsimp only
  split
  · exact .bind (sameSizes_report _) fun _ => sameSizes_onMemory _
  · exact sameSizes_onMemory _

/-! ## Instructions -/

/-- Executing an instruction makes no sizes known. -/
theorem sameSizes_runInstruction (i : Instruction) :
    Action.Respects SameSizes (runInstruction i) :=
  .bind (sameSizes_of_stands (stands_computeOperands i)) fun _ => .bind .get fun _ =>
    .bind (.lift _) fun _ => .bind (.modify fun _ => ⟨rfl, rfl⟩) fun _ =>
      .bind (sameSizes_report _) fun _ => .bind (sameSizes_onRegisters _) fun _ =>
        .modify fun _ => ⟨rfl, rfl⟩

/-- The instruction at the program counter makes no sizes known. -/
theorem sameSizes_stepInstruction : Action.Respects SameSizes stepInstruction := by
  unfold stepInstruction
  refine .bind .get fun s => .bind (.lift _) fun i => ?_
  split
  · exact .bind .get fun _ => .bind (.lift _) fun _ => .modify fun _ => ⟨rfl, rfl⟩
  · exact .bind (sameSizes_report _) fun _ => .bind (sameSizes_runInstruction i) fun _ =>
      .bind .get fun _ => sameSizes_report _

/-- A step makes no sizes known. -/
theorem sameSizes_step : Action.Respects SameSizes step :=
  .bind (sameSizes_of_stands stands_stepHint) fun _ => sameSizes_stepInstruction

end Machine

end Cairo
