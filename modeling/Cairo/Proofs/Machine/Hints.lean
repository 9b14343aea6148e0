import Cairo.Proofs.Machine.Instruction
import Cairo.Proofs.Relocation.Cells
import Cairo.Run.Execution

/-!
# Hints supply cells

A hint can allocate segments, write cells, add a rule and change the scopes, but it leaves the
registers, the trace and the builtins alone (`Resumes`), and unless it asks for the next instruction
to be passed over the machine goes on with that instruction.  `SkipsNothing` says that no hint of a
machine asks for that.
-/

namespace Cairo.Machine

/-- The second machine stands where the first one does, with a memory that has grown. -/
structure Resumes (s t : Machine) : Prop extends s.Frame t where
  registers : t.registers = s.registers
  trace : t.trace = s.trace
  builtins : t.builtins = s.builtins

instance : IsPreorder Machine Resumes where
  refl s := ⟨refl s, rfl, rfl, rfl⟩
  trans s t u h h' := ⟨IsTrans.trans s t u h.toFrame h'.toFrame, h'.registers.trans h.registers,
    h'.trace.trans h.trace, h'.builtins.trans h.builtins⟩

/-- None of the hints, which stand at the addresses of their instructions, asks for an instruction
to be passed over. -/
def NoneSkips (hints : Std.ExtTreeMap Address (List Hint)) : Prop :=
  ∀ (pc : Address) (hs : List Hint), hints[pc]? = some hs →
    ∀ h ∈ hs, h.action? ≠ some .skipInstruction

/-- No hint of the machine asks for an instruction to be passed over. -/
def SkipsNothing (s : Machine) : Prop := NoneSkips s.hints

/-- A machine with the same hints skips nothing either. -/
theorem SkipsNothing.of_hints_eq {s t : Machine} (h : s.SkipsNothing) (ht : t.hints = s.hints) :
    t.SkipsNothing := by
  unfold SkipsNothing
  rwa [ht]

variable {α : Type}

/-- An action that lets the segments grow lets the machine resume. -/
theorem respects_onSegments {x : Action Segments α} (hx : Action.Respects Segments.Grows x) :
    Action.Respects Resumes (onSegments x) :=
  .within hx fun _ _ h => ⟨⟨h, rfl, rfl⟩, rfl, rfl, rfl⟩

/-- An action that keeps the cells of the memory lets the machine resume. -/
theorem respects_onMemory {x : Action Memory α} (hx : Action.Respects Memory.Extends x) :
    Action.Respects Resumes (onMemory x) :=
  respects_onSegments (Segments.respects_onMemory hx)

/-- A report lets the machine resume. -/
theorem respects_report (e : Event) : Action.Respects Resumes (report e) :=
  .modify fun _ => ⟨⟨refl _, rfl, rfl⟩, rfl, rfl, rfl⟩

/-- An action on the scopes lets the machine resume. -/
theorem respects_onScopes (x : Action Scopes α) : Action.Respects Resumes (onScopes x) := by
  intro s
  unfold Action.after onScopes
  cases s.scopes with
  | none => exact refl s
  | some scopes =>
    dsimp only
    cases x scopes with
    | ok a t => exact ⟨⟨refl _, rfl, rfl⟩, rfl, rfl, rfl⟩
    | error e t => exact ⟨⟨refl _, rfl, rfl⟩, rfl, rfl, rfl⟩

section Walks

variable {R : Machine → Machine → Prop} [IsPreorder Machine R]

/-- A hint that allocates a segment respects what the allocation and the writing of a cell do. -/
theorem respects_hintAllocate_of (p : HintProcessor) {allocate : Action Segments Address}
    (hallocate : Action.Respects R (onSegments allocate))
    (hinsert : ∀ a v, Action.Respects R (onMemory (Memory.insert a v))) :
    Action.Respects R (hintAllocate p allocate) := by
  unfold hintAllocate
  refine .bind (.lift _) fun _ => .bind hallocate fun base => .bind .get fun m => ?_
  dsimp only
  split
  · exact .lift _
  · exact .bind (.lift _) fun a => hinsert a _

/-- A hint that relocates a segment respects what adding a rule does. -/
theorem respects_hintRelocate_of (p : HintProcessor)
    (hadd : ∀ src dst, Action.Respects R (onMemory (Memory.addRelocation src dst))) :
    Action.Respects R (hintRelocate p) := by
  unfold hintRelocate
  exact .bind (.lift _) fun _ => .bind .get fun _ => .bind (.lift _) fun src =>
    .bind .get fun _ => .bind (.lift _) fun dst => hadd src dst

end Walks

/-- A hint that allocates a segment lets the machine resume. -/
theorem respects_hintAllocate (p : HintProcessor) {allocate : Action Segments Address}
    (h : Action.Respects Segments.Grows allocate) :
    Action.Respects Resumes (hintAllocate p allocate) :=
  respects_hintAllocate_of p (respects_onSegments h) fun a v =>
    respects_onMemory (Memory.respects_insert a v)

/-- A hint that relocates a segment lets the machine resume. -/
theorem respects_hintRelocate (p : HintProcessor) :
    Action.Respects Resumes (hintRelocate p) :=
  respects_hintRelocate_of p fun src dst =>
    respects_onMemory (Memory.respects_addRelocation src dst)

/-- Whatever a hint does but skip, the machine resumes. -/
theorem respects_perform (p : HintProcessor) {a : HintAction} (ha : a ≠ .skipInstruction) :
    Action.Respects Resumes (perform p a) := by
  cases a with
  | allocateSegment => exact respects_hintAllocate p Segments.respects_add
  | allocateTemporary => exact respects_hintAllocate p Segments.respects_addTemporary
  | relocateTemporary => exact respects_hintRelocate p
  | enterScope => exact .bind (.lift _) fun _ => respects_onScopes _
  | exitScope => exact .bind (.lift _) fun _ => respects_onScopes _
  | skipInstruction => exact absurd rfl ha

/-- A hint that does not skip lets the machine resume. -/
theorem respects_runHint (p : HintProcessor) {h : Hint}
    (hh : h.action? ≠ some .skipInstruction) : Action.Respects Resumes (runHint p h) := by
  refine .bind (respects_onScopes _) fun _ => .bind .get fun _ =>
    .bind (respects_report _) fun _ => .lift_bind fun a ha => respects_perform p ?_
  rintro rfl
  exact hh (Answer.orThrow_eq_ok.mp ha)

/-- The hints of an instruction let a machine resume that skips nothing. -/
theorem resumes_stepHint {s : Machine} (hs : s.SkipsNothing) : s.Resumes (stepHint.after s) := by
  have hrun : ∀ (hints : List Hint) (p : HintProcessor),
      (∀ h ∈ hints, h.action? ≠ some .skipInstruction) →
        Action.Respects Resumes (hints.forM (runHint p)) :=
    fun hints p hno => .forM fun h hh => respects_runHint p (hno h hh)
  unfold stepHint Action.after
  rw [Action.get_bind]
  cases hfound : s.hints[s.registers.pc]? with
  | none => exact refl s
  | some hints =>
    cases hints with
    | nil => exact refl s
    | cons h rest => exact Action.Respects.bind (.lift _) (fun p => hrun _ p (hs _ _ hfound)) s

/-- The hints of a machine that has none do nothing. -/
theorem stepHint_of_hints_empty {s : Machine} (hs : s.hints = ∅) : stepHint s = .ok () s := by
  have hnone : s.hints[s.registers.pc]? = none := by
    rw [hs]
    exact Std.ExtTreeMap.getElem?_empty
  unfold stepHint
  rw [Action.get_bind, hnone]
  rfl

/-! ## Walks over operands and hints -/

section Walks

variable {R : Machine → Machine → Prop} [IsPreorder Machine R]

/-- Computing the operands respects what the deduction and the writing of a cell do. -/
theorem respects_computeOperands_of (hdeduce : ∀ a, Action.Respects R (deduceCell a))
    (hinsert : ∀ a v, Action.Respects R (onMemory (Memory.insert a v))) (i : Instruction) :
    Action.Respects R (computeOperands i) := by
  have hdeduced : ∀ a found, Action.Respects R (orDeduced a found) := by
    intro a found
    cases found with
    | some v => exact .pure _
    | none => exact .bind (hdeduce a) fun _ => .pure _
  have hmissing : ∀ a found v, Action.Respects R (writeMissing a found v) := by
    intro a found v
    cases found with
    | some w => exact .pure _
    | none => exact hinsert a v
  exact .bind .get fun _ => .bind (.lift _) fun _ =>
    .bind (.bind (hdeduced _ _) fun _ => .bind (hdeduced _ _) fun _ => .bind .get fun _ => .lift _)
      fun _ => .bind (hmissing _ _ _) fun _ => .bind (hmissing _ _ _) fun _ =>
        .bind (hmissing _ _ _) fun _ => .pure _

/-- The actions that hints are made of respect a relation. -/
structure HintsRespect (R : Machine → Machine → Prop) : Prop where
  report : ∀ e, Action.Respects R (Machine.report e)
  onScopes : ∀ x : Action Scopes Unit, Action.Respects R (Machine.onScopes x)
  add : Action.Respects R (onSegments (Segments.add none))
  addTemporary : Action.Respects R (onSegments Segments.addTemporary)
  insert : ∀ a v, Action.Respects R (onMemory (Memory.insert a v))
  addRelocation : ∀ src dst, Action.Respects R (onMemory (Memory.addRelocation src dst))
  skip : ∀ s : Machine, R s { s with skipNext := true }

/-- What a hint does respects what its actions do. -/
theorem HintsRespect.perform (h : HintsRespect R) (p : HintProcessor) (a : HintAction) :
    Action.Respects R (Machine.perform p a) := by
  cases a with
  | allocateSegment => exact respects_hintAllocate_of p h.add h.insert
  | allocateTemporary => exact respects_hintAllocate_of p h.addTemporary h.insert
  | relocateTemporary => exact respects_hintRelocate_of p h.addRelocation
  | enterScope => exact .bind (.lift _) fun _ => h.onScopes _
  | exitScope => exact .bind (.lift _) fun _ => h.onScopes _
  | skipInstruction => exact .bind (.lift _) fun _ => .modify h.skip

/-- The hints at the program counter respect what their actions do. -/
theorem respects_stepHint_of (h : HintsRespect R) : Action.Respects R stepHint := by
  have hrun : ∀ p g, Action.Respects R (runHint p g) := fun p g =>
    .bind (h.onScopes _) fun _ => .bind .get fun _ => .bind (h.report _) fun _ =>
      .bind (.lift _) fun a => h.perform p a
  unfold stepHint
  refine .bind .get fun s => ?_
  split
  · exact .pure _
  · exact .pure _
  · exact .bind (.lift _) fun p => .forM fun g _ => hrun p g

end Walks

/-! ## Runs of steps -/

section Runs

variable {L : Action.Law Machine}

/-- A law of steps holds of running until an address is reached. -/
theorem holds_runUntil (hstep : L.Holds step) (target : Option Address) (steps : Nat) :
    L.Holds (runUntil target steps) := by
  induction steps with
  | zero =>
    unfold runUntil
    refine L.bind L.get fun s => ?_
    dsimp only
    split
    · exact L.throw_bind _ _
    · exact L.pure _
  | succ left ih =>
    unfold runUntil
    refine L.bind L.get fun s => ?_
    split
    · exact L.pure _
    · exact L.bind hstep fun _ => ih

/-- A law of steps holds of running for a number of them. -/
theorem holds_runFor (hstep : L.Holds step) (final : Option Address) (steps : Nat) :
    L.Holds (runFor final steps) := by
  induction steps with
  | zero => exact L.pure _
  | succ left ih =>
    unfold runFor
    refine L.bind L.get fun s => ?_
    dsimp only
    split
    · exact L.throw_bind _ _
    · exact L.bind hstep fun _ => ih

end Runs

end Cairo.Machine
