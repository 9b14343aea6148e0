import Cairo.Proofs.Machine.Replay

/-!
# Steps with any hints

A hint may ask for the next instruction to be passed over, so that a step executes an instruction
or only moves the program counter past it (`step_cases`).  Before that the hints leave the registers
alone and supply cells (`Supplies`).  Either way the cells that are written stay, in one step and in
any number of them (`extends_of_steps`).
-/

namespace Cairo.Machine

/-- The second machine has the registers of the first one, and its memory has grown. -/
structure Supplies (s t : Machine) : Prop where
  registers : t.registers = s.registers
  memory : s.memory.Extends t.memory

instance : IsPreorder Machine Supplies where
  refl _ := ⟨rfl, refl _⟩
  trans _ _ _ h h' := ⟨h'.registers.trans h.registers, IsTrans.trans _ _ _ h.memory h'.memory⟩

/-- A machine that resumes has been supplied with cells at most. -/
theorem Resumes.supplies {s t : Machine} (h : s.Resumes t) : s.Supplies t :=
  ⟨h.registers, h.extends⟩

/-- Whatever a hint does, it supplies cells at most. -/
theorem supplies_perform (p : HintProcessor) (a : HintAction) :
    Action.Respects Supplies (perform p a) := by
  by_cases ha : a = .skipInstruction
  · subst ha
    exact .bind (.lift _) fun _ => .modify fun _ => ⟨rfl, refl _⟩
  · exact (respects_perform p ha).mono fun _ _ => Resumes.supplies

/-- A hint supplies cells at most. -/
theorem supplies_runHint (p : HintProcessor) (h : Hint) :
    Action.Respects Supplies (runHint p h) :=
  .bind ((respects_onScopes _).mono fun _ _ => Resumes.supplies) fun _ => .bind .get fun _ =>
    .bind ((respects_report _).mono fun _ _ => Resumes.supplies) fun _ =>
      .bind (.lift _) fun a => supplies_perform p a

/-- The hints of an instruction supply cells at most. -/
theorem supplies_stepHint : Action.Respects Supplies stepHint := by
  unfold stepHint
  refine .bind .get fun m => ?_
  split
  · exact .pure _
  · exact .pure _
  · exact .bind (.lift _) fun p => .forM fun h _ => supplies_runHint p h

/-- The step from the machine executes the instruction: after its hints, the instruction is the one
at the program counter and is not passed over. -/
def StepExecutes (s : Machine) (i : Instruction) : Prop :=
  ∃ u, stepHint s = .ok () u ∧ u.skipNext = false ∧ u.currentInstruction = .ok i

/-- An instruction that is passed over only moves the program counter. -/
theorem skip_ok {i : Instruction} {s t : Machine} (h : skip i s = .ok () t) :
    ∃ pc, s.registers.nextPc i = .ok pc ∧
      t = { s with registers := { s.registers with pc := pc }, skipNext := false } := by
  obtain ⟨_, _, hget, h⟩ := Action.bind_eq_ok.mp h
  obtain ⟨rfl, rfl⟩ := Action.get_eq_ok.mp hget
  obtain ⟨pc, _, hnext, h⟩ := Action.bind_eq_ok.mp h
  obtain ⟨hpc, rfl⟩ := Action.lift_eq_ok.mp hnext
  exact ⟨pc, hpc, (Action.modify_eq_ok.mp h).symm⟩

/-- What a step does, with any hints: it executes an instruction over the new memory, which has
grown, or it passes over one and then only hints have changed the memory. -/
theorem step_cases {s t : Machine} (h : step s = .ok () t) :
    (∃ i a o, s.StepExecutes i ∧ s.registers.Executes i t.memory a o t.registers ∧
      s.memory.Extends t.memory) ∨
    (∃ i pc, (∀ j, ¬ s.StepExecutes j) ∧ s.registers.nextPc i = .ok pc ∧
      t.registers = { s.registers with pc := pc } ∧ s.memory.Extends t.memory) := by
  obtain ⟨_, u, hhints, h⟩ := Action.bind_eq_ok.mp h
  have hsupplies : s.Supplies u := supplies_stepHint.of_ok hhints
  cases hskip : u.skipNext with
  | false =>
    obtain ⟨i, v, hi, hrun, rfl⟩ := (stepInstruction_eq_ok hskip).mp h
    obtain ⟨a, o, hexecutes, hframe, -, -⟩ := runInstruction_ok hrun
    refine .inl ⟨i, a, o, ⟨u, hhints, hskip, hi⟩, ?_, ?_⟩
    · rw [← hsupplies.registers]
      exact hexecutes
    · exact IsTrans.trans _ _ _ hsupplies.memory hframe.extends
  | true =>
    unfold stepInstruction at h
    simp only [Action.bind_eq_ok, Action.get_eq_ok, Action.lift_eq_ok] at h
    obtain ⟨_, _, ⟨rfl, rfl⟩, i, _, ⟨hi, rfl⟩, h⟩ := h
    rw [hskip, if_pos rfl] at h
    obtain ⟨pc, hpc, rfl⟩ := skip_ok h
    refine .inr ⟨i, pc, ?_, hsupplies.registers ▸ hpc, ?_, hsupplies.memory⟩
    · rintro j ⟨u', hhints', hskip', -⟩
      obtain ⟨-, rfl⟩ := EStateM.Result.ok.inj (hhints.symm.trans hhints')
      exact Bool.noConfusion (hskip.symm.trans hskip')
    · rw [← hsupplies.registers]

/-- The step from a machine executes one instruction at most. -/
theorem StepExecutes.unique {s : Machine} {i j : Instruction} (hi : s.StepExecutes i)
    (hj : s.StepExecutes j) : i = j := by
  obtain ⟨u, hhints, -, hi⟩ := hi
  obtain ⟨u', hhints', -, hj⟩ := hj
  obtain ⟨-, rfl⟩ := EStateM.Result.ok.inj (hhints.symm.trans hhints')
  exact Except.ok.inj (hi.symm.trans hj)

/-- A step that executes an instruction leads to the new registers by it. -/
theorem StepExecutes.executes {s t : Machine} {i : Instruction} (hi : s.StepExecutes i)
    (h : step s = .ok () t) : ∃ a o, s.registers.Executes i t.memory a o t.registers := by
  obtain ⟨j, a, o, hj, hexecutes, -⟩ | ⟨-, -, hnone, -⟩ := step_cases h
  · rw [hi.unique hj]
    exact ⟨a, o, hexecutes⟩
  · exact absurd hi (hnone i)

/-- An instruction that a step executes is decoded from a word. -/
theorem StepExecutes.exists_word {s : Machine} {i : Instruction} (hi : s.StepExecutes i) :
    ∃ word : Felt, Instruction.decode word.val = .ok i := by
  obtain ⟨u, -, -, hi⟩ := hi
  obtain ⟨word, -, -, -, hdecode⟩ := currentInstruction_eq_ok.mp hi
  exact ⟨word, hdecode⟩

/-- A step keeps what is written. -/
theorem extends_of_step {s t : Machine} (h : step s = .ok () t) : s.memory.Extends t.memory := by
  obtain ⟨-, -, -, -, -, hextends⟩ | ⟨-, -, -, -, -, hextends⟩ := step_cases h
  · exact hextends
  · exact hextends

/-! ## Any number of steps -/

/-- Some steps and then some more are their sum. -/
theorem steps_add_eq_ok {m n : Nat} {s u : Machine} :
    steps (m + n) s = .ok () u ↔ ∃ t, steps m s = .ok () t ∧ steps n t = .ok () u := by
  induction m generalizing s with
  | zero =>
    rw [Nat.zero_add]
    constructor
    · intro h
      exact ⟨s, rfl, h⟩
    · rintro ⟨t, ht, h⟩
      obtain ⟨-, rfl⟩ := Action.pure_eq_ok.mp ht
      exact h
  | succ m ih =>
    rw [Nat.succ_add]
    constructor
    · intro h
      obtain ⟨_, s', hstep, hrest⟩ := Action.bind_eq_ok.mp h
      obtain ⟨t, ht, hu⟩ := ih.mp hrest
      exact ⟨t, Action.bind_eq_ok.mpr ⟨(), s', hstep, ht⟩, hu⟩
    · rintro ⟨t, ht, hu⟩
      obtain ⟨_, s', hstep, hrest⟩ := Action.bind_eq_ok.mp ht
      exact Action.bind_eq_ok.mpr ⟨(), s', hstep, ih.mpr ⟨t, hrest, hu⟩⟩

/-- One step is a step. -/
theorem steps_one_eq_ok {s t : Machine} : steps 1 s = .ok () t ↔ step s = .ok () t := by
  constructor
  · intro h
    obtain ⟨_, u, hstep, hrest⟩ := Action.bind_eq_ok.mp h
    obtain ⟨-, rfl⟩ := Action.pure_eq_ok.mp hrest
    exact hstep
  · intro h
    exact Action.bind_eq_ok.mpr ⟨(), t, h, rfl⟩

/-- Steps keep what is written. -/
theorem extends_of_steps {n : Nat} {s t : Machine} (h : steps n s = .ok () t) :
    s.memory.Extends t.memory := by
  induction n generalizing s with
  | zero =>
    obtain ⟨-, rfl⟩ := Action.pure_eq_ok.mp h
    exact refl _
  | succ n ih =>
    obtain ⟨_, u, hstep, hrest⟩ := Action.bind_eq_ok.mp h
    exact IsTrans.trans _ _ _ (extends_of_step hstep) (ih hrest)

end Cairo.Machine
