import Cairo.Proofs.Run.Sizes

/-!
# Relocating a run once

Relocating a run lays its memory out first and its trace after that.  If laying out the memory
fails, nothing is kept and relocating may be tried again; if it succeeds and a row of the trace has
a register without a place in linear memory, the linear memory is kept without a linear trace, and
the run is taken as relocated from then on (`relocate_keeps_all_or_memory`).  Of all that is done to
a run only relocating touches the linear memory.
-/

namespace Cairo.Run

variable {r t : Run} {α : Type} {e : Fault}

/-! ## How relocating ends -/

/-- A run with linear memory is not relocated again. -/
theorem relocate_of_linearMemory {memory : LinearMemory} (h : r.linearMemory = some memory) :
    relocate r = .error .alreadyRelocated r := by
  unfold relocate
  rw [Action.get_bind, h]
  rfl

/-- The run with the sizes of its segments computed. -/
def sized (r : Run) : Run :=
  { r with machine := { r.machine with
      segments := Segments.computeSizes.after r.machine.segments } }

/-- Computing the sizes of the segments succeeds. -/
theorem exists_computeSizes (r : Run) :
    ∃ sizes, onSegments Segments.computeSizes r = .ok sizes r.sized := by
  have hsegments : (Segments.computeSizes.answer r.machine.segments).isOk = true := by
    unfold Segments.computeSizes Action.answer
    rw [Action.get_bind]
    cases r.machine.segments.usedSizes with
    | none => rfl
    | some sizes => rfl
  obtain ⟨sizes, hsizes⟩ := Action.exists_eq_ok_of_isOk hsegments
  refine ⟨sizes, ?_⟩
  unfold onSegments onMachine Machine.onSegments
  exact Action.within_eq_ok.mpr ⟨_, Action.within_eq_ok.mpr ⟨_, hsizes, rfl⟩, rfl⟩

/-- Computing the sizes of the segments leaves the memory alone. -/
theorem memory_sized (r : Run) : r.sized.memory = r.memory := by
  show (Segments.computeSizes.after r.machine.segments).memory = r.machine.segments.memory
  unfold Segments.computeSizes Action.after
  rw [Action.get_bind]
  cases r.machine.segments.usedSizes with
  | none => rfl
  | some sizes => rfl

/-- The table and the linear memory of a run. -/
def laidOut (r : Run) : Except Fault (List Int × LinearMemory) := do
  let table ← r.machine.segments.relocationTable
  return (table, ← LinearMemory.ofMemory table r.memory)

/-- How relocating a run fails that has no linear memory: while the memory is laid out, or while the
trace is, with the linear memory kept. -/
theorem relocate_error (hnone : r.linearMemory = none) (h : relocate r = .error e t) :
    (r.sized.laidOut = .error e ∧ t = r.sized) ∨
      ∃ table memory rows, r.sized.laidOut = .ok (table, memory) ∧ r.machine.trace = some rows ∧
        rows.toList.mapM (Registers.linear table) = .error e ∧
          t = { r.sized with linearMemory := some memory } := by
  obtain ⟨sizes, hsizes⟩ := exists_computeSizes r
  unfold relocate at h
  rw [Action.get_bind, hnone] at h
  rcases Action.bind_eq_error.mp h with hfails | ⟨_, u, hcomputed, h⟩
  · cases hsizes.symm.trans hfails
  obtain ⟨-, rfl⟩ := EStateM.Result.ok.inj (hsizes.symm.trans hcomputed)
  rw [Action.get_bind] at h
  rcases Action.bind_eq_error.mp h with hfails | ⟨table, _, hlift, h⟩
  · obtain ⟨htable, rfl⟩ := Action.lift_eq_error.mp hfails
    refine .inl ⟨?_, rfl⟩
    unfold laidOut
    rw [htable]
    rfl
  obtain ⟨htable, rfl⟩ := Action.lift_eq_ok.mp hlift
  rcases Action.bind_eq_error.mp h with hfails | ⟨memory, _, hlift, h⟩
  · obtain ⟨hmemory, rfl⟩ := Action.lift_eq_error.mp hfails
    refine .inl ⟨?_, rfl⟩
    unfold laidOut
    rw [htable, Answer.ok_bind, hmemory]
    rfl
  obtain ⟨hmemory, rfl⟩ := Action.lift_eq_ok.mp hlift
  have hlaidOut : r.sized.laidOut = .ok (table, memory) :=
    Answer.bind_eq_ok.mpr ⟨table, htable, Answer.bind_eq_ok.mpr ⟨memory, hmemory, rfl⟩⟩
  rcases Action.bind_eq_error.mp h with hfails | ⟨_, _, hkeep, h⟩
  · cases hfails
  obtain rfl := Action.modify_eq_ok.mp hkeep
  have htraceSized : r.sized.machine.trace = r.machine.trace := rfl
  rw [htraceSized] at h
  cases htrace : r.machine.trace with
  | none =>
    rw [htrace] at h
    cases h
  | some rows =>
    rw [htrace] at h
    rcases Action.bind_eq_error.mp h with hfails | ⟨_, _, -, h⟩
    · obtain ⟨hrows, rfl⟩ := Action.lift_eq_error.mp hfails
      exact .inr ⟨table, memory, rows, hlaidOut, rfl, hrows, rfl⟩
    · cases h

/-! ## Relocating is not refused without linear memory -/

/-- A fault that is not the refusal to relocate a run again. -/
def NotRefusal (e : Fault) : Prop := e ≠ .alreadyRelocated

/-- Laying out an address is not refused. -/
theorem notRefusal_linear (table : List Int) (a : Address) :
    Answer.FailsOnly NotRefusal (a.linear table) := by
  unfold Address.linear
  split
  · exact .error nofun
  · split
    · exact .ok _
    · exact .error nofun

/-- The table of a run is not refused. -/
theorem notRefusal_relocationTable (s : Segments) :
    Answer.FailsOnly NotRefusal s.relocationTable := by
  have hrequire : ∀ i, Answer.FailsOnly NotRefusal (s.requireSize i) := by
    intro i
    refine .bind ?_ fun _ => .orThrow nofun
    unfold Segments.size Segments.usedSize
    split
    · exact .ok _
    · refine .bind ?_ fun _ => .ok _
      split
      · exact .error nofun
      · exact .ok _
  have htable : ∀ (count : Nat) (start : Int) (i : Nat),
      Answer.FailsOnly NotRefusal (s.tableFrom start i count) := by
    intro count
    induction count with
    | zero => exact fun _ _ => .ok _
    | succ count ih =>
      exact fun start i => .bind (hrequire i) fun _ => .bind (ih _ _) fun _ => .ok _
  unfold Segments.relocationTable
  split
  · exact .error nofun
  · exact htable _ _ _

/-- Laying out a memory is not refused. -/
theorem notRefusal_ofMemory (table : List Int) (m : Memory) :
    Answer.FailsOnly NotRefusal (LinearMemory.ofMemory table m) := by
  have hvalue : ∀ v : Value, Answer.FailsOnly NotRefusal (v.linear table) := by
    intro v
    cases v with
    | felt x => exact .ok _
    | address a => exact .map (notRefusal_linear table a)
  have hplace : ∀ (l : LinearMemory) (n : Int) (x : Felt),
      Answer.FailsOnly NotRefusal (l.place n x) := by
    intro l n x
    unfold LinearMemory.place
    split
    · exact .ok _
    · split
      · exact .ok _
      · exact .error nofun
  exact .foldlM fun l i => .foldlM fun l cell =>
    .bind (notRefusal_linear table _) fun n => .bind (hvalue _) fun x => hplace l n x

/-- Laying out a row of the trace is not refused. -/
theorem notRefusal_linearRow (table : List Int) (registers : Registers) :
    Answer.FailsOnly NotRefusal (registers.linear table) := by
  have hregister : ∀ a, Answer.FailsOnly NotRefusal (Registers.linearRegister table a) := by
    intro a
    cases a with
    | none => exact .error nofun
    | some a => exact notRefusal_linear table a
  exact .bind (notRefusal_linear table _) fun _ => .bind (hregister _) fun _ =>
    .bind (hregister _) fun _ => .ok _

/-- A run without linear memory is not refused to be relocated. -/
theorem relocate_ne_alreadyRelocated (hnone : r.linearMemory = none) :
    relocate r ≠ .error .alreadyRelocated t := by
  intro h
  rcases relocate_error hnone h with ⟨hlaidOut, -⟩ | ⟨table, _, rows, -, -, hrows, -⟩
  · have hfails : Answer.FailsOnly NotRefusal r.sized.laidOut :=
      .bind (notRefusal_relocationTable _) fun table => .bind (notRefusal_ofMemory table _) fun _ =>
        .ok _
    exact hfails _ hlaidOut rfl
  · exact Answer.FailsOnly.mapM (notRefusal_linearRow table) _ hrows rfl

/-! ## Operations that leave the linear memory alone -/

/-- The runs have the same linear memory, or none. -/
def SameLinearMemory (r t : Run) : Prop := t.linearMemory = r.linearMemory

instance : IsPreorder Run SameLinearMemory where
  refl _ := rfl
  trans _ _ _ h h' := Eq.trans h' h

/-- Whatever is done to the machine leaves the linear memory alone. -/
theorem sameLinearMemory_onMachine (x : Action Machine α) :
    Action.Respects SameLinearMemory (onMachine x) :=
  .within (S := fun _ _ => True) (fun _ => trivial) fun _ _ _ => rfl

/-- The parts of the operations leave the linear memory alone. -/
theorem sizingParts_sameLinearMemory : SizingParts (Action.Respects.law SameLinearMemory) where
  toSetUpParts := setUpParts_prepares.mono fun hx => hx.mono fun _ _ h => h.linearMemory
  step := sameLinearMemory_onMachine _
  deduce _ := sameLinearMemory_onMachine _
  verify := sameLinearMemory_onMachine _
  addRelocation _ _ := sameLinearMemory_onMachine _
  returns := holds_readReturnValues fun _ => sameLinearMemory_onMachine _
  move := sameLinearMemory_onMachine _
  sizes := sameLinearMemory_onMachine _

/-- Every operation but relocating leaves the linear memory alone. -/
theorem sameLinearMemory_act {o : Operation} (ho : o ≠ .relocate) :
    Action.Respects SameLinearMemory o.act :=
  sizingParts_sameLinearMemory.holds_act (fun _ _ => sameLinearMemory_onMachine _)
    (fun _ _ _ _ => sameLinearMemory_onMachine _) fun h => absurd h ho

/-- Operations among which no run is relocated leave the linear memory alone. -/
theorem sameLinearMemory_afterOperations {operations : List Operation}
    (h : .relocate ∉ operations) : r.SameLinearMemory (r.afterOperations operations) :=
  respects_afterOperations (fun _ ho => sameLinearMemory_act fun heq => h (heq ▸ ho)) r

/-- Linear memory that a run has stays, whatever is done to it. -/
theorem linearMemory_afterOperations {memory : LinearMemory} (h : r.linearMemory = some memory)
    (operations : List Operation) : (r.afterOperations operations).linearMemory = some memory := by
  induction operations generalizing r with
  | nil => exact h
  | cons o rest ih =>
    refine ih (r := o.act.after r) ?_
    by_cases ho : o = .relocate
    · subst ho
      rwa [show Operation.relocate.act.after r = r from
        Action.after_of_error (relocate_of_linearMemory h)]
    · exact (sameLinearMemory_act ho r).trans h

/-! ## Once -/

/-- Relocating a run that returns keeps the linear memory and the linear trace by one table.  If it
fails, otherwise than by being refused, the linear trace is as it was.  Then either there is no
linear memory, and whatever is done to the run but relocating it, it is not refused to be relocated;
or the linear memory is kept and a row of the trace could not be laid out by its table, and whatever
is done to the run, it is refused to be relocated. -/
theorem relocate_keeps_all_or_memory (r t : Run) :
    (relocate r = .ok () t → ∃ table memory, t.machine.segments.relocationTable = .ok table ∧
      LinearMemory.ofMemory table r.memory = .ok memory ∧ t.linearMemory = some memory ∧
        ∀ rows, r.machine.trace = some rows → ∃ trace,
          rows.toList.mapM (Registers.linear table) = .ok trace ∧ t.linearTrace = some trace) ∧
    ∀ e, e ≠ .alreadyRelocated → relocate r = .error e t → t.linearTrace = r.linearTrace ∧
      ((t.linearMemory = none ∧ ∀ operations u, .relocate ∉ operations →
        relocate (t.afterOperations operations) ≠ .error .alreadyRelocated u) ∨
      ∃ table memory rows, t.machine.segments.relocationTable = .ok table ∧
        LinearMemory.ofMemory table r.memory = .ok memory ∧ t.linearMemory = some memory ∧
          r.machine.trace = some rows ∧ rows.toList.mapM (Registers.linear table) = .error e ∧
            ∀ operations, relocate (t.afterOperations operations) =
              .error .alreadyRelocated (t.afterOperations operations)) := by
  constructor
  · intro h
    obtain ⟨table, memory, -, htable, hmemory, hkeep, htrace⟩ := relocate_inv h
    exact ⟨table, memory, htable, hmemory, hkeep, htrace⟩
  · intro e he h
    cases hlinear : r.linearMemory with
    | some memory =>
      obtain ⟨rfl, -⟩ :=
        EStateM.Result.error.inj ((relocate_of_linearMemory hlinear).symm.trans h)
      exact absurd rfl he
    | none =>
      rcases relocate_error hlinear h with
        ⟨-, rfl⟩ | ⟨table, memory, rows, hlaidOut, htrace, hrows, rfl⟩
      · refine ⟨rfl, .inl ⟨hlinear, fun operations u hnone => ?_⟩⟩
        have hstays : r.sized.SameLinearMemory (r.sized.afterOperations operations) :=
          sameLinearMemory_afterOperations hnone
        exact relocate_ne_alreadyRelocated (hstays.trans hlinear)
      · obtain ⟨_, htable, hlaidOut⟩ := Answer.bind_eq_ok.mp hlaidOut
        obtain ⟨_, hmemory, hpair⟩ := Answer.bind_eq_ok.mp hlaidOut
        obtain ⟨rfl, rfl⟩ := Prod.mk.inj (Answer.pure_eq_ok.mp hpair)
        rw [memory_sized] at hmemory
        refine ⟨rfl, .inr ⟨_, _, rows, htable, hmemory, rfl, htrace, hrows, fun operations => ?_⟩⟩
        exact relocate_of_linearMemory (linearMemory_afterOperations rfl operations)

/-- One step is made with the frame pointer in a segment that is not allocated. -/
def stepWithoutFrame : List Operation :=
  [.memory .addSegment, .memory .addSegment,
    .memory (.load (.base 0) [.value (.felt 0x480480017fff8000), .value (.felt 5)]),
    .memory (.insert (.base 1) (.value (.felt 0))),
    .setRegisters ⟨.base 0, Address.mk? 1 1, some (.base 2)⟩, .advance .step]

/-- The run of the program without data in which the frame pointer has no segment. -/
def frameless : Run := (new blank ⟨"plain", []⟩ true false).afterOperations stepWithoutFrame

/-- Relocating the run fails with the frame pointer. -/
theorem relocate_frameless :
    relocate frameless = .error (.noRelocation 2) (relocate.after frameless) := rfl

/-- The run that outgrows its sizes has linear memory and a linear trace when it is relocated; the
one without a frame has linear memory only when that fails, and is refused from then on. -/
theorem relocate_keeps_all_or_memory_frameless :
    (∃ t memory trace, relocate outgrown = .ok () t ∧ t.linearMemory = some memory ∧
      t.linearTrace = some trace) ∧
    ∃ t, relocate frameless = .error (.noRelocation 2) t ∧ t.linearTrace = none ∧
      t.linearMemory ≠ none ∧ ∀ operations, relocate (t.afterOperations operations) =
        .error .alreadyRelocated (t.afterOperations operations) := by
  obtain ⟨hreturns, -⟩ := relocate_keeps_all_or_memory outgrown (relocate.after outgrown)
  obtain ⟨_, memory, -, -, hmemory, hrows⟩ := hreturns relocate_outgrown
  obtain ⟨trace, -, htrace⟩ := hrows #[] (by decide +kernel)
  obtain ⟨-, hfails⟩ := relocate_keeps_all_or_memory frameless (relocate.after frameless)
  obtain ⟨hsame, hends⟩ := hfails (.noRelocation 2) nofun relocate_frameless
  have hkept : (relocate.after frameless).linearMemory ≠ none := by decide +kernel
  have hnone : frameless.linearTrace = none := by decide +kernel
  refine ⟨⟨_, memory, trace, relocate_outgrown, hmemory, htrace⟩, _, relocate_frameless,
    hsame.trans hnone, hkept, ?_⟩
  rcases hends with ⟨hnone, -⟩ | ⟨-, -, -, -, -, -, -, -, hrefused⟩
  · exact absurd hnone hkept
  · exact hrefused

/-- A segment of one cell is allocated for the frame. -/
def allocateFrame : List Operation := [.memory .addSegment, .finalize 2 (some 1) []]

/-- The run without a frame cannot be relocated, and is refused after the frame is allocated only
because its linear memory was kept. -/
theorem exists_relocate_refused_after_failure :
    ∃ (r t v : Run) (operations : List Operation), relocate r = .error (.noRelocation 2) t ∧
      t.linearMemory ≠ none ∧ t.linearTrace = none ∧ .relocate ∉ operations ∧
        relocate { t.afterOperations operations with linearMemory := none } = .ok () v ∧
          relocate (t.afterOperations operations) =
            .error .alreadyRelocated (t.afterOperations operations) := by
  refine ⟨frameless, _, _, allocateFrame, relocate_frameless, by decide +kernel,
    by decide +kernel, ?_, Action.eq_ok_of_isOk (by decide +kernel), rfl⟩
  simp [allocateFrame]

end Cairo.Run
