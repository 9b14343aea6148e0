import Cairo.Proofs.Run.Parts

/-!
# Setting a run up

A run is set up for the main function or for the call of one function (`Entry`).  This allocates
segments and writes to them, but it makes no step: the trace stays empty, no size becomes known,
and the hints of the machine are those of the program (`isReady_of_setUp`).  Most of its parts only
load data (`Loads`); creating the builtins and setting the registers and the hints does more
(`Prepares`).
-/

namespace Cairo

/-- No hint of the program asks for an instruction to be passed over. -/
def Program.SkipsNothing (p : Program) : Prop :=
  ∀ entry ∈ p.hints, ∀ h ∈ entry.2, (⟨h.code⟩ : Hint).action? ≠ some .skipInstruction

namespace Run

/-- Where a run of a program enters it. -/
inductive Entry
  | main
  | function (entrypoint : Int) (args : List Datum) (returnFp : Datum)

/-- Sets a run up for its entry and answers the address at which it ends.  Lists among the
arguments of a function are written to segments of their own. -/
def setUp : Entry → Action Run Address
  | .main => initializeAll
  | .function entrypoint args returnFp => do
    initializeFunctions
    let stack ← args.mapM fun d => onSegments (Segments.argument d)
    let final ← initializeCall entrypoint (stack.map .value) returnFp
    initializeMachine
    return final

/-! ## What is left alone -/

/-- The second run is further in its set-up than the first one. -/
structure Prepares (r t : Run) : Prop where
  program : t.program = r.program
  linearMemory : t.linearMemory = r.linearMemory
  trace : t.machine.trace = r.machine.trace
  skipNext : t.machine.skipNext = r.machine.skipNext
  usedSizes : t.machine.segments.usedSizes = r.machine.segments.usedSizes
  fixedSizes : t.machine.segments.fixedSizes = r.machine.segments.fixedSizes

instance : IsPreorder Run Prepares where
  refl _ := ⟨rfl, rfl, rfl, rfl, rfl, rfl⟩
  trans _ _ _ h h' := ⟨h'.program.trans h.program, h'.linearMemory.trans h.linearMemory,
    h'.trace.trans h.trace, h'.skipNext.trans h.skipNext, h'.usedSizes.trans h.usedSizes,
    h'.fixedSizes.trans h.fixedSizes⟩

/-- The second run has what the first one has in memory, and perhaps more, and its machine stands
where that of the first one does. -/
structure Loads (r t : Run) : Prop where
  machine : r.machine.Resumes t.machine
  program : t.program = r.program
  linearMemory : t.linearMemory = r.linearMemory

instance : IsPreorder Run Loads where
  refl _ := ⟨refl _, rfl, rfl⟩
  trans _ _ _ h h' := ⟨IsTrans.trans _ _ _ h.machine h'.machine, h'.program.trans h.program,
    h'.linearMemory.trans h.linearMemory⟩

/-- What only loads prepares. -/
theorem Loads.prepares {r t : Run} (h : r.Loads t) : r.Prepares t :=
  ⟨h.program, h.linearMemory, h.machine.trace, h.machine.skipNext, h.machine.segments.usedSizes,
    h.machine.segments.fixedSizes⟩

variable {α : Type}

/-- A change that leaves the core of a run alone only loads. -/
theorem SameCore.loads {r t : Run} (h : SameCore r t) : r.Loads t :=
  ⟨h.machine ▸ refl _, h.program, h.linearMemory⟩

/-- An action that only loads prepares a run. -/
theorem prepares_of_loads {x : Action Run α} (hx : Action.Respects Loads x) :
    Action.Respects Prepares x :=
  hx.mono fun _ _ => Loads.prepares

/-- An action that lets the machine resume only loads. -/
theorem loads_onMachine {x : Action Machine α} (hx : Action.Respects Machine.Resumes x) :
    Action.Respects Loads (onMachine x) :=
  .within hx fun _ _ h => ⟨h, rfl, rfl⟩

/-- An action that lets the segments grow only loads. -/
theorem loads_onSegments {x : Action Segments α} (hx : Action.Respects Segments.Grows x) :
    Action.Respects Loads (onSegments x) :=
  loads_onMachine (Machine.respects_onSegments hx)

/-- An action that keeps the cells of the memory only loads. -/
theorem loads_onMemory {x : Action Memory α} (hx : Action.Respects Memory.Extends x) :
    Action.Respects Loads (onMemory x) :=
  loads_onMachine (Machine.respects_onMemory hx)

/-- Every action on the builtins prepares a run. -/
theorem respects_onBuiltins (x : Action (List Builtin) α) :
    Action.Respects Prepares (onBuiltins x) :=
  .within (S := fun s t => t = { s with builtins := t.builtins })
    (.within (S := fun _ _ => True) (fun _ => trivial) fun _ _ _ => rfl)
    fun r t h => by rw [h]; exact ⟨rfl, rfl, rfl, rfl, rfl, rfl⟩

/-! ## The parts of the set-up -/

/-- Giving a builtin a segment only loads. -/
theorem loads_allocate (b : Builtin) : Action.Respects Loads (onSegments b.allocate) :=
  loads_onSegments (.bind Segments.respects_add fun _ => .pure _)

/-- What loads the program and prepares a call only loads. -/
theorem loadingParts_loads : LoadingParts (Action.Respects.law Loads) :=
  have hchange : ∀ f, KeepsCore f → Action.Respects Loads (modify f : Action Run PUnit) :=
    fun _ hf => .modify fun r => (hf r).loads
  { change := hchange
    add := loads_onSegments Segments.respects_add
    argument := fun d => loads_onSegments (Segments.respects_argument d)
    state := holds_initializeState hchange
      (fun _ _ => loads_onSegments (Segments.respects_load _ _))
      fun _ => loads_onMemory (.modify fun _ _ _ hv => hv) }

/-- Adding the rule of a builtin leaves the cells of the memory alone. -/
theorem get?_addRule {b : Builtin} {m t : Memory} (h : b.addRule m = .ok t) (a : Address) :
    t.get? a = m.get? a := by
  unfold Builtin.addRule at h
  split at h
  · obtain ⟨i, -, h⟩ := Answer.bind_eq_ok.mp h
    obtain rfl := Answer.pure_eq_ok.mp h
    rfl
  · obtain rfl := Except.ok.inj h
    rfl

/-- Adding the rules of the builtins only loads. -/
theorem loads_addRules : Action.Respects Loads addRules := by
  refine .bind .get fun r => .forM fun b _ => .get_bind fun s =>
    Action.Respects.rel_lift_bind fun m hm => ?_
  -- The new memory is set as a whole, and has the cells of the one before it.
  have hcells : s.memory.Extends m := fun a v hv => (get?_addRule hm a).trans hv
  exact ⟨⟨⟨⟨hcells, rfl, rfl⟩, rfl, rfl⟩, rfl, rfl, rfl⟩, rfl, rfl⟩

/-- Checking the cells that are there only loads. -/
theorem loads_validateExisting : Action.Respects Loads (onMemory Memory.validateExisting) :=
  loads_onMemory (Memory.respects_validateExisting.mono fun _ _ => Memory.Rechecked.extends)

/-- What a run is set up with prepares it. -/
theorem setUpParts_prepares : SetUpParts (Action.Respects.law Prepares) where
  toLoadingParts := loadingParts_loads.mono prepares_of_loads
  machine _ hf := .within (.modify hf) fun _ _ h => ⟨rfl, rfl, h.trace, h.skipNext,
    congrArg Segments.usedSizes h.segments, congrArg Segments.fixedSizes h.segments⟩
  builtins _ _ := respects_onBuiltins _
  allocate := holds_allocateBuiltins (fun b => prepares_of_loads (loads_allocate b)) fun _ =>
    respects_onBuiltins _
  rules := prepares_of_loads loads_addRules
  validate := prepares_of_loads loads_validateExisting

/-- The law holds of setting a run up. -/
theorem SetUpParts.holds_setUp {L : Action.Law Run} (h : SetUpParts L) (entry : Entry) :
    L.Holds (setUp entry) := by
  cases entry with
  | main => exact h.holds_initializeAll
  | function entrypoint args returnFp =>
    exact L.bind h.holds_initializeFunctions fun _ => L.bind (L.mapM fun d _ => h.argument d)
      fun _ => L.bind (h.holds_initializeCall _ _ _) fun _ =>
        L.bind h.holds_initializeMachine fun _ => L.pure _

/-! ## Ready runs -/

/-- The hints that are placed for a program that skips nothing skip nothing. -/
theorem noneSkips_placedHints {r : Run} {hints : Std.ExtTreeMap Address (List Hint)}
    (hr : r.program.SkipsNothing) (h : r.placedHints = .ok hints) : Machine.NoneSkips hints := by
  unfold placedHints at h
  obtain ⟨base, -, h⟩ := Answer.bind_eq_ok.mp h
  refine Answer.foldlM_ok Machine.NoneSkips h (fun _ _ hpc => by simp at hpc) ?_
  intro entry hentry found found' hfound hplace pc hs hpc
  obtain ⟨a, -, hplace⟩ := Answer.bind_eq_ok.mp hplace
  obtain rfl := Answer.pure_eq_ok.mp hplace
  rw [Std.ExtTreeMap.getElem?_insert] at hpc
  split at hpc
  · obtain rfl := Option.some.inj hpc
    intro h hh
    obtain ⟨g, hg, rfl⟩ := List.mem_map.mp hh
    exact hr entry hentry g hg
  · exact hfound pc hs hpc

/-- A run that is ready to make its first step. -/
structure IsReady (r : Run) : Prop where
  linearMemory : r.linearMemory = none
  trace : r.machine.trace = some #[]
  skipNext : r.machine.skipNext = false
  skipsNothing : r.machine.SkipsNothing
  usedSizes : r.machine.segments.usedSizes = none
  fixedSizes : r.machine.segments.fixedSizes = ∅

/-- Handing over the scopes prepares a run and keeps the hints of the machine. -/
theorem shareScopes_ok {r t : Run} (h : shareScopes r = .ok () t) :
    r.Prepares t ∧ t.machine.hints = r.machine.hints := by
  unfold shareScopes at h
  obtain ⟨_, _, hget, h⟩ := Action.bind_eq_ok.mp h
  obtain ⟨rfl, rfl⟩ := Action.get_eq_ok.mp hget
  split at h
  · obtain ⟨_, _, hscopes, h⟩ := Action.bind_eq_ok.mp h
    obtain ⟨_, hmodify, rfl⟩ := Action.within_eq_ok.mp hscopes
    obtain rfl := Action.modify_eq_ok.mp hmodify
    obtain rfl := Action.modify_eq_ok.mp h
    exact ⟨⟨rfl, rfl, rfl, rfl, rfl, rfl⟩, rfl⟩
  · obtain ⟨-, rfl⟩ := Action.pure_eq_ok.mp h
    exact ⟨refl r, rfl⟩

/-- Setting the machine up prepares a run and gives it the hints of its program. -/
theorem initializeMachine_ok {r t : Run} (hr : r.program.SkipsNothing)
    (h : initializeMachine r = .ok () t) : r.Prepares t ∧ t.machine.SkipsNothing := by
  unfold initializeMachine at h
  obtain ⟨_, _, hget, h⟩ := Action.bind_eq_ok.mp h
  obtain ⟨rfl, rfl⟩ := Action.get_eq_ok.mp hget
  obtain ⟨pc, _, hlift, h⟩ := Action.bind_eq_ok.mp h
  obtain ⟨-, rfl⟩ := Action.lift_eq_ok.mp hlift
  obtain ⟨_, r₁, hregisters, h⟩ := Action.bind_eq_ok.mp h
  obtain ⟨_, r₂, hrules, h⟩ := Action.bind_eq_ok.mp h
  obtain ⟨_, r₃, hexisting, h⟩ := Action.bind_eq_ok.mp h
  obtain ⟨_, _, hget, h⟩ := Action.bind_eq_ok.mp h
  obtain ⟨rfl, rfl⟩ := Action.get_eq_ok.mp hget
  obtain ⟨hints, _, hlift, h⟩ := Action.bind_eq_ok.mp h
  obtain ⟨hhints, rfl⟩ := Action.lift_eq_ok.mp hlift
  obtain ⟨_, r₄, hplace, hshare⟩ := Action.bind_eq_ok.mp h
  have hset : Action.Respects Prepares
      (onMachine (modify ({ · with registers := ⟨pc, r.initialAp, r.initialFp⟩ }))) :=
    setUpParts_prepares.machine _ fun _ => ⟨rfl, rfl, rfl, rfl⟩
  have hprepared : r.Prepares r₃ := IsTrans.trans _ _ _ (hset.of_ok hregisters)
    (IsTrans.trans _ _ _ (loads_addRules.of_ok hrules).prepares
      (loads_validateExisting.of_ok hexisting).prepares)
  have hnone : Machine.NoneSkips hints :=
    noneSkips_placedHints (hprepared.program ▸ hr) hhints
  obtain ⟨_, hmodify, rfl⟩ := Action.within_eq_ok.mp hplace
  obtain rfl := Action.modify_eq_ok.mp hmodify
  -- Handing over the scopes leaves the hints as they were placed.
  have hshared := shareScopes_ok hshare
  refine ⟨IsTrans.trans _ _ _ hprepared (IsTrans.trans _ _ _ ?_ hshared.1), ?_⟩
  · exact ⟨rfl, rfl, rfl, rfl, rfl, rfl⟩
  · unfold Machine.SkipsNothing
    rw [hshared.2]
    exact hnone

/-- A run of a program without skipping hints is ready once it is set up. -/
theorem isReady_of_setUp {entry : Entry} {program : Program} {layout : Layout} {recording : Bool}
    {final : Address} {r : Run} (hnone : program.SkipsNothing)
    (h : setUp entry (.new program layout true recording) = .ok final r) : r.IsReady := by
  -- Both entries end with the set-up of the machine, after steps that only prepare the run.
  suffices hlast : ∃ s, (Run.new program layout true recording).Prepares s ∧
      initializeMachine s = .ok () r by
    obtain ⟨s, hs, hmachine⟩ := hlast
    have hskips : s.program.SkipsNothing := by
      rw [hs.program]
      exact hnone
    obtain ⟨hprepares, hnoneSkips⟩ := initializeMachine_ok hskips hmachine
    have hr : (Run.new program layout true recording).Prepares r :=
      IsTrans.trans _ _ _ hs hprepares
    exact ⟨hr.linearMemory, hr.trace, hr.skipNext, hnoneSkips, hr.usedSizes, hr.fixedSizes⟩
  have hparts := setUpParts_prepares
  cases entry with
  | main =>
    obtain ⟨_, s₁, hbuiltins, h⟩ := Action.bind_eq_ok.mp h
    obtain ⟨_, s₂, hsegments, h⟩ := Action.bind_eq_ok.mp h
    obtain ⟨_, s₃, hcall, h⟩ := Action.bind_eq_ok.mp h
    obtain ⟨_, s₄, hmachine, h⟩ := Action.bind_eq_ok.mp h
    obtain ⟨-, rfl⟩ := Action.pure_eq_ok.mp h
    refine ⟨s₃, ?_, hmachine⟩
    exact IsTrans.trans _ _ _ (hparts.holds_initializeBuiltins.of_ok hbuiltins)
      (IsTrans.trans _ _ _ ((hparts.holds_initializeSegments none).of_ok hsegments)
        (hparts.holds_initializeMain.of_ok hcall))
  | function entrypoint args returnFp =>
    obtain ⟨_, s₁, hfunctions, h⟩ := Action.bind_eq_ok.mp h
    obtain ⟨stack, s₂, hargs, h⟩ := Action.bind_eq_ok.mp h
    obtain ⟨_, s₃, hcall, h⟩ := Action.bind_eq_ok.mp h
    obtain ⟨_, s₄, hmachine, h⟩ := Action.bind_eq_ok.mp h
    obtain ⟨-, rfl⟩ := Action.pure_eq_ok.mp h
    refine ⟨s₃, ?_, hmachine⟩
    have hstack : Action.Respects Prepares (args.mapM fun d => onSegments (Segments.argument d)) :=
      .mapM fun d _ => hparts.argument d
    exact IsTrans.trans _ _ _ (hparts.holds_initializeFunctions.of_ok hfunctions)
      (IsTrans.trans _ _ _ (hstack.of_ok hargs)
        ((hparts.holds_initializeCall entrypoint (stack.map .value) returnFp).of_ok hcall))

end Run

end Cairo
