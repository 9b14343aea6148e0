import Cairo.Proofs.Builtin.Soundness
import Cairo.Proofs.Run.Declarations
import Cairo.Proofs.Run.Loading

/-!
# The frame of a new run

What a run looks like before its first step (`IsFrame`) is fixed by its program alone: the program
and the stack are loaded to new segments, and setting the machine up adds rules only for the
segments of the builtins, which are empty (`exists_initializeMachine`).  The run can be set up
exactly when the declaration of the builtins is legal and all offsets have room (`CanStart`,
`initializeAll_builds_frame`).
-/

namespace Cairo

/-- A fold that fails at the items that do not meet a condition, and nowhere else, succeeds if all
items meet it. -/
theorem Answer.exists_foldlM_ok_iff {α β : Type} {f : β → α → Except Fault β} {P : α → Prop}
    (hf : ∀ b a, (∃ c, f b a = .ok c) ↔ P a) {l : List α} {b : β} :
    (∃ c, l.foldlM f b = .ok c) ↔ ∀ a ∈ l, P a := by
  induction l generalizing b with
  | nil => exact iff_of_true ⟨b, rfl⟩ nofun
  | cons a rest ih =>
    rw [List.forall_mem_cons, ← hf b a]
    simp only [List.foldlM_cons, bind_eq_ok]
    constructor
    · rintro ⟨c, b', hb', hrest⟩
      exact ⟨⟨b', hb'⟩, ih.mp ⟨c, hrest⟩⟩
    · rintro ⟨⟨b', hb'⟩, hrest⟩
      obtain ⟨c, hc⟩ := ih.mpr hrest
      exact ⟨c, b', hb', hc⟩

/-- A builtin with a segment adds rules for this segment only. -/
theorem Builtin.exists_addRule {b : Builtin} {i : Int} (hb : b.segment = some i) (m : Memory) :
    ∃ rules, b.addRule m = .ok (m.withRules rules) ∧
      ∀ j ≠ i, (m.withRules rules).rulesOf j = m.rulesOf j := by
  unfold addRule
  split
  · refine ⟨_, Answer.bind_eq_ok.mpr ⟨i, requireSegment_eq_ok.mpr hb, rfl⟩, fun j hj => ?_⟩
    exact (Memory.rulesOf_addRule m i j b.rangeRule).trans (if_neg hj)
  · exact ⟨m.rules, rfl, fun _ _ => rfl⟩

namespace Run

variable {r t : Run} {m : Memory}

/-! ## Setting the machine up -/

/-- Builtins with segments add their rules, for these segments only. -/
theorem exists_addRules (hbs : ∀ b ∈ r.machine.builtins, b.segment.isSome) :
    ∃ rules, addRules r = .ok () (r.withMemory (r.memory.withRules rules)) ∧
      ∀ i, (∀ b ∈ r.machine.builtins, b.segment ≠ some i) →
        (r.memory.withRules rules).rulesOf i = r.memory.rulesOf i := by
  let I (u : Run) : Prop := ∃ rules, u = r.withMemory (r.memory.withRules rules) ∧
    ∀ i, (∀ b ∈ r.machine.builtins, b.segment ≠ some i) →
      (r.memory.withRules rules).rulesOf i = r.memory.rulesOf i
  have hround : ∀ b ∈ r.machine.builtins, ∀ u, I u → ∃ t, (do
      let memory ← b.addRule (← get).memory
      onMemory (set memory) : Action Run Unit) u = .ok () t ∧ I t := by
    rintro b hb _ ⟨rules, rfl, hrules⟩
    obtain ⟨i, hi⟩ := Option.isSome_iff_exists.mp (hbs b hb)
    obtain ⟨rules', hadd, hrules'⟩ := Builtin.exists_addRule hi (r.memory.withRules rules)
    refine ⟨_, ?_, rules', rfl, fun j hj => ?_⟩
    · rw [Action.get_bind]
      exact (Action.lift_bind_of_ok hadd _ _).trans (onMemory_of_ok rfl)
    · have hne : j ≠ i := by
        rintro rfl
        exact hj b hb hi
      exact (hrules' j hne).trans (hrules j hj)
  obtain ⟨_, hadd, rules, rfl, hrules⟩ :=
    Action.exists_forM_ok I ⟨r.memory.rules, rfl, fun _ _ => rfl⟩ hround
  exact ⟨rules, hadd, hrules⟩

/-- The scopes are handed to the machine if they were not before. -/
theorem shareScopes_eq (h : r.scopesShared = false) :
    shareScopes r = .ok () { r with
      scopesShared := true
      machine := { r.machine with scopes := some .main } } := by
  unfold shareScopes
  rw [Action.get_bind, h]
  rfl

/-- The run with its machine set up. -/
def ready (r : Run) (pc : Address) (m : Memory) (hints : Std.ExtTreeMap Address (List Hint)) :
    Run :=
  { r with
    scopesShared := true
    machine := { r.machine.withMemory m with
      registers := ⟨pc, r.initialAp, r.initialFp⟩
      hints := hints
      processor := some .standard
      scopes := some .main } }

/-- The machine is set up if the hints can be placed: the rules of the builtins are for segments
that have no cells yet. -/
theorem exists_initializeMachine {pc : Address} (hpc : r.initialPc = some pc)
    (hshared : r.scopesShared = false) (hrules : r.memory.rules = [])
    (hcells : ∀ a, (r.memory.get? a).isSome → a.segment < 2)
    (hbs : ∀ b ∈ r.machine.builtins, ∃ n : Nat, b.segment = some (n : Int) ∧ 2 ≤ n) :
    ∃ m, r.memory.Alike m ∧ r.memory.SameMarks m ∧ ∀ t, initializeMachine r = .ok () t ↔
      ∃ hints, r.placedHints = .ok hints ∧ t = r.ready pc m hints := by
  let s : Run := { r with
    machine := { r.machine with registers := ⟨pc, r.initialAp, r.initialFp⟩ } }
  have hsegments : ∀ b ∈ s.machine.builtins, b.segment.isSome := by
    intro b hb
    obtain ⟨n, hn, -⟩ := hbs b hb
    exact Option.isSome_of_eq_some hn
  obtain ⟨rules, hadd, hruled⟩ : ∃ rules,
      addRules s = .ok () (s.withMemory (r.memory.withRules rules)) ∧
      ∀ i, (∀ b ∈ r.machine.builtins, b.segment ≠ some i) →
        (r.memory.withRules rules).rulesOf i = r.memory.rulesOf i := exists_addRules hsegments
  have hobeys : (r.memory.withRules rules).Obeys (r.memory.withRules rules) := by
    intro a ha rule hrule
    have hother : ∀ b ∈ r.machine.builtins, b.segment ≠ some a.segment := by
      intro b hb heq
      obtain ⟨n, hn, hle⟩ := hbs b hb
      have hlt := hcells a ha
      have := Option.some.inj (heq.symm.trans hn)
      omega
    rw [hruled a.segment hother, Memory.rulesOf_eq_nil hrules] at hrule
    cases hrule
  obtain ⟨m, hm⟩ := Memory.exists_validateExisting hobeys
  have hchecked : (r.memory.withRules rules).Rechecked m :=
    Memory.respects_validateExisting.of_ok hm
  have hmarks : r.memory.SameMarks m := by
    obtain ⟨_, rfl⟩ := hchecked
    rfl
  obtain ⟨hsame, hsame'⟩ := hchecked.alike
  refine ⟨m, ⟨hsame, hsame'⟩, hmarks, fun t => ?_⟩
  have hlift : Action.orThrow r.initialPc (.notInitialized .initialPc) = .ok pc :=
    Answer.orThrow_eq_ok.mpr hpc
  have hset : onMachine (modify ({ · with registers := ⟨pc, r.initialAp, r.initialFp⟩ })) r =
      .ok .unit s := rfl
  have hexisting : onMemory Memory.validateExisting (s.withMemory (r.memory.withRules rules)) =
      .ok () (s.withMemory m) := onMemory_of_ok hm
  have hplaced : (s.withMemory m).placedHints = r.placedHints := rfl
  unfold initializeMachine
  rw [Action.get_bind, Action.lift_bind_of_ok hlift, Action.bind_of_ok hset,
    Action.bind_of_ok hadd, Action.bind_of_ok hexisting, Action.get_bind, hplaced]
  cases r.placedHints with
  | error e =>
    rw [Action.lift_bind_of_error rfl]
    exact ⟨nofun, nofun⟩
  | ok hints =>
    have hlast : (do
        onMachine (modify ({ · with hints := hints, processor := some .standard }))
        shareScopes : Action Run Unit) (s.withMemory m) = .ok () (r.ready pc m hints) :=
      (Action.bind_of_ok rfl).trans (shareScopes_eq hshared)
    rw [Action.lift_bind_of_ok rfl, hlast]
    constructor
    · rintro ⟨⟩
      exact ⟨hints, rfl, rfl⟩
    · rintro ⟨_, ⟨⟩, rfl⟩
      rfl

/-- The hints can be placed if their offsets have room. -/
theorem exists_placedHints {i : Int} (h : r.programBase = some (.base i)) :
    (∃ hints, r.placedHints = .ok hints) ↔
      ∀ entry ∈ r.program.hints, 0 ≤ entry.1 ∧ entry.1 < offsetBound := by
  unfold placedHints
  rw [h]
  refine Answer.exists_foldlM_ok_iff fun found entry => ?_
  rw [← Address.exists_shift_base (i := i)]
  simp only [Answer.bind_eq_ok, Answer.pure_eq_ok]
  exact ⟨fun ⟨_, a, ha, _⟩ => ⟨a, ha⟩, fun ⟨a, ha⟩ => ⟨_, a, ha, rfl⟩⟩

/-! ## The frame -/

/-- The builtins of a program are there, and the segments up to theirs are allocated. -/
structure LaidOut (program : Program) (r : Run) : Prop where
  program_eq : r.program = program
  room : r.HasRoom 0 1
  memory : r.memory = Memory.empty.widened (program.builtins.length + 2)
  stack : r.builtinStack = .ok (((List.range' 2 program.builtins.length).map
    fun i : Nat => Value.address (.base i)).map .value)
  names : r.machine.builtins.map (·.kind.name) = program.builtins
  segments : ∀ i b, r.machine.builtins[i]? = some b → b.segment = some ((i + 2 : Nat) : Int)
  scopesShared : r.scopesShared = false

/-- What a run of a program is like before its first step. -/
structure IsFrame (program : Program) (t : Run) : Prop where
  memory : t.memory.IsFrame program.data program.builtins.length
  names : t.machine.builtins.map (·.kind.name) = program.builtins
  segments : ∀ i b, t.machine.builtins[i]? = some b → b.segment = some ((i + 2 : Nat) : Int)
  pc : t.machine.registers.pc.segment = 0 ∧
    program.main = some (t.machine.registers.pc.offset : Int)
  top : ∃ top : Address, top.segment = 1 ∧ top.offset = program.builtins.length + 2 ∧
    t.machine.registers.ap = some top ∧ t.machine.registers.fp = some top

/-- The declaration of the builtins of a program is legal, and the place where it starts, its end
and its hints have offsets. -/
structure CanStart (layout : Layout) (program : Program) : Prop where
  legal : layout.Legal program.builtins
  main : ∃ main, program.main = some main ∧ 0 ≤ main ∧ main < offsetBound
  data : program.data.length < offsetBound
  hints : ∀ entry ∈ program.hints, 0 ≤ entry.1 ∧ entry.1 < offsetBound

variable {program : Program} {layout : Layout} {tracing recording : Bool} {final : Address}

/-- Setting a run up for the main function starts as for calls of functions. -/
theorem initializeAll_eq_ok : initializeAll r = .ok final t ↔
    ∃ r' s, initializeFunctions r = .ok () r' ∧ initializeMain r' = .ok final s ∧
      initializeMachine s = .ok () t := by
  simp only [initializeAll, initializeFunctions, Action.bind_eq_ok, Action.pure_eq_ok]
  constructor
  · rintro ⟨_, s₁, hbuiltins, _, r', hsegments, _, s, hmain, _, _, hmachine, rfl, rfl⟩
    exact ⟨r', s, ⟨_, s₁, hbuiltins, hsegments⟩, hmain, hmachine⟩
  · rintro ⟨r', s, ⟨_, s₁, hbuiltins, hsegments⟩, hmain, hmachine⟩
    exact ⟨_, s₁, hbuiltins, _, r', hsegments, _, s, hmain, _, _, hmachine, rfl, rfl⟩

/-- The builtins that are created for a legal declaration have the declared names, and are
included. -/
theorem exists_initializeBuiltins (h : r.layout.Legal r.program.builtins) :
    ∃ bs, initializeBuiltins r = .ok () (r.withBuiltins bs) ∧
      bs.map (·.kind.name) = r.program.builtins ∧ ∀ b ∈ bs, b.included = true := by
  obtain ⟨entries, hentries⟩ := Layout.legal_iff.mp h
  refine ⟨entries.map fun entry => { Builtin.ofKind entry.1 with ratio := entry.2 }, ?_, ?_, ?_⟩
  · rw [initializeBuiltins_eq, hentries]
  · have hnames := (Layout.entries_eq_ok.mp hentries).2.imp fun _ _ hentry =>
      (Layout.entry_eq_ok.mp hentry).2.1.symm
    rw [List.map_map, eq_comm, ← List.forall₂_eq_eq_eq, List.forall₂_map_right_iff]
    exact hnames
  · intro b hb
    obtain ⟨entry, -, rfl⟩ := List.mem_map.mp hb
    rfl

/-- The builtins and the segments up to theirs are there after legal declarations. -/
theorem exists_initializeFunctions (h : layout.Legal program.builtins)
    (tracing recording : Bool) :
    ∃ r, initializeFunctions (new program layout tracing recording) = .ok () r ∧
      r.LaidOut program := by
  obtain ⟨bs, hcreated, hnames, hincluded⟩ :=
    exists_initializeBuiltins (r := new program layout tracing recording) h
  have hlength : bs.length = program.builtins.length := by
    rw [← List.length_map (·.kind.name), hnames]
    rfl
  have hmemory : ((new program layout tracing recording).withBuiltins bs).segmented.memory =
      Memory.empty.widened (program.builtins.length + 2) := by
    rw [← hlength, Nat.add_comm]
    rfl
  refine ⟨_, (Action.bind_of_ok hcreated).trans (initializeSegments_eq _), ?_⟩
  constructor
  · rfl
  · refine ⟨rfl, rfl, Nat.zero_ne_one, ?_, ?_, rfl⟩
    · simp [hmemory, Memory.widened, Memory.empty]
    · simp [hmemory, Memory.widened, Memory.empty]
  · exact hmemory
  · have hstack := Builtin.mapM_initialStack_placedFrom hincluded 2
    rw [hlength] at hstack
    refine Answer.bind_eq_ok.mpr ⟨_, hstack, Answer.pure_eq_ok.mpr ?_⟩
    rw [← List.flatMap_def, ← List.map_eq_flatMap, List.map_map]
    rfl
  · have hkinds := congrArg (List.map BuiltinKind.name) (Builtin.map_kind_placedFrom bs 2)
    rw [List.map_map, List.map_map] at hkinds
    exact hkinds.trans hnames
  · intro i b hb
    obtain ⟨b', -, rfl⟩ := Option.map_eq_some_iff.mp
      ((Builtin.getElem?_placedFrom bs 2 i).symm.trans hb)
    rw [Nat.add_comm]
  · rfl

/-- Functions are set up for legal declarations only. -/
theorem legal_of_initializeFunctions
    (h : initializeFunctions (new program layout tracing recording) = .ok () r) :
    layout.Legal program.builtins := by
  obtain ⟨_, s, hbuiltins, -⟩ := Action.bind_eq_ok.mp h
  rw [initializeBuiltins_eq] at hbuiltins
  cases hentries : layout.entries program.builtins with
  | ok entries => exact Layout.legal_iff.mpr ⟨entries, hentries⟩
  | error e =>
    rw [show (new program layout tracing recording).layout.entries
      (new program layout tracing recording).program.builtins = .error e from hentries] at hbuiltins
    cases hbuiltins

/-- From the segments that are laid out the frame is made, if the hints of the program can be
placed. -/
theorem LaidOut.exists_frame (h : r.LaidOut program) (hlegal : layout.Legal program.builtins)
    {main : Int} (hmain : program.main = some main) (hfirst : 0 ≤ main) (hlast : main < offsetBound)
    (hdata : program.data.length < offsetBound) :
    ∃ s, initializeMain r = .ok (.base (program.builtins.length + 3 : Nat)) s ∧
      ((∃ t, initializeMachine s = .ok () t) ↔
        ∀ entry ∈ program.hints, 0 ≤ entry.1 ∧ entry.1 < offsetBound) ∧
      ∀ t, initializeMachine s = .ok () t → t.IsFrame program := by
  obtain ⟨rfl, hroom, hmemory, hstack, hnames, hsegments, hshared⟩ := h
  obtain ⟨pc, hpc⟩ := (Address.exists_shift_base (i := 0)).mpr ⟨hfirst, hlast⟩
  have hk : r.program.builtins.length + 2 < offsetBound := by
    have hle : r.program.builtins.length ≤ 8 := hlegal.ordered.length_le
    have hbound : 10 < offsetBound := by decide
    omega
  obtain ⟨m, hframe, hrules, hcall⟩ :=
    Run.exists_initializeMain hroom hmemory hstack hk hmain hpc hdata
  refine ⟨_, hcall, ?_⟩
  have hbs : ∀ b ∈ r.machine.builtins, ∃ n : Nat, b.segment = some (n : Int) ∧ 2 ≤ n := by
    intro b hb
    obtain ⟨i, hi⟩ := List.mem_iff_getElem?.mp hb
    exact ⟨i + 2, hsegments i b hi, Nat.le_add_left 2 i⟩
  obtain ⟨m', hcells, hmarks, hmachine⟩ :=
    exists_initializeMachine (r := (r.called pc _ _).withMemory m) rfl hshared hrules
      (fun a ha => hframe.segment_lt ha) hbs
  refine ⟨(exists_congr hmachine).trans ?_, fun t ht => ?_⟩
  · rw [← exists_placedHints hroom.programBase]
    exact ⟨fun ⟨_, hints, hhints, _⟩ => ⟨hints, hhints⟩, fun ⟨hints, hhints⟩ =>
      ⟨_, hints, hhints, rfl⟩⟩
  · obtain ⟨hints, -, rfl⟩ := (hmachine t).mp ht
    obtain ⟨hpcs, hpco⟩ := Address.shift_eq_ok.mp hpc
    rw [Address.offset_base, Nat.cast_zero, zero_add] at hpco
    refine ⟨hframe.of_alike hcells hmarks, hnames, hsegments, ⟨hpcs, ?_⟩, _, rfl, rfl, rfl, rfl⟩
    exact hmain.trans (congrArg some hpco.symm)

/-- A run that is set up could start, and has its frame. -/
theorem isFrame_of_initializeAll
    (h : initializeAll (new program layout tracing recording) = .ok final t) :
    CanStart layout program ∧ final = .base (program.builtins.length + 3 : Nat) ∧
      t.IsFrame program := by
  obtain ⟨r, s, hfunctions, hmain, hmachine⟩ := initializeAll_eq_ok.mp h
  have hlegal := legal_of_initializeFunctions hfunctions
  obtain ⟨r', hr', hlaid⟩ := exists_initializeFunctions hlegal tracing recording
  rw [hr'] at hfunctions
  cases hfunctions
  obtain ⟨⟨main, hsome, hfirst, hlast⟩, hdata⟩ := bounds_of_initializeMain hlaid.room hmain
  rw [hlaid.program_eq] at hsome hdata
  obtain ⟨s', hs', hhints, hframe⟩ := hlaid.exists_frame hlegal hsome hfirst hlast hdata
  rw [hs'] at hmain
  cases hmain
  exact ⟨⟨hlegal, ⟨main, hsome, hfirst, hlast⟩, hdata, hhints.mp ⟨t, hmachine⟩⟩, rfl,
    hframe t hmachine⟩

/-- A new run can be set up exactly if the declaration of the builtins is legal, and the place where
the program starts, its end and its hints have offsets.  It then ends at the last of its segments,
of which there are four more than builtins.  The first one is the program, whose cells are the
accessed ones, and the second one holds the bases of the builtins, in their order, and the pointers
to the last two segments; all others are empty.  The run starts at the main function, with its
frame behind the stack. -/
theorem initializeAll_builds_frame (program : Program) (layout : Layout)
    (tracing recording : Bool) :
    ((∃ final t, initializeAll (new program layout tracing recording) = .ok final t) ↔
      CanStart layout program) ∧
    ∀ final t, initializeAll (new program layout tracing recording) = .ok final t →
      final = .base (program.builtins.length + 3 : Nat) ∧ t.IsFrame program := by
  refine ⟨⟨fun ⟨_, _, h⟩ => (isFrame_of_initializeAll h).1, ?_⟩,
    fun _ _ h => (isFrame_of_initializeAll h).2⟩
  rintro ⟨hlegal, ⟨main, hsome, hfirst, hlast⟩, hdata, hhints⟩
  obtain ⟨r, hr, hlaid⟩ := exists_initializeFunctions hlegal tracing recording
  obtain ⟨s, hs, hmachine, -⟩ := hlaid.exists_frame hlegal hsome hfirst hlast hdata
  obtain ⟨t, ht⟩ := hmachine.mpr hhints
  exact ⟨_, t, initializeAll_eq_ok.mpr ⟨r, s, hr, hs, ht⟩⟩

end Run

end Cairo
