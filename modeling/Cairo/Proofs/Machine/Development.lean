import Cairo.Proofs.Memory.Development
import Cairo.Proofs.Builtin.Soundness
import Cairo.Run.Execution

/-!
# Machines develop

Every action of a machine that succeeds lets its memory develop, and leaves its range checks in
their segments, with their rules (`Machine.Develops`).  The lemmas follow the actions from the
allocation of a segment to a step, one lemma for each of them.
-/

namespace Cairo

/-! ## Range checks -/

namespace Builtin

/-- The segments of the range checks among some builtins, each with its rule. -/
def posts (bs : List Builtin) : List (Option Int × RangeRule) :=
  (bs.filter (·.kind = .rangeCheck)).map fun b => (b.segment, b.rangeRule)

/-- A range check has its post. -/
theorem mem_posts {b : Builtin} {bs : List Builtin} (hb : b ∈ bs) (hkind : b.kind = .rangeCheck) :
    (b.segment, b.rangeRule) ∈ posts bs :=
  List.mem_map.mpr ⟨b, List.mem_filter.mpr ⟨hb, decide_eq_true hkind⟩, rfl⟩

/-- The builtins have one kind, one segment and one rule. -/
structure SamePost (b b' : Builtin) : Prop where
  kind : b'.kind = b.kind
  segment : b'.segment = b.segment
  parts : b'.parts = b.parts

instance : IsPreorder Builtin SamePost where
  refl _ := ⟨rfl, rfl, rfl⟩
  trans _ _ _ h h' :=
    ⟨h'.kind.trans h.kind, h'.segment.trans h.segment, h'.parts.trans h.parts⟩

/-- The range checks keep their posts if every builtin does. -/
theorem posts_eq_of_forall₂ {bs bs' : List Builtin} (h : List.Forall₂ SamePost bs bs') :
    posts bs' = posts bs := by
  induction h with
  | nil => rfl
  | @cons b b' bs bs' hb _ ih =>
    unfold posts rangeRule at ih ⊢
    rw [List.filter_cons, List.filter_cons, hb.kind]
    split
    · rw [List.map_cons, List.map_cons, ih, hb.segment, hb.parts]
    · exact ih

/-- Remembering a value keeps the post of a builtin. -/
theorem samePost_remember (a : Address) (x : Felt) : Action.Respects SamePost (remember a x) :=
  .modify fun _ => ⟨rfl, rfl, rfl⟩

/-- Deducing a cell keeps the post of a builtin. -/
theorem samePost_deduce (m : Memory) (a : Address) : Action.Respects SamePost (deduce m a) := by
  have hfrom : ∀ a i xs, Action.Respects SamePost (rememberFrom a i xs) := by
    intro a i xs
    induction xs generalizing i with
    | nil => exact .pure _
    | cons x rest ih =>
      exact .bind (.lift _) fun c => .bind (samePost_remember c x) fun _ => ih (i + 1)
  have hfound : ∀ found, Action.Respects SamePost (rememberFound a found) := by
    intro found
    cases found with
    | none => exact .pure _
    | some x => exact .bind (samePost_remember a x) fun _ => .pure _
  intro b
  unfold Action.after
  rcases b.deduce_cases m a with ⟨x, -, h⟩ | ⟨e, -, h⟩ | ⟨-, h⟩ | ⟨values, -, h⟩
  · rw [h]
    exact refl b
  · rw [h]
    exact refl b
  · rw [h]
    exact refl b
  · rw [h]
    have houtputs : Action.Respects SamePost (rememberOutputs b a values) := by
      unfold rememberOutputs
      dsimp only
      split
      · exact .bind (.lift _) fun first => .bind (hfrom first 0 values) fun _ => hfound _
      · exact hfound _
    exact houtputs b

/-- Checking the written cells keeps the post of a builtin. -/
theorem samePost_verify (m : Memory) : Action.Respects SamePost (verify m) := by
  refine .bind .get fun b => .bind (.lift _) fun i => .bind (.lift _) fun s =>
    .forM fun ⟨a, v⟩ _ => ?_
  unfold verifyCell
  refine .bind (samePost_deduce m a) fun found => ?_
  split
  · exact .pure _
  · split
    · exact .bind .get fun _ => .throw _
    · exact .pure _

/-- Reading its stop pointer keeps the post of a builtin. -/
theorem samePost_finalStack (s : Segments) (pointer : Option Address) :
    Action.Respects SamePost (finalStack s pointer) := by
  have hstop : ∀ n, Action.Respects SamePost (modify fun b => { b with stopOffset := some n }) :=
    fun n => .modify fun b => ⟨rfl, rfl, rfl⟩
  unfold finalStack
  refine .bind .get fun b => ?_
  split
  · refine .bind (.lift _) fun p => .bind (.lift _) fun cell => .bind (.lift _) fun stop =>
      .bind (.lift _) fun used => .bind (.lift _) fun i => .bind (.lift _) fun expected => ?_
    dsimp only
    split
    · exact .throw_bind _ _
    · exact .bind (hstop _) fun _ => .pure _
  · exact .bind (hstop _) fun _ => .pure _

end Builtin

/-! ## Segments -/

namespace Segments

/-- The memory develops. -/
def Develops (s t : Segments) : Prop := s.memory.Develops t.memory

instance : IsPreorder Segments Develops where
  refl s := refl s.memory
  trans _ _ _ h h' := .trans h h'

variable {α : Type}

/-- An action that lets the memory develop does so as an action on the segments. -/
theorem develops_onMemory {x : Action Memory α} (hx : Action.Ensures Memory.Develops x) :
    Action.Ensures Develops (onMemory x) :=
  .within hx fun _ _ h => h

/-- Finalizing a segment leaves the memory alone. -/
theorem develops_finalize (s : Segments) (i : Int) (size : Option Int) (offsets : List Int) :
    s.Develops (s.finalize i size offsets) := by
  unfold finalize
  split
  · exact refl s.memory
  · exact refl s.memory

/-- A new segment lets the memory develop. -/
theorem develops_add (size : Option Int) : Action.Ensures Develops (add size) := by
  refine .bind (develops_onMemory (Memory.develops_of_settles Memory.settles_addSegment))
    fun i => ?_
  dsimp only
  split
  · exact .bind (.modify fun s => develops_finalize s _ _ _) fun _ => .pure _
  · exact .pure _

/-- A new temporary segment lets the memory develop. -/
theorem develops_addTemporary : Action.Ensures Develops addTemporary :=
  .bind (develops_onMemory (Memory.develops_of_settles Memory.settles_addTemporary)) fun _ =>
    .pure _

/-- Loading data lets the memory develop. -/
theorem develops_load (a : Address) (data : List Datum) :
    Action.Ensures Develops (load a data) :=
  develops_onMemory (Memory.develops_load a data)

/-- Computing the sizes in use leaves the memory alone. -/
theorem develops_computeSizes : Action.Ensures Develops computeSizes := by
  refine .bind .get fun s => ?_
  split
  · exact .pure _
  · exact .bind (.modify fun s => refl s.memory) fun _ => .pure _

mutual

/-- Writing an argument lets the memory develop. -/
theorem develops_argument (d : Datum) : Action.Ensures Develops (argument d) := by
  cases d with
  | value v =>
    rw [argument]
    exact .pure _
  | truth b =>
    rw [argument]
    exact .pure _
  | integer n =>
    rw [argument]
    exact .pure _
  | list items =>
    rw [argument]
    exact .bind (develops_add none) fun base => .bind (develops_arguments items) fun values =>
      .bind (develops_load base _) fun _ => .pure _
  | nothing =>
    rw [argument]
    exact .throw _
  | text s =>
    rw [argument]
    exact .throw _

/-- Writing a list of arguments to segments lets the memory develop. -/
theorem develops_arguments (items : List Datum) : Action.Ensures Develops (arguments items) := by
  cases items with
  | nil =>
    rw [arguments]
    exact .pure _
  | cons d rest =>
    rw [arguments]
    exact .bind (develops_argument d) fun _ => .bind (develops_arguments rest) fun _ => .pure _

end

/-- Writing a list of arguments to consecutive cells lets the memory develop. -/
theorem develops_writeArguments (a : Address) (items : List Datum) :
    Action.Ensures Develops (writeArguments a items) :=
  .bind (develops_arguments items) fun _ => develops_load a _

end Segments

/-! ## Machines -/

namespace Machine

/-- The memory develops, and the range checks keep their segments and rules. -/
structure Develops (s t : Machine) : Prop where
  memory : s.memory.Develops t.memory
  posts : Builtin.posts t.builtins = Builtin.posts s.builtins

instance : IsPreorder Machine Develops where
  refl _ := ⟨refl _, rfl⟩
  trans _ _ _ h h' := ⟨h.memory.trans h'.memory, h'.posts.trans h.posts⟩

variable {α : Type}

/-- An action on the segments that lets the memory develop lets the machine develop. -/
theorem develops_onSegments {x : Action Segments α} (hx : Action.Ensures Segments.Develops x) :
    Action.Ensures Develops (onSegments x) :=
  .within hx fun _ _ h => ⟨h, rfl⟩

/-- An action on the memory that lets it develop lets the machine develop. -/
theorem develops_onMemory {x : Action Memory α} (hx : Action.Ensures Memory.Develops x) :
    Action.Ensures Develops (onMemory x) :=
  develops_onSegments (Segments.develops_onMemory hx)

/-- An action on the builtins that keeps their posts lets the machine develop. -/
theorem develops_onBuiltins {x : Action (List Builtin) α}
    (hx : Action.Respects (List.Forall₂ Builtin.SamePost) x) :
    Action.Ensures Develops (onBuiltins x) :=
  .of_respects (.within hx fun _ _ h => ⟨refl _, Builtin.posts_eq_of_forall₂ h⟩)

/-- A machine that has changed in other parts only has developed. -/
theorem develops_of_eq {s t : Machine} (hsegments : t.segments = s.segments)
    (hbuiltins : t.builtins = s.builtins) : s.Develops t := by
  refine ⟨?_, by rw [hbuiltins]⟩
  unfold memory
  rw [hsegments]
  exact refl _

/-- An action on the registers lets the machine develop. -/
theorem develops_onRegisters (x : Action Registers α) : Action.Ensures Develops (onRegisters x) :=
  .within (S := fun _ _ => True) (fun _ _ _ _ => trivial) fun _ _ _ => develops_of_eq rfl rfl

/-- A report lets the machine develop. -/
theorem develops_report (e : Event) : Action.Ensures Develops (report e) :=
  .modify fun _ => develops_of_eq rfl rfl

/-- Deducing a cell lets the machine develop. -/
theorem develops_deduceCell (a : Address) : Action.Ensures Develops (deduceCell a) :=
  .bind .get fun s => develops_onBuiltins
    (Builtin.forall₂_deduceCell fun b _ => Builtin.samePost_deduce s.memory a b)

/-- Checking the builtins lets the machine develop. -/
theorem develops_verifyBuiltins : Action.Ensures Develops verifyBuiltins :=
  .bind .get fun s => develops_onBuiltins
    (Builtin.forall₂_onEach (Builtin.samePost_verify s.memory))

/-- Moving the temporary segments lets the machine develop. -/
theorem develops_relocateTemporaries : Action.Ensures Develops relocateTemporaries := by
  unfold relocateTemporaries
  refine .bind .get fun s => ?_
  dsimp only
  split
  · exact .bind (develops_report _) fun _ => develops_onMemory Memory.develops_relocate
  · exact develops_onMemory Memory.develops_relocate

/-! ### Instructions -/

/-- Deducing a cell that was not found lets the machine develop. -/
theorem develops_orDeduced (a : Address) (found : Option Value) :
    Action.Ensures Develops (orDeduced a found) := by
  cases found with
  | some v => exact .pure _
  | none => exact .bind (develops_deduceCell a) fun _ => .pure _

/-- Writing a missing cell lets the machine develop. -/
theorem develops_writeMissing (a : Address) (found : Option Value) (v : Value) :
    Action.Ensures Develops (writeMissing a found v) := by
  cases found with
  | some w => exact .pure _
  | none => exact develops_onMemory (Memory.develops_insert a v)

/-- Computing the operands lets the machine develop. -/
theorem develops_computeOperands (i : Instruction) :
    Action.Ensures Develops (computeOperands i) :=
  .bind .get fun _ => .bind (.lift _) fun _ =>
    .bind (.bind (develops_orDeduced _ _) fun _ => .bind (develops_orDeduced _ _) fun _ =>
      .bind .get fun _ => .lift _) fun _ =>
        .bind (develops_writeMissing _ _ _) fun _ => .bind (develops_writeMissing _ _ _) fun _ =>
          .bind (develops_writeMissing _ _ _) fun _ => .pure _

/-- Recording a step lets the machine develop. -/
theorem develops_recordStep (s : Machine) (a : OperandAddresses) :
    s.Develops (s.recordStep a) :=
  ⟨Memory.Marked.develops ⟨_, rfl⟩, rfl⟩

/-- Executing an instruction lets the machine develop. -/
theorem develops_runInstruction (i : Instruction) : Action.Ensures Develops (runInstruction i) :=
  .bind (develops_computeOperands i) fun _ => .bind .get fun _ => .bind (.lift _) fun _ =>
    .bind (.modify fun s => develops_recordStep s _) fun _ => .bind (develops_report _) fun _ =>
      .bind (develops_onRegisters _) fun _ => .modify fun _ => develops_of_eq rfl rfl

/-- The instruction at the program counter lets the machine develop. -/
theorem develops_stepInstruction : Action.Ensures Develops stepInstruction := by
  unfold stepInstruction
  refine .bind .get fun s => .bind (.lift _) fun i => ?_
  split
  · exact .bind .get fun _ => .bind (.lift _) fun _ => .modify fun _ => develops_of_eq rfl rfl
  · exact .bind (develops_report _) fun _ => .bind (develops_runInstruction i) fun _ =>
      .bind .get fun _ => develops_report _

/-! ### Hints -/

/-- An action on the scopes lets the machine develop. -/
theorem develops_onScopes (x : Action Scopes α) : Action.Ensures Develops (onScopes x) := by
  intro s a t h
  unfold onScopes at h
  cases hscopes : s.scopes with
  | none =>
    rw [hscopes] at h
    cases h
  | some scopes =>
    rw [hscopes] at h
    dsimp only at h
    cases hx : x scopes with
    | ok b u =>
      rw [hx] at h
      cases h
      exact develops_of_eq rfl rfl
    | error e u =>
      rw [hx] at h
      cases h

/-- A hint that allocates a segment lets the machine develop. -/
theorem develops_hintAllocate (p : HintProcessor) {allocate : Action Segments Address}
    (h : Action.Ensures Segments.Develops allocate) :
    Action.Ensures Develops (hintAllocate p allocate) := by
  unfold hintAllocate
  refine .bind (.lift _) fun _ => .bind (develops_onSegments h) fun base => .bind .get fun m => ?_
  dsimp only
  split
  · exact .lift _
  · exact .bind (.lift _) fun a => develops_onMemory (Memory.develops_insert a _)

/-- What a hint does lets the machine develop. -/
theorem develops_perform (p : HintProcessor) (a : HintAction) :
    Action.Ensures Develops (perform p a) := by
  cases a with
  | allocateSegment => exact develops_hintAllocate p (Segments.develops_add none)
  | allocateTemporary => exact develops_hintAllocate p Segments.develops_addTemporary
  | relocateTemporary =>
    exact .bind (.lift _) fun _ => .bind .get fun _ => .bind (.lift _) fun src =>
      .bind .get fun _ => .bind (.lift _) fun dst => develops_onMemory
        (Memory.develops_of_settles (Memory.settles_addRelocation src dst))
  | enterScope => exact .bind (.lift _) fun _ => develops_onScopes _
  | exitScope => exact .bind (.lift _) fun _ => develops_onScopes _
  | skipInstruction => exact .bind (.lift _) fun _ => .modify fun _ => develops_of_eq rfl rfl

/-- A hint lets the machine develop. -/
theorem develops_runHint (p : HintProcessor) (h : Hint) :
    Action.Ensures Develops (runHint p h) :=
  .bind (develops_onScopes _) fun _ => .bind .get fun _ => .bind (develops_report _) fun _ =>
    .bind (.lift _) fun _ => develops_perform p _

/-- The hints at the program counter let the machine develop. -/
theorem develops_stepHint : Action.Ensures Develops stepHint := by
  unfold stepHint
  refine .bind .get fun s => ?_
  split
  · exact .pure _
  · exact .pure _
  · exact .bind (.lift _) fun p => .forM fun h _ => develops_runHint p h

/-! ### Steps -/

/-- A step lets the machine develop. -/
theorem develops_step : Action.Ensures Develops step :=
  .bind develops_stepHint fun _ => develops_stepInstruction

end Machine

end Cairo
