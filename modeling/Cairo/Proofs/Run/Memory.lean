import Cairo.Proofs.Machine.Memory
import Cairo.Proofs.Run.Operations

/-!
# What a run does to its memory

Everything that is done to a run, from setting it up to relocating it, reaches its memory through
the changes that `ChangesRespect` lists.  So a relation between memories that all of these respect
holds of the memory before and the memory after every operation, whether it succeeds or fails
(`through_act`).
-/

namespace Cairo.Run

variable {R : Memory → Memory → Prop} {α : Type}

/-- The memories of the runs are related. -/
def Through (R : Memory → Memory → Prop) (r t : Run) : Prop := R r.memory t.memory

instance [IsPreorder Memory R] : IsPreorder Run (Through R) where
  refl r := refl r.memory
  trans r s t h h' := IsTrans.trans r.memory s.memory t.memory h h'

/-! ## Parts of a run -/

/-- An action on the machine respects through the run what it respects through the machine. -/
theorem through_onMachine {x : Action Machine α} (hx : Action.Respects (Machine.Through R) x) :
    Action.Respects (Through R) (onMachine x) :=
  .within hx fun _ _ h => h

/-- An action on the segments respects through the run what it respects through them. -/
theorem through_onSegments {x : Action Segments α} (hx : Action.Respects (Segments.Through R) x) :
    Action.Respects (Through R) (onSegments x) :=
  through_onMachine (Machine.through_onSegments hx)

/-- An action on the memory respects through the run what it respects. -/
theorem through_onMemory {x : Action Memory α} (hx : Action.Respects R x) :
    Action.Respects (Through R) (onMemory x) :=
  through_onMachine (Machine.through_onMemory hx)

variable [IsPreorder Memory R]

/-- An action on the builtins leaves the memory alone. -/
theorem through_onBuiltins (x : Action (List Builtin) α) :
    Action.Respects (Through R) (onBuiltins x) :=
  through_onMachine (Machine.through_onBuiltins x)

/-- A change that leaves the core of a run alone leaves the memory alone. -/
theorem through_modify {f : Run → Run} (hf : KeepsCore f) :
    Action.Respects (Through R) (modify f : Action Run PUnit) := by
  refine .modify fun r => ?_
  unfold Through memory
  rw [(hf r).machine]
  exact refl r.memory

/-- A change that leaves the contents of the machine alone leaves the memory alone. -/
theorem through_modifyMachine {f : Machine → Machine} (hf : Machine.KeepsContents f) :
    Action.Respects (Through R) (onMachine (modify f)) := by
  refine through_onMachine (.modify fun m => ?_)
  unfold Machine.Through Machine.memory
  rw [(hf m).segments]
  exact refl m.memory

/-- Adding the rules of the builtins respects what new rules do. -/
theorem through_addRules (haddRule : ∀ m i r, R m (Memory.addRule m i r)) :
    Action.Respects (Through R) addRules := by
  refine .bind .get fun r => .forM fun b _ => .get_bind fun s =>
    Action.Respects.rel_lift_bind fun m hm => ?_
  -- The new memory is set as a whole, and has at most one rule more.
  have hadded : R s.memory m := by
    unfold Builtin.addRule at hm
    split at hm
    · obtain ⟨i, -, hm⟩ := Answer.bind_eq_ok.mp hm
      obtain rfl := Answer.pure_eq_ok.mp hm
      exact haddRule _ i _
    · obtain rfl := Except.ok.inj hm
      exact refl s.memory
  exact hadded

/-- A law of what respects a relation between memories holds of what a run is set up with if the
relation is respected by writes, new rules and checks, and the law holds of loading the program and
the stack. -/
theorem setUpParts_of_through {L : Action.Law Run}
    (hL : ∀ {α : Type} {x : Action Run α}, Action.Respects (Through R) x → L.Holds x)
    (h : Memory.WritesRespect R) (haddRule : ∀ m i r, R m (Memory.addRule m i r))
    (hcheck : ∀ a, Action.Respects R (Memory.validateCell a))
    (hstate : ∀ entrypoint stack, L.Holds (initializeState entrypoint stack)) : SetUpParts L where
  change _ hf := hL (through_modify hf)
  add := hL (through_onSegments (Segments.through_add h))
  argument d := hL (through_onSegments (Segments.through_argument h d))
  state := hstate
  machine _ hf := hL (through_modifyMachine hf)
  builtins _ _ := hL (through_onBuiltins _)
  allocate := holds_allocateBuiltins
    (fun _ => hL (through_onSegments (.bind (Segments.through_add h) fun _ => .pure _)))
    fun _ => hL (through_onBuiltins _)
  rules := hL (through_addRules haddRule)
  validate := hL (through_onMemory (Memory.respects_validateExisting_of hcheck))

/-! ## Operations -/

variable (h : Memory.ChangesRespect R)

include h

/-- The parts of the operations respect what is done to the memory. -/
theorem sizingParts_through : SizingParts (Action.Respects.law (Through R)) where
  toSetUpParts := setUpParts_of_through id h.toWritesRespect h.addRule h.check
    (holds_initializeState (fun _ hf => through_modify hf)
      (fun a data => through_onSegments (Segments.through_load h.toWritesRespect a data))
      fun a => through_onMemory (.modify fun m => h.mark m a))
  step := through_onMachine (Machine.through_step h)
  deduce a := through_onMachine (Machine.through_deduceCell a)
  verify := through_onMachine Machine.through_verifyBuiltins
  addRelocation src dst := through_onMemory (h.addRelocation src dst)
  returns := holds_readReturnValues fun _ => through_onBuiltins _
  move := through_onMachine (Machine.through_relocateTemporaries h)
  sizes := through_onSegments Segments.through_computeSizes

/-- Every operation respects what is done to the memory. -/
theorem through_act (o : Operation) : Action.Respects (Through R) o.act :=
  (sizingParts_through h).holds_act (fun call _ => through_onMemory (h.calls.act call))
    (fun i size offsets _ =>
      through_onSegments (.modify fun s => s.through_finalize i size offsets))
    fun _ _ => .modify fun r => refl r.memory

end Cairo.Run
