import Cairo.Proofs.Run.Advance

/-!
# Operations on a run

An `Operation` is anything that is done to a run from outside: setting it up or parts of it, using
its memory, advancing it, ending it, and what comes after that.  A law that holds of the parts that
operations are made of (`OperationParts`, and `SizingParts` for those that compute the sizes of the
segments) holds of every operation (`SizingParts.holds_act`).
-/

namespace Cairo

/-- A builtin as it is made has no segment and remembers nothing. -/
theorem Builtin.unused_of_make {name : String} {settings : List (String × Datum)} {b : Builtin}
    (h : make name settings = .ok b) : b.segment = none ∧ b.cache = ∅ := by
  unfold make at h
  split at h
  · refine Answer.foldlM_ok (fun b : Builtin => b.segment = none ∧ b.cache = ∅) h ⟨rfl, rfl⟩ ?_
    intro setting _ b b' hb hset
    unfold configure at hset
    split at hset <;> cases hset <;> exact hb
  · cases h

namespace Run

/-- Something that is done to a run from outside. -/
inductive Operation
  | initializeBuiltins
  | addBuiltin (name : String) (settings : List (String × Datum))
  | initializeSegments (programBase : Option Address)
  | initializeFunctions
  | initializeState (entrypoint : Int) (stack : List Datum)
  | initializeCall (entrypoint : Int) (args : List Datum) (returnFp : Datum)
  | initializeMain
  | initializeMachine
  | initializeAll
  | setRegisters (registers : Registers)
  | memory (call : Memory.Call)
  | addRelocation (src dst : Address)
  | argument (d : Datum)
  | finalize (i : Int) (size : Option Int) (offsets : List Int)
  | computeSizes
  | deduce (a : Address)
  | verifyBuiltins
  | advance (a : Advance)
  | endRun
  | readReturnValues
  | verifySecure
  | relocate
  | runFunction (entrypoint : Int) (args : List Datum) (secure : Bool) (budget : Budget)
  | runLabel (name : String) (args : List Datum) (secure : Bool) (budget : Budget)

/-- What an operation does to a run. -/
def Operation.act : Operation → Action Run Unit
  | initializeBuiltins => Run.initializeBuiltins
  | addBuiltin name settings => do
    let b ← Builtin.make name settings
    onBuiltins (modify (· ++ [b]))
  | initializeSegments programBase => Run.initializeSegments programBase
  | initializeFunctions => Run.initializeFunctions
  | initializeState entrypoint stack => Run.initializeState entrypoint stack
  | initializeCall entrypoint args returnFp => do
    let _ ← Run.initializeCall entrypoint args returnFp
  | initializeMain => do let _ ← Run.initializeMain
  | initializeMachine => Run.initializeMachine
  | initializeAll => do let _ ← Run.initializeAll
  | setRegisters registers => onMachine (modify ({ · with registers := registers }))
  | memory call => onMemory call.act
  | addRelocation src dst => onMemory (Memory.addRelocation src dst)
  | argument d => do let _ ← onSegments (Segments.argument d)
  | finalize i size offsets => onSegments (modify (·.finalize i size offsets))
  | computeSizes => do let _ ← onSegments Segments.computeSizes
  | deduce a => do let _ ← onMachine (Machine.deduceCell a)
  | verifyBuiltins => onMachine Machine.verifyBuiltins
  | advance a => Run.advance a
  | endRun => Run.endRun
  | readReturnValues => do let _ ← Run.readReturnValues
  | verifySecure => Run.verifySecure
  | relocate => Run.relocate
  | runFunction entrypoint args secure budget => Run.runFunction entrypoint args secure budget
  | runLabel name args secure budget => Run.runLabel name args secure budget

/-- The run after a list of operations, each of which may have failed. -/
def afterOperations (r : Run) (operations : List Operation) : Run :=
  operations.foldl (fun r o => o.act.after r) r

/-- What each of some operations respects all of them do. -/
theorem respects_afterOperations {R : Run → Run → Prop} [IsPreorder Run R]
    {operations : List Operation} (h : ∀ o ∈ operations, Action.Respects R o.act) (r : Run) :
    R r (r.afterOperations operations) := by
  induction operations generalizing r with
  | nil => exact refl r
  | cons o rest ih =>
    obtain ⟨ho, hrest⟩ := List.forall_mem_cons.mp h
    exact IsTrans.trans _ _ _ (ho r) (ih hrest (o.act.after r))

/-! ## Laws of operations -/

/-- The operation computes the sizes of the segments. -/
def Operation.ComputesSizes : Operation → Prop
  | .computeSizes | .endRun | .relocate | .runFunction _ _ _ _ | .runLabel _ _ _ _ => True
  | _ => False

variable {L : Action.Law Run}

/-- The law holds of what the operations are made of that compute no sizes: what sets a run up,
steps, deductions and checks of the builtins, relocation rules, and the reading of the return
values. -/
structure OperationParts (L : Action.Law Run) : Prop extends SetUpParts L where
  step : L.Holds (onMachine Machine.step)
  deduce : ∀ a, L.Holds (onMachine (Machine.deduceCell a))
  verify : L.Holds (onMachine Machine.verifyBuiltins)
  addRelocation : ∀ src dst, L.Holds (onMemory (Memory.addRelocation src dst))
  returns : L.Holds readReturnValues

/-- A law of the parts of operations holds of every operation that computes no sizes, if it does of
the calls to the memory and the settings of segments among them. -/
theorem OperationParts.holds_act (h : OperationParts L) {o : Operation} (ho : ¬ o.ComputesSizes)
    (hcall : ∀ call, o = .memory call → L.Holds (onMemory call.act))
    (hfinalize : ∀ i size offsets, o = .finalize i size offsets →
      L.Holds (onSegments (modify (·.finalize i size offsets)))) : L.Holds o.act := by
  cases o with
  | initializeBuiltins => exact h.holds_initializeBuiltins
  | addBuiltin name settings =>
    refine L.lift_bind fun b hb => h.builtins _ fun bs c hc => ?_
    rcases List.mem_append.mp hc with hold | hnew
    · exact .inl hold
    · obtain rfl := List.mem_singleton.mp hnew
      exact .inr (Builtin.unused_of_make hb)
  | initializeSegments programBase => exact h.holds_initializeSegments programBase
  | initializeFunctions => exact h.holds_initializeFunctions
  | initializeState entrypoint stack => exact h.state entrypoint stack
  | initializeCall entrypoint args returnFp =>
    exact L.bind (h.holds_initializeCall entrypoint args returnFp) fun _ => L.pure _
  | initializeMain => exact L.bind h.holds_initializeMain fun _ => L.pure _
  | initializeMachine => exact h.holds_initializeMachine
  | initializeAll => exact L.bind h.holds_initializeAll fun _ => L.pure _
  | setRegisters registers => exact h.machine _ fun _ => ⟨rfl, rfl, rfl, rfl⟩
  | memory call => exact hcall call rfl
  | addRelocation src dst => exact h.addRelocation src dst
  | argument d => exact L.bind (h.argument d) fun _ => L.pure _
  | finalize i size offsets => exact hfinalize i size offsets rfl
  | deduce a => exact L.bind (h.deduce a) fun _ => L.pure _
  | verifyBuiltins => exact h.verify
  | advance a => exact holds_advance h.machine h.step a
  | readReturnValues => exact L.bind h.returns fun _ => L.pure _
  | verifySecure => exact holds_verifySecure h.verify
  | computeSizes | endRun | relocate | runFunction | runLabel => exact absurd trivial ho

/-- The law holds also of what the operations take that compute sizes: the moving of the temporary
segments and the computation itself. -/
structure SizingParts (L : Action.Law Run) : Prop extends OperationParts L where
  move : L.Holds (onMachine Machine.relocateTemporaries)
  sizes : L.Holds (onSegments Segments.computeSizes)

namespace SizingParts

variable (h : SizingParts L)

include h

/-- The law holds of ending a run. -/
theorem holds_endRun : L.Holds endRun := Run.holds_endRun h.change h.move h.verify h.sizes

/-- The law holds of running a function. -/
theorem holds_runFunction (entrypoint : Int) (args : List Datum) (secure : Bool)
    (budget : Budget) : L.Holds (runFunction entrypoint args secure budget) := by
  unfold runFunction
  refine L.bind (L.mapM fun d _ => h.argument d) fun _ =>
    L.bind (h.holds_initializeCall _ _ _) fun _ => L.bind h.holds_initializeMachine fun _ =>
      L.bind (holds_runUntil h.machine h.step _ budget) fun _ => L.bind h.holds_endRun fun _ => ?_
  split
  · exact holds_verifySecure h.verify
  · exact L.pure _

/-- A law of the parts of operations holds of every operation, if it does of the calls to the memory
and the settings of segments among them, and of keeping the linear memory where it relocates the
run. -/
theorem holds_act {o : Operation}
    (hcall : ∀ call, o = .memory call → L.Holds (onMemory call.act))
    (hfinalize : ∀ i size offsets, o = .finalize i size offsets →
      L.Holds (onSegments (modify (·.finalize i size offsets))))
    (hkeep : o = .relocate → ∀ memory,
      L.Holds (modify ({ · with linearMemory := memory }) : Action Run PUnit)) :
    L.Holds o.act := by
  cases o with
  | computeSizes => exact L.bind h.sizes fun _ => L.pure _
  | endRun => exact h.holds_endRun
  | relocate => exact holds_relocate h.machine h.change h.sizes (hkeep rfl)
  | runFunction entrypoint args secure budget =>
    exact h.holds_runFunction entrypoint args secure budget
  | runLabel name args secure budget =>
    exact L.bind L.get fun _ => L.bind (L.lift _) fun _ => h.holds_runFunction _ args secure budget
  -- The others compute no sizes.
  | _ => exact h.toOperationParts.holds_act id hcall hfinalize

end SizingParts

end Run

end Cairo
