import Cairo.Proofs.Machine.Builtins
import Cairo.Proofs.Run.Operations

/-!
# Runs keep their builtins sound

Whatever operations were made on a run, in whatever order and whether they succeeded or failed, its
builtins are sound (`isSound_of_operations`): they start without remembered values, are only given
real segments, and nothing that happens to the machine makes it unsound.
-/

namespace Cairo

/-- The segment that a builtin is given is a real one. -/
theorem Builtin.allocate_ok {b b' : Builtin} {s t : Segments} (h : b.allocate s = .ok b' t) :
    ∃ i, 0 ≤ i ∧ b' = { b with segment := some i } := by
  obtain ⟨base, _, hadd, hb'⟩ := Action.bind_eq_ok.mp h
  obtain ⟨rfl, -⟩ := Action.pure_eq_ok.mp hb'
  obtain ⟨i, _, hmemory, hbase⟩ := Action.bind_eq_ok.mp hadd
  obtain ⟨rfl, -⟩ := Action.pure_eq_ok.mp hbase
  obtain ⟨_, hindex, -⟩ := Action.within_eq_ok.mp hmemory
  cases hindex
  exact ⟨_, Int.natCast_nonneg _, rfl⟩

namespace Run

variable {r t : Run} {α : Type}

/-- The machine of the second run is sound if that of the first one is. -/
def StaysSound (r t : Run) : Prop := r.machine.StaysSound t.machine

instance : IsPreorder Run StaysSound where
  refl _ := id
  trans _ _ _ h h' := h' ∘ h

/-- An action that only loads keeps a run sound. -/
theorem staysSound_of_loads {x : Action Run α} (hx : Action.Respects Loads x) :
    Action.Respects StaysSound x :=
  hx.mono fun _ _ h =>
    Machine.staysSound_of_keepsFelts h.machine.builtins h.machine.extends.keepsFelts

/-- An action that keeps the machine sound keeps the run sound. -/
theorem staysSound_onMachine {x : Action Machine α} (hx : Action.Respects Machine.StaysSound x) :
    Action.Respects StaysSound (onMachine x) :=
  .within hx fun _ _ h => h

/-- Whatever is done with the segments, a run stays sound if that keeps field elements. -/
theorem staysSound_onSegments {x : Action Segments α}
    (hx : Action.Respects (Segments.Through Memory.KeepsFelts) x) :
    Action.Respects StaysSound (onSegments x) :=
  staysSound_onMachine (Machine.staysSound_onSegments hx)

/-! ## Parts -/

/-- A sound builtin is sound with a segment that it is given. -/
theorem isSound_of_allocate {b b' : Builtin} {m : Memory} (hb : b.IsSound m)
    (h : onSegments b.allocate r = .ok b' t) : b'.IsSound m := by
  unfold onSegments onMachine at h
  obtain ⟨_, hmachine, -⟩ := Action.within_eq_ok.mp h
  obtain ⟨_, hallocate, -⟩ := Action.within_eq_ok.mp hmachine
  obtain ⟨i, hi, rfl⟩ := Builtin.allocate_ok hallocate
  refine hb.congr rfl rfl rfl ?_
  rintro _ ⟨⟩
  exact hi

/-- Giving the builtins segments keeps a run sound. -/
theorem staysSound_allocateBuiltins : Action.Respects StaysSound allocateBuiltins := by
  have hloads : ∀ bs : List Builtin,
      Action.Respects Loads (bs.mapM fun b => onSegments b.allocate) :=
    fun bs => .mapM fun b _ => loads_allocate b
  unfold allocateBuiltins
  refine .get_bind fun r => Action.Respects.rel_bind (staysSound_of_loads (hloads _) r)
    fun bs t h hr => ?_
  obtain ⟨-, hbs⟩ := Action.mapM_ok (fun _ : Run => True) (fun b => b.IsSound r.memory) h trivial
    fun b hb _ _ _ _ hround => ⟨trivial, isSound_of_allocate (hr b hb) hround⟩
  -- The builtins are sound over the memory in which they were found, to which segments were added.
  have hkeeps := ((hloads _).of_ok h).machine.extends.keepsFelts
  exact fun b hb => (hbs b hb).of_keepsFelts hkeeps

/-- Reading the stop pointers changes each builtin as reading its own does. -/
theorem forall₂_readStops {R : Builtin → Builtin → Prop} [IsPreorder Builtin R] {s : Segments}
    (hR : ∀ pointer, Action.Respects R (Builtin.finalStack s pointer)) (pointer : Option Address) :
    Action.Respects (List.Forall₂ R) (readStops s pointer) := by
  intro bs
  induction bs generalizing pointer with
  | nil => exact .nil
  | cons b rest ih =>
    have hb := hR pointer b
    unfold Action.after at ih hb ⊢
    unfold readStops
    cases hfirst : Builtin.finalStack s pointer b with
    | error e b' =>
      rw [hfirst] at hb
      exact .cons hb (List.forall₂_refl rest)
    | ok next b' =>
      rw [hfirst] at hb
      have hrest := ih next
      dsimp only
      cases hstops : readStops s next rest with
      | error e rest' =>
        rw [hstops] at hrest
        exact .cons hb hrest
      | ok last rest' =>
        rw [hstops] at hrest
        exact .cons hb hrest

/-- Reading the return values keeps a run sound. -/
theorem staysSound_readReturnValues : Action.Respects StaysSound readReturnValues := by
  unfold readReturnValues
  refine .get_bind fun r => ?_
  dsimp only
  split
  · exact Action.Respects.throw_bind _ _ r
  · intro hr
    unfold onBuiltins onMachine Machine.onBuiltins
    simp only [Action.after_within]
    refine hr.of_forall₂ (List.forall₂_reverse_iff.mp ?_)
    rw [List.reverse_reverse]
    exact forall₂_readStops (Builtin.staysSound_finalStack r.memory _) _ _

/-- The parts of the operations keep a run sound. -/
theorem sizingParts_staysSound : SizingParts (Action.Respects.law StaysSound) where
  toLoadingParts := loadingParts_loads.mono staysSound_of_loads
  machine _ hf := staysSound_onMachine (.modify fun m hm => by
    unfold Machine.IsSound Machine.memory
    rwa [(hf m).segments, (hf m).builtins])
  builtins _ hf r hr b hb := by
    rcases hf r.machine.builtins b hb with hold | ⟨hsegment, hcache⟩
    · exact hr b hold
    · exact Builtin.isSound_of_unused hsegment hcache _
  allocate := staysSound_allocateBuiltins
  rules := staysSound_of_loads loads_addRules
  validate := staysSound_of_loads loads_validateExisting
  step := staysSound_onMachine Machine.staysSound_step
  deduce a := staysSound_onMachine (Machine.staysSound_deduceCell a)
  verify := staysSound_onMachine Machine.staysSound_verifyBuiltins
  addRelocation src dst :=
    staysSound_of_loads (loads_onMemory (Memory.respects_addRelocation src dst))
  returns := staysSound_readReturnValues
  move := staysSound_onMachine Machine.staysSound_relocateTemporaries
  sizes := staysSound_onSegments Segments.through_computeSizes

/-! ## Operations -/

/-- An operation keeps a run sound, whether it succeeds or fails. -/
theorem staysSound_act (o : Operation) : Action.Respects StaysSound o.act :=
  sizingParts_staysSound.holds_act
    (fun call _ => staysSound_of_loads (loads_onMemory (Memory.respects_act call)))
    (fun i size offsets _ =>
      staysSound_onSegments (.modify fun s => s.through_finalize i size offsets))
    fun _ _ => .modify fun _ => id

/-- A list of operations keeps a run sound. -/
theorem staysSound_afterOperations (r : Run) (operations : List Operation) :
    r.StaysSound (r.afterOperations operations) :=
  respects_afterOperations (fun o _ => staysSound_act o) r

/-- Whatever is done to a new run, its builtins are sound. -/
theorem isSound_of_operations (program : Program) (layout : Layout) (tracing recording : Bool)
    (operations : List Operation) :
    ((new program layout tracing recording).afterOperations operations).machine.IsSound :=
  staysSound_afterOperations _ operations nofun

end Run

end Cairo
