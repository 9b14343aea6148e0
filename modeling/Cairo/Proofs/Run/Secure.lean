import Cairo.Proofs.Builtin.Verification
import Cairo.Proofs.Run.Builtins

/-!
# Secure runs have honest builtins

Reading the return values of a run needs it to have ended, and leaves every builtin with a stop
pointer (`readReturnValues_ok`).  Verifying the run then makes all three checks on each of its
builtins (`verifySecure_ok`).  As the builtins of a run are sound whatever was done to it, values
that they remember cannot make a check pass, and the builtins of a run that passes are honest
(`isHonest_of_verifySecure`).
-/

namespace Cairo

/-! ## Stop pointers -/

/-- Reading its stop pointer leaves a builtin with one. -/
theorem Builtin.finalStack_ok {s : Segments} {pointer next : Option Address} {b b' : Builtin}
    (h : finalStack s pointer b = .ok next b') : ∃ stop, b'.stopOffset = some stop := by
  have hset : ∀ {n : Nat} {p : Option Address} {b : Builtin},
      (do modify fun b => { b with stopOffset := some n }; return p : Action Builtin _) b =
        .ok next b' → ∃ stop, b'.stopOffset = some stop := by
    intro n p b h
    obtain ⟨_, _, hmodify, h⟩ := Action.bind_eq_ok.mp h
    obtain rfl := Action.modify_eq_ok.mp hmodify
    obtain ⟨-, rfl⟩ := Action.pure_eq_ok.mp h
    exact ⟨n, rfl⟩
  obtain ⟨_, _, hget, h⟩ := Action.bind_eq_ok.mp h
  obtain ⟨rfl, rfl⟩ := Action.get_eq_ok.mp hget
  split at h
  · obtain ⟨p, _, -, h⟩ := Action.bind_eq_ok.mp h
    obtain ⟨cell, _, -, h⟩ := Action.bind_eq_ok.mp h
    obtain ⟨stop, _, -, h⟩ := Action.bind_eq_ok.mp h
    obtain ⟨used, _, -, h⟩ := Action.bind_eq_ok.mp h
    obtain ⟨i, _, -, h⟩ := Action.bind_eq_ok.mp h
    obtain ⟨expected, _, -, h⟩ := Action.bind_eq_ok.mp h
    dsimp only at h
    split at h
    · obtain ⟨_, _, hthrow, -⟩ := Action.bind_eq_ok.mp h
      cases hthrow
    · exact hset h
  · exact hset h

namespace Run

variable {r t : Run}

/-- Reading the stop pointers of some builtins leaves each of them with one. -/
theorem readStops_ok {s : Segments} {pointer last : Option Address} {bs bs' : List Builtin}
    (h : readStops s pointer bs = .ok last bs') : ∀ b ∈ bs', ∃ stop, b.stopOffset = some stop := by
  induction bs generalizing pointer bs' with
  | nil =>
    cases h
    exact nofun
  | cons b rest ih =>
    unfold readStops at h
    cases hfirst : Builtin.finalStack s pointer b with
    | error e b' =>
      rw [hfirst] at h
      cases h
    | ok next b' =>
      rw [hfirst] at h
      dsimp only at h
      cases hrest : readStops s next rest with
      | error e rest' =>
        rw [hrest] at h
        cases h
      | ok last' rest' =>
        rw [hrest] at h
        cases h
        exact List.forall_mem_cons.mpr ⟨Builtin.finalStack_ok hfirst, ih hrest⟩

/-- Reading the return values leaves every builtin with a stop pointer. -/
theorem readReturnValues_ok {pointer : Option Address} (h : readReturnValues r = .ok pointer t) :
    ∀ b ∈ t.machine.builtins, ∃ stop, b.stopOffset = some stop := by
  obtain ⟨_, _, hget, h⟩ := Action.bind_eq_ok.mp h
  obtain ⟨rfl, rfl⟩ := Action.get_eq_ok.mp hget
  dsimp only at h
  split at h
  · cases h
  · unfold onBuiltins onMachine at h
    obtain ⟨_, hmachine, rfl⟩ := Action.within_eq_ok.mp h
    obtain ⟨_, hbuiltins, rfl⟩ := Action.within_eq_ok.mp hmachine
    obtain ⟨bs, hstops, rfl⟩ := Action.within_eq_ok.mp hbuiltins
    exact fun b hb => readStops_ok hstops b (List.mem_reverse.mp hb)

/-! ## Verification -/

/-- Using the memory of a run leaves its builtins alone. -/
theorem builtins_afterOperations_memory (r : Run) (calls : List Memory.Call) :
    (r.afterOperations (calls.map .memory)).machine.builtins = r.machine.builtins := by
  induction calls generalizing r with
  | nil => rfl
  | cons c rest ih =>
    refine (ih ((Operation.memory c).act.after r)).trans ?_
    show ((onMemory c.act).after r).machine.builtins = _
    unfold onMemory onMachine Machine.onMemory Machine.onSegments
    rw [Action.after_within, Action.after_within]

/-- A run is verified when its builtins pass all checks; its memory stays as it is. -/
theorem verifySecure_ok (h : verifySecure r = .ok () t) :
    t.memory = r.memory ∧
      (∀ b ∈ r.machine.builtins,
        checkStop b r.memory = .ok () ∧ b.securityChecks r.memory = .ok ()) ∧
      List.Forall₂ (fun b b' => Builtin.verify r.memory b = .ok () b') r.machine.builtins
        t.machine.builtins := by
  obtain ⟨_, _, hget, h⟩ := Action.bind_eq_ok.mp h
  obtain ⟨rfl, rfl⟩ := Action.get_eq_ok.mp hget
  obtain ⟨_, u, hchecks, hverify⟩ := Action.bind_eq_ok.mp h
  obtain ⟨rfl, hchecked⟩ := Action.forM_ok (fun u => r = u)
    (fun b => checkStop b r.memory = .ok () ∧ b.securityChecks r.memory = .ok ()) hchecks rfl (by
    rintro b - _ u rfl hround
    obtain ⟨_, _, hlift, hround⟩ := Action.bind_eq_ok.mp hround
    obtain ⟨hstop, rfl⟩ := Action.lift_eq_ok.mp hlift
    obtain ⟨hinputs, rfl⟩ := Action.lift_eq_ok.mp hround
    exact ⟨rfl, hstop, hinputs⟩)
  obtain ⟨_, hmachine, rfl⟩ := Action.within_eq_ok.mp hverify
  obtain ⟨_, _, hget, hbuiltins⟩ := Action.bind_eq_ok.mp hmachine
  obtain ⟨rfl, rfl⟩ := Action.get_eq_ok.mp hget
  obtain ⟨bs, hall, rfl⟩ := Action.within_eq_ok.mp hbuiltins
  exact ⟨rfl, hchecked, Builtin.onEach_ok hall⟩

/-- Verifying a sound run whose builtins all have stop pointers makes sure that they are honest. -/
theorem forall_isHonest_of_verifySecure (hsound : r.machine.IsSound)
    (hstops : ∀ b ∈ r.machine.builtins, ∃ stop, b.stopOffset = some stop)
    (h : verifySecure r = .ok () t) : ∀ b ∈ t.machine.builtins, b.IsHonest t.memory := by
  obtain ⟨hmemory, hchecked, hverified⟩ := verifySecure_ok h
  rw [hmemory]
  refine Builtin.forall_mem_of_forall₂ (P := fun b => b ∈ r.machine.builtins) hverified
    (fun b b' hverify hb => ?_) fun _ => id
  obtain ⟨hstop, hinputs⟩ := hchecked b hb
  obtain ⟨⟨cache, rfl⟩, hsegment, hcells⟩ := Builtin.verify_ok (hsound b hb) hverify
  exact (Builtin.isHonest_of_checks (hstops b hb) hstop hinputs hsegment hcells).cache cache

/-- Whatever was done to a run, if its return values can be read, which needs it to have ended, and
it then passes verification, perhaps after more cells were written, no builtin of it has a forged
instance: where a cell of an instance is written, all its inputs are, its outputs are the ones for
these inputs, and no cell of an included builtin is written at or behind the stop pointer. -/
theorem isHonest_of_verifySecure {program : Program} {layout : Layout} {tracing recording : Bool}
    {operations : List Operation} {calls : List Memory.Call} {pointer : Option Address}
    (hread : readReturnValues
      ((new program layout tracing recording).afterOperations operations) = .ok pointer r)
    (hsecure : verifySecure (r.afterOperations (calls.map .memory)) = .ok () t) :
    ∀ b ∈ t.machine.builtins, b.IsHonest t.memory := by
  have hsound : r.machine.IsSound := staysSound_readReturnValues.of_ok hread
    (isSound_of_operations program layout tracing recording operations)
  have hstops := readReturnValues_ok hread
  rw [← builtins_afterOperations_memory r calls] at hstops
  exact forall_isHonest_of_verifySecure (staysSound_afterOperations r _ hsound) hstops hsecure

/-- A program that writes the numbers twelve and ten to the inputs of a bitwise instance, reads
their conjunction, and returns the stop pointer behind the instance. -/
def masking : Program where
  data := [.felt 0x480680017fff8000, .felt 12, .felt 0x400280007ffd7fff,
    .felt 0x480680017fff8000, .felt 10, .felt 0x400280017ffd7fff, .felt 0x480280027ffd8000,
    .felt 0x482680017ffd8000, .felt 5, .felt 0x208b7fff7fff7ffe]
  builtins := ["bitwise"]
  main := some 0
  hints := []
  constants := ∅
  labels := ∅

/-- The run of the program that reads a conjunction is verified, also after the disjunction was
written to its place, and its bitwise builtin is honest. -/
theorem isHonest_of_verifySecure_masking :
    ∃ (pointer : Option Address) (r t : Run) (b : Builtin),
      readReturnValues ((new masking ⟨"masking", [(.bitwise, some 16)]⟩ true false).afterOperations
        [.initializeAll, .advance (.toAddress (some (.base 4)) ⟨some 10⟩), .endRun]) =
          .ok pointer r ∧
        verifySecure (r.afterOperations
          (([.insert ⟨2, 4, by decide⟩ (.value (.felt 14))] : List Memory.Call).map .memory)) =
            .ok () t ∧
          t.machine.builtins = [b] ∧ t.memory.get? ⟨2, 2, by decide⟩ = some (.felt 8) ∧
            t.memory.get? ⟨2, 4, by decide⟩ = some (.felt 14) ∧ b.IsHonest t.memory := by
  obtain ⟨pointer, r, t, hread, hsecure, hcount, hand, hor⟩ :
      ∃ (pointer : Option Address) (r t : Run),
        readReturnValues ((new masking ⟨"masking", [(.bitwise, some 16)]⟩ true
          false).afterOperations [.initializeAll,
            .advance (.toAddress (some (.base 4)) ⟨some 10⟩), .endRun]) = .ok pointer r ∧
          verifySecure (r.afterOperations
            (([.insert ⟨2, 4, by decide⟩ (.value (.felt 14))] : List Memory.Call).map .memory)) =
              .ok () t ∧
            t.machine.builtins.length = 1 ∧ t.memory.get? ⟨2, 2, by decide⟩ = some (.felt 8) ∧
              t.memory.get? ⟨2, 4, by decide⟩ = some (.felt 14) := by
    obtain ⟨pointer, hread⟩ : ∃ pointer, readReturnValues ((new masking
        ⟨"masking", [(.bitwise, some 16)]⟩ true false).afterOperations [.initializeAll,
          .advance (.toAddress (some (.base 4)) ⟨some 10⟩), .endRun]) = .ok pointer _ :=
      Action.exists_eq_ok_of_isOk (by decide +kernel)
    exact ⟨pointer, _, _, hread, Action.eq_ok_of_isOk (by decide +kernel), by decide +kernel,
      by decide +kernel, by decide +kernel⟩
  obtain ⟨b, hb⟩ := List.length_eq_one_iff.mp hcount
  have hhonest := isHonest_of_verifySecure hread hsecure b (hb ▸ List.mem_singleton_self b)
  exact ⟨pointer, r, t, b, hread, hsecure, hb, hand, hor, hhonest⟩

end Run

end Cairo
