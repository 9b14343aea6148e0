import Cairo.Proofs.Machine.Loops
import Cairo.Run.Execution

/-!
# Budgets of runs

A run until an address is the loop that makes a step and consumes it until the address is reached or
the budget is consumed (`runUntil_loop`).  Budgets add up: a run that fails because its budget is
consumed can be taken up with another budget, and is then the run with both of them.  The loop that
counts its steps beforehand reaches the same state in as many steps, and stops there.
-/

namespace Cairo.Run

variable {α : Type} {r : Run} {m : Machine} {e : Fault}

/-- The run with another machine. -/
def withMachine (r : Run) (m : Machine) : Run := { r with machine := m }

/-- The machine with the report that an address is reached. -/
def reached (m : Machine) : Machine :=
  (Machine.report (.reached m.registers.pc m.stepCount)).after m

/-- An action that succeeds on the machine of a run succeeds on the run. -/
theorem onMachine_of_ok {x : Action Machine α} {a : α} (h : x r.machine = .ok a m) :
    onMachine x r = .ok a (r.withMachine m) :=
  Action.within_eq_ok.mpr ⟨m, h, rfl⟩

/-- An action that fails on the machine of a run fails on the run. -/
theorem onMachine_of_error {x : Action Machine α} (h : x r.machine = .error e m) :
    onMachine x r = .error e (r.withMachine m) :=
  Action.within_eq_error.mpr ⟨m, h, rfl⟩

/-- A run until an address that succeeds on the machine succeeds with a report. -/
theorem runUntil_of_ok {target : Option Address} {b : Budget} {left : Nat}
    (h : Machine.runUntil target b.allowance r.machine = .ok left m) :
    runUntil target b r = .ok (b.remaining left) (r.withMachine (reached m)) := by
  unfold runUntil
  rw [Action.bind_of_ok (onMachine_of_ok h)]
  rfl

/-- A run until an address that fails on the machine fails. -/
theorem runUntil_of_error {target : Option Address} {b : Budget}
    (h : Machine.runUntil target b.allowance r.machine = .error e m) :
    runUntil target b r = .error e (r.withMachine m) := by
  unfold runUntil
  rw [Action.bind_of_error (onMachine_of_error h)]

/-- A run until an address is a loop: it returns at the address, fails if no step is left elsewhere,
and otherwise makes a step, consumes it and goes on. -/
theorem runUntil_loop (A : Address) (n : Int) (r : Run) :
    runUntil (some A) ⟨some n⟩ r =
      if r.machine.registers.pc = A then .ok ⟨some n⟩ (r.withMachine (reached r.machine))
      else if Budget.isConsumed ⟨some n⟩ then
        .error (.endNotReached r.machine.registers.pc (some A)) r
      else (onMachine Machine.step >>= fun _ =>
        runUntil (some A) (Budget.consumeStep ⟨some n⟩)) r := by
  have hremaining : ∀ (k : Int) (left : Nat),
      Budget.remaining ⟨some k⟩ left = ⟨some (k - k.toNat + left)⟩ := fun _ _ => rfl
  split
  next hpc =>
    rw [runUntil_of_ok (Machine.runUntil_of_pc_eq hpc _), hremaining]
    congr 3
    show n - n.toNat + n.toNat = n
    omega
  next hpc =>
    split
    next hconsumed =>
      have hn : n ≤ 0 := of_decide_eq_true hconsumed
      refine runUntil_of_error ?_
      show Machine.runUntil (some A) n.toNat r.machine = _
      rw [Int.toNat_of_nonpos hn]
      exact Machine.runUntil_zero_of_pc_ne hpc
    next hconsumed =>
      have hn : 0 < n := Int.not_le.mp fun hle => hconsumed (decide_eq_true hle)
      have hround : Machine.runUntil (some A) n.toNat r.machine =
          (Machine.step >>= fun _ => Machine.runUntil (some A) (n - 1).toNat) r.machine := by
        rw [← Machine.runUntil_succ_of_pc_ne _ _ hpc]
        congr 1
        omega
      cases hstep : Machine.step r.machine with
      | error e m =>
        rw [Action.bind_of_error hstep] at hround
        rw [runUntil_of_error hround, Action.bind_of_error (onMachine_of_error hstep)]
      | ok _ m =>
        rw [Action.bind_of_ok hstep] at hround
        rw [Action.bind_of_ok (onMachine_of_ok hstep)]
        cases hrest : Machine.runUntil (some A) (n - 1).toNat m with
        | error e m' =>
          rw [runUntil_of_error (hround.trans hrest)]
          exact (runUntil_of_error (r := r.withMachine m) hrest).symm
        | ok left m' =>
          have hbudget : Budget.remaining ⟨some n⟩ left = Budget.remaining ⟨some (n - 1)⟩ left := by
            rw [hremaining, hremaining]
            congr 2
            omega
          rw [runUntil_of_ok (hround.trans hrest), hbudget]
          exact (runUntil_of_ok (r := r.withMachine m) hrest).symm

/-- A run for a number of steps that succeeds on the machine succeeds. -/
theorem runFor_of_ok {steps : Int}
    (h : Machine.runFor r.finalPc steps.toNat r.machine = .ok () m) :
    runFor steps r = .ok () (r.withMachine m) := onMachine_of_ok h

/-- A run for a number of steps that fails on the machine fails. -/
theorem runFor_of_error {steps : Int}
    (h : Machine.runFor r.finalPc steps.toNat r.machine = .error e m) :
    runFor steps r = .error e (r.withMachine m) := onMachine_of_error h

/-- A run until an address ends, but for its record of events, in the state after some of the steps
that the budget allows. -/
theorem exists_after_steps_runUntil (A : Address) (n : Nat) (r : Run) :
    ∃ k ≤ n, ∃ events, (runUntil (some A) ⟨some n⟩).after r =
      r.withMachine { (Machine.steps k).after r.machine with events := events } := by
  obtain ⟨k, hk, hafter⟩ := Machine.exists_after_steps_runUntil A n r.machine
  refine ⟨k, hk, ?_⟩
  rw [← hafter]
  unfold Action.after
  cases hrun : Machine.runUntil (some A) n r.machine with
  | ok left m =>
    rw [runUntil_of_ok hrun]
    exact ⟨_, rfl⟩
  | error e m =>
    rw [runUntil_of_error hrun]
    exact ⟨_, rfl⟩

/-- A run until an address returns only when it reaches it within the budget. -/
theorem exists_reaches_of_runUntil {A : Address} {n : Nat} {b : Budget} {t : Run}
    (h : runUntil (some A) ⟨some n⟩ r = .ok b t) :
    ∃ k ≤ n, ∃ m, Machine.Reaches A k r.machine m := by
  cases hrun : Machine.runUntil (some A) n r.machine with
  | ok left m =>
    obtain ⟨k, hk, hreaches, -⟩ := Machine.runUntil_eq_ok.mp hrun
    exact ⟨k, hk, m, hreaches⟩
  | error e m => cases (runUntil_of_error hrun).symm.trans h

/-- A run that fails since its budget is consumed is taken up with another budget as if it had
started with both. -/
theorem runUntil_add_of_endNotReached {A : Address} {n : Nat} {pc : Address}
    {target : Option Address} {t : Run}
    (h : runUntil (some A) ⟨some n⟩ r = .error (.endNotReached pc target) t) (k : Nat) :
    runUntil (some A) ⟨some k⟩ t = runUntil (some A) ⟨some (n + k : Nat)⟩ r := by
  cases hrun : Machine.runUntil (some A) n r.machine with
  | ok left m => cases (runUntil_of_ok hrun).symm.trans h
  | error e m =>
    obtain ⟨rfl, rfl⟩ := EStateM.Result.error.inj ((runUntil_of_error hrun).symm.trans h)
    obtain ⟨hadvances, -⟩ := Machine.advances_of_endNotReached hrun
    have hloop := hadvances.runUntil_add k
    cases hrest : Machine.runUntil (some A) k m with
    | ok left m' =>
      have hremaining : Budget.remaining ⟨some k⟩ left =
          Budget.remaining ⟨some (n + k : Nat)⟩ left := by
        show (⟨some ((k : Int) - k + left)⟩ : Budget) =
          ⟨some ((n + k : Nat) - (n + k : Nat) + left)⟩
        congr 2
        omega
      have htogether := runUntil_of_ok (b := ⟨some (n + k : Nat)⟩) (hloop.trans hrest)
      rw [htogether, ← hremaining]
      exact runUntil_of_ok (r := r.withMachine m) hrest
    | error e' m' =>
      have htogether := runUntil_of_error (b := ⟨some (n + k : Nat)⟩) (hloop.trans hrest)
      rw [htogether]
      exact runUntil_of_error (r := r.withMachine m) hrest

/-- The steps of a run until an address are bounded by its budget, and it returns exactly when the
address is reached after some first number of steps without a fault, leaving the others in the
budget; if the address is the end of the program, a run for this number of steps reaches the same
state, and a run for more steps stops in it with the number of steps that are left.  A run that
fails since its budget is consumed is taken up with another budget as if it had started with
both. -/
theorem budgets_add_and_loops_agree (r : Run) (A : Address) (n m : Nat) :
    (∃ k ≤ n, ∃ events, (runUntil (some A) ⟨some n⟩).after r =
      r.withMachine { (Machine.steps k).after r.machine with events := events }) ∧
    ((∃ b t, runUntil (some A) ⟨some n⟩ r = .ok b t) ↔
      ∃ k ≤ n, ∃ u, Machine.Reaches A k r.machine u) ∧
    (∀ k ≤ n, ∀ u, Machine.Reaches A k r.machine u →
      runUntil (some A) ⟨some n⟩ r = .ok ⟨some (n - k : Nat)⟩ (r.withMachine (reached u)) ∧
      (r.finalPc = some A → runFor k r = .ok () (r.withMachine u) ∧
        ∀ j > 0, runFor (k + j : Nat) r = .error (.endOfProgram j) (r.withMachine u))) ∧
    ∀ pc target t, runUntil (some A) ⟨some n⟩ r = .error (.endNotReached pc target) t →
      runUntil (some A) ⟨some m⟩ t = runUntil (some A) ⟨some (n + m : Nat)⟩ r := by
  have hreached : ∀ k ≤ n, ∀ u, Machine.Reaches A k r.machine u →
      runUntil (some A) ⟨some n⟩ r = .ok ⟨some (n - k : Nat)⟩ (r.withMachine (reached u)) := by
    intro k hk u hu
    rw [runUntil_of_ok (b := ⟨some n⟩) (hu.runUntil hk)]
    show EStateM.Result.ok (⟨some ((n : Int) - n + (n - k : Nat))⟩ : Budget) _ = _
    congr 3
    omega
  refine ⟨exists_after_steps_runUntil A n r, ⟨?_, ?_⟩, fun k hk u hu => ⟨hreached k hk u hu, ?_⟩,
    fun pc target t h => runUntil_add_of_endNotReached h m⟩
  · rintro ⟨b, t, h⟩
    exact exists_reaches_of_runUntil h
  · rintro ⟨k, hk, u, hu⟩
    exact ⟨_, _, hreached k hk u hu⟩
  · intro hfinal
    obtain ⟨hruns, hstops⟩ := hu.runFor
    rw [← hfinal] at hruns hstops
    exact ⟨runFor_of_ok hruns, fun j hj => runFor_of_error (hstops j hj)⟩

/-- A program that pushes the number five and returns. -/
def pushing : Program where
  data := [.felt Machine.pushImmediateWord, .felt 5, .felt 0x208b7fff7fff7ffe]
  builtins := []
  main := some 0
  hints := []
  constants := ∅
  labels := ∅

/-- The run of the program that pushes a number takes two steps: a budget of one does not suffice,
with three more two are left, and a third step is not made. -/
theorem budgets_add_and_loops_agree_pushing :
    ∃ (r : Run) (m v : Machine) (pc : Address),
      initializeAll (new pushing ⟨"pushing", []⟩ true false) = .ok (.base 3) r ∧
      runUntil (some (.base 3)) ⟨some (1 : Nat)⟩ r =
        .error (.endNotReached pc (some (.base 3))) (r.withMachine m) ∧
      runUntil (some (.base 3)) ⟨some (3 : Nat)⟩ (r.withMachine m) =
        .ok ⟨some (2 : Nat)⟩ (r.withMachine (reached v)) ∧
      runFor (2 : Nat) r = .ok () (r.withMachine v) ∧
      runFor (3 : Nat) r = .error (.endOfProgram (1 : Nat)) (r.withMachine v) := by
  obtain ⟨r, m, v, hr, hfinal, hstart, hm, hpcm, hv, hpcv⟩ : ∃ (r : Run) (m v : Machine),
      initializeAll (new pushing ⟨"pushing", []⟩ true false) = .ok (.base 3) r ∧
        r.finalPc = some (.base 3) ∧ r.machine.registers.pc ≠ .base 3 ∧
          Machine.steps 1 r.machine = .ok () m ∧ m.registers.pc ≠ .base 3 ∧
            Machine.steps 2 r.machine = .ok () v ∧ v.registers.pc = .base 3 :=
    ⟨_, _, _, Action.eq_ok_of_toOption (by decide +kernel), by decide +kernel, by decide +kernel,
      Action.eq_ok_of_isOk (by decide +kernel), by decide +kernel,
      Action.eq_ok_of_isOk (by decide +kernel), by decide +kernel⟩
  have hshort : Machine.Advances (.base 3) 1 r.machine m := by
    refine ⟨hm, fun j hj u hu => ?_⟩
    obtain rfl : j = 0 := by omega
    obtain ⟨-, rfl⟩ := Action.pure_eq_ok.mp hu
    exact hstart
  have hreaches : Machine.Reaches (.base 3) 2 r.machine v := by
    refine ⟨⟨hv, fun j hj u hu => ?_⟩, hpcv⟩
    rcases Nat.lt_succ_iff_lt_or_eq.mp hj with hlt | rfl
    · exact hshort.before j hlt u hu
    · obtain ⟨-, rfl⟩ := EStateM.Result.ok.inj (hm.symm.trans hu)
      exact hpcm
  have hfails : runUntil (some (.base 3)) ⟨some (1 : Nat)⟩ r =
      .error (.endNotReached m.registers.pc (some (.base 3))) (r.withMachine m) :=
    runUntil_of_error (hshort.runUntil_of_consumed hpcm)
  obtain ⟨-, -, -, htogether⟩ := budgets_add_and_loops_agree r (.base 3) 1 3
  obtain ⟨-, -, hreturns, -⟩ := budgets_add_and_loops_agree r (.base 3) 4 0
  obtain ⟨hruns, hloop⟩ := hreturns 2 (by decide) v hreaches
  obtain ⟨hfor, hstops⟩ := hloop hfinal
  exact ⟨r, m, v, _, hr, hfails, (htogether _ _ _ hfails).trans hruns, hfor, hstops 1 (by decide)⟩

end Cairo.Run
