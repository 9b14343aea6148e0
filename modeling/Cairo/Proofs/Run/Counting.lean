import Cairo.Proofs.Machine.Trace
import Cairo.Proofs.Run.Advance
import Cairo.Proofs.Run.Budget

/-!
# Running up to a number of steps

A run up to a number of steps makes the steps that are missing.  A step that only passes over an
instruction is not counted, so the count falls short by the number of these (`passedOver`); where no
hint asks for an instruction to be passed over, the number is reached.  The number of steps that is
aimed at may be the least power of two that the count has not passed (`isLeast_nextPowerOfTwo`).
-/

namespace Cairo

namespace Machine

variable {s t : Machine}

/-- The step from the machine only passes over an instruction, unless it fails. -/
def passesOver (s : Machine) : Bool := (stepHint.after s).skipNext

/-- How many of a number of steps only pass over an instruction. -/
def passedOver : Nat → Machine → Nat
  | 0, _ => 0
  | n + 1, s => (if s.passesOver then 1 else 0) + passedOver n (step.after s)

/-- A step is counted unless it only passes over an instruction. -/
theorem stepCount_of_step (h : step s = .ok () t) :
    t.stepCount + (if s.passesOver then 1 else 0) = s.stepCount + 1 := by
  obtain ⟨_, u, hhints, h⟩ := Action.bind_eq_ok.mp h
  have hcount : u.stepCount = s.stepCount := (stands_stepHint.of_ok hhints).stepCount
  unfold passesOver
  rw [Action.after_of_ok hhints, ← hcount]
  cases hskip : u.skipNext with
  | true =>
    cases hi : u.currentInstruction with
    | error e => cases (stepInstruction_of_error hi).symm.trans h
    | ok i =>
      have hrest := (stepInstruction_of_skipNext hi hskip).symm.trans h
      rw [((sameRecord_skip i).of_ok hrest).stepCount]
      rfl
  | false =>
    obtain ⟨i, v, hi, hrun, rfl⟩ := (stepInstruction_eq_ok hskip).mp h
    obtain ⟨o, a, w, r, hoperands, -, -, rfl⟩ := runInstruction_eq_ok.mp hrun
    have hstands : (u.announced i).Stands w := (stands_computeOperands i).of_ok hoperands
    show w.stepCount + 1 + 0 = u.stepCount + 1
    rw [hstands.stepCount, Int.add_zero]
    rfl

/-- A number of steps is counted, apart from those that only pass over an instruction. -/
theorem stepCount_of_steps {n : Nat} (h : steps n s = .ok () t) :
    t.stepCount + passedOver n s = s.stepCount + n := by
  induction n generalizing s with
  | zero =>
    obtain ⟨-, rfl⟩ := Action.pure_eq_ok.mp h
    rfl
  | succ n ih =>
    obtain ⟨_, u, hstep, hrest⟩ := Action.bind_eq_ok.mp h
    have hfirst := stepCount_of_step hstep
    have hothers := ih hrest
    unfold passedOver
    rw [Action.after_of_ok hstep]
    push_cast
    omega

/-- Nothing is passed over if no hint asks for that. -/
theorem passedOver_eq_zero {n : Nat} (hs : s.SkipsNothing) (hskip : s.skipNext = false)
    (h : steps n s = .ok () t) : passedOver n s = 0 := by
  induction n generalizing s with
  | zero => rfl
  | succ n ih =>
    obtain ⟨_, u, hstep, hrest⟩ := Action.bind_eq_ok.mp h
    obtain ⟨-, -, -, hframe, -⟩ := steps_ok hs hskip (steps_one_eq_ok.mpr hstep)
    have hpasses : s.passesOver = false := (resumes_stepHint hs).skipNext.trans hskip
    unfold passedOver
    rw [hpasses, Action.after_of_ok hstep,
      ih (hs.of_hints_eq hframe.hints) (hframe.skipNext.trans hskip) hrest]
    rfl

end Machine

/-! ## Powers of two -/

/-- The next power of two is the least one that is not less than the number. -/
theorem isLeast_nextPowerOfTwo (n : Int) :
    IsLeast {m : Nat | (∃ k, m = 2 ^ k) ∧ n ≤ m} (nextPowerOfTwo n) := by
  unfold nextPowerOfTwo
  split
  next hn =>
    refine ⟨⟨⟨0, rfl⟩, hn⟩, ?_⟩
    rintro _ ⟨⟨k, rfl⟩, -⟩
    exact Nat.one_le_two_pow
  next hn =>
    obtain ⟨m, hm⟩ : ∃ m : Nat, n = m + 1 := ⟨(n - 1).toNat, by omega⟩
    obtain rfl : m = (n - 1).toNat := by omega
    refine ⟨⟨⟨_, rfl⟩, ?_⟩, ?_⟩
    · have hlt : (n - 1).toNat < 2 ^ ((n - 1).toNat.log2 + 1) := Nat.lt_log2_self
      rw [Nat.pow_eq]
      omega
    · rintro _ ⟨⟨k, rfl⟩, hk⟩
      have hlt : (n - 1).toNat < 2 ^ k := by omega
      exact Nat.pow_le_pow_right (by decide) ((Nat.log2_lt (by omega)).mpr hlt)

namespace Run

variable {r t : Run} {n : Int}

/-- A run up to a number of steps makes those that are missing. -/
theorem steps_of_runUntilSteps (h : runUntilSteps n r = .ok () t) :
    ∃ m, Machine.steps (n - r.machine.stepCount).toNat r.machine = .ok () m ∧
      t = { r with machine := m } := by
  obtain ⟨_, _, hget, h⟩ := Action.bind_eq_ok.mp h
  obtain ⟨rfl, rfl⟩ := Action.get_eq_ok.mp hget
  obtain ⟨_, _, hget, h⟩ := Action.bind_eq_ok.mp h
  obtain ⟨rfl, rfl⟩ := Action.get_eq_ok.mp hget
  obtain ⟨m, hrun, rfl⟩ := Action.within_eq_ok.mp h
  exact ⟨m, Machine.steps_of_runFor hrun, rfl⟩

/-- A run up to a number of steps makes no step if it was reached before. -/
theorem eq_of_runUntilSteps (hn : n ≤ r.machine.stepCount) (h : runUntilSteps n r = .ok () t) :
    t = r := by
  obtain ⟨m, hsteps, rfl⟩ := steps_of_runUntilSteps h
  rw [Int.toNat_of_nonpos (by omega)] at hsteps
  obtain ⟨-, rfl⟩ := Action.pure_eq_ok.mp hsteps
  rfl

/-- How many of the steps that are missing to a number only pass over an instruction. -/
def passedUpTo (r : Run) (n : Int) : Nat :=
  Machine.passedOver (n - r.machine.stepCount).toNat r.machine

/-- A run up to a number of steps that were not made yet falls short by the steps that only pass
over an instruction. -/
theorem stepCount_of_runUntilSteps (hn : r.machine.stepCount ≤ n)
    (h : runUntilSteps n r = .ok () t) : t.machine.stepCount = n - r.passedUpTo n := by
  obtain ⟨m, hsteps, rfl⟩ := steps_of_runUntilSteps h
  have hcount := Machine.stepCount_of_steps hsteps
  unfold passedUpTo
  show m.stepCount = _
  omega

/-- A run passes over no instruction if no hint asks for that. -/
theorem passedUpTo_eq_zero (hr : r.PassesNothing) (h : runUntilSteps n r = .ok () t) :
    r.passedUpTo n = 0 := by
  obtain ⟨m, hsteps, -⟩ := steps_of_runUntilSteps h
  exact Machine.passedOver_eq_zero hr.skipsNothing hr.skipNext hsteps

/-- A run up to a number of steps that returns has counted that many, but for the steps that only
passed over an instruction, and all of them if no hint asks for that.  The same holds of a run up to
the next power of two, which is the least one that the count had not passed, and which makes no step
if the count was a power of two. -/
theorem stepCount_of_runUntil (r t : Run) :
    (∀ n, r.machine.stepCount ≤ n → runUntilSteps n r = .ok () t →
      t.machine.stepCount = n - r.passedUpTo n ∧ (r.PassesNothing → t.machine.stepCount = n)) ∧
    (runUntilNextPowerOfTwo r = .ok () t → ∃ p : Nat,
      IsLeast {m : Nat | (∃ k, m = 2 ^ k) ∧ r.machine.stepCount ≤ m} p ∧
        t.machine.stepCount = p - r.passedUpTo p ∧ (r.PassesNothing → t.machine.stepCount = p) ∧
          (r.machine.stepCount = p → t = r)) := by
  have hreaches : ∀ n, r.machine.stepCount ≤ n → runUntilSteps n r = .ok () t →
      t.machine.stepCount = n - r.passedUpTo n ∧
        (r.PassesNothing → t.machine.stepCount = n) := by
    intro n hn h
    have hcount := stepCount_of_runUntilSteps hn h
    refine ⟨hcount, fun hr => ?_⟩
    rw [hcount, passedUpTo_eq_zero hr h]
    exact Int.sub_zero n
  refine ⟨hreaches, fun h => ?_⟩
  have hleast := isLeast_nextPowerOfTwo r.machine.stepCount
  obtain ⟨hcount, hall⟩ := hreaches _ hleast.1.2 h
  exact ⟨_, hleast, hcount, hall, fun hreached => eq_of_runUntilSteps hreached.ge h⟩

/-- The program that pushes a number and returns is run up to two steps, and is then at a power of
two. -/
theorem stepCount_of_runUntil_pushing :
    ∃ (final : Address) (r t : Run),
      initializeAll (new pushing ⟨"pushing", []⟩ true false) = .ok final r ∧ r.PassesNothing ∧
        r.machine.stepCount ≤ 2 ∧ runUntilSteps 2 r = .ok () t ∧ t.machine.stepCount = 2 ∧
          ∃ u, runUntilNextPowerOfTwo t = .ok () u ∧ u = t := by
  obtain ⟨final, r, t, u, hsetUp, hcount, hrun, hnext⟩ : ∃ (final : Address) (r t u : Run),
      initializeAll (new pushing ⟨"pushing", []⟩ true false) = .ok final r ∧
        r.machine.stepCount ≤ 2 ∧ runUntilSteps 2 r = .ok () t ∧
          runUntilNextPowerOfTwo t = .ok () u := by
    obtain ⟨final, hsetUp⟩ : ∃ final, initializeAll (new pushing ⟨"pushing", []⟩ true false) =
        .ok final _ := Action.exists_eq_ok_of_isOk (by decide +kernel)
    exact ⟨final, _, _, _, hsetUp, by decide +kernel, Action.eq_ok_of_isOk (by decide +kernel),
      Action.eq_ok_of_isOk (by decide +kernel)⟩
  have hnone : pushing.SkipsNothing := by
    unfold Program.SkipsNothing
    decide
  have hready := isReady_of_setUp hnone (show setUp .main _ = .ok final r from hsetUp)
  have hpasses : r.PassesNothing := ⟨hready.skipsNothing, hready.skipNext⟩
  obtain ⟨hreaches, -⟩ := stepCount_of_runUntil r t
  obtain ⟨-, htwo⟩ := hreaches 2 hcount hrun
  obtain ⟨-, hpower⟩ := stepCount_of_runUntil t u
  obtain ⟨p, ⟨⟨-, hle⟩, hleast⟩, -, -, hstays⟩ := hpower hnext
  have hp : p = 2 := by
    rw [htwo hpasses] at hle hleast
    exact Nat.le_antisymm (hleast ⟨⟨1, rfl⟩, le_refl _⟩) (Int.ofNat_le.mp hle)
  refine ⟨final, r, t, hsetUp, hpasses, hcount, hrun, htwo hpasses, u, hnext, hstays ?_⟩
  rw [htwo hpasses, hp]
  rfl

/-- A program that asks for its first instruction to be passed over. -/
def skipping : Program where
  data := [.felt Machine.pushImmediateWord, .felt 5, .felt Machine.pushImmediateWord, .felt 5,
    .felt 0x208b7fff7fff7ffe]
  builtins := []
  main := some 0
  hints := [(0, [⟨"skip_next_instruction", []⟩])]
  constants := ∅
  labels := ∅

/-- The program that asks for its first instruction to be passed over is run up to one step without
a step being counted. -/
theorem exists_runUntilSteps_falls_short :
    ∃ (final : Address) (r t : Run),
      initializeAll (new skipping ⟨"plain", []⟩ true false) = .ok final r ∧
        r.machine.stepCount ≤ 1 ∧ runUntilSteps 1 r = .ok () t ∧ t.machine.stepCount = 0 := by
  obtain ⟨final, hsetUp⟩ : ∃ final, initializeAll (new skipping ⟨"plain", []⟩ true false) =
      .ok final _ := Action.exists_eq_ok_of_isOk (by decide +kernel)
  exact ⟨final, _, _, hsetUp, by decide +kernel, Action.eq_ok_of_isOk (by decide +kernel),
    by decide +kernel⟩

end Run

end Cairo
