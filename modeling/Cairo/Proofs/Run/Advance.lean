import Cairo.Proofs.Machine.Replay
import Cairo.Proofs.Run.Setup

/-!
# Advancing a run

Once it is set up, a run may be advanced step by step, to an address, by a number of steps, or to a
number of steps (`Advance`).  In whatever order this is done, the rows that are added to the trace
are a path over the memory at the end (`progresses_of_advance`).
-/

namespace Cairo.Run

/-- A way to advance a run. -/
inductive Advance
  | step
  | toAddress (target : Option Address) (budget : Budget)
  | bySteps (count : Int)
  | toSteps (count : Int)
  | toPowerOfTwo

/-- Advances a run. -/
def advance : Advance → Action Run Unit
  | .step => onMachine Machine.step
  | .toAddress target budget => do
    let _ ← runUntil target budget
  | .bySteps count => runFor count
  | .toSteps count => runUntilSteps count
  | .toPowerOfTwo => runUntilNextPowerOfTwo

/-- A law of steps and reports holds of every way to advance a run. -/
theorem holds_advance {L : Action.Law Run}
    (hmachine : ∀ f, Machine.KeepsContents f → L.Holds (onMachine (modify f)))
    (hstep : L.Holds (onMachine Machine.step)) (a : Advance) : L.Holds (advance a) := by
  cases a with
  | step => exact hstep
  | toAddress target budget =>
    exact L.bind (holds_runUntil hmachine hstep target budget) fun _ => L.pure _
  | bySteps count => exact holds_runFor hstep count
  | toSteps count => exact L.bind L.get fun _ => holds_runFor hstep _
  | toPowerOfTwo => exact L.bind L.get fun _ => L.bind L.get fun _ => holds_runFor hstep _

/-! ## Progress -/

/-- The second run is the first one after some steps, whose rows are a path over its memory. -/
structure Progresses (r t : Run) : Prop where
  frame : r.machine.Frame t.machine
  path : ∃ rows, r.machine.registers.Path t.memory rows t.machine.registers ∧
    t.machine.trace = r.machine.trace.map (· ++ rows.toArray)
  linearMemory : t.linearMemory = r.linearMemory

instance : IsPreorder Run Progresses where
  refl r := ⟨refl _, ⟨[], .done _, by simp⟩, rfl⟩
  trans r s t h h' := by
    obtain ⟨rows, hpath, htrace⟩ := h.path
    obtain ⟨rows', hpath', htrace'⟩ := h'.path
    refine ⟨IsTrans.trans _ _ _ h.frame h'.frame, ⟨rows ++ rows', ?_, ?_⟩,
      h'.linearMemory.trans h.linearMemory⟩
    · exact (hpath.mono h'.frame.extends).append hpath'
    · rw [htrace', htrace, Option.map_map]
      congr 1
      funext trace
      simp

/-- A run in which no hint asks for an instruction to be passed over, and none is. -/
structure PassesNothing (r : Run) : Prop where
  skipsNothing : r.machine.SkipsNothing
  skipNext : r.machine.skipNext = false

/-- Progress does not bring in hints that ask for an instruction to be passed over. -/
theorem PassesNothing.of_progresses {r t : Run} (h : r.PassesNothing) (ht : r.Progresses t) :
    t.PassesNothing :=
  ⟨h.skipsNothing.of_hints_eq ht.frame.hints, ht.frame.skipNext.trans h.skipNext⟩

variable {r t : Run}

/-- A number of steps is progress. -/
theorem progresses_of_steps {n : Nat} (hr : r.PassesNothing)
    (h : onMachine (Machine.steps n) r = .ok () t) : r.Progresses t := by
  obtain ⟨m, hsteps, rfl⟩ := Action.within_eq_ok.mp h
  obtain ⟨rows, -, hpath, hframe, htrace⟩ :=
    Machine.steps_ok hr.skipsNothing hr.skipNext hsteps
  exact ⟨hframe, ⟨rows, hpath, htrace⟩, rfl⟩

/-- A run for a number of steps is progress. -/
theorem progresses_of_runFor {count : Int} (hr : r.PassesNothing)
    (h : runFor count r = .ok () t) : r.Progresses t := by
  obtain ⟨_, _, hget, h⟩ := Action.bind_eq_ok.mp h
  obtain ⟨rfl, rfl⟩ := Action.get_eq_ok.mp hget
  obtain ⟨m, hrun, rfl⟩ := Action.within_eq_ok.mp h
  exact progresses_of_steps hr (Action.within_eq_ok.mpr ⟨m, Machine.steps_of_runFor hrun, rfl⟩)

/-- A run until an address is progress. -/
theorem progresses_of_runUntil {target : Option Address} {budget left : Budget}
    (hr : r.PassesNothing) (h : runUntil target budget r = .ok left t) : r.Progresses t := by
  obtain ⟨_, s, hmachine, h⟩ := Action.bind_eq_ok.mp h
  obtain ⟨m, hrun, rfl⟩ := Action.within_eq_ok.mp hmachine
  obtain ⟨n, hsteps⟩ := Machine.exists_steps_of_runUntil hrun
  have hprogress := progresses_of_steps hr (Action.within_eq_ok.mpr ⟨m, hsteps, rfl⟩)
  obtain ⟨_, _, hget, h⟩ := Action.bind_eq_ok.mp h
  obtain ⟨rfl, rfl⟩ := Action.get_eq_ok.mp hget
  obtain ⟨_, u, hreport, h⟩ := Action.bind_eq_ok.mp h
  obtain ⟨_, hmodify, rfl⟩ := Action.within_eq_ok.mp hreport
  obtain rfl := Action.modify_eq_ok.mp hmodify
  obtain ⟨-, rfl⟩ := Action.pure_eq_ok.mp h
  -- The report of the address is not seen by the steps.
  have hreported : ∀ {s : Run} {events}, r.Progresses s →
      r.Progresses { s with machine := { s.machine with events := events } } := fun hs =>
    ⟨⟨hs.frame.segments, hs.frame.hints, hs.frame.skipNext⟩, hs.path, hs.linearMemory⟩
  exact hreported hprogress

/-- Every way to advance a run is progress. -/
theorem progresses_of_advance {a : Advance} (hr : r.PassesNothing)
    (h : advance a r = .ok () t) : r.Progresses t := by
  have htoSteps : ∀ {count : Int} {r t : Run}, r.PassesNothing →
      runUntilSteps count r = .ok () t → r.Progresses t := by
    intro count r t hr h
    obtain ⟨_, _, hget, h⟩ := Action.bind_eq_ok.mp h
    obtain ⟨rfl, rfl⟩ := Action.get_eq_ok.mp hget
    exact progresses_of_runFor hr h
  cases a with
  | step =>
    obtain ⟨m, hstep, rfl⟩ :=
      Action.within_eq_ok.mp (show onMachine Machine.step r = .ok () t from h)
    have hone : Machine.steps 1 r.machine = .ok () m :=
      Action.bind_eq_ok.mpr ⟨_, m, hstep, rfl⟩
    exact progresses_of_steps hr (Action.within_eq_ok.mpr ⟨m, hone, rfl⟩)
  | toAddress target budget =>
    obtain ⟨left, s, hrun, h⟩ := Action.bind_eq_ok.mp h
    obtain ⟨-, rfl⟩ := Action.pure_eq_ok.mp h
    exact progresses_of_runUntil hr hrun
  | bySteps count => exact progresses_of_runFor hr h
  | toSteps count => exact htoSteps hr h
  | toPowerOfTwo =>
    obtain ⟨_, _, hget, h⟩ := Action.bind_eq_ok.mp h
    obtain ⟨rfl, rfl⟩ := Action.get_eq_ok.mp hget
    exact htoSteps hr h

/-- Advancing a run again and again is progress. -/
theorem progresses_of_advances {l : List Advance} (hr : r.PassesNothing)
    (h : l.forM advance r = .ok () t) : r.Progresses t := by
  induction l generalizing r with
  | nil =>
    obtain ⟨-, rfl⟩ := Action.pure_eq_ok.mp h
    exact refl r
  | cons a rest ih =>
    obtain ⟨_, s, hfirst, hrest⟩ := Action.bind_eq_ok.mp h
    have hprogress := progresses_of_advance hr hfirst
    exact IsTrans.trans _ _ _ hprogress (ih (hr.of_progresses hprogress) hrest)

end Cairo.Run
