import Cairo.Proofs.Machine.Hints
import Cairo.Run.Execution

/-!
# Runs and their replays

A run of a machine is a `Path` over the memory that it ends with: every row of its trace leads to
the next one by the instruction at its program counter, with all operands in the memory
(`steps_ok`).  Conversely, a machine without hints that has a path over its memory takes it, and
writes no cell (`exists_steps`).  Put together, hints, builtins and deductions only supply cells:
with the final memory, a run can be replayed without them (`exists_replay`).
-/

namespace Cairo

/-! ## Paths over a memory -/

namespace Registers

/-- The instruction at the program counter, over a memory, leads to the given registers. -/
def Next (m : Memory) (r r' : Registers) : Prop :=
  ∃ word behind i a o, m.get? r.pc = some (.felt word) ∧ r.pc.shift 1 = .ok behind ∧
    Instruction.decode word.val = .ok i ∧ r.Executes i m a o r'

/-- Some registers, of which each leads to the next one over a memory, and where they lead. -/
inductive Path (m : Memory) : Registers → List Registers → Registers → Prop
  | done (r : Registers) : Path m r [] r
  | step {r r' r'' : Registers} {rows : List Registers} (first : r.Next m r')
      (rest : Path m r' rows r'') : Path m r (r :: rows) r''

/-- An instruction leads to the same registers over a memory with more cells. -/
theorem Next.mono {m m' : Memory} {r r' : Registers} (h : r.Next m r') (hm : m.Extends m') :
    r.Next m' r' := by
  obtain ⟨word, behind, i, a, o, hword, hbehind, hdecode, hexecutes⟩ := h
  exact ⟨word, behind, i, a, o, hm _ _ hword, hbehind, hdecode, hexecutes.mono hm⟩

/-- A path over a memory is one over a memory with more cells. -/
theorem Path.mono {m m' : Memory} {r r' : Registers} {rows : List Registers}
    (h : r.Path m rows r') (hm : m.Extends m') : r.Path m' rows r' := by
  induction h with
  | done r => exact .done r
  | step first _ ih => exact .step (first.mono hm) ih

/-- A path is continued by one that starts where it leads. -/
theorem Path.append {m : Memory} {r r' r'' : Registers} {rows rows' : List Registers}
    (h : r.Path m rows r') (h' : r'.Path m rows' r'') : r.Path m (rows ++ rows') r'' := by
  induction h with
  | done r => exact h'
  | step first _ ih => exact .step first (ih h')

/-- On a path, registers lead to those that come next. -/
theorem Path.next {m : Memory} {r r' : Registers} {rows : List Registers} (h : r.Path m rows r')
    {k : Nat} {s s' : Registers} (hs : rows[k]? = some s) (hs' : rows[k + 1]? = some s') :
    s.Next m s' := by
  induction h generalizing k with
  | done r => cases hs
  | step first rest ih =>
    cases k with
    | zero =>
      obtain rfl := Option.some.inj hs
      cases rest with
      | done => cases hs'
      | step second _ =>
        obtain rfl := Option.some.inj hs'
        exact first
    | succ k => exact ih hs hs'

end Registers

/-- A field element is read from a cell that holds one. -/
theorem Memory.readFelt_eq_ok {m : Memory} {a : Address} {x : Felt} :
    m.readFelt a = .ok x ↔ m.get? a = some (.felt x) := by
  unfold readFelt read
  rw [Answer.bind_eq_ok]
  constructor
  · rintro ⟨v, hv, h⟩
    cases v with
    | felt y =>
      obtain rfl := Answer.pure_eq_ok.mp h
      exact Answer.orThrow_eq_ok.mp hv
    | address b => cases h
  · intro h
    exact ⟨.felt x, Answer.orThrow_eq_ok.mpr h, rfl⟩

namespace Machine

/-! ## Steps -/

/-- The instruction at the program counter is the one that the word there stands for. -/
theorem currentInstruction_eq_ok {s : Machine} {i : Instruction} :
    s.currentInstruction = .ok i ↔ ∃ word behind, s.memory.get? s.registers.pc = some (.felt word) ∧
      s.registers.pc.shift 1 = .ok behind ∧ Instruction.decode word.val = .ok i := by
  unfold currentInstruction currentWord
  simp only [Answer.bind_eq_ok, Answer.pure_eq_ok, Memory.readFelt_eq_ok]
  constructor
  · rintro ⟨_, ⟨word, hword, behind, hbehind, rfl⟩, hdecode⟩
    exact ⟨word, behind, hword, hbehind, hdecode⟩
  · rintro ⟨word, behind, hword, hbehind, hdecode⟩
    exact ⟨_, ⟨word, hword, behind, hbehind, rfl⟩, hdecode⟩

/-- A machine that does not pass over an instruction executes it between two reports. -/
theorem stepInstruction_eq_ok {s t : Machine} (hskip : s.skipNext = false) :
    stepInstruction s = .ok () t ↔ ∃ i u, s.currentInstruction = .ok i ∧
      runInstruction i ((report (.beforeInstruction s.registers.pc i.opcode s.stepCount)).after s) =
        .ok () u ∧
      t = (report (.afterInstruction u.registers.pc i.opcode u.stepCount)).after u := by
  unfold stepInstruction report
  simp only [Action.bind_eq_ok, Action.get_eq_ok, Action.lift_eq_ok]
  constructor
  · rintro ⟨_, _, ⟨rfl, rfl⟩, i, _, ⟨hi, rfl⟩, h⟩
    rw [hskip] at h
    obtain ⟨_, _, hbefore, h⟩ := Action.bind_eq_ok.mp h
    obtain rfl := Action.modify_eq_ok.mp hbefore
    obtain ⟨_, u, hrun, h⟩ := Action.bind_eq_ok.mp h
    obtain ⟨_, _, hget, h⟩ := Action.bind_eq_ok.mp h
    obtain ⟨rfl, rfl⟩ := Action.get_eq_ok.mp hget
    exact ⟨i, u, hi, hrun, (Action.modify_eq_ok.mp h).symm⟩
  · rintro ⟨i, u, hi, hrun, rfl⟩
    refine ⟨_, _, ⟨rfl, rfl⟩, i, _, ⟨hi, rfl⟩, ?_⟩
    rw [hskip]
    refine Action.bind_eq_ok.mpr ⟨_, _, rfl, Action.bind_eq_ok.mpr ⟨_, u, hrun, ?_⟩⟩
    exact Action.bind_eq_ok.mpr ⟨_, _, rfl, rfl⟩

/-- What a step does unless a hint interferes with the instruction: the registers lead to the new
ones over the new memory, which has grown, and are a new row of the trace. -/
theorem step_ok {s t : Machine} (hs : s.SkipsNothing) (hskip : s.skipNext = false)
    (h : step s = .ok () t) :
    s.registers.Next t.memory t.registers ∧ s.Frame t ∧
      t.trace = s.trace.map (·.push s.registers) := by
  obtain ⟨_, s', hhints, h⟩ := Action.bind_eq_ok.mp h
  have hresumes : s.Resumes s' := by
    rw [← Action.after_of_ok hhints]
    exact resumes_stepHint hs
  obtain ⟨i, u, hi, hrun, rfl⟩ := (stepInstruction_eq_ok (hresumes.skipNext.trans hskip)).mp h
  obtain ⟨word, behind, hword, hbehind, hdecode⟩ := currentInstruction_eq_ok.mp hi
  obtain ⟨a, o, hexecutes, hframe, -, htrace⟩ := runInstruction_ok hrun
  have hframe' : s'.Frame u := ⟨hframe.segments, hframe.hints, hframe.skipNext⟩
  refine ⟨?_, IsTrans.trans s s' _ hresumes.toFrame ?_, ?_⟩
  · rw [← hresumes.registers]
    exact ⟨word, behind, i, a, o, hframe'.extends _ _ hword, hbehind, hdecode, hexecutes⟩
  · exact ⟨hframe'.segments, hframe'.hints, hframe'.skipNext⟩
  · rw [← hresumes.registers, ← hresumes.trace]
    exact htrace

/-- A machine without hints whose registers lead on over its memory makes a step, and writes no
cell. -/
theorem exists_step {s : Machine} {r' : Registers} (hhints : s.hints = ∅)
    (hskip : s.skipNext = false) (h : s.registers.Next s.memory r') :
    ∃ t, step s = .ok () t ∧ t.registers = r' ∧ s.memory.Marked t.memory ∧
      t.trace = s.trace.map (·.push s.registers) ∧ t.hints = ∅ ∧ t.skipNext = false := by
  obtain ⟨word, behind, i, a, o, hword, hbehind, hdecode, hexecutes⟩ := h
  have hi := currentInstruction_eq_ok.mpr ⟨word, behind, hword, hbehind, hdecode⟩
  let s' := (report (.beforeInstruction s.registers.pc i.opcode s.stepCount)).after s
  obtain ⟨u, hrun, hregisters, hmarked, htrace, hhints', hskip'⟩ :=
    exists_runInstruction (show s'.registers.Executes i s'.memory a o r' from hexecutes)
  have hstep := (stepInstruction_eq_ok hskip).mpr ⟨i, u, hi, hrun, rfl⟩
  exact ⟨_, Action.bind_eq_ok.mpr ⟨_, _, stepHint_of_hints_empty hhints, hstep⟩, hregisters,
    hmarked, htrace, hhints'.trans hhints, hskip'.trans hskip⟩

/-! ## Runs -/

/-- Makes a number of steps. -/
def steps : Nat → Action Machine Unit
  | 0 => pure ()
  | n + 1 => do
    step
    steps n

/-- A run for a number of steps makes these steps. -/
theorem steps_of_runFor {final : Option Address} {n : Nat} {s t : Machine}
    (h : runFor final n s = .ok () t) : steps n s = .ok () t := by
  induction n generalizing s with
  | zero => exact h
  | succ n ih =>
    obtain ⟨_, _, hget, h⟩ := Action.bind_eq_ok.mp h
    obtain ⟨rfl, rfl⟩ := Action.get_eq_ok.mp hget
    split at h
    · cases h
    · obtain ⟨_, u, hstep, hrest⟩ := Action.bind_eq_ok.mp h
      exact Action.bind_eq_ok.mpr ⟨_, u, hstep, ih hrest⟩

/-- A run until an address makes some number of steps. -/
theorem exists_steps_of_runUntil {target : Option Address} {n left : Nat} {s t : Machine}
    (h : runUntil target n s = .ok left t) : ∃ k, steps k s = .ok () t := by
  induction n generalizing s with
  | zero =>
    obtain ⟨_, _, hget, h⟩ := Action.bind_eq_ok.mp h
    obtain ⟨rfl, rfl⟩ := Action.get_eq_ok.mp hget
    dsimp only at h
    split at h
    · cases h
    · obtain ⟨-, rfl⟩ := Action.pure_eq_ok.mp h
      exact ⟨0, rfl⟩
  | succ n ih =>
    obtain ⟨_, _, hget, h⟩ := Action.bind_eq_ok.mp h
    obtain ⟨rfl, rfl⟩ := Action.get_eq_ok.mp hget
    split at h
    · obtain ⟨-, rfl⟩ := Action.pure_eq_ok.mp h
      exact ⟨0, rfl⟩
    · obtain ⟨_, u, hstep, hrest⟩ := Action.bind_eq_ok.mp h
      obtain ⟨k, hk⟩ := ih hrest
      exact ⟨k + 1, Action.bind_eq_ok.mpr ⟨_, u, hstep, hk⟩⟩

/-- A run is a path over the memory that it ends with, and its rows are added to the trace. -/
theorem steps_ok {n : Nat} {s t : Machine} (hs : s.SkipsNothing) (hskip : s.skipNext = false)
    (h : steps n s = .ok () t) :
    ∃ rows, rows.length = n ∧ s.registers.Path t.memory rows t.registers ∧ s.Frame t ∧
      t.trace = s.trace.map (· ++ rows.toArray) := by
  induction n generalizing s with
  | zero =>
    obtain ⟨-, rfl⟩ := Action.pure_eq_ok.mp h
    exact ⟨[], rfl, .done _, refl _, by simp⟩
  | succ n ih =>
    obtain ⟨_, u, hstep, hrest⟩ := Action.bind_eq_ok.mp h
    obtain ⟨hnext, hframe, htrace⟩ := step_ok hs hskip hstep
    obtain ⟨rows, hlength, hpath, hframe', htrace'⟩ :=
      ih (hs.of_hints_eq hframe.hints) (hframe.skipNext.trans hskip) hrest
    refine ⟨s.registers :: rows, by rw [List.length_cons, hlength], ?_, ?_, ?_⟩
    · exact .step (hnext.mono hframe'.extends) hpath
    · exact IsTrans.trans _ _ _ hframe hframe'
    · rw [htrace', htrace, Option.map_map]
      congr 1
      funext trace
      simp

/-- A machine without hints takes a path over its memory, and writes no cell. -/
theorem exists_steps {m : Memory} {s : Machine} {rows : List Registers} {r r' : Registers}
    (hpath : r.Path m rows r') (hregisters : s.registers = r) (hmemory : m.Extends s.memory)
    (hhints : s.hints = ∅) (hskip : s.skipNext = false) :
    ∃ t, steps rows.length s = .ok () t ∧ t.registers = r' ∧ s.memory.Marked t.memory ∧
      t.trace = s.trace.map (· ++ rows.toArray) := by
  induction hpath generalizing s with
  | done r => exact ⟨s, rfl, hregisters, refl _, by simp⟩
  | step first _ ih =>
    subst hregisters
    obtain ⟨u, hstep, hregisters, hmarked, htrace, hhints', hskip'⟩ :=
      exists_step hhints hskip (first.mono hmemory)
    have hmemory' : m.Extends u.memory := fun a v hv => (hmarked.get?_eq a).trans (hmemory a v hv)
    obtain ⟨t, hsteps, hregisters', hmarked', htrace'⟩ := ih hregisters hmemory' hhints' hskip'
    refine ⟨t, Action.bind_eq_ok.mpr ⟨_, u, hstep, hsteps⟩, hregisters', ?_, ?_⟩
    · exact IsTrans.trans _ _ _ hmarked hmarked'
    · rw [htrace', htrace, Option.map_map]
      congr 1
      funext trace
      simp

/-- A run in which no hint interferes with an instruction can be replayed on the memory that it
ends with, by a machine that starts with the same registers and has no hints: the replay adds the
same rows to its trace, ends with the same registers, and writes no cell. -/
theorem exists_replay {n : Nat} {s t u : Machine} (hs : s.SkipsNothing)
    (hskip : s.skipNext = false) (hrun : steps n s = .ok () t)
    (hregisters : u.registers = s.registers) (hmemory : u.memory = t.memory)
    (hhints : u.hints = ∅) (hskip' : u.skipNext = false) :
    ∃ v rows, steps n u = .ok () v ∧ v.registers = t.registers ∧ u.memory.Marked v.memory ∧
      rows.length = n ∧ s.registers.Path t.memory rows t.registers ∧
        t.trace = s.trace.map (· ++ rows.toArray) ∧ v.trace = u.trace.map (· ++ rows.toArray) := by
  obtain ⟨rows, rfl, hpath, -, htrace⟩ := steps_ok hs hskip hrun
  have hextends : t.memory.Extends u.memory := by
    rw [hmemory]
    exact refl _
  obtain ⟨v, hsteps, hregisters', hmarked, htrace'⟩ :=
    exists_steps hpath hregisters hextends hhints hskip'
  exact ⟨v, rows, hsteps, hregisters', hmarked, rfl, hpath, htrace, htrace'⟩

/-- A machine with a hint that writes the base of a new segment to the stack, before code that
keeps it there and pushes the number five. -/
def allocating : Machine :=
  { loaded [.felt 0x40780017fff7fff, .felt 1, .felt pushImmediateWord, .felt 5] [.felt 0] with
    hints := (∅ : Std.ExtTreeMap Address (List Hint)).insert (.base 0) [⟨"alloc_segment"⟩]
    processor := some .standard
    scopes := some .main }

/-- The machine that allocates a segment skips nothing. -/
theorem skipsNothing_allocating : allocating.SkipsNothing := by
  intro pc hs hfound h hh
  have hinsert : ((∅ : Std.ExtTreeMap Address (List Hint)).insert (.base 0)
      [⟨"alloc_segment"⟩])[pc]? = some hs := hfound
  rw [Std.ExtTreeMap.getElem?_insert] at hinsert
  split at hinsert
  · obtain rfl := Option.some.inj hinsert
    obtain rfl := List.mem_singleton.mp hh
    decide
  · simp at hinsert

/-- The run of the machine that allocates a segment is replayed without the hint. -/
theorem exists_replay_allocating :
    ∃ (t v : Machine) (rows : List Registers), steps 2 allocating = .ok () t ∧
      steps 2 { t with registers := allocating.registers, hints := ∅ } = .ok () v ∧
        v.registers = t.registers ∧ t.memory.Marked v.memory ∧ rows.length = 2 ∧
          t.trace = some rows.toArray ∧ v.trace = t.trace.map (· ++ rows.toArray) := by
  obtain ⟨t, hrun, hskip⟩ : ∃ t, steps 2 allocating = .ok () t ∧ t.skipNext = false :=
    ⟨_, Action.eq_ok_of_isOk (by decide +kernel), by decide +kernel⟩
  obtain ⟨v, rows, hsteps, hregisters, hmarked, hlength, -, htrace, htrace'⟩ :=
    exists_replay (u := { t with registers := allocating.registers, hints := ∅ })
      skipsNothing_allocating rfl hrun rfl rfl rfl hskip
  exact ⟨t, v, rows, hrun, hsteps, hregisters, hmarked, hlength,
    by simpa [allocating, loaded, fresh] using htrace, htrace'⟩

end Machine

end Cairo
