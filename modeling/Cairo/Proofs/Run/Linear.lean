import Cairo.Proofs.Linear.Placement
import Cairo.Proofs.Run.Advance
import Cairo.Run.Report

/-!
# Runs over linear memory

Ending a run moves its temporary segments and fixes the sizes of the real ones (`endRun_ok`), and
relocating it lays them out, together with the trace (`relocate_ok`).  A row of the linear trace
then leads to the next one by a step of the machine over the linear memory: what the run did over
segments, with its deductions and hints, is a run of the plain machine over field elements
(`steps_of_relocate`).
-/

namespace Cairo

/-- The sizes in use are those that were known, or else those of the segments. -/
theorem Segments.computeSizes_ok {s t : Segments} {sizes : List Nat}
    (h : computeSizes s = .ok sizes t) : t = { s with usedSizes := some sizes } ∧
      sizes = s.usedSizes.getD (s.memory.segments.toList.map Array.size) := by
  obtain ⟨_, _, hget, h⟩ := Action.bind_eq_ok.mp h
  obtain ⟨rfl, rfl⟩ := Action.get_eq_ok.mp hget
  dsimp only at h
  cases hused : s.usedSizes with
  | some known =>
    rw [hused] at h
    obtain ⟨rfl, rfl⟩ := Action.pure_eq_ok.mp h
    rw [← hused]
    exact ⟨rfl, by rw [hused]; rfl⟩
  | none =>
    rw [hused] at h
    obtain ⟨_, _, hmodify, h⟩ := Action.bind_eq_ok.mp h
    obtain rfl := Action.modify_eq_ok.mp hmodify
    obtain ⟨rfl, rfl⟩ := Action.pure_eq_ok.mp h
    exact ⟨rfl, rfl⟩

/-- Relocating the temporary segments of a machine changes its memory only, reports apart. -/
theorem Machine.relocateTemporaries_ok {s t : Machine} (h : relocateTemporaries s = .ok () t) :
    ∃ m events, Memory.relocate s.memory = .ok () m ∧
      t = { s.withMemory m with events := events } := by
  obtain ⟨_, _, hget, h⟩ := Action.bind_eq_ok.mp h
  obtain ⟨rfl, rfl⟩ := Action.get_eq_ok.mp hget
  dsimp only at h
  split at h
  · obtain ⟨_, u, hreport, hmove⟩ := Action.bind_eq_ok.mp h
    obtain ⟨m, hm, rfl⟩ := onMemory_eq_ok.mp hmove
    obtain rfl := Action.modify_eq_ok.mp hreport
    exact ⟨m, _, hm, rfl⟩
  · obtain ⟨m, hm, rfl⟩ := onMemory_eq_ok.mp h
    exact ⟨m, _, hm, rfl⟩

/-- Checking the builtins of a machine changes nothing else. -/
theorem Machine.verifyBuiltins_ok {s t : Machine} (h : verifyBuiltins s = .ok () t) :
    ∃ builtins, t = { s with builtins := builtins } := by
  obtain ⟨_, _, hget, h⟩ := Action.bind_eq_ok.mp h
  obtain ⟨rfl, rfl⟩ := Action.get_eq_ok.mp hget
  obtain ⟨builtins, -, rfl⟩ := Action.within_eq_ok.mp h
  exact ⟨builtins, rfl⟩

namespace Run

variable {r t : Run}

/-- The sizes in use of the segments of a run become known. -/
theorem computeSizes_ok {sizes : List Nat} (h : onSegments Segments.computeSizes r = .ok sizes t) :
    t = { r with machine := { r.machine with segments :=
      { r.machine.segments with usedSizes := some sizes } } } ∧
        sizes = r.machine.segments.usedSizes.getD (r.memory.segments.toList.map Array.size) := by
  unfold onSegments onMachine at h
  obtain ⟨m, hmachine, rfl⟩ := Action.within_eq_ok.mp h
  obtain ⟨s, hsegments, rfl⟩ := Action.within_eq_ok.mp hmachine
  obtain ⟨rfl, hsizes⟩ := Segments.computeSizes_ok hsegments
  exact ⟨rfl, hsizes⟩

/-! ## The end of a run -/

/-- Ending a run moves the temporary segments and fixes the sizes of the others. -/
theorem endRun_ok (hused : r.machine.segments.usedSizes = none) (h : endRun r = .ok () t) :
    Memory.relocate r.memory = .ok () t.memory ∧
      t.machine.segments.usedSizes = some (t.memory.segments.toList.map Array.size) ∧
        t.machine.segments.fixedSizes = r.machine.segments.fixedSizes ∧
          t.machine.trace = r.machine.trace := by
  obtain ⟨_, _, hget, h⟩ := Action.bind_eq_ok.mp h
  obtain ⟨rfl, rfl⟩ := Action.get_eq_ok.mp hget
  split at h
  · cases h
  obtain ⟨_, r₁, hmove, h⟩ := Action.bind_eq_ok.mp h
  obtain ⟨_, r₂, hverify, h⟩ := Action.bind_eq_ok.mp h
  obtain ⟨sizes, r₃, hsizes, h⟩ := Action.bind_eq_ok.mp h
  obtain rfl := Action.modify_eq_ok.mp h
  obtain ⟨m₁, hmachine, rfl⟩ := Action.within_eq_ok.mp hmove
  obtain ⟨m, events, hrelocate, rfl⟩ := Machine.relocateTemporaries_ok hmachine
  obtain ⟨m₂, hmachine', rfl⟩ := Action.within_eq_ok.mp hverify
  obtain ⟨builtins, rfl⟩ := Machine.verifyBuiltins_ok hmachine'
  obtain ⟨rfl, hsizes'⟩ := computeSizes_ok hsizes
  have hnone : (r.machine.withMemory m).segments.usedSizes = none := hused
  refine ⟨hrelocate, ?_, rfl, rfl⟩
  show some sizes = some (m.segments.toList.map Array.size)
  rw [hsizes']
  show some ((r.machine.withMemory m).segments.usedSizes.getD _) = _
  rw [hnone]
  rfl

/-- Relocating a run fixes the sizes of its segments, if they are not known, and lays its memory
and its trace out by the table for these sizes. -/
theorem relocate_inv (h : relocate r = .ok () t) :
    ∃ table memory, t.machine.segments = { r.machine.segments with
      usedSizes := some (r.machine.segments.usedSizes.getD
        (r.memory.segments.toList.map Array.size)) } ∧
      t.machine.segments.relocationTable = .ok table ∧
        LinearMemory.ofMemory table r.memory = .ok memory ∧ t.linearMemory = some memory ∧
          ∀ rows, r.machine.trace = some rows → ∃ trace,
            rows.toList.mapM (Registers.linear table) = .ok trace ∧ t.linearTrace = some trace := by
  obtain ⟨_, _, hget, h⟩ := Action.bind_eq_ok.mp h
  obtain ⟨rfl, rfl⟩ := Action.get_eq_ok.mp hget
  split at h
  · cases h
  obtain ⟨sizes, u, hsizes, h⟩ := Action.bind_eq_ok.mp h
  obtain ⟨rfl, hknown⟩ := computeSizes_ok hsizes
  obtain ⟨_, _, hget, h⟩ := Action.bind_eq_ok.mp h
  obtain ⟨rfl, rfl⟩ := Action.get_eq_ok.mp hget
  obtain ⟨table, _, hlift, h⟩ := Action.bind_eq_ok.mp h
  obtain ⟨htable, rfl⟩ := Action.lift_eq_ok.mp hlift
  obtain ⟨memory, _, hlift, h⟩ := Action.bind_eq_ok.mp h
  obtain ⟨hmemory, rfl⟩ := Action.lift_eq_ok.mp hlift
  obtain ⟨_, _, hkeep, h⟩ := Action.bind_eq_ok.mp h
  obtain rfl := Action.modify_eq_ok.mp hkeep
  rw [← hknown]
  cases htrace : r.machine.trace with
  | none =>
    simp only [htrace] at h
    obtain ⟨_, hevent, rfl⟩ := Action.within_eq_ok.mp h
    obtain rfl := Action.modify_eq_ok.mp hevent
    exact ⟨table, memory, rfl, htable, hmemory, rfl, nofun⟩
  | some rows =>
    simp only [htrace] at h
    obtain ⟨trace, _, hlift, h⟩ := Action.bind_eq_ok.mp h
    obtain ⟨hrows, rfl⟩ := Action.lift_eq_ok.mp hlift
    obtain ⟨_, _, hkeep, hreport⟩ := Action.bind_eq_ok.mp h
    obtain rfl := Action.modify_eq_ok.mp hkeep
    obtain ⟨_, hevent, rfl⟩ := Action.within_eq_ok.mp hreport
    obtain rfl := Action.modify_eq_ok.mp hevent
    refine ⟨table, memory, rfl, htable, hmemory, rfl, ?_⟩
    rintro _ ⟨⟩
    exact ⟨trace, hrows, rfl⟩

/-- Relocating a run lays its memory and its trace out by one table. -/
theorem relocate_ok {sizes : List Nat} {rows : Array Registers}
    (hused : r.machine.segments.usedSizes = some sizes) (htrace : r.machine.trace = some rows)
    (h : relocate r = .ok () t) :
    ∃ table memory trace, r.machine.segments.relocationTable = .ok table ∧
      LinearMemory.ofMemory table r.memory = .ok memory ∧
        rows.toList.mapM (Registers.linear table) = .ok trace ∧
          t.linearMemory = some memory ∧ t.linearTrace = some trace := by
  obtain ⟨table, memory, hsegments, htable, hmemory, hkeep, hrows⟩ := relocate_inv h
  obtain ⟨trace, htraced, hkeep'⟩ := hrows rows htrace
  have hsame : t.machine.segments = r.machine.segments := by
    rw [hsegments, hused, Option.getD_some, ← hused]
  rw [hsame] at htable
  exact ⟨table, memory, trace, htable, hmemory, htraced, hkeep, hkeep'⟩

/-! ## The linear trace -/

/-- A path over a memory whose cells are placed is laid out to rows of which each leads to the next
one by a step over the linear memory. -/
theorem steps_of_path {m : Memory} {l : LinearMemory} {rules : Memory.Relocations}
    {table : List Int} {sizes : List Nat} {first last : Registers} {visited : List Registers}
    {rows : List TraceRow} (hpath : first.Path m visited last)
    (hfits : (placement rules table).Fits m l) (hstarts : StartsAt sizes table)
    (hsizes : sizes.sum + offsetBound < prime)
    (hrows : visited.mapM (Registers.linear table) = .ok rows) :
    (∀ row ∈ rows, row.InRange) ∧ ∀ (k : Nat) (row next : TraceRow), rows[k]? = some row →
      rows[k + 1]? = some next → ∃ r i a d o, visited[k]? = some r ∧ r.dstAddress i = .ok a ∧
        m.get? a = some d ∧ row.Steps l i o d.address?.isSome next := by
  have hrow : ∀ {k : Nat} {row : TraceRow}, rows[k]? = some row →
      ∃ r, visited[k]? = some r ∧ (placement rules table).IsRow r row ∧ row.InRange := by
    intro k row hk
    obtain ⟨hbehind, hin⟩ := Answer.getElem?_of_mapM hrows k
    cases hr : visited[k]? with
    | none =>
      rw [hbehind hr] at hk
      cases hk
    | some r =>
      obtain ⟨row', hlinear, hk'⟩ := hin r hr
      obtain rfl := Option.some.inj (hk.symm.trans hk')
      exact ⟨r, rfl, isRow_of_linear hstarts hsizes hlinear⟩
  constructor
  · intro row hmem
    obtain ⟨k, hk⟩ := List.mem_iff_getElem?.mp hmem
    obtain ⟨-, -, -, hrange⟩ := hrow hk
    exact hrange
  · intro k row next hk hk'
    obtain ⟨r, hr, hisRow, -⟩ := hrow hk
    obtain ⟨r', hr', hisRow', -⟩ := hrow hk'
    obtain ⟨word, -, i, a, o, hword, -, hdecode, hexecutes⟩ := hpath.next hr hr'
    have hsteps := hfits.steps hisRow hisRow' hword hdecode hexecutes
    exact ⟨r, i, a.dst, o.dst, _, hr, hexecutes.dstAddress, hexecutes.dst, hsteps⟩

/-- Set up for the main function or for a function, advanced in any way, ended and relocated, a
run leaves a linear trace of which every row leads to the next one by a step of the machine over
the linear memory.  The program must not ask for instructions to be passed over, the rules for
temporary segments must have no cycle, and the segments must fit below the prime with room for
one more offset. -/
theorem steps_of_relocate {entry : Entry} {program : Program} {layout : Layout} {recording : Bool}
    {final : Address} {moves : List Advance} {r₀ r₁ r₂ r₃ : Run} (hnone : program.SkipsNothing)
    (hsetUp : setUp entry (.new program layout true recording) = .ok final r₀)
    (hadvance : moves.forM advance r₀ = .ok () r₁)
    (hacyclic : Memory.Acyclic r₁.memory.relocations) (hend : endRun r₁ = .ok () r₂)
    (hsizes : (r₂.memory.segments.toList.map Array.size).sum + offsetBound < prime)
    (hrelocate : relocate r₂ = .ok () r₃) :
    ∃ memory rows visited, r₃.linearMemory = some memory ∧ r₃.linearTrace = some rows ∧
      r₁.machine.trace = some visited ∧ rows.length = visited.size ∧
        (∀ row ∈ rows, row.InRange) ∧ ∀ (k : Nat) (row next : TraceRow), rows[k]? = some row →
          rows[k + 1]? = some next → ∃ r i a d o, visited[k]? = some r ∧ r.dstAddress i = .ok a ∧
            r₁.memory.get? a = some d ∧ row.Steps memory i o d.address?.isSome next := by
  have hready := isReady_of_setUp hnone hsetUp
  have hprogress := progresses_of_advances ⟨hready.skipsNothing, hready.skipNext⟩ hadvance
  obtain ⟨visited, hpath, hvisited⟩ := hprogress.path
  have hused₁ : r₁.machine.segments.usedSizes = none :=
    hprogress.frame.segments.usedSizes.trans hready.usedSizes
  have hfixed₁ : r₁.machine.segments.fixedSizes = ∅ :=
    hprogress.frame.segments.fixedSizes.trans hready.fixedSizes
  have htrace₁ : r₁.machine.trace = some visited.toArray := by
    rw [hvisited, hready.trace]
    simp
  obtain ⟨hmove, hused₂, hfixed₂, htrace₂⟩ := endRun_ok hused₁ hend
  obtain ⟨table, memory, rows, htable, hmemory, hrows, hkeepMemory, hkeepTrace⟩ :=
    relocate_ok hused₂ (htrace₂.trans htrace₁) hrelocate
  -- The memory that the steps end with fits the linear memory.
  obtain ⟨rules, -, -, hrelocated⟩ := Memory.isRelocated_of_relocate hacyclic hmove
  have hstarts : StartsAt (r₂.memory.segments.toList.map Array.size) table := fun k n hk =>
    Segments.getElem?_relocationTable hused₂ (hfixed₂.trans hfixed₁) htable hk
  have hfits : (placement rules table).Fits r₁.memory memory :=
    fits_placement hrelocated hstarts hsizes hmemory
  obtain ⟨hrange, hsteps⟩ := steps_of_path hpath hfits hstarts hsizes hrows
  refine ⟨memory, rows, visited.toArray, hkeepMemory, hkeepTrace, htrace₁,
    Answer.length_of_mapM hrows, hrange, ?_⟩
  intro k row next hk hk'
  rw [List.getElem?_toArray]
  exact hsteps k row next hk hk'

/-- A program that puts the bases of a temporary and of a real segment on the stack, moves the
former to the latter, and writes the number five through the pointer to the temporary one. -/
def relocating : Program where
  data := [.felt 0x40780017fff7fff, .felt 1, .felt 0x40780017fff7fff, .felt 1,
    .felt 0x480680017fff8000, .felt 5, .felt 0x400080007ffd7fff, .felt 0x208b7fff7fff7ffe]
  builtins := []
  main := some 0
  hints := [(0, [⟨"alloc_temporary_segment", []⟩]), (2, [⟨"alloc_segment", []⟩]),
    (4, [⟨"relocate_temporary_segment", []⟩])]
  constants := ∅
  labels := ∅

/-- The run of the program that moves a temporary segment is a run over linear memory. -/
theorem steps_of_relocate_relocating :
    ∃ (final : Address) (r₀ r₁ r₂ r₃ : Run) (memory : LinearMemory) (rows : List TraceRow),
      setUp .main (.new relocating ⟨"plain", []⟩ true false) = .ok final r₀ ∧
        [Advance.toAddress (some (.base 3)) ⟨some 10⟩].forM advance r₀ = .ok () r₁ ∧
          endRun r₁ = .ok () r₂ ∧ relocate r₂ = .ok () r₃ ∧ r₃.linearMemory = some memory ∧
            r₃.linearTrace = some rows ∧ rows.length = 5 ∧
              ∀ (k : Nat) (row next : TraceRow), rows[k]? = some row → rows[k + 1]? = some next →
                ∃ i o isPointer, row.Steps memory i o isPointer next := by
  obtain ⟨final, r₀, r₁, r₂, r₃, hsetUp, hadvance, hend, hrelocate, hrules, hsizes, hcount⟩ :
      ∃ (final : Address) (r₀ r₁ r₂ r₃ : Run),
        setUp .main (.new relocating ⟨"plain", []⟩ true false) = .ok final r₀ ∧
          [Advance.toAddress (some (.base 3)) ⟨some 10⟩].forM advance r₀ = .ok () r₁ ∧
            endRun r₁ = .ok () r₂ ∧ relocate r₂ = .ok () r₃ ∧
              r₁.memory.relocations = [(-1, .base 4)] ∧
                (r₂.memory.segments.toList.map Array.size).sum + offsetBound < prime ∧
                  r₁.machine.trace.map Array.size = some 5 := by
    obtain ⟨final, hsetUp⟩ : ∃ final, setUp .main (.new relocating ⟨"plain", []⟩ true false) =
        .ok final _ := Action.exists_eq_ok_of_isOk (by decide +kernel)
    exact ⟨final, _, _, _, _, hsetUp, Action.eq_ok_of_isOk (by decide +kernel),
      Action.eq_ok_of_isOk (by decide +kernel), Action.eq_ok_of_isOk (by decide +kernel),
      by decide +kernel, by decide +kernel, by decide +kernel⟩
  have hnone : relocating.SkipsNothing := by
    unfold Program.SkipsNothing
    decide
  have hacyclic : Memory.Acyclic r₁.memory.relocations := by
    rw [hrules]
    exact Memory.acyclic_of_forall_real (by decide)
  obtain ⟨memory, rows, visited, hmemory, hrows, hvisited, hlength, -, hsteps⟩ :=
    steps_of_relocate hnone hsetUp hadvance hacyclic hend hsizes hrelocate
  refine ⟨final, r₀, r₁, r₂, r₃, memory, rows, hsetUp, hadvance, hend, hrelocate, hmemory, hrows,
    ?_, ?_⟩
  · rw [hvisited] at hcount
    exact hlength.trans (Option.some.inj hcount)
  · intro k row next hrow hnext
    obtain ⟨_, i, _, d, o, -, -, -, hstep⟩ := hsteps k row next hrow hnext
    exact ⟨i, o, d.address?.isSome, hstep⟩

end Run

end Cairo
