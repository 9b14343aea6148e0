import Cairo.Proofs.Machine.Instruction
import Cairo.Proofs.Memory.Frame
import Cairo.Proofs.Segments.Arguments
import Cairo.Run.Basic

/-!
# Loading a program

The segments of a run are allocated in four places, one behind the other: those of the program and
of the execution, one for each builtin (`initializeSegments_eq`), and two that are never written, to
which the frame pointer of the caller and the end of the run point.  In a run that has room for them
(`HasRoom`) the program is loaded and its cells are marked, and the stack is loaded after it, so
that the call of the main function leaves a frame behind (`exists_initializeMain`).  Where the
program is entered and where it ends must have offsets for that (`bounds_of_initializeMain`).
-/

namespace Cairo

namespace Builtin

/-- The builtins with segments of their own, one after another from an index on. -/
def placedFrom : Nat → List Builtin → List Builtin
  | _, [] => []
  | n, b :: rest => { b with segment := some (n : Int) } :: placedFrom (n + 1) rest

/-- The segments of builtins follow one another. -/
theorem getElem?_placedFrom (bs : List Builtin) (n i : Nat) :
    (placedFrom n bs)[i]? =
      bs[i]?.map fun b => { b with segment := some ((n + i : Nat) : Int) } := by
  induction bs generalizing n i with
  | nil => rfl
  | cons b rest ih =>
    cases i with
    | zero => rfl
    | succ i =>
      rw [placedFrom, List.getElem?_cons_succ, List.getElem?_cons_succ, ih, Nat.add_assoc,
        Nat.add_comm 1]

/-- Builtins keep their kinds when they are given segments. -/
theorem map_kind_placedFrom (bs : List Builtin) (n : Nat) :
    (placedFrom n bs).map (·.kind) = bs.map (·.kind) := by
  induction bs generalizing n with
  | nil => rfl
  | cons b rest ih => rw [placedFrom, List.map_cons, List.map_cons, ih]

/-- Each of the builtins that are included puts the base of its segment on the stack. -/
theorem mapM_initialStack_placedFrom {bs : List Builtin} (hbs : ∀ b ∈ bs, b.included = true)
    (n : Nat) :
    (placedFrom n bs).mapM initialStack =
      .ok ((List.range' n bs.length).map fun i : Nat => [.value (.address (.base i))]) := by
  induction bs generalizing n with
  | nil => rfl
  | cons b rest ih =>
    obtain ⟨hb, hrest⟩ := List.forall_mem_cons.mp hbs
    have hfirst : initialStack { b with segment := some (n : Int) } =
        .ok [.value (.address (.base n))] := by
      unfold initialStack
      rw [if_pos hb]
      rfl
    rw [placedFrom, List.mapM_cons, hfirst, ih hrest]
    rfl

end Builtin

namespace Run

variable {r t : Run} {m : Memory} {α : Type}

/-- The run with another memory. -/
def withMemory (r : Run) (m : Memory) : Run := { r with machine := r.machine.withMemory m }

@[simp] theorem memory_withMemory : (r.withMemory m).memory = m := rfl

/-- An action that succeeds on the memory of a run succeeds on the run. -/
theorem onMemory_of_ok {x : Action Memory α} {a : α} (h : x r.memory = .ok a m) :
    onMemory x r = .ok a (r.withMemory m) := by
  unfold onMemory onMachine
  exact Action.within_eq_ok.mpr ⟨_, Machine.onMemory_eq_ok.mpr ⟨m, h, rfl⟩, rfl⟩

/-! ## Segments for a new run -/

/-- A segment that is allocated stands behind the others. -/
theorem add_eq (r : Run) :
    onSegments (Segments.add none) r =
      .ok (.base r.memory.segments.size) (r.withMemory (r.memory.widened 1)) := by
  rw [Memory.widened_one]
  rfl

/-- Builtins are given the segments behind those that are there, in their order. -/
theorem mapM_allocate_eq (bs : List Builtin) (r : Run) :
    bs.mapM (fun b => onSegments b.allocate) r =
      .ok (Builtin.placedFrom r.memory.segments.size bs)
        (r.withMemory (r.memory.widened bs.length)) := by
  induction bs generalizing r with
  | nil =>
    rw [List.mapM_nil, List.length_nil, Memory.widened_zero]
    rfl
  | cons b rest ih =>
    have hfirst : onSegments b.allocate r =
        .ok { b with segment := some (r.memory.segments.size : Int) }
          (r.withMemory (r.memory.widened 1)) := by
      rw [Memory.widened_one]
      rfl
    rw [List.mapM_cons, Action.bind_of_ok hfirst, Action.bind_of_ok (ih _), memory_withMemory,
      Memory.size_widened, Memory.widened_widened, List.length_cons, Nat.add_comm 1]
    rfl

/-- The run with segments for its program, its execution and its builtins. -/
def segmented (r : Run) : Run :=
  { r with
    programBase := some (.base r.memory.segments.size)
    executionBase := some (.base (r.memory.segments.size + 1 : Nat))
    machine := { r.machine.withMemory (r.memory.widened (2 + r.machine.builtins.length)) with
      builtins := Builtin.placedFrom (r.memory.segments.size + 2) r.machine.builtins } }

/-- The segments of the program and of the execution are allocated before those of the builtins. -/
theorem initializeSegments_eq (r : Run) : initializeSegments none r = .ok () r.segmented := by
  let s : Run := { r.withMemory (r.memory.widened 1) with
    programBase := some (.base r.memory.segments.size) }
  let t : Run := { s.withMemory (r.memory.widened 2) with
    executionBase := some (.base (r.memory.segments.size + 1 : Nat)) }
  have hexecution : onSegments (Segments.add none) s =
      .ok (.base (r.memory.segments.size + 1 : Nat)) (s.withMemory (r.memory.widened 2)) := by
    have h := add_eq s
    rwa [show s.memory = r.memory.widened 1 from rfl, Memory.size_widened,
      Memory.widened_widened] at h
  have hbuiltins : allocateBuiltins t = .ok () r.segmented := by
    have h := mapM_allocate_eq r.machine.builtins t
    rw [show t.memory = r.memory.widened 2 from rfl, Memory.size_widened,
      Memory.widened_widened] at h
    exact Action.bind_of_ok h
  unfold initializeSegments
  dsimp only
  rw [Action.bind_of_ok (add_eq r), Action.modify_bind]
  exact (Action.bind_of_ok hexecution).trans hbuiltins

/-! ## The program and the stack -/

/-- Values are loaded to a segment that is empty and has no rules. -/
theorem load_eq {n : Nat} {values : List Value} (hs : r.memory.segments[n]? = some #[])
    (hrules : r.memory.rules = []) (hfits : values.length < offsetBound) :
    onSegments (Segments.load (.base n) (values.map .value)) r =
      .ok ⟨n, values.length, hfits⟩ (r.withMemory (r.memory.fill n values)) :=
  onMemory_of_ok (Memory.load_empty hs (Memory.rulesOf_eq_nil hrules n) hfits)

/-- The first cells of a segment are marked as accessed. -/
theorem exists_markFrom (i : Int) {n : Nat} (hn : n ≤ offsetBound) (r : Run) :
    ∃ marks, markFrom (.base i) n r = .ok () (r.withMemory { r.memory with accessed := marks }) ∧
      ∀ a, a ∈ marks ↔ a ∈ r.memory.accessed ∨ a.segment = i ∧ a.offset < n := by
  have hmark : ∀ {k : Nat} (hk : k < n) (u : Run), (do
      let cell ← (Address.base i).shift k
      onMemory (modify (·.markAccessed cell)) : Action Run Unit) u =
        .ok () (u.withMemory (u.memory.markAccessed ⟨i, k, hk.trans_le hn⟩)) := by
    intro k hk u
    rw [Action.lift_bind_of_ok (Address.shift_base i (hk.trans_le hn))]
    exact onMemory_of_ok rfl
  obtain ⟨t, ht, -⟩ := Action.exists_forM_ok (fun _ => True) trivial (s := r)
    (l := List.range n) fun k hk u _ => ⟨_, hmark (List.mem_range.mp hk) u, trivial⟩
  -- After `k` rounds the first `k` cells are marked.
  have hmarks := Action.forM_range_ok (fun k u => ∃ marks,
    u = r.withMemory { r.memory with accessed := marks } ∧
      ∀ a, a ∈ marks ↔ a ∈ r.memory.accessed ∨ a.segment = i ∧ a.offset < k) ht
    ⟨r.memory.accessed, rfl, by simp⟩ ?_
  · obtain ⟨marks, rfl, hmem⟩ := hmarks
    exact ⟨marks, ht, hmem⟩
  · rintro k _ v hk ⟨marks, rfl, hmem⟩ hround
    rw [hmark hk] at hround
    cases hround
    refine ⟨_, rfl, fun a => ?_⟩
    show a ∈ marks.insert _ ↔ _
    rw [Std.ExtTreeSet.mem_insert, hmem, Address.compare_eq_iff, Address.ext_iff]
    dsimp only
    constructor
    · rintro (⟨hs, ho⟩ | ha | ⟨hs, ho⟩)
      · exact .inr ⟨hs.symm, by omega⟩
      · exact .inl ha
      · exact .inr ⟨hs, by omega⟩
    · rintro (ha | ⟨hs, ho⟩)
      · exact .inr (.inl ha)
      · rcases Nat.lt_succ_iff_lt_or_eq.mp ho with ho | ho
        · exact .inr (.inr ⟨hs, ho⟩)
        · exact .inl ⟨hs.symm, ho.symm⟩

/-- Where the program and the stack are loaded if segments are allocated for them. -/
theorem initializeState_of_bases {program execution : Address} {entrypoint : Int}
    {stack : List Datum} (hprogram : r.programBase = some program)
    (hexecution : r.executionBase = some execution) :
    initializeState entrypoint stack r = (do
      let pc ← program.shift entrypoint
      modify ({ · with initialPc := some pc })
      let _ ← onSegments (Segments.load program (r.program.data.map .value))
      markFrom program r.program.data.length
      let _ ← onSegments (Segments.load execution stack) : Action Run Unit) r := by
  unfold initializeState
  rw [Action.get_bind, hprogram, hexecution]

/-- The segments for the program and for the execution are empty, and there are no rules. -/
structure HasRoom (r : Run) (p e : Nat) : Prop where
  programBase : r.programBase = some (.base p)
  executionBase : r.executionBase = some (.base e)
  distinct : p ≠ e
  program : r.memory.segments[p]? = some #[]
  execution : r.memory.segments[e]? = some #[]
  rules : r.memory.rules = []

variable {p e : Nat}

/-- There is still room when further segments are allocated. -/
theorem HasRoom.widened (h : r.HasRoom p e) (n : Nat) :
    (r.withMemory (r.memory.widened n)).HasRoom p e := by
  have hkeeps : ∀ {i : Nat}, r.memory.segments[i]? = some #[] →
      (r.memory.widened n).segments[i]? = some #[] := by
    intro i hi
    obtain ⟨hlt, -⟩ := Array.getElem?_eq_some_iff.mp hi
    exact (Array.getElem?_append_left hlt).trans hi
  exact ⟨h.programBase, h.executionBase, h.distinct, hkeeps h.program, hkeeps h.execution, h.rules⟩

/-- The cells of the program are loaded and marked, and the stack is loaded after them. -/
theorem exists_initializeState (h : r.HasRoom p e) {pc : Address} {entrypoint : Int}
    {stack : List Value} (hpc : (Address.base p).shift entrypoint = .ok pc)
    (hdata : r.program.data.length < offsetBound) (hstack : stack.length < offsetBound) :
    ∃ marks, initializeState entrypoint (stack.map .value) r =
        .ok () ({ r with initialPc := some pc }.withMemory
          { (r.memory.fill p r.program.data).fill e stack with accessed := marks }) ∧
      ∀ a, a ∈ marks ↔
        a ∈ r.memory.accessed ∨ a.segment = p ∧ a.offset < r.program.data.length := by
  let s : Run := { r with initialPc := some pc }
  have hload : onSegments (Segments.load (.base p) (r.program.data.map .value)) s =
      .ok _ (s.withMemory (r.memory.fill p r.program.data)) :=
    load_eq (r := s) h.program h.rules hdata
  obtain ⟨marks, hmarks, hmem⟩ :=
    exists_markFrom p hdata.le (s.withMemory (r.memory.fill p r.program.data))
  let u : Run := s.withMemory { r.memory.fill p r.program.data with accessed := marks }
  have hempty : u.memory.segments[e]? = some #[] :=
    (Array.getElem?_setIfInBounds_ne h.distinct).trans h.execution
  have hlast : onSegments (Segments.load (.base e) (stack.map .value)) u =
      .ok _ (u.withMemory (u.memory.fill e stack)) :=
    load_eq hempty h.rules hstack
  refine ⟨marks, ?_, hmem⟩
  rw [initializeState_of_bases h.programBase h.executionBase, Action.lift_bind_of_ok hpc,
    Action.modify_bind]
  exact (Action.bind_of_ok hload).trans ((Action.bind_of_ok hmarks).trans
    (Action.bind_of_ok hlast))

/-- The run with the registers for a call, and its end. -/
def called (r : Run) (pc top final : Address) : Run :=
  { r with
    initialPc := some pc, initialAp := some top, initialFp := some top, finalPc := some final }

/-- A call is prepared with a new segment to return to, whose base is the last thing on the
stack. -/
theorem exists_initializeCall (h : r.HasRoom p e) {pc : Address} {entrypoint : Int}
    {args : List Value} (returnFp : Value) (hpc : (Address.base p).shift entrypoint = .ok pc)
    (hdata : r.program.data.length < offsetBound) (hargs : args.length + 2 < offsetBound) :
    ∃ marks, initializeCall entrypoint (args.map .value) (.value returnFp) r =
        .ok (.base r.memory.segments.size)
          ((r.called pc ⟨e, args.length + 2, hargs⟩ (.base r.memory.segments.size)).withMemory
            { ((r.memory.widened 1).fill p r.program.data).fill e
                (args ++ [returnFp, .address (.base r.memory.segments.size)]) with
              accessed := marks }) ∧
      ∀ a, a ∈ marks ↔
        a ∈ r.memory.accessed ∨ a.segment = p ∧ a.offset < r.program.data.length := by
  let top : Address := ⟨e, args.length + 2, hargs⟩
  let stack := args ++ [returnFp, .address (.base r.memory.segments.size)]
  let s : Run := { r.withMemory (r.memory.widened 1) with
    initialAp := some top, initialFp := some top }
  have hroom : s.HasRoom p e := by
    obtain ⟨hprogram, hexecution, hne, hp, he, hrules⟩ := h.widened 1
    exact ⟨hprogram, hexecution, hne, hp, he, hrules⟩
  have hdatums : args.map Datum.value ++
      [.value returnFp, .value (.address (.base r.memory.segments.size))] = stack.map .value := by
    simp [stack]
  have hlength : stack.length = args.length + 2 := by simp [stack]
  have htop : (Address.base e).shift (stack.map Datum.value).length = .ok top := by
    rw [List.length_map, hlength]
    exact Address.shift_base e hargs
  obtain ⟨marks, hstate, hmem⟩ := exists_initializeState hroom hpc hdata (hlength.trans_lt hargs)
  refine ⟨marks, ?_, hmem⟩
  have hexecution : Action.orThrow (r.withMemory (r.memory.widened 1)).executionBase
      .unsupportedOperand = .ok (.base e) :=
    Answer.orThrow_eq_ok.mpr h.executionBase
  unfold initializeCall
  rw [Action.bind_of_ok (add_eq r)]
  dsimp only
  rw [hdatums, Action.get_bind, Action.lift_bind_of_ok hexecution, Action.lift_bind_of_ok htop,
    Action.modify_bind]
  exact Action.bind_of_ok hstate

/-- The call of the main function is prepared with the bases of the builtins as arguments. -/
theorem exists_initializeMain {k : Nat} (h : r.HasRoom 0 1)
    (hmemory : r.memory = Memory.empty.widened (k + 2))
    (hstack : r.builtinStack =
      .ok (((List.range' 2 k).map fun i : Nat => Value.address (.base i)).map .value))
    (hk : k + 2 < offsetBound) {main : Int} {pc : Address} (hmain : r.program.main = some main)
    (hpc : (Address.base 0).shift main = .ok pc) (hdata : r.program.data.length < offsetBound) :
    ∃ m : Memory, m.IsFrame r.program.data k ∧ m.rules = [] ∧
      initializeMain r = .ok (.base (k + 3 : Nat))
        ((r.called pc ⟨1, k + 2, hk⟩ (.base (k + 3 : Nat))).withMemory m) := by
  let bases : List Value := (List.range' 2 k).map fun i : Nat => .address (.base i)
  have hlength : bases.length = k := by simp [bases]
  have hargs : bases.length + 2 < offsetBound := by rwa [hlength]
  have htop : (⟨(1 : Nat), bases.length + 2, hargs⟩ : Address) = ⟨1, k + 2, hk⟩ :=
    Address.ext rfl (congrArg (· + 2) hlength)
  have hreturn : onSegments (Segments.add none) r =
      .ok (.base (k + 2 : Nat)) (r.withMemory (r.memory.widened 1)) := by
    have hadd := add_eq r
    rwa [show r.memory.segments.size = k + 2 by simp [hmemory, Memory.empty]] at hadd
  obtain ⟨marks, hcall, hmem⟩ :=
    exists_initializeCall (h.widened 1) (.address (.base (k + 2 : Nat))) hpc hdata hargs
  have hsize : (r.memory.widened 1).segments.size = k + 3 := by simp [hmemory, Memory.empty]
  have hwidened : (r.memory.widened 1).widened 1 = Memory.empty.widened (k + 4) := by
    rw [hmemory, Memory.widened_widened, Memory.widened_widened]
  rw [memory_withMemory, hsize, hwidened, htop] at hcall
  refine ⟨_, Memory.isFrame_fill marks fun a => ?_, rfl, ?_⟩
  · rw [hmem, memory_withMemory, hmemory]
    exact or_iff_right Std.ExtTreeSet.not_mem_empty
  · unfold initializeMain
    rw [Action.get_bind, Action.lift_bind_of_ok hstack,
      Action.lift_bind_of_ok (Answer.orThrow_eq_ok.mpr hmain), Action.bind_of_ok hreturn]
    exact hcall

/-- Where the program is entered and where it ends has an offset if it could be loaded. -/
theorem bounds_of_initializeState {entrypoint : Int} {stack : List Datum} {i : Int}
    {execution : Address} (h : initializeState entrypoint stack r = .ok () t)
    (hprogram : r.programBase = some (.base i)) (hexecution : r.executionBase = some execution) :
    (0 ≤ entrypoint ∧ entrypoint < offsetBound) ∧ r.program.data.length < offsetBound := by
  rw [initializeState_of_bases hprogram hexecution] at h
  obtain ⟨pc, _, hlift, h⟩ := Action.bind_eq_ok.mp h
  obtain ⟨hpc, rfl⟩ := Action.lift_eq_ok.mp hlift
  rw [Action.modify_bind] at h
  obtain ⟨b, _, hload, -⟩ := Action.bind_eq_ok.mp h
  unfold onSegments onMachine at hload
  obtain ⟨_, hmachine, -⟩ := Action.within_eq_ok.mp hload
  obtain ⟨_, hmemory, -⟩ := Machine.onMemory_eq_ok.mp hmachine
  have hend := Memory.shift_of_load hmemory
  rw [List.length_map] at hend
  have hlength := (Address.exists_shift_base.mp ⟨b, hend⟩).2
  exact ⟨Address.exists_shift_base.mp ⟨pc, hpc⟩, Int.ofNat_lt.mp hlength⟩

/-- Where the main function starts and where the program ends has an offset if its call could be
prepared. -/
theorem bounds_of_initializeMain {final : Address} (h : r.HasRoom p e)
    (hmain : initializeMain r = .ok final t) :
    (∃ main, r.program.main = some main ∧ 0 ≤ main ∧ main < offsetBound) ∧
      r.program.data.length < offsetBound := by
  unfold initializeMain at hmain
  rw [Action.get_bind] at hmain
  obtain ⟨stack, _, hlift, hmain⟩ := Action.bind_eq_ok.mp hmain
  obtain ⟨-, rfl⟩ := Action.lift_eq_ok.mp hlift
  obtain ⟨main, _, hlift, hmain⟩ := Action.bind_eq_ok.mp hmain
  obtain ⟨hsome, rfl⟩ := Action.lift_eq_ok.mp hlift
  rw [Action.bind_of_ok (add_eq r)] at hmain
  unfold initializeCall at hmain
  rw [Action.bind_of_ok (add_eq _), Action.get_bind] at hmain
  obtain ⟨execution, _, hlift, hmain⟩ := Action.bind_eq_ok.mp hmain
  obtain ⟨-, rfl⟩ := Action.lift_eq_ok.mp hlift
  obtain ⟨top, _, hlift, hmain⟩ := Action.bind_eq_ok.mp hmain
  obtain ⟨-, rfl⟩ := Action.lift_eq_ok.mp hlift
  rw [Action.modify_bind] at hmain
  obtain ⟨_, _, hstate, -⟩ := Action.bind_eq_ok.mp hmain
  obtain ⟨⟨hfirst, hlast⟩, hdata⟩ :=
    bounds_of_initializeState hstate h.programBase h.executionBase
  exact ⟨⟨main, Answer.orThrow_eq_ok.mp hsome, hfirst, hlast⟩, hdata⟩

end Run

end Cairo
