import Mathlib.Algebra.Order.Floor.Div
import Cairo.Proofs.Run.Linear
import Cairo.Proofs.Run.Secure

/-!
# Reading the stop pointers

At its end a program leaves one pointer on the stack for each included builtin, in the order of the
builtins.  They are read from the last one down, and each of them has to point behind the instances
that its builtin has used.  So the pointer of a builtin is expected as many cells below the
allocation pointer as there are included builtins from this one on.  Reading succeeds just if all
pointers are there, and it answers the address of the first of them
(`readReturnValues_ok_iff_stopsAt`).
-/

namespace Cairo

/-! ## Cells below a pointer -/

/-- The address a number of cells below a pointer, if there is one. -/
def Address.below? (pointer : Option Address) (n : Nat) : Option Address :=
  pointer.bind fun a => (a.shift (-n)).toOption

namespace Address

variable {pointer : Option Address} {a c : Address}

/-- An address stands below a pointer that is set. -/
theorem below?_eq_some_iff {n : Nat} :
    below? pointer n = some c ↔ ∃ a, pointer = some a ∧ a.shift (-n) = .ok c := by
  unfold below?
  rw [Option.bind_eq_some_iff]
  refine exists_congr fun a => and_congr_right fun _ => ?_
  cases a.shift (-n) with
  | ok b => simp [Except.toOption]
  | error e => simp [Except.toOption]

/-- No cell below a pointer is the pointer itself. -/
theorem below?_zero : below? pointer 0 = pointer := by
  cases pointer with
  | none => rfl
  | some a =>
    refine below?_eq_some_iff.mpr ⟨a, rfl, shift_eq_ok.mpr ⟨rfl, ?_⟩⟩
    simp

/-- Below the cell below a pointer is below the pointer. -/
theorem below?_succ (hc : below? pointer 1 = some c) (n : Nat) :
    below? (some c) n = below? pointer (n + 1) := by
  obtain ⟨a, rfl, ha⟩ := below?_eq_some_iff.mp hc
  ext d
  have hstep : c.shift (-n) = .ok d ↔ a.shift (-(n + 1 : Nat)) = .ok d := by
    rw [shift_trans ha]
    congr! 2
    omega
  simpa [below?_eq_some_iff] using hstep

end Address

/-- An address is read from a cell that holds one. -/
theorem Memory.readAddress_eq_ok {m : Memory} {a b : Address} :
    m.readAddress a = .ok b ↔ m.get? a = some (.address b) := by
  unfold readAddress read
  cases m.get? a with
  | none => simp [Action.orThrow, Answer.bind_eq_ok]
  | some v =>
    cases v with
    | address c => simp [Action.orThrow, Answer.bind_eq_ok, Answer.pure_eq_ok]
    | felt x => simp [Action.orThrow, Answer.bind_eq_ok, Answer.throw_eq_ok]

/-! ## The stop pointer of a builtin -/

namespace Builtin

variable {b b' : Builtin} {s : Segments} {stop : Address} {pointer next : Option Address}

/-- The address behind the instances that a builtin has used in its segment of a memory; an instance
that is begun counts as a whole. -/
structure StopsAt (b : Builtin) (m : Memory) (stop : Address) : Prop where
  segment : b.segment = some stop.segment
  isReal : 0 ≤ stop.segment
  offset : ∃ cells, m.segment? stop.segment = some cells ∧
    stop.offset = cells.size ⌈/⌉ b.kind.cellsPerInstance * b.kind.cellsPerInstance

/-- No cell of the segment is written at the stop pointer or behind it. -/
theorem StopsAt.offset_lt {m : Memory} (h : b.StopsAt m stop) {a : Address} {v : Value}
    (ha : a.segment = stop.segment) (hv : m.get? a = some v) : a.offset < stop.offset := by
  obtain ⟨cells, hcells, hoffset⟩ := h.offset
  obtain ⟨cells', hcells', hcell⟩ := Memory.segment?_of_get? hv
  obtain rfl : cells = cells' := by
    rw [ha, hcells] at hcells'
    exact Option.some.inj hcells'
  have hsize : a.offset < cells.size := by
    by_contra hge
    rw [Array.getElem?_eq_none (Nat.not_lt.mp hge)] at hcell
    cases hcell
  have hround : cells.size ≤ b.kind.cellsPerInstance * (cells.size ⌈/⌉ b.kind.cellsPerInstance) :=
    le_smul_ceilDiv b.kind.cellsPerInstance_pos
  rw [hoffset, mul_comm]
  omega

/-- The address stays the same as long as the segments do. -/
theorem StopsAt.of_segments {m t : Memory} (h : b.StopsAt m stop)
    (hsegments : ∀ i cells, m.segment? i = some cells → t.segment? i = some cells) :
    b.StopsAt t stop := by
  obtain ⟨cells, hcells, hoffset⟩ := h.offset
  exact ⟨h.segment, h.isReal, cells, hsegments _ cells hcells, hoffset⟩

/-- The stop pointer that a builtin expects, by the sizes in use. -/
structure Expects (b : Builtin) (s : Segments) (stop : Address) : Prop where
  segment : b.segment = some stop.segment
  offset : ∃ size, s.usedSize stop.segment = .ok (some size) ∧
    stop.offset = size ⌈/⌉ b.kind.cellsPerInstance * b.kind.cellsPerInstance

/-- The sizes in use are those of the real segments of a memory. -/
theorem expects_iff_stopsAt {m : Memory}
    (hused : s.usedSizes = some (m.segments.toList.map Array.size)) :
    b.Expects s stop ↔ b.StopsAt m stop := by
  have hsize : ∀ {i : Int} {n : Nat}, s.usedSize i = .ok (some n) ↔
      0 ≤ i ∧ ∃ cells, m.segment? i = some cells ∧ cells.size = n := by
    intro i n
    unfold Segments.usedSize
    rw [hused]
    cases i with
    | ofNat k => simp [Memory.segment?]
    | negSucc k => simp
  constructor
  · rintro ⟨hsegment, size, hsome, hoffset⟩
    obtain ⟨hreal, cells, hcells, rfl⟩ := hsize.mp hsome
    exact ⟨hsegment, hreal, cells, hcells, hoffset⟩
  · rintro ⟨hsegment, hreal, cells, hcells, hoffset⟩
    exact ⟨hsegment, cells.size, hsize.mpr ⟨hreal, cells, hcells, rfl⟩, hoffset⟩

/-- The used instances are those that the size in use makes up, if there is one. -/
theorem usedInstances_eq_ok {n : Nat} :
    b.usedInstances s = .ok n ↔ ∃ i size, b.segment = some i ∧ s.usedSize i = .ok (some size) ∧
      n = size ⌈/⌉ b.kind.cellsPerInstance := by
  unfold usedInstances requireUsedCells usedCells
  simp only [Answer.bind_eq_ok, Answer.pure_eq_ok, Answer.orThrow_eq_ok, requireSegment_eq_ok]
  constructor
  · rintro ⟨size, ⟨_, ⟨i, hi, hsize⟩, rfl⟩, rfl⟩
    exact ⟨i, size, hi, hsize, rfl⟩
  · rintro ⟨i, size, hi, hsize, rfl⟩
    exact ⟨size, ⟨_, ⟨i, hi, hsize⟩, rfl⟩, rfl⟩

/-- An included builtin finds its stop pointer just below the given one, and keeps its offset. -/
theorem finalStack_ok_iff_of_included (hincluded : b.included = true) :
    finalStack s pointer b = .ok next b' ↔ ∃ cell stop, Address.below? pointer 1 = some cell ∧
      s.memory.get? cell = some (.address stop) ∧ b.Expects s stop ∧ next = some cell ∧
        b' = { b with stopOffset := some stop.offset } := by
  unfold finalStack
  rw [Action.get_bind, if_pos hincluded]
  simp only [Action.bind_eq_ok, Action.lift_eq_ok, Answer.orThrow_eq_ok, requireSegment_eq_ok,
    usedInstances_eq_ok, Address.make_eq_ok]
  constructor
  · rintro ⟨a, _, ⟨rfl, rfl⟩, cell, _, ⟨hcell, rfl⟩, stop, _, ⟨hstop, rfl⟩, used, _,
      ⟨⟨i, size, hi, hsize, rfl⟩, rfl⟩, _, _, ⟨hi', rfl⟩, expected, _, ⟨⟨hsegment, hoffset⟩, rfl⟩,
      h⟩
    obtain rfl := Option.some.inj (hi.symm.trans hi')
    split at h
    · obtain ⟨_, _, hthrow, -⟩ := Action.bind_eq_ok.mp h
      cases hthrow
    · rename_i heq
      obtain rfl := not_not.mp heq
      obtain ⟨_, _, hmodify, h⟩ := Action.bind_eq_ok.mp h
      obtain rfl := Action.modify_eq_ok.mp hmodify
      obtain ⟨rfl, rfl⟩ := Action.pure_eq_ok.mp h
      have hexpects : b.Expects s stop := ⟨hsegment ▸ hi, size, hsegment ▸ hsize, by omega⟩
      exact ⟨cell, stop, Address.below?_eq_some_iff.mpr ⟨a, rfl, hcell⟩,
        Memory.readAddress_eq_ok.mp hstop, hexpects, rfl, rfl⟩
  · rintro ⟨cell, stop, hbelow, hget, ⟨hsegment, size, hsize, hoffset⟩, rfl, rfl⟩
    obtain ⟨a, rfl, hcell⟩ := Address.below?_eq_some_iff.mp hbelow
    have hstop := Memory.readAddress_eq_ok.mpr hget
    refine ⟨a, b, ⟨rfl, rfl⟩, cell, b, ⟨hcell, rfl⟩, stop, b, ⟨hstop, rfl⟩, _, b,
      ⟨⟨_, size, hsegment, hsize, rfl⟩, rfl⟩, _, b, ⟨hsegment, rfl⟩, stop, b,
      ⟨⟨rfl, congrArg Nat.cast hoffset⟩, rfl⟩, ?_⟩
    rw [if_neg (not_not.mpr rfl)]
    rfl

/-- A builtin that is not included has no stop pointer on the stack. -/
theorem finalStack_ok_iff_of_not_included (hincluded : b.included = false) :
    finalStack s pointer b = .ok next b' ↔
      next = pointer ∧ b' = { b with stopOffset := some 0 } := by
  unfold finalStack
  rw [Action.get_bind, if_neg (by simp [hincluded])]
  constructor
  · intro h
    obtain ⟨_, _, hmodify, h⟩ := Action.bind_eq_ok.mp h
    obtain rfl := Action.modify_eq_ok.mp hmodify
    obtain ⟨rfl, rfl⟩ := Action.pure_eq_ok.mp h
    exact ⟨rfl, rfl⟩
  · rintro ⟨rfl, rfl⟩
    rfl

/-- What reading its stop pointer makes of a builtin: it keeps the offset, which is zero if it is
not included. -/
inductive Keeps (s : Segments) (b : Builtin) : Builtin → Prop
  | stop {stop : Address} (hincluded : b.included = true) (hstop : b.Expects s stop) :
      Keeps s b { b with stopOffset := some stop.offset }
  | zero (hincluded : b.included = false) : Keeps s b { b with stopOffset := some 0 }

/-- Some builtins have their stop pointers below a given one: the first included one has it just
below, and each further one a cell below the one before. -/
def HaveStops (s : Segments) (pointer : Option Address) (bs : List Builtin) : Prop :=
  ∀ n b, (bs.filter (·.included))[n]? = some b → ∃ cell stop,
    Address.below? pointer (n + 1) = some cell ∧ s.memory.get? cell = some (.address stop) ∧
      b.Expects s stop

variable {rest : List Builtin}

/-- A builtin that is not included takes no cell. -/
theorem haveStops_cons_of_not_included (hincluded : b.included = false) :
    HaveStops s pointer (b :: rest) ↔ HaveStops s pointer rest := by
  unfold HaveStops
  rw [List.filter_cons_of_neg (by simp [hincluded])]

/-- An included builtin takes the cell just below the pointer, and the others those below. -/
theorem haveStops_cons_of_included (hincluded : b.included = true) :
    HaveStops s pointer (b :: rest) ↔ ∃ cell stop, Address.below? pointer 1 = some cell ∧
      s.memory.get? cell = some (.address stop) ∧ b.Expects s stop ∧
        HaveStops s (some cell) rest := by
  unfold HaveStops
  rw [List.filter_cons_of_pos hincluded]
  constructor
  · intro h
    obtain ⟨cell, stop, hcell, hget, hstop⟩ := h 0 b rfl
    refine ⟨cell, stop, hcell, hget, hstop, fun n b' hb' => ?_⟩
    rw [Address.below?_succ hcell]
    exact h (n + 1) b' hb'
  · rintro ⟨cell, stop, hcell, hget, hstop, hrest⟩ n b' hb'
    cases n with
    | zero =>
      obtain rfl := Option.some.inj hb'
      exact ⟨cell, stop, hcell, hget, hstop⟩
    | succ n =>
      rw [← Address.below?_succ hcell]
      exact hrest n b' hb'

/-- In the reverse order the last builtin has its stop pointer at the top, so the place of a builtin
is counted from the end. -/
theorem haveStops_reverse_iff {bs : List Builtin} :
    HaveStops s pointer bs.reverse ↔
      ∀ j b, (bs.filter (·.included))[j]? = some b → ∃ cell stop,
        Address.below? pointer ((bs.filter (·.included)).length - j) = some cell ∧
          s.memory.get? cell = some (.address stop) ∧ b.Expects s stop := by
  unfold HaveStops
  rw [List.filter_reverse]
  generalize bs.filter (·.included) = included
  constructor
  · intro h j b hb
    obtain ⟨hlt, -⟩ := List.getElem?_eq_some_iff.mp hb
    have hplace : included.length - 1 - j + 1 = included.length - j := by omega
    rw [← hplace]
    refine h _ b ?_
    rw [List.getElem?_reverse (by omega), ← hb]
    congr 1
    omega
  · intro h n b hb
    obtain ⟨hlt, -⟩ := List.getElem?_eq_some_iff.mp hb
    rw [List.length_reverse] at hlt
    have hplace : included.length - (included.length - 1 - n) = n + 1 := by omega
    rw [← hplace]
    refine h _ b ?_
    rw [← hb, List.getElem?_reverse hlt]

end Builtin

namespace Run

open Builtin

variable {r r' t : Run} {s : Segments} {pointer last : Option Address} {b : Builtin}
  {bs bs' : List Builtin}

/-! ## All stop pointers -/

/-- The stop pointers are read one after another. -/
theorem readStops_cons_eq_ok :
    readStops s pointer (b :: bs) = .ok last bs' ↔ ∃ next b' rest,
      finalStack s pointer b = .ok next b' ∧ readStops s next bs = .ok last rest ∧
        bs' = b' :: rest := by
  rw [readStops]
  cases finalStack s pointer b with
  | error e b' => simp
  | ok next b' =>
    dsimp only
    cases hrest : readStops s next bs with
    | error e rest => simp [hrest]
    | ok last' rest => simp [hrest, eq_comm]

/-- Where stop pointers are read they stand below the pointer, the address that is answered is that
of the last one, and each builtin keeps its own. -/
theorem haveStops_of_readStops (h : readStops s pointer bs = .ok last bs') :
    HaveStops s pointer bs ∧ last = Address.below? pointer (bs.countP (·.included)) ∧
      List.Forall₂ (Keeps s) bs bs' := by
  induction bs generalizing pointer bs' with
  | nil =>
    cases h
    exact ⟨nofun, Address.below?_zero.symm, .nil⟩
  | cons b rest ih =>
    obtain ⟨next, b', rest', hfirst, hrest, rfl⟩ := readStops_cons_eq_ok.mp h
    obtain ⟨hstops, hlast, hkeeps⟩ := ih hrest
    cases hincluded : b.included with
    | false =>
      obtain ⟨rfl, rfl⟩ := (finalStack_ok_iff_of_not_included hincluded).mp hfirst
      refine ⟨(haveStops_cons_of_not_included hincluded).mpr hstops, ?_,
        .cons (.zero hincluded) hkeeps⟩
      rw [hlast, List.countP_cons_of_neg (by simp [hincluded])]
    | true =>
      obtain ⟨cell, stop, hcell, hget, hstop, rfl, rfl⟩ :=
        (finalStack_ok_iff_of_included hincluded).mp hfirst
      have hall := (haveStops_cons_of_included hincluded).mpr
        ⟨cell, stop, hcell, hget, hstop, hstops⟩
      refine ⟨hall, ?_, .cons (.stop hincluded hstop) hkeeps⟩
      rw [hlast, Address.below?_succ hcell, List.countP_cons_of_pos hincluded]

/-- Stop pointers that stand below the pointer are read. -/
theorem exists_readStops (h : HaveStops s pointer bs) :
    ∃ last bs', readStops s pointer bs = .ok last bs' := by
  induction bs generalizing pointer with
  | nil => exact ⟨_, _, rfl⟩
  | cons b rest ih =>
    cases hincluded : b.included with
    | false =>
      obtain ⟨last, rest', hrest⟩ := ih ((haveStops_cons_of_not_included hincluded).mp h)
      have hfirst : finalStack s pointer b = .ok pointer { b with stopOffset := some 0 } :=
        (finalStack_ok_iff_of_not_included hincluded).mpr ⟨rfl, rfl⟩
      exact ⟨last, _, readStops_cons_eq_ok.mpr ⟨_, _, rest', hfirst, hrest, rfl⟩⟩
    | true =>
      obtain ⟨cell, stop, hcell, hget, hstop, hbelow⟩ :=
        (haveStops_cons_of_included hincluded).mp h
      obtain ⟨last, rest', hrest⟩ := ih hbelow
      have hfirst := (finalStack_ok_iff_of_included hincluded).mpr
        ⟨cell, stop, hcell, hget, hstop, rfl, rfl⟩
      exact ⟨last, _, readStops_cons_eq_ok.mpr ⟨_, _, rest', hfirst, hrest, rfl⟩⟩

/-- The return values of a run that has ended are read from the last builtin to the first, which
changes the builtins only. -/
theorem readReturnValues_eq_ok (hended : r.hasEnded = true) :
    readReturnValues r = .ok last t ↔ ∃ bs,
      readStops r.machine.segments r.machine.registers.ap r.machine.builtins.reverse =
        .ok last bs.reverse ∧ t = { r with machine := { r.machine with builtins := bs } } := by
  unfold readReturnValues
  rw [Action.get_bind, if_neg (by simp [hended])]
  unfold onBuiltins onMachine Machine.onBuiltins
  simp only [Action.within_eq_ok]
  constructor
  · rintro ⟨_, ⟨_, ⟨bs, hread, rfl⟩, rfl⟩, rfl⟩
    exact ⟨bs.reverse, by rwa [List.reverse_reverse], rfl⟩
  · rintro ⟨bs, hread, rfl⟩
    exact ⟨_, ⟨_, ⟨_, hread, rfl⟩, rfl⟩, by rw [List.reverse_reverse]⟩

/-! ## After the end of a run -/

/-- What the return values tell of a builtin, whose used instances are those of a memory that was
left at the end of a run.  It keeps the offset of its stop pointer, and none of its cells is written
now at this pointer or behind it; if it is not included the offset is zero. -/
inductive Stopped (atEnd now : Memory) (b : Builtin) : Builtin → Prop
  | included {stop : Address} (hincluded : b.included = true) (hstop : b.StopsAt atEnd stop)
      (hbefore : ∀ a v, a.segment = stop.segment → now.get? a = some v → a.offset < stop.offset) :
      Stopped atEnd now b { b with stopOffset := some stop.offset }
  | excluded (hincluded : b.included = false) : Stopped atEnd now b { b with stopOffset := some 0 }

/-- No cell was written in between: the second run has the segments of the first one, and has ended
just as the first one has, with the same sizes in use. -/
structure Unwritten (r t : Run) : Prop where
  hasEnded : t.hasEnded = r.hasEnded
  usedSizes : t.machine.segments.usedSizes = r.machine.segments.usedSizes
  segments : ∀ i cells, r.memory.segment? i = some cells → t.memory.segment? i = some cells

instance : IsPreorder Run Unwritten where
  refl _ := ⟨rfl, rfl, fun _ _ h => h⟩
  trans _ _ _ h h' := ⟨h'.hasEnded.trans h.hasEnded, h'.usedSizes.trans h.usedSizes,
    fun i cells hi => h'.segments i cells (h.segments i cells hi)⟩

/-- Reading the return values writes no cell. -/
theorem unwritten_readReturnValues (h : readReturnValues r = .ok last t) : r.Unwritten t := by
  have hended : r.hasEnded = true := by
    by_contra hnot
    unfold readReturnValues at h
    rw [Action.get_bind, if_pos (by simp [hnot])] at h
    cases h
  obtain ⟨bs, -, rfl⟩ := (readReturnValues_eq_ok hended).mp h
  exact ⟨rfl, rfl, fun _ _ hi => hi⟩

/-- A run that was ended has ended. -/
theorem hasEnded_of_endRun (h : endRun r = .ok () t) : t.hasEnded = true := by
  obtain ⟨_, _, -, h⟩ := Action.bind_eq_ok.mp h
  split at h
  · cases h
  obtain ⟨_, _, -, h⟩ := Action.bind_eq_ok.mp h
  obtain ⟨_, _, -, h⟩ := Action.bind_eq_ok.mp h
  obtain ⟨_, _, -, h⟩ := Action.bind_eq_ok.mp h
  obtain rfl := Action.modify_eq_ok.mp h
  rfl

/-- After a run was ended, which fixed the sizes in use, and with no cell written since, the return
values can be read just if each included builtin has its pointer on the stack: as many cells below
the allocation pointer as there are included builtins from it on stands the address behind the
instances that it has used.  Then the address of the first pointer is answered, each included
builtin keeps the offset of its own, at or behind which none of its cells is written, and nothing
else changes. -/
theorem readReturnValues_ok_iff_stopsAt {r₀ : Run}
    (hused : r₀.machine.segments.usedSizes = none) (hend : endRun r₀ = .ok () r)
    (hunwritten : r.Unwritten r') :
    ((∃ p t, readReturnValues r' = .ok p t) ↔
      ∀ j b, (r'.machine.builtins.filter (·.included))[j]? = some b → ∃ cell stop,
        Address.below? r'.machine.registers.ap
            ((r'.machine.builtins.filter (·.included)).length - j) = some cell ∧
          r'.memory.get? cell = some (.address stop) ∧ b.StopsAt r.memory stop) ∧
      ∀ p t, readReturnValues r' = .ok p t →
        p = Address.below? r'.machine.registers.ap
            (r'.machine.builtins.filter (·.included)).length ∧
          ∃ bs, t = { r' with machine := { r'.machine with builtins := bs } } ∧
            List.Forall₂ (Stopped r.memory r'.memory) r'.machine.builtins bs := by
  have hended : r'.hasEnded = true := hunwritten.hasEnded.trans (hasEnded_of_endRun hend)
  have hsizes : r'.machine.segments.usedSizes = some (r.memory.segments.toList.map Array.size) :=
    hunwritten.usedSizes.trans (endRun_ok hused hend).2.1
  have hexpects : ∀ {b : Builtin} {stop : Address},
      b.Expects r'.machine.segments stop ↔ b.StopsAt r.memory stop := expects_iff_stopsAt hsizes
  constructor
  · simp only [← hexpects]
    refine Iff.trans ?_ haveStops_reverse_iff
    constructor
    · rintro ⟨p, t, hread⟩
      obtain ⟨bs, hstops, -⟩ := (readReturnValues_eq_ok hended).mp hread
      exact (haveStops_of_readStops hstops).1
    · intro hstops
      obtain ⟨p, bs, hread⟩ := exists_readStops hstops
      exact ⟨p, _, (readReturnValues_eq_ok hended).mpr
        ⟨bs.reverse, by rwa [List.reverse_reverse], rfl⟩⟩
  · intro p t hread
    obtain ⟨bs, hstops, rfl⟩ := (readReturnValues_eq_ok hended).mp hread
    obtain ⟨-, hlast, hkeeps⟩ := haveStops_of_readStops hstops
    refine ⟨?_, bs, rfl, ?_⟩
    · rw [hlast, List.countP_reverse, List.countP_eq_length_filter]
    · refine (List.forall₂_reverse_iff.mp hkeeps).imp fun b b' hb => ?_
      cases hb with
      | stop hincluded hstop =>
        have hstop' := hexpects.mp hstop
        exact .included hincluded hstop' fun a v ha hv =>
          (hstop'.of_segments hunwritten.segments).offset_lt ha hv
      | zero hincluded => exact .excluded hincluded

/-- A function with two included builtins and one between them that is not: it writes a number to
the output, and returns the two stop pointers. -/
def depositing : Program where
  data := [.felt 0x480680017fff8000, .felt 12, .felt 0x400280007ffc7fff, .felt 0x482680017ffc8000,
    .felt 1, .felt 0x480a7ffd7fff8000, .felt 0x208b7fff7fff7ffe]
  builtins := []
  main := some 0
  hints := []
  constants := ∅
  labels := ∅

/-- The run of this function up to its end. -/
def deposited : Run :=
  (new depositing ⟨"depositing", []⟩ true false).afterOperations
    [.addBuiltin "output" [], .addBuiltin "poseidon" [("included", .truth false)],
      .addBuiltin "range_check" [], .initializeSegments none, .initializeMain, .initializeMachine,
      .advance (.toAddress (some (.base 6)) ⟨some 10⟩)]

/-- The two pointers of this run are read, and read again. -/
theorem readReturnValues_ok_iff_stopsAt_depositing :
    ∃ r r' t p, endRun deposited = .ok () r ∧ readReturnValues r = .ok p r' ∧
      readReturnValues r' = .ok p t ∧ p = Address.below? r'.machine.registers.ap 2 ∧
        List.Forall₂ (Stopped r.memory r'.memory) r'.machine.builtins t.machine.builtins := by
  have hend : endRun deposited = .ok () (endRun.after deposited) :=
    Action.eq_ok_of_isOk (by decide +kernel)
  have hfirst : readReturnValues (endRun.after deposited) = .ok (some ⟨1, 5, by decide⟩) _ :=
    Action.eq_ok_of_toOption (by decide +kernel)
  have hsecond : readReturnValues (readReturnValues.after (endRun.after deposited)) =
      .ok (some ⟨1, 5, by decide⟩) _ := Action.eq_ok_of_toOption (by decide +kernel)
  have hused : deposited.machine.segments.usedSizes = none := by decide +kernel
  have hcount : ((readReturnValues.after (endRun.after deposited)).machine.builtins.filter
      (·.included)).length = 2 := by decide +kernel
  obtain ⟨hp, bs, ht, hstopped⟩ := (readReturnValues_ok_iff_stopsAt hused hend
    (unwritten_readReturnValues hfirst)).2 _ _ hsecond
  rw [hcount] at hp
  rw [ht] at hsecond
  exact ⟨_, _, _, _, hend, hfirst, hsecond, hp, hstopped⟩

end Run

end Cairo
