import Cairo.Trace.Linear

/-!
# Profiles

A profile lists the frames of a trace, one for each frame pointer, with the steps made in them.
The trace is cut into stretches of rows with one frame pointer (`stretches`); a frame sums up the
stretches of its frame pointer, from the first to the last.
-/

namespace Cairo

/-- A frame of a profile: where it was entered from, the steps made in it, and the steps from its
first to its last one. -/
structure Frame where
  fp : Int
  parent : Option Int
  entryPc : Int
  ownSteps : Nat
  allSteps : Nat
deriving DecidableEq, Inhabited

namespace Profile

/-- A run of rows with the same frame pointer; `before` counts the rows ahead of it. -/
structure Stretch where
  fp : Int
  parent : Option Int
  entryPc : Int
  before : Nat
  length : Nat

/-- The number of rows up to the end of a stretch. -/
def Stretch.stop (s : Stretch) : Nat := s.before + s.length

/-- The stretches of the rows that follow a stretch, and that stretch itself. -/
def stretchesFrom (s : Stretch) : List TraceRow → List Stretch
  | [] => [s]
  | r :: rest =>
    if r.fp = s.fp then stretchesFrom { s with length := s.length + 1 } rest
    else s :: stretchesFrom ⟨r.fp, some s.fp, r.pc, s.stop, 1⟩ rest

/-- The stretches of a trace. -/
def stretches : List TraceRow → List Stretch
  | [] => []
  | r :: rest => stretchesFrom ⟨r.fp, none, r.pc, 0, 1⟩ rest

/-- The frame that begins with a stretch, given the later stretches of its frame pointer. -/
def frameOf (first : Stretch) (later : List Stretch) : Frame :=
  { fp := first.fp
    parent := first.parent
    entryPc := first.entryPc
    ownSteps := later.foldl (fun n s => n + s.length) first.length
    allSteps := (later.getLast?.getD first).stop - first.before }

/-- The frames of some stretches in the order of their first stretch; the rounds bound their
number. -/
def framesOf : Nat → List Stretch → List Frame
  | _, [] => []
  | 0, _ :: _ => []
  | rounds + 1, s :: rest =>
    frameOf s (rest.filter (·.fp = s.fp)) :: framesOf rounds (rest.filter (·.fp ≠ s.fp))

/-- The frames of a trace in the order of their first rows. -/
def frames (rows : List TraceRow) : List Frame :=
  let ss := stretches rows
  framesOf ss.length ss

/-- The frames of a trace by their frame pointers. -/
def framesByPointer (rows : List TraceRow) : List Frame :=
  (frames rows).mergeSort fun a b => decide (a.fp ≤ b.fp)

/-- The frames of a trace by all their steps, the largest first. -/
def framesByCost (rows : List TraceRow) : List Frame :=
  (frames rows).mergeSort fun a b => decide (b.allSteps ≤ a.allSteps)

end Profile

end Cairo
