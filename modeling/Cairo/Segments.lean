import Cairo.Memory.Relocation
import Cairo.Memory.Linear

/-!
# Segments and their sizes

`Segments` is a memory together with what is known of the sizes of its segments.  The sizes in use
are computed once and then kept, also if the memory grows; a size that was set for a segment
counts before the one in use.  `relocationTable` lays the segments out one after another from
address 1, and `argument` turns nested lists into segments of their own.
-/

namespace Cairo

/-- A memory, the sizes of its segments, and which of their cells are public. -/
structure Segments where
  memory : Memory
  usedSizes : Option (List Nat)
  fixedSizes : Std.ExtTreeMap Int Int
  publicOffsets : Std.ExtTreeMap Int (List Int)

namespace Segments

/-- No segments. -/
def empty : Segments := ⟨.empty, none, ∅, ∅⟩

instance : Inhabited Segments := ⟨empty⟩

/-- An action on the memory. -/
def onMemory {α : Type} (x : Action Memory α) : Action Segments α :=
  Action.within (·.memory) (fun s m => { s with memory := m }) x

/-- Sets the size of a segment, if one is given, and its public cells. -/
def finalize (s : Segments) (i : Int) (size : Option Int) (offsets : List Int) : Segments :=
  let s := match size with
    | some n => { s with fixedSizes := s.fixedSizes.insert i n }
    | none => s
  { s with publicOffsets := s.publicOffsets.insert i offsets }

/-- A new segment, of a fixed size if one is given, and its base. -/
def add (size : Option Int) : Action Segments Address := do
  let i ← onMemory Memory.addSegment
  if size.isSome then
    modify (·.finalize i size [])
  return .base i

/-- A new temporary segment, and its base. -/
def addTemporary : Action Segments Address := do
  return .base (← onMemory Memory.addTemporary)

/-- Writes data from an address on and answers the address after them. -/
def load (a : Address) (data : List Datum) : Action Segments Address :=
  onMemory (Memory.load a data)

/-- The numbers of segments in a report. -/
def text (s : Segments) : String :=
  "MemorySegmentManager(num_segments=" ++ toString s.memory.segments.size ++
    ", num_temp_segments=" ++ toString s.memory.temporaries.size ++ ")"

/-! ### Sizes -/

/-- The sizes in use, computed now if they were not before. -/
def computeSizes : Action Segments (List Nat) := do
  let s ← get
  match s.usedSizes with
  | some sizes => return sizes
  | none =>
    let sizes := s.memory.segments.toList.map Array.size
    modify fun s => { s with usedSizes := some sizes }
    return sizes

/-- The size in use of a segment, if it was there when the sizes were computed. -/
def usedSize (s : Segments) (i : Int) : Except Fault (Option Nat) :=
  match s.usedSizes with
  | none => .error .missingSizes
  | some sizes => .ok (if i < 0 then none else sizes[i.toNat]?)

/-- The size of a segment: the one that was set, or else the one in use. -/
def size (s : Segments) (i : Int) : Except Fault (Option Int) :=
  match s.fixedSizes[i]? with
  | some n => .ok (some n)
  | none => do return (← s.usedSize i).map Int.ofNat

/-- The size of a segment, where a computation needs one. -/
def requireSize (s : Segments) (i : Int) : Except Fault Int := do
  Action.orThrow (← s.size i) .unsupportedOperand

/-- The first linear addresses of the segments from an index on, the first at `start`. -/
def tableFrom (s : Segments) (start : Int) (i : Nat) : Nat → Except Fault (List Int)
  | 0 => .ok []
  | count + 1 => do
    let n ← s.requireSize i
    return start :: (← s.tableFrom (start + n) (i + 1) count)

/-- The linear address of the first cell of every real segment.  Address 0 is never used. -/
def relocationTable (s : Segments) : Except Fault (List Int) :=
  if s.usedSizes.isNone then .error .missingSizes
  else s.tableFrom 1 0 s.memory.segments.size

/-- The cells of a segment that were never accessed; none where no cell was. -/
def holesOf (s : Segments) (i : Nat) : Except Fault Int :=
  match s.memory.accessedCount i with
  | none | some 0 => .ok 0
  | some accessed => do return (← s.requireSize i) - accessed

/-- The cells never accessed in the accessed segments, leaving out those of builtins. -/
def memoryHoles (s : Segments) (builtinSegments : List Int) : Except Fault Int :=
  if s.usedSizes.isNone then .error .missingSizes
  else
    (List.range s.memory.segments.size).foldlM (fun (holes : Int) (i : Nat) => do
      if builtinSegments.contains (i : Int) then return holes
      return holes + (← s.holesOf i)) 0

/-! ### Arguments -/

/-- The datum is a value that memory can hold now: an address must not lie in a real segment that
is not allocated. -/
def isStorable (s : Segments) : Datum → Bool
  | .value (.felt _) => true
  | .value (.address a) => decide (a.segment < s.memory.segments.size)
  | _ => false

mutual

/-- The value of an argument; a list is written to a new segment and stands for its base. -/
def argument : Datum → Action Segments Value
  | .value v => pure v
  | .truth b => pure (.felt (Felt.ofInt b.toNat))
  | .integer n => pure (.felt (Felt.ofInt n))
  | .list items => do
    let base ← add none
    let values ← arguments items
    let _ ← load base (values.map .value)
    return .address base
  | .nothing => throw (.unsupportedArgument .nothing)
  | .text s => throw (.unsupportedArgument (.text s))

/-- The values of a list of arguments, in order. -/
def arguments : List Datum → Action Segments (List Value)
  | [] => pure []
  | d :: rest => do
    let v ← argument d
    return v :: (← arguments rest)

end

/-- Writes a list of arguments from an address on and answers the address after them. -/
def writeArguments (a : Address) (items : List Datum) : Action Segments Address := do
  let values ← arguments items
  load a (values.map .value)

end Segments

end Cairo
