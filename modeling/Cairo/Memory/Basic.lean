import Cairo.Datum.Arithmetic

/-!
# Segmented write-once memory

Memory is a list of segments, each a growing array of cells of which some are not written yet.
Segments with negative indexes are temporary and stand in an array of their own.  `get?` is the
view of a memory as a partial map; `insert` writes a cell once and then checks it against the
rules of its segment.  A cell that a rule rejects stays written, and is not counted as checked.
-/

namespace Cairo

/-- The cells of a segment; `none` marks a cell that is not written. -/
abbrev Segment := Array (Option Value)

/-- The rule that a cell is a field element of a number of 16-bit parts. -/
structure RangeRule where
  parts : Nat
deriving DecidableEq

/-- The bound of the field elements that a rule admits. -/
def RangeRule.bound (r : RangeRule) : Nat := Nat.pow 2 (16 * r.parts)

/-- Segmented memory, with the rules for its cells, the rules for moving temporary segments, and
the addresses that were checked or accessed. -/
structure Memory where
  segments : Array Segment
  temporaries : Array Segment
  rules : List (Int × List RangeRule)
  validated : AddressSet
  relocations : List (Int × Address)
  accessed : AddressSet

namespace Segment

/-- The segment with a cell written, and unwritten cells up to it. -/
def write (s : Segment) (offset : Nat) (v : Value) : Segment :=
  (s ++ Array.replicate (offset + 1 - s.size) none).setIfInBounds offset (some v)

/-- The written cells of a segment of the given index, in order. -/
def items (index : Int) (s : Segment) : List (Address × Value) :=
  s.toList.zipIdx.filterMap fun (cell, offset) =>
    match cell, Address.mk? index offset with
    | some v, some a => some (a, v)
    | _, _ => none

end Segment

namespace Memory

/-- The memory without segments. -/
def empty : Memory := ⟨#[], #[], [], ∅, [], ∅⟩

instance : Inhabited Memory := ⟨empty⟩

/-- The segment of an index; the temporary ones count down from `-1`. -/
def segment? (m : Memory) : Int → Option Segment
  | .ofNat n => m.segments[n]?
  | .negSucc n => m.temporaries[n]?

/-- The memory with a segment changed. -/
def modifySegment (m : Memory) (i : Int) (f : Segment → Segment) : Memory :=
  match i with
  | .ofNat n => { m with segments := m.segments.modify n f }
  | .negSucc n => { m with temporaries := m.temporaries.modify n f }

/-- The content of a cell, if it is written. -/
def get? (m : Memory) (a : Address) : Option Value :=
  (m.segment? a.segment).bind fun s => s[a.offset]?.join

/-- The written cells of the segment of an index, in order. -/
def itemsOf (m : Memory) (i : Int) : List (Address × Value) :=
  match m.segment? i with
  | some s => s.items i
  | none => []

/-- All written cells, the real segments first. -/
def items (m : Memory) : List (Address × Value) :=
  (List.range m.segments.size).flatMap (fun n : Nat => m.itemsOf n) ++
    (List.range m.temporaries.size).flatMap fun n => m.itemsOf (Int.negSucc n)

/-! ### Reading -/

/-- The segment of an index. -/
def getSegment (m : Memory) (i : Int) : Except Fault Segment :=
  Action.orThrow (m.segment? i) (.unallocatedSegment i m.segments.size)

/-- The content of a written cell. -/
def read (m : Memory) (a : Address) : Except Fault Value :=
  Action.orThrow (m.get? a) (.unknownCell a)

/-- The field element in a cell. -/
def readFelt (m : Memory) (a : Address) : Except Fault Felt := do
  match ← m.read a with
  | .felt x => return x
  | .address _ => throw (.expectedFelt a)

/-- The address in a cell. -/
def readAddress (m : Memory) (a : Address) : Except Fault Address := do
  match ← m.read a with
  | .address b => return b
  | .felt _ => throw (.expectedAddress (.value (.address a)))

/-- A number of consecutive cells, each read in its turn. -/
def readEach {α : Type} (a : Address) (n : Int) (f : Address → Except Fault α) :
    Except Fault (List α) :=
  (List.range n.toNat).mapM fun i : Nat => do f (← a.shift i)

/-- A number of consecutive cells, written or not. -/
def getRange (m : Memory) (a : Address) (n : Int) : Except Fault (List (Option Value)) :=
  readEach a n fun b => .ok (m.get? b)

/-- A number of consecutive written cells. -/
def readRange (m : Memory) (a : Address) (n : Int) : Except Fault (List Value) :=
  readEach a n m.read

/-- A number of consecutive cells that hold field elements. -/
def readFelts (m : Memory) (a : Address) (n : Int) : Except Fault (List Felt) :=
  readEach a n m.readFelt

/-! ### Allocating -/

/-- A new segment, and its index. -/
def addSegment : Action Memory Int := fun m =>
  .ok m.segments.size { m with segments := m.segments.push #[] }

/-- A new temporary segment, and its index. -/
def addTemporary : Action Memory Int := fun m =>
  .ok (Int.negSucc m.temporaries.size) { m with temporaries := m.temporaries.push #[] }

/-! ### Checking -/

/-- A cell obeys a rule. -/
def checkRule (r : RangeRule) (m : Memory) (a : Address) :
    Except Fault Unit := do
  match ← m.read a with
  | .address _ => throw (.foundAddress .rangeCheck a)
  | .felt x => if x.val < r.bound then return () else throw (.outOfRange a x r.bound)

/-- The rules of a segment. -/
def rulesOf (m : Memory) (i : Int) : List RangeRule := (m.rules.lookup i).getD []

/-- Appends a rule to those of a segment; segments stay in the order of their first rule. -/
def appendRule (i : Int) (r : RangeRule) : List (Int × List RangeRule) → List (Int × List RangeRule)
  | [] => [(i, [r])]
  | (j, rs) :: rest => if j = i then (j, rs ++ [r]) :: rest else (j, rs) :: appendRule i r rest

/-- The memory with one more rule for a segment. -/
def addRule (m : Memory) (i : Int) (r : RangeRule) : Memory :=
  { m with rules := appendRule i r m.rules }

/-- Checks a cell against the rules of its segment, once. -/
def validateCell (a : Address) : Action Memory Unit := do
  let m ← get
  if (m.rulesOf a.segment).isEmpty || m.validated.contains a then
    return ()
  (m.rulesOf a.segment).forM fun r => checkRule r m a
  modify fun m => { m with validated := m.validated.insert a }

/-- Checks the written cells of every real segment that has a rule. -/
def validateExisting : Action Memory Unit := do
  let m ← get
  m.rules.forM fun (i, _) =>
    if 0 ≤ i then (m.itemsOf i).forM fun (a, _) => validateCell a else pure ()

/-! ### Writing -/

/-- Writes a cell, which must not hold another value, and checks it. -/
def insert (a : Address) (v : Value) : Action Memory Unit := do
  let m ← get
  if (m.segment? a.segment).isNone then
    throw (.unallocatedSegment a.segment m.segments.size)
  match m.get? a with
  | none => modify fun m => m.modifySegment a.segment (·.write a.offset v)
  | some old => if old ≠ v then throw (.inconsistentMemory a old v)
  validateCell a

/-- Writes a datum into a cell. -/
def insertDatum (a : Address) (d : Datum) : Action Memory Unit := do
  insert a (← d.toValue)

/-- Writes data into consecutive cells, starting at an offset from an address. -/
def loadFrom (a : Address) : Nat → List Datum → Action Memory Unit
  | _, [] => pure ()
  | i, d :: rest => do
    insertDatum (← a.shift i) d
    loadFrom a (i + 1) rest

/-- Writes data into consecutive cells and answers the address after them. -/
def load (a : Address) (data : List Datum) : Action Memory Address := do
  loadFrom a 0 data
  a.shift data.length

/-! ### Access marks -/

/-- The memory with an address marked as accessed. -/
def markAccessed (m : Memory) (a : Address) : Memory :=
  { m with accessed := m.accessed.insert a }

/-- The number of accessed addresses of a segment, if it is allocated. -/
def accessedCount (m : Memory) (i : Int) : Option Nat :=
  (m.segment? i).map fun _ => (m.accessed.toList.filter (·.segment = i)).length

end Memory

end Cairo
