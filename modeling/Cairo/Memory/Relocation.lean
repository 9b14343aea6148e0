import Cairo.Memory.Basic

/-!
# Moving temporary segments

A relocation rule sends a temporary segment to an address.  Rules may point into other temporary
segments; `resolve` follows such chains, adding the offsets, and stops where a chain comes back to
a segment that it has passed.  `relocate` then renames the addresses stored in the real segments
in place, moves the cells of every temporary segment that has a rule, in the order of their
creation, and renames in the others in place.
-/

namespace Cairo.Memory

/-- Rules that send temporary segments to addresses. -/
abbrev Relocations := List (Int × Address)

/-- Adds a rule for a temporary segment that has none. -/
def addRelocation (src dst : Address) : Action Memory Unit := do
  if 0 ≤ src.segment ∨ src.offset ≠ 0 then
    throw (.notTemporaryBase src)
  if ((← get).relocations.lookup src.segment).isSome then
    throw (.duplicateRule src.segment)
  modify fun m => { m with relocations := m.relocations ++ [(src.segment, dst)] }

/-- Follows the rules from an address for at most a number of steps, not through a segment that
was passed before. -/
def follow (rules : Relocations) : Nat → List Int → Address → Except Fault Address
  | 0, _, dst => .ok dst
  | steps + 1, passed, dst =>
    match rules.lookup dst.segment with
    | none => .ok dst
    | some next =>
      if 0 ≤ dst.segment ∨ dst.segment ∈ passed then .ok dst
      else do follow rules steps (dst.segment :: passed) (← next.shift dst.offset)

/-- The rules with every destination at the end of its chain. -/
def resolve (rules : Relocations) : Except Fault Relocations :=
  rules.mapM fun (src, dst) => do return (src, ← follow rules rules.length [src] dst)

/-- The address that rules give to an address. -/
def relocateAddress (rules : Relocations) (a : Address) : Except Fault Address :=
  if 0 ≤ a.segment then .ok a
  else
    match rules.lookup a.segment with
    | none => .ok a
    | some dst => dst.shift a.offset

/-- The value with an address relocated. -/
def relocateValue (rules : Relocations) : Value → Except Fault Value
  | .felt x => .ok (.felt x)
  | .address a => (relocateAddress rules a).map .address

/-- Relocates the address in a cell of a segment, in place. -/
def renameCell (rules : Relocations) (i : Int) (offset : Nat) : Action Memory Unit := do
  match ((← get).segment? i).bind (·[offset]?.join) with
  | none => return ()
  | some v =>
    let w ← relocateValue rules v
    modify fun m => m.modifySegment i (·.setIfInBounds offset (some w))

/-- Relocates the addresses in all real segments, in place. -/
def renameReal (rules : Relocations) : Action Memory Unit := do
  let m ← get
  (List.range m.segments.size).forM fun n : Nat =>
    (List.range (m.segments.getD n #[]).size).forM fun offset => renameCell rules n offset

/-- A cell with an address relocated. -/
def relocateCell (rules : Relocations) : Option Value → Except Fault (Option Value)
  | none => .ok none
  | some v => (relocateValue rules v).map some

/-- Relocates the addresses in all cells of a segment at once, or none. -/
def renameSegment (rules : Relocations) (i : Int) : Action Memory Unit := do
  match (← get).segment? i with
  | none => return ()
  | some s =>
    let cells ← (s.mapM (relocateCell rules) : Except Fault Segment)
    modify fun m => m.modifySegment i fun _ => cells

/-- Moves one written cell and its mark. -/
def moveCell (rules : Relocations) (dst : Address) (marked : Bool) (offset : Nat) (v : Value) :
    Action Memory Unit := do
  let a ← dst.shift offset
  insert a (← relocateValue rules v)
  if marked then
    modify (·.markAccessed a)

/-- Moves the cells of a segment from an offset on.  The segment is looked at anew for every cell,
since a rule that points into its own segment makes it grow. -/
def moveCells (rules : Relocations) (i : Int) (dst : Address) (marks : AddressSet) :
    Nat → Nat → Action Memory Unit
  | 0, _ => pure ()
  | rounds + 1, offset => do
    match ((← get).segment? i).bind (·[offset]?) with
    | none => pure ()
    | some cell =>
      match cell with
      | none => pure ()
      | some v =>
        let marked := match Address.mk? i offset with
          | some a => marks.contains a
          | none => false
        moveCell rules dst marked offset v
      moveCells rules i dst marks rounds (offset + 1)

/-- Moves a temporary segment to its place and leaves it empty. -/
def moveSegment (rules : Relocations) (i : Int) (dst : Address) : Action Memory Unit := do
  let m ← get
  modify fun m => { m with accessed := m.accessed.filter (·.segment ≠ i) }
  moveCells rules i dst m.accessed (((m.segment? i).getD #[]).size + offsetBound) 0
  modify fun m => m.modifySegment i fun _ => #[]

/-- Moves the temporary segments that have a rule and renames in the others. -/
def relocateTemporaries (rules : Relocations) : Action Memory Unit := do
  (List.range (← get).temporaries.size).forM fun n =>
    match rules.lookup (Int.negSucc n) with
    | none => renameSegment rules (Int.negSucc n)
    | some dst => moveSegment rules (Int.negSucc n) dst

/-- Moves the temporary segments by resolved rules and drops the rules. -/
def relocateBy (rules : Relocations) : Action Memory Unit := do
  renameReal rules
  relocateTemporaries rules
  modify fun m => { m with relocations := [] }

/-- Moves the temporary segments by the rules of the memory, if there are any. -/
def relocate : Action Memory Unit := do
  let m ← get
  if m.relocations.isEmpty then
    return ()
  relocateBy (← resolve m.relocations)

end Cairo.Memory
