import Cairo.Segments
import Cairo.Curve.Multiply
import Cairo.Hash.Pedersen
import Cairo.Hash.Poseidon

/-!
# Builtins and what they deduce

A builtin owns a segment, which is cut into instances of equal length: some input cells, then some
output cells.  The outputs of an instance are a function of its inputs (`outputs`).  `deduce` finds
the value of a cell from the memory and remembers it, so that each cell is computed at most once;
`deduceFresh` is the same without the remembered values.
-/

namespace Cairo

/-- A builtin in a machine. -/
structure Builtin where
  kind : BuiltinKind
  ratio : Option Int
  included : Bool
  parts : Nat
  totalBits : Int
  segment : Option Int
  stopOffset : Option Nat
  cache : Std.ExtTreeMap Address Felt

namespace Builtin

/-- The number of steps for one instance unless another one is given. -/
def defaultRatio : BuiltinKind → Option Int
  | .output => none
  | .pedersen => some 8
  | .rangeCheck => some 8
  | .bitwise | .ecOp | .poseidon => some 256

/-- A builtin with its default settings, without a segment. -/
def ofKind (kind : BuiltinKind) : Builtin :=
  { kind := kind, ratio := defaultRatio kind, included := true, parts := 8, totalBits := 251
    segment := none, stopOffset := none, cache := ∅ }

instance : Inhabited Builtin := ⟨ofKind .output⟩

/-- One setting of a builtin; which settings there are depends on the kind. -/
def configure (b : Builtin) (setting : String × Datum) : Except Fault Builtin :=
  match b.kind, setting with
  | _, ("included", .truth t) => .ok { b with included := t }
  | .output, _ => .error .unsupportedOperand
  | _, ("ratio", .nothing) => .ok { b with ratio := none }
  | _, ("ratio", .integer n) => .ok { b with ratio := some n }
  | .rangeCheck, ("n_parts", .integer n) => .ok { b with parts := n.toNat }
  | .bitwise, ("total_n_bits", .integer n) => .ok { b with totalBits := n }
  | _, _ => .error .unsupportedOperand

/-- The builtin of a name with some settings. -/
def make (name : String) (settings : List (String × Datum)) : Except Fault Builtin := do
  match BuiltinKind.ofName? name with
  | some kind => settings.foldlM configure (ofKind kind)
  | none => throw .noSuchName

/-- The name of a kind in reports. -/
def reportName : BuiltinKind → String
  | .output => "OutputBuiltinRunner"
  | .pedersen => "HashBuiltinRunner"
  | .rangeCheck => "RangeCheckBuiltinRunner"
  | .bitwise => "BitwiseBuiltinRunner"
  | .ecOp => "EcOpBuiltinRunner"
  | .poseidon => "PoseidonBuiltinRunner"

/-- A builtin in a report. -/
def text (b : Builtin) : String :=
  reportName b.kind ++ "(ratio=" ++ ((b.ratio.map Datum.integer).getD .nothing).shown ++
    ", included=" ++ (Datum.truth b.included).shown ++ ")"

/-- The segment of a builtin, which must have been allocated. -/
def requireSegment (b : Builtin) : Except Fault Int :=
  Action.orThrow b.segment (.notInitialized (.builtinSegment b.kind))

/-- The first cell of the segment of a builtin. -/
def baseAddress (b : Builtin) : Except Fault Address := do
  return .base (← b.requireSegment)

/-- The builtin with a new segment. -/
def allocate (b : Builtin) : Action Segments Builtin := do
  let base ← Segments.add none
  return { b with segment := some base.segment }

/-- The cells that a builtin puts on the stack of a program. -/
def initialStack (b : Builtin) : Except Fault (List Datum) :=
  if b.included then do
    return [.value (.address (← b.baseAddress))]
  else .ok []

/-- The rule that a range check builtin has for its cells. -/
def rangeRule (b : Builtin) : RangeRule := ⟨b.parts⟩

/-- The memory with the rule of a builtin, if its kind has one. -/
def addRule (b : Builtin) (m : Memory) : Except Fault Memory :=
  match b.kind with
  | .rangeCheck => do return m.addRule (← b.requireSegment) b.rangeRule
  | _ => .ok m

/-! ### Deduction -/

/-- The field elements of the inputs of an instance, each with a check of its own. -/
def feltInputs (b : Builtin) (first : Address) (check : Address → Felt → Except Fault Unit) :
    Nat → List Value → Except Fault (List Felt)
  | _, [] => .ok []
  | i, v :: rest => do
    let a ← first.shift i
    match v with
    | .address _ => throw (.foundAddress b.kind a)
    | .felt x =>
      check a x
      return x :: (← feltInputs b first check (i + 1) rest)

/-- The input has no more bits than the builtin works on. -/
def checkBits (b : Builtin) (a : Address) (x : Felt) : Except Fault Unit :=
  if (x.bitLength : Int) > b.totalBits then .error (.bitwiseInputTooLarge a x b.totalBits)
  else .ok ()

/-- The point lies on the curve of the machine. -/
def checkPoint (p : Curve.Point) : Except Fault Unit :=
  if Curve.onCurve p Curve.alpha Curve.beta prime then .ok () else .error (.pointNotOnCurve p)

/-- The number of bits over which a point is multiplied. -/
def scalarHeight : Nat := 256

/-- The coordinates of the sum of a point and a multiple of another. -/
def ecOpOutputs (px py qx qy m : Felt) : Except Fault (List Felt) := do
  let p : Curve.Point := ⟨px.val, py.val⟩
  let q : Curve.Point := ⟨qx.val, qy.val⟩
  checkPoint p
  checkPoint q
  let r ← Curve.multiplyAdd Curve.alpha prime scalarHeight p q m.val
  return [Felt.ofInt r.x, Felt.ofInt r.y]

/-- The outputs of an instance with field elements as inputs. -/
def feltOutputs (kind : BuiltinKind) (inputs : List Felt) : Except Fault (List Felt) :=
  match kind, inputs with
  | .pedersen, [x, y] => .ok [Pedersen.hash x y]
  | .bitwise, [x, y] => .ok [x &&& y, x ^^^ y, x ||| y]
  | .ecOp, [px, py, qx, qy, m] => ecOpOutputs px py qx qy m
  | .poseidon, [x, y, z] =>
    let s := Poseidon.permute ⟨x, y, z⟩
    .ok [s.x, s.y, s.z]
  | _, _ => .ok []

/-- The outputs of the instance that starts at an address, from its inputs. -/
def outputs (b : Builtin) (first : Address) (inputs : List Value) : Except Fault (List Felt) := do
  let check := match b.kind with
    | .bitwise => b.checkBits
    | _ => fun _ _ => .ok ()
  feltOutputs b.kind (← b.feltInputs first check 0 inputs)

/-- The place of a cell in its instance. -/
def placeInInstance (b : Builtin) (a : Address) : Nat := a.offset % b.kind.cellsPerInstance

/-- The first cell of the instance of a cell. -/
def instanceStart (b : Builtin) (a : Address) : Address :=
  ⟨a.segment, a.offset - b.placeInInstance a, Nat.lt_of_le_of_lt (Nat.sub_le _ _) a.offset_lt⟩

/-- The outputs of the instance of an output cell, if all its inputs are written. -/
def instanceOutputs (b : Builtin) (m : Memory) (a : Address) :
    Except Fault (Option (List Felt)) := do
  if b.placeInInstance a < b.kind.inputCells then
    return none
  let first := b.instanceStart a
  let cells ← m.getRange first b.kind.inputCells
  match cells.mapM id with
  | none => return none
  | some inputs => return some (← b.outputs first inputs)

/-- The output at the place of a cell. -/
def outputAt (b : Builtin) (a : Address) (values : List Felt) : Option Felt :=
  values[b.placeInInstance a - b.kind.inputCells]?

/-- The value of a cell as the memory determines it, if it does. -/
def deduceFresh (b : Builtin) (m : Memory) (a : Address) : Except Fault (Option Felt) := do
  return (← b.instanceOutputs m a).bind (b.outputAt a)

/-- Remembers the value of a cell. -/
def remember (a : Address) (x : Felt) : Action Builtin Unit :=
  modify fun b => { b with cache := b.cache.insert a x }

/-- Remembers values for consecutive cells. -/
def rememberFrom (a : Address) : Nat → List Felt → Action Builtin Unit
  | _, [] => pure ()
  | i, x :: rest => do
    remember (← a.shift i) x
    rememberFrom a (i + 1) rest

/-- The value of a cell, remembered or found now and remembered; a permutation gives the values of
all the outputs of its instance at once. -/
def deduce (m : Memory) (a : Address) : Action Builtin (Option Felt) := do
  let b ← get
  match b.cache[a]? with
  | some x => return some x
  | none =>
    match ← (b.instanceOutputs m a : Except Fault _) with
    | none => return none
    | some values =>
      if b.kind = .poseidon then
        rememberFrom (← (b.instanceStart a).shift b.kind.inputCells) 0 values
      match b.outputAt a values with
      | none => return none
      | some x =>
        remember a x
        return some x

end Builtin

end Cairo
