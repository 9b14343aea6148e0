/-!
# Kinds of builtins

The builtins that a machine can run, the cells of one instance of each, and how many of these are
inputs.
-/

namespace Cairo

/-- A builtin that a machine can run. -/
inductive BuiltinKind
  | output
  | pedersen
  | rangeCheck
  | bitwise
  | ecOp
  | poseidon
deriving DecidableEq, Inhabited

namespace BuiltinKind

/-- The name under which programs declare a builtin. -/
def name : BuiltinKind → String
  | output => "output"
  | pedersen => "pedersen"
  | rangeCheck => "range_check"
  | bitwise => "bitwise"
  | ecOp => "ec_op"
  | poseidon => "poseidon"

/-- The kinds in the order in which programs must declare them. -/
def all : List BuiltinKind := [output, pedersen, rangeCheck, bitwise, ecOp, poseidon]

/-- The builtin of a name. -/
def ofName? (s : String) : Option BuiltinKind := all.find? (·.name == s)

/-- The number of cells of one instance. -/
def cellsPerInstance : BuiltinKind → Nat
  | output => 1
  | pedersen => 3
  | rangeCheck => 1
  | bitwise => 5
  | ecOp => 7
  | poseidon => 6

/-- The number of input cells of one instance; they come first. -/
def inputCells : BuiltinKind → Nat
  | output => 1
  | pedersen => 2
  | rangeCheck => 1
  | bitwise => 2
  | ecOp => 5
  | poseidon => 3

theorem cellsPerInstance_pos (k : BuiltinKind) : 0 < k.cellsPerInstance := by
  cases k <;> decide

end BuiltinKind

end Cairo
