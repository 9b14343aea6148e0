import Cairo.Fault
import Cairo.Action

/-!
# Layouts

A layout says which builtins a run can have, and how many steps it takes to pay for one instance
of each.  A program declares builtins in a fixed order (`declarationOrder`), which also has places
for builtins that no machine can run.
-/

namespace Cairo

/-- The builtins of a run and the steps for one instance of each; `none` is no limit. -/
structure Layout where
  name : String
  ratios : List (BuiltinKind × Option Int)

namespace Layout

/-- All layouts. -/
def all : List Layout :=
  [⟨"plain", []⟩,
    ⟨"small", [(.output, none), (.pedersen, some 8), (.rangeCheck, some 8)]⟩,
    ⟨"all_cairo", [(.output, none), (.pedersen, some 256), (.rangeCheck, some 8),
      (.bitwise, some 16), (.ecOp, some 1024), (.poseidon, some 256)]⟩]

/-- The name of the layout of a run for which none is named. -/
def defaultName : String := "all_cairo"

/-- The layout of a name. -/
def ofName (name : String) : Except Fault Layout :=
  Action.orThrow (all.find? (·.name = name)) (.unknownLayout name)

/-- The names of builtins in the order in which programs declare them. -/
def declarationOrder : List String :=
  ["output", "pedersen", "range_check", "ecdsa", "bitwise", "ec_op", "poseidon", "segment_arena"]

/-- The names of the builtins that no machine can run. -/
def unsupportedNames : List String := ["ecdsa", "segment_arena"]

/-- The builtin of a name and its ratio in a layout. -/
def entry (layout : Layout) (name : String) : Except Fault (BuiltinKind × Option Int) :=
  if unsupportedNames.contains name then .error (.unsupportedBuiltin name)
  else
    Action.orThrow (layout.ratios.find? (·.1.name = name)) (.builtinNotInLayout name layout.name)

/-- The items of the first list are found in the second one in the same order. -/
def isSubsequence : List String → List String → Bool
  | [], _ => true
  | _ :: _, [] => false
  | a :: rest, b :: more =>
    if a = b then isSubsequence rest more else isSubsequence (a :: rest) more

/-- The entries of the builtins that a program declares, which must be in order. -/
def entries (layout : Layout) (names : List String) :
    Except Fault (List (BuiltinKind × Option Int)) :=
  if isSubsequence names declarationOrder then names.mapM layout.entry
  else .error (.disorderedBuiltins names)

end Layout

end Cairo
