import Cairo.Datum.Arithmetic
import Std.Data.ExtTreeMap

/-!
# Programs

A program is its code, the builtins that it declares, the place where it starts, and the hints,
constants and labels that belong to it.
-/

namespace Cairo

/-- A hint of a program, with the scopes that it may see. -/
structure ProgramHint where
  code : String
  scopes : List String
deriving DecidableEq, Inhabited

/-- A program. -/
structure Program where
  data : List Value
  builtins : List String
  main : Option Int
  hints : List (Int × List ProgramHint)
  constants : Std.ExtTreeMap String Felt
  labels : Std.ExtTreeMap String Int

namespace Program

/-- The place that a label marks. -/
def getLabel (p : Program) (name : String) : Except Fault Int :=
  Action.orThrow p.labels[name]? (.entrypointNotFound name)

/-- The label of the first instruction. -/
def startLabel : String := "__start__"

/-- The label behind the last instruction. -/
def endLabel : String := "__end__"

/-- The values of the code, of which integers are reduced. -/
def codeOf (data : List Datum) : Except Fault (List Value) := data.mapM Datum.toValue

end Program

end Cairo
