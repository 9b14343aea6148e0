import Cairo.Fault
import Cairo.Action
import Std.Data.ExtTreeMap

/-!
# Scopes

The hints of a run share a stack of scopes, each a map from names to data.  There is always a
current scope; the others lie below it.  Names are read and written in the current scope only.
-/

namespace Cairo

/-- The variables of a scope. -/
abbrev Scope := Std.ExtTreeMap String Datum

/-- A stack of scopes; `outer` lists those below the current one, the innermost first. -/
structure Scopes where
  current : Scope
  outer : List Scope

namespace Scopes

/-- The main scope alone, without variables. -/
def main : Scopes := ⟨∅, []⟩

instance : Inhabited Scopes := ⟨main⟩

/-- All scopes, the main scope first. -/
def toList (s : Scopes) : List Scope := (s.current :: s.outer).reverse

/-- Enters a new scope. -/
def enter (s : Scopes) (locals : Scope) : Scopes := ⟨locals, s.current :: s.outer⟩

/-- Leaves the current scope for the one below it. -/
def exit : Action Scopes Unit := fun s =>
  match s.outer with
  | [] => .error .exitMainScope s
  | below :: rest => .ok () ⟨below, rest⟩

/-- The variable of a name in the current scope. -/
def get (s : Scopes) (name : String) : Except Fault Datum :=
  Action.orThrow s.current[name]? (.variableNotInScope name)

/-- Gives a name in the current scope a value. -/
def assign (s : Scopes) (name : String) (d : Datum) : Scopes :=
  { s with current := s.current.insert name d }

/-- Takes a name out of the current scope, if it is there. -/
def delete (s : Scopes) (name : String) : Scopes :=
  { s with current := s.current.erase name }

/-- Takes several names out of the current scope. -/
def deleteAll (s : Scopes) (names : List String) : Scopes := names.foldl delete s

@[simp] theorem toList_ne_nil (s : Scopes) : s.toList ≠ [] := by
  simp [toList]

@[simp] theorem toList_enter (s : Scopes) (locals : Scope) :
    (s.enter locals).toList = s.toList ++ [locals] := by
  simp [toList, enter]

theorem exit_enter (s : Scopes) (locals : Scope) : exit (s.enter locals) = .ok () s := rfl

end Scopes

end Cairo
