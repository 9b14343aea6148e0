import Cairo.Action

/-!
# Identifiers

A dotted name is a list of parts.  Identifiers are listed with their definitions, and every proper
beginning of a name is a scope.  `resolve` looks a name up: it descends through scopes as long as
it can, takes the definition that it meets there, and goes on from the destination of an alias
with the parts that are left over.
-/

namespace Cairo

/-- The parts of a dotted name. -/
abbrev DottedName := List String

/-- The dotted name that a text stands for; the empty text has no parts, and no part is empty. -/
def DottedName.ofText (s : String) : Except Fault DottedName :=
  if s.isEmpty then .ok []
  else
    let parts := s.splitOn "."
    if parts.any String.isEmpty then .error .failedAssertion else .ok parts

/-- The text of a dotted name. -/
def DottedName.text (name : DottedName) : String := String.intercalate "." name

/-- What a name of a program stands for, as far as it matters for a run. -/
inductive Definition
  | function (pc : Int)
  | label (pc : Int)
  | const (value : Int)
  | synonym (destination : DottedName)
  | other
deriving DecidableEq

/-- The place in the program that a definition marks. -/
def Definition.pc? : Definition → Option Int
  | function pc => some pc
  | label pc => some pc
  | _ => none

/-- The definitions of a program in their order. -/
abbrev Identifiers := List (DottedName × Definition)

namespace Identifiers

/-- The result of a search for a name. -/
inductive Found
  | definition (d : Definition) (rest : DottedName)
  | scope
  | missing
deriving DecidableEq

/-- Some longer name begins with the parts. -/
def isScope (ids : Identifiers) (parts : DottedName) : Bool :=
  ids.any fun (name, _) => parts.isPrefixOf name && name.length != parts.length

/-- Searches for the remaining parts of a name in the scope of the parts already passed. -/
def search (ids : Identifiers) (passed : DottedName) : DottedName → Found
  | [] => .missing
  | part :: rest =>
    let here := passed ++ [part]
    if !rest.isEmpty && ids.isScope here then search ids here rest
    else
      match ids.lookup here with
      | some d => .definition d rest
      | none => if ids.isScope here then .scope else .missing

/-- The fault of a search that ends on a missing name: the first name is reported as missing, the
destination of an alias as a broken alias. -/
inductive Origin
  | first (notFound : Fault)
  | synonym

/-- The fault for a name that is missing. -/
def Origin.fault : Origin → Fault
  | first f => f
  | synonym => .identifier

/-- Looks a name up through at most a number of aliases, none of whose names may come back. -/
def follow (ids : Identifiers) (origin : Origin) :
    Nat → List DottedName → DottedName → Except Fault (Definition × DottedName)
  | 0, _, _ => .error .identifier
  | steps + 1, passed, name =>
    match ids.search [] name with
    | .missing => .error origin.fault
    | .scope => .error .notAnIdentifier
    | .definition (.synonym destination) rest =>
      let next := destination ++ rest
      if passed.contains next then .error .identifier
      else follow ids .synonym steps (next :: passed) next
    | .definition d rest => .ok (d, rest)

/-- The length of the longest chain of aliases that is followed. -/
def chainLimit : Nat := 10000

/-- The definition of a name; all its parts must be used, and a missing name is the given
fault. -/
def resolve (ids : Identifiers) (name : DottedName) (notFound : Fault) :
    Except Fault Definition := do
  if name.isEmpty then
    throw .failedAssertion
  let (d, rest) ← ids.follow (.first notFound) chainLimit [name] name
  if !rest.isEmpty then
    throw .identifier
  return d

/-- The place that a name marks. -/
def resolvePc (ids : Identifiers) (name : DottedName) (notFound : Fault) : Except Fault Int := do
  Action.orThrow (← ids.resolve name notFound).pc? .failedAssertion

end Identifiers

end Cairo
