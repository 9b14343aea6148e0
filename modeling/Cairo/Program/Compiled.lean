import Cairo.Program.Basic
import Cairo.Program.Reading

/-!
# Compiled programs

A compiled program is a JSON object of which a run needs the prime, the code, the builtins, the
hints and the identifiers; the other fields are only checked.  `CompiledProgram.toProgram` takes
from the identifiers the start, the constants and the labels: a label is known by its full name,
and by the last part of its name unless another label has that name already.
-/

namespace Cairo

/-- What a compiled program says. -/
structure CompiledProgram where
  prime : Nat
  data : List Nat
  hints : List (Int × List ProgramHint)
  builtins : List String
  mainScope : Option DottedName
  identifiers : Option Identifiers

namespace Reading

/-- The group and the offset of a tracked allocation pointer. -/
def tracking (j : Json) : Reading Unit :=
  withCheck ((fun _ _ => ()) <$> required integer "group" j <*> required integer "offset" j)
    (only ["group", "offset"] j)

/-- The tracking data of a hint. -/
def flowTracking (j : Json) : Reading Unit :=
  withCheck
    ((fun _ _ => ()) <$> required tracking "ap_tracking" j <*>
      required (fields (fun n => DottedName.ofText n) integer) "reference_ids" j)
    (only ["ap_tracking", "reference_ids"] j)

/-- A hint. -/
def hint (j : Json) : Reading ProgramHint :=
  withCheck
    ((fun code scopes _ => ⟨code, scopes.map DottedName.text⟩) <$> required text "code" j <*>
      required (list dottedName) "accessible_scopes" j <*>
      required flowTracking "flow_tracking_data" j)
    (only ["code", "accessible_scopes", "flow_tracking_data"] j)

/-- Entries with one more; an entry of the same key is replaced. -/
def setEntry {α : Type} (key : Int) (a : α) : List (Int × α) → List (Int × α)
  | [] => [(key, a)]
  | (k, b) :: rest => if k = key then (k, a) :: rest else (k, b) :: setEntry key a rest

/-- The hints of a program by their places. -/
def hints (j : Json) : Reading (List (Int × List ProgramHint)) :=
  (fun entries => entries.foldl (fun found (pc, hs) => setEntry pc hs found) []) <$>
    fields (fun n => integer (.text n)) (list hint) j

/-- A reference to a value of the program. -/
def reference (j : Json) : Reading Unit :=
  withCheck
    ((fun _ _ _ => ()) <$> required integer "pc" j <*> required text "value" j <*>
      required tracking "ap_tracking_data" j)
    (only ["pc", "value", "ap_tracking_data"] j)

/-- A member of a structure. -/
def member (j : Json) : Reading Unit :=
  withCheck
    ((fun _ _ => ()) <$> required integer "offset" j <*> required text "cairo_type" j)
    (only ["offset", "cairo_type"] j)

/-- The definition of one type of identifier, and the names of its fields. -/
def definitionOf (j : Json) : String → Reading Definition × List String
  | "function" =>
    ((fun pc _ => .function pc) <$> required integer "pc" j <*>
      required (list text) "decorators" j, ["pc", "decorators"])
  | "label" => (.label <$> required integer "pc" j, ["pc"])
  | "const" => (.const <$> required integer "value" j, ["value"])
  | "alias" => (.synonym <$> required dottedName "destination" j, ["destination"])
  | "namespace" | "scope" => (pure .other, [])
  | "struct" =>
    ((fun _ _ _ => .other) <$> required dottedName "full_name" j <*>
      required (fields pure member) "members" j <*> required integer "size" j,
      ["full_name", "members", "size"])
  | "member" =>
    ((fun _ _ => .other) <$> required integer "offset" j <*> required text "cairo_type" j,
      ["offset", "cairo_type"])
  | "reference" =>
    ((fun _ _ _ => .other) <$> required dottedName "full_name" j <*>
      required text "cairo_type" j <*> required (list reference) "references" j,
      ["full_name", "cairo_type", "references"])
  | "type_definition" => ((fun _ => .other) <$> required text "cairo_type" j, ["cairo_type"])
  | _ => (malformed, [])

/-- The definition of an identifier. -/
def definition (j : Json) : Reading Definition :=
  match j.field? "type" with
  | some (.text kind) =>
    let (d, names) := definitionOf j kind
    withCheck d (only ("type" :: names) j)
  | _ => malformed

/-- The identifiers of a program; what is neither an object nor null cannot be read. -/
def identifiers : Json → Reading Identifiers
  | .object fs => fields (fun n => DottedName.ofText n) definition (.object fs)
  | .null => malformed
  | _ => refused .noSuchMember

/-- The references of a program. -/
def references (j : Json) : Reading Unit :=
  withCheck ((fun _ => ()) <$> optional (list reference) "references" j) (only ["references"] j)

/-- The names of the fields of a compiled program. -/
def programFields : List String :=
  ["prime", "data", "hints", "builtins", "main_scope", "identifiers", "reference_manager",
    "attributes", "compiler_version", "debug_info"]

/-- A compiled program. -/
def program (j : Json) : Reading CompiledProgram :=
  withCheck
    ((fun prime data hints builtins mainScope identifiers _ _ _ _ =>
        ⟨prime, data, hints, builtins, mainScope, identifiers⟩) <$>
      required hexadecimal "prime" j <*> required (list hexadecimal) "data" j <*>
      required hints "hints" j <*> required (list text) "builtins" j <*>
      optional dottedName "main_scope" j <*> optional identifiers "identifiers" j <*>
      required references "reference_manager" j <*>
      optional (list pure) "attributes" j <*> optional (nullable text) "compiler_version" j <*>
      optional (nullable anyObject) "debug_info" j)
    (only programFields j)

end Reading

namespace CompiledProgram

/-- The compiled program that a JSON text holds. -/
def ofText (s : String) : Except Fault CompiledProgram := do
  let j ← Action.orThrow (Json.parse? s) .malformedJson
  let p ← (Reading.program j).run
  if p.mainScope.isNone || p.identifiers.isNone then
    throw .unsupportedOperand
  return p

/-- The constants among some identifiers. -/
def constantsOf (ids : Identifiers) : Std.ExtTreeMap String Felt :=
  ids.foldl (fun found (name, d) =>
    match d with
    | .const n => found.insert name.text (Felt.ofInt n)
    | _ => found) ∅

/-- Labels with one more, under its full name and under the last part of that, unless there is
such a label. -/
def addLabel (labels : Std.ExtTreeMap String Int) (name : DottedName) (pc : Int) :
    Except Fault (Std.ExtTreeMap String Int) := do
  let last ← Action.orThrow name.getLast? .indexOutOfRange
  return (labels.insert name.text pc).insertIfNew last pc

/-- The labels among some identifiers. -/
def labelsOf (ids : Identifiers) : Except Fault (Std.ExtTreeMap String Int) :=
  ids.foldlM (fun found (name, d) =>
    match d.pc? with
    | some pc => addLabel found name pc
    | none => .ok found) ∅

/-- The place where a program starts, by a name in its main scope. -/
def mainOf (p : CompiledProgram) (entrypoint : String) : Except Fault Int := do
  let name ← DottedName.ofText entrypoint
  (p.identifiers.getD []).resolvePc (p.mainScope.getD [] ++ name) (.entrypointNotFound entrypoint)

/-- The program that starts at an entrypoint, if one is given. -/
def toProgram (p : CompiledProgram) (entrypoint : Option String) : Except Fault Program := do
  if p.prime ≠ Cairo.prime then
    throw (.unsupportedPrime p.prime)
  let main ← entrypoint.mapM p.mainOf
  let ids := p.identifiers.getD []
  let labels ← labelsOf ids
  return {
    data := p.data.map fun n => .felt (Felt.ofNat n)
    builtins := p.builtins
    main := main
    hints := p.hints
    constants := constantsOf ids
    labels := labels }

end CompiledProgram

/-- The program that a JSON text holds, starting at an entrypoint if one is given. -/
def Program.ofText (s : String) (entrypoint : Option String) : Except Fault Program := do
  (← CompiledProgram.ofText s).toProgram entrypoint

end Cairo
