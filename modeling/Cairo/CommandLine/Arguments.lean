import Cairo.Layout
import Cairo.Text.Numeral

/-!
# Arguments

The words after the name of the program.  The first one names a command; each command takes the
path of a program and options, in any order.  An option stands before its value or is joined to
it by an equals sign, and of an option that is given twice the last value counts.
-/

namespace Cairo.CommandLine

/-- What a command line asks for. -/
inductive Verb
  | run
  | profile
deriving DecidableEq

/-- The options of a command line; those that a command does not have keep their defaults. -/
structure Options where
  entrypoint : String
  layout : String
  maxSteps : Option Int
  traceFile : Option String
  memoryFile : Option String
  printOutput : Bool
  top : Int

/-- A command line. -/
structure Command where
  verb : Verb
  path : String
  options : Options

/-- The options where none are given. -/
def Options.default : Options :=
  { entrypoint := "main", layout := Layout.defaultName, maxSteps := none, traceFile := none
    memoryFile := none, printOutput := false, top := 10 }

/-- The command of a name. -/
def Verb.ofName? : String → Option Verb
  | "run" => some .run
  | "profile" => some .profile
  | _ => none

/-- The options of a command that take a value, each with its effect. -/
def Verb.valued : Verb → List (String × (Options → String → Option Options))
  | .run =>
    [("--entrypoint", fun o v => some { o with entrypoint := v }),
      ("--layout", fun o v => some { o with layout := v }),
      ("--max-steps", fun o v => (Text.integer? v).map fun n => { o with maxSteps := some n }),
      ("--trace-file", fun o v => some { o with traceFile := some v }),
      ("--memory-file", fun o v => some { o with memoryFile := some v })]
  | .profile =>
    [("--entrypoint", fun o v => some { o with entrypoint := v }),
      ("--layout", fun o v => some { o with layout := v }),
      ("--top", fun o v => (Text.integer? v).map fun n => { o with top := n })]

/-- The options of a command that take no value, each with its effect. -/
def Verb.flags : Verb → List (String × (Options → Options))
  | .run => [("--print-output", fun o => { o with printOutput := true })]
  | .profile => []

/-- An argument without what follows its first equals sign, and what follows it. -/
def splitValue (argument : String) : String × Option String :=
  match argument.toList.span (· ≠ '=') with
  | (name, _ :: value) => (String.ofList name, some (String.ofList value))
  | (name, []) => (String.ofList name, none)

/-- The argument is an option and not a path. -/
def isOption (argument : String) : Bool :=
  match argument.toList with
  | '-' :: _ :: _ => true
  | _ => false

/-- Reads the arguments of a command into its options and the paths among them. -/
def readArguments (v : Verb) : Options → List String → List String →
    Option (Options × List String)
  | o, paths, [] => some (o, paths)
  | o, paths, "--" :: rest => some (o, paths ++ rest)
  | o, paths, argument :: rest =>
    if isOption argument then
      let (name, joined) := splitValue argument
      match v.flags.lookup name, v.valued.lookup name, joined with
      | some effect, _, none => readArguments v (effect o) paths rest
      | none, some effect, some value =>
        (effect o value).bind fun o => readArguments v o paths rest
      | none, some effect, none =>
        match rest with
        | [] => none
        | value :: rest => (effect o value).bind fun o => readArguments v o paths rest
      | _, _, _ => none
    else readArguments v o (paths ++ [argument]) rest

/-- The command that a list of arguments stands for, if it is well formed. -/
def Command.parse? : List String → Option Command
  | [] => none
  | name :: rest =>
    (Verb.ofName? name).bind fun v =>
      (readArguments v .default [] rest).bind fun (o, paths) =>
        match paths with
        | [path] => some ⟨v, path, o⟩
        | _ => none

end Cairo.CommandLine
