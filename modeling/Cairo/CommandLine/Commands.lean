import Cairo.CommandLine.Arguments
import Cairo.CommandLine.Markup
import Cairo.Program.Compiled
import Cairo.Run.Report
import Cairo.Trace.Binary
import Cairo.Trace.Profile

/-!
# Commands

What the commands do with the text of a program: `run` executes it and gives out its output, its
trace and its memory, `profile` lists its most expensive frames.  A fault of the machine ends a
command with a message; a fault of another kind is not handled.
-/

namespace Cairo

/-- The fault is one that a command reports; the others are about its input. -/
def Fault.isReported (e : Fault) : Bool :=
  match e with
  | .notStorable _ | .unsupportedArgument _ => false
  | e => e.message.isSome

namespace CommandLine

/-- A table of texts under a title, with a header as its first row. -/
structure Table where
  title : String
  rows : List (List String)

/-- What a command leaves behind. -/
inductive Outcome
  | done (output : String) (files : List (String × List UInt8))
  | table (t : Table)
  | failed (output : String)

/-- Runs a program to its end and lays it out in linear memory. -/
def execute (text : String) (o : Options) (tracing : Bool) : Except Fault Run := do
  let program ← Program.ofText text (some o.entrypoint)
  let layout ← Layout.ofName o.layout
  let wholeRun : Action Run Unit := do
    let final ← Run.initializeAll
    let _ ← Run.runUntil (some final) ⟨o.maxSteps⟩
    Run.endRun
    let _ ← Run.readReturnValues
    Run.relocate
  match wholeRun (Run.new program layout tracing false) with
  | .ok _ r => return r
  | .error e _ => throw e

/-- What is printed of the output of a run. -/
def outputText (r : Run) : Except Fault String := do
  return "Program output:\n" ++ shownText (← r.output)

/-- The content of a file, if the file is asked for. -/
def fileOf (path : Option String) (content : Except Fault (List UInt8)) :
    Except Fault (List (String × List UInt8)) :=
  match path with
  | none => .ok []
  | some path => do return [(path, ← content)]

/-- The output and the files of a run. -/
def runOutcome (o : Options) (r : Run) : Except Fault Outcome := do
  let output ← if o.printOutput then outputText r else pure ""
  let trace ← fileOf o.traceFile (Binary.trace (r.linearTrace.getD []))
  let memory ← fileOf o.memoryFile (Binary.memory (r.linearMemory.getD #[]).toList)
  return .done output (trace ++ memory)

/-- The columns of a profile. -/
def profileHeader : List String := ["fp", "parent", "entry_pc", "total_cost", "cumulative_cost"]

/-- The row of a frame. -/
def frameRow (f : Frame) : List String :=
  [toString f.fp, (f.parent.map toString).getD "-", toString f.entryPc, toString f.ownSteps,
    toString f.allSteps]

/-- The first items of a list; a negative number leaves that many items out at the end. -/
def firstItems {α : Type} (n : Int) (items : List α) : List α :=
  match n with
  | .ofNat k => items.take k
  | .negSucc k => items.take (items.length - (k + 1))

/-- The name of the file of a path. -/
def fileName (path : String) : String := ((path.splitOn "/").getLast?).getD path

/-- The table of the most expensive frames of a run. -/
def profileTable (c : Command) (r : Run) : Table :=
  { title := fileName c.path ++ ": " ++ toString r.machine.stepCount ++ " steps"
    rows := profileHeader ::
      (firstItems c.options.top (Profile.framesByCost (r.linearTrace.getD []))).map frameRow }

/-- What a command does with the text of its program. -/
def Command.outcome (c : Command) (text : String) : Except Fault Outcome :=
  let tracing := match c.verb with
    | .run => c.options.traceFile.isSome
    | .profile => true
  match execute text c.options tracing with
  | .error e =>
    match e.message with
    | some message =>
      if e.isReported then .ok (.failed (shownText ("Error: " ++ message) ++ "\n")) else .error e
    | none => .error e
  | .ok r =>
    match c.verb with
    | .run => runOutcome c.options r
    | .profile => .ok (.table (profileTable c r))

end CommandLine

end Cairo
