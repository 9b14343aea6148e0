import Cairo.CommandLine.Table

/-!
# The command line

Reads the program that the command line names, does what the command asks for, and writes its
output and its files.  A command line that cannot be read, or names no file, ends with code 2, and
a command that fails with code 1.
-/

namespace Cairo.CommandLine

/-- How the program is used. -/
def usage : String :=
  "usage: run [--entrypoint NAME] [--layout NAME] [--max-steps N] [--trace-file PATH]\n" ++
    "           [--memory-file PATH] [--print-output] PROGRAM\n" ++
    "       profile [--entrypoint NAME] [--layout NAME] [--top N] PROGRAM\n"

/-- Writes the files of a command. -/
def writeFiles (files : List (String × List UInt8)) : IO Unit :=
  files.forM fun (path, content) => IO.FS.writeBinFile path ⟨content.toArray⟩

/-- Prints and writes what a command leaves behind. -/
def deliver : Outcome → IO UInt32
  | .done output files => do
    IO.print output
    writeFiles files
    return 0
  | .table t => do
    IO.print t.render
    return 0
  | .failed output => do
    IO.print output
    return 1

end Cairo.CommandLine

open Cairo.CommandLine

/-- Runs the command line. -/
def main (arguments : List String) : IO UInt32 := do
  match Command.parse? arguments with
  | none =>
    IO.eprint usage
    return 2
  | some command =>
    match ← (IO.FS.readFile command.path).toBaseIO with
    | .error _ =>
      IO.eprintln ("cannot read " ++ command.path)
      return 2
    | .ok text =>
      match command.outcome text with
      | .ok outcome => deliver outcome
      | .error fault =>
        IO.eprintln ((fault.message).getD "the program cannot be read")
        return 1
