import Cairo.Scope
import Cairo.Text.Blank

/-!
# Hints

A hint is named by its code and acts on a machine before the instruction that it belongs to.  Only
the registered hints are run, which have names of their own.  Hints that are code to be executed as
it stands are not modelled: any code but these names faults as an unknown name.

A hint sees the machine through names; a processor may give further names, which then stand before
those of the machine.  `hiddenNames` are all the names that a hint sees and no scope keeps.
-/

namespace Cairo

/-- What a hint does. -/
inductive HintAction
  | allocateSegment
  | allocateTemporary
  | relocateTemporary
  | enterScope
  | exitScope
  | skipInstruction
deriving DecidableEq

/-- A hint, as it is written in a program. -/
structure Hint where
  code : String
deriving DecidableEq, Inhabited

namespace Hint

/-- The names of the hints. -/
def actions : List (String × HintAction) :=
  [("alloc_segment", .allocateSegment), ("alloc_temporary_segment", .allocateTemporary),
    ("relocate_temporary_segment", .relocateTemporary), ("enter_scope", .enterScope),
    ("exit_scope", .exitScope), ("skip_next_instruction", .skipInstruction)]

/-- What a registered hint does, by its name without blanks around it.  Any other code has no action
here, where it could also be executed as it stands. -/
def action? (h : Hint) : Option HintAction := actions.lookup (Text.trimmed h.code)

end Hint

/-- What runs hints; `extra` are the names that it gives beside those of the machine. -/
structure HintProcessor where
  extra : Scope

namespace HintProcessor

/-- A processor that gives no further names. -/
def standard : HintProcessor := ⟨∅⟩

/-- The names by which a hint sees the machine. -/
def machineNames : List String :=
  ["memory", "segments", "ap", "fp", "pc", "current_step", "constants", "vm", "vm_enter_scope",
    "vm_exit_scope", "__builtins__"]

/-- All names that a hint sees beside the variables of its scope. -/
def hiddenNames (p : HintProcessor) : List String := machineNames ++ p.extra.keys

end HintProcessor

end Cairo
