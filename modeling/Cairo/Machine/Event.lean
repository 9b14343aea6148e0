import Cairo.Machine.Registers

/-!
# Events

What a machine reports while it works.  The events around an instruction are for observers of
single steps; the others have a level and a wording.
-/

namespace Cairo

/-- Something that a machine reports. -/
inductive Event
  | beforeInstruction (pc : Address) (opcode : Opcode) (step : Int)
  | afterInstruction (pc : Address) (opcode : Opcode) (step : Int)
  | executed (step : Int) (registers : Registers) (opcode : Opcode)
  | hintStarted (pc : Address) (code : String)
  | relocating (segments : Nat)
  | builtinsReady (names : List String)
  | reached (target : Address) (step : Int)
  | relocated (cells : Nat) (table : List Int)

namespace Event

/-- The level of single steps. -/
def stepLevel : Nat := 5

/-- The level of all else that has a wording. -/
def detailLevel : Nat := 10

/-- The level and the wording of an event, where it has them. -/
def report? : Event → Option (Nat × String)
  | beforeInstruction .. | afterInstruction .. => none
  | executed n r opcode =>
    some (stepLevel, "step " ++ toString n ++ ": pc=" ++ r.pc.text ++ " ap=" ++
      (Datum.ofAddress r.ap).plain ++ " fp=" ++ (Datum.ofAddress r.fp).plain ++ " " ++
      opcode.name)
  | hintStarted pc code =>
    some (detailLevel, "Executing hint at " ++ pc.text ++ ": " ++ code)
  | relocating n =>
    some (detailLevel, "Relocating " ++ toString n ++ " temporary segment(s)")
  | builtinsReady names =>
    some (detailLevel, "Initialized builtins: " ++ Text.bracketed (names.map Text.quoted))
  | reached target n =>
    some (detailLevel, "Reached " ++ target.text ++ " after " ++ toString n ++ " steps")
  | relocated cells table =>
    some (detailLevel, "Relocated " ++ toString cells ++ " memory cells with table " ++
      Text.bracketed (table.map toString))

end Event

end Cairo
