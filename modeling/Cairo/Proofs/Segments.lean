import Cairo.Proofs.Memory.WriteOnce
import Cairo.Segments

/-!
# Segments grow

Allocating segments and writing to them keeps the cells that are written and the sizes that are
known (`Grows`).  Arguments are written to new segments, list by list, so the same holds of them.
-/

namespace Cairo.Segments

/-- The second segments have the written cells of the first ones and the same known sizes. -/
structure Grows (s t : Segments) : Prop where
  memory : s.memory.Extends t.memory
  usedSizes : t.usedSizes = s.usedSizes
  fixedSizes : t.fixedSizes = s.fixedSizes

instance : IsPreorder Segments Grows where
  refl _ := ⟨refl _, rfl, rfl⟩
  trans _ _ _ h h' := ⟨IsTrans.trans _ _ _ h.memory h'.memory, h'.usedSizes.trans h.usedSizes,
    h'.fixedSizes.trans h.fixedSizes⟩

/-- An action on the memory succeeds when it does so there. -/
theorem onMemory_eq_ok {α : Type} {x : Action Memory α} {s t : Segments} {a : α} :
    onMemory x s = .ok a t ↔ ∃ m, x s.memory = .ok a m ∧ { s with memory := m } = t :=
  Action.within_eq_ok

/-- An action that keeps the cells of the memory lets the segments grow. -/
theorem respects_onMemory {α : Type} {x : Action Memory α}
    (hx : Action.Respects Memory.Extends x) : Action.Respects Grows (onMemory x) :=
  .within hx fun _ _ hm => ⟨hm, rfl, rfl⟩

/-- A new segment without a fixed size lets the segments grow. -/
theorem respects_add : Action.Respects Grows (add none) :=
  .bind (respects_onMemory Memory.respects_addSegment) fun _ => .pure _

/-- A new temporary segment lets the segments grow. -/
theorem respects_addTemporary : Action.Respects Grows addTemporary :=
  .bind (respects_onMemory Memory.respects_addTemporary) fun _ => .pure _

/-- Loading data lets the segments grow. -/
theorem respects_load (a : Address) (data : List Datum) : Action.Respects Grows (load a data) :=
  respects_onMemory (Memory.respects_load a data)

/-! ## Arguments -/

section Arguments

variable {R : Segments → Segments → Prop} [IsPreorder Segments R]

mutual

/-- Writing an argument respects what new segments and loading data do. -/
theorem respects_argument_of (hadd : Action.Respects R (add none))
    (hload : ∀ a data, Action.Respects R (load a data)) (d : Datum) :
    Action.Respects R (argument d) := by
  cases d with
  | value v =>
    rw [argument]
    exact .pure _
  | truth b =>
    rw [argument]
    exact .pure _
  | integer n =>
    rw [argument]
    exact .pure _
  | list items =>
    rw [argument]
    exact .bind hadd fun base => .bind (respects_arguments_of hadd hload items) fun values =>
      .bind (hload base _) fun _ => .pure _
  | nothing =>
    rw [argument]
    exact .throw _
  | text s =>
    rw [argument]
    exact .throw _

/-- Writing a list of arguments respects what new segments and loading data do. -/
theorem respects_arguments_of (hadd : Action.Respects R (add none))
    (hload : ∀ a data, Action.Respects R (load a data)) (items : List Datum) :
    Action.Respects R (arguments items) := by
  cases items with
  | nil =>
    rw [arguments]
    exact .pure _
  | cons d rest =>
    rw [arguments]
    exact .bind (respects_argument_of hadd hload d) fun _ =>
      .bind (respects_arguments_of hadd hload rest) fun _ => .pure _

end

end Arguments

/-- Writing an argument lets the segments grow. -/
theorem respects_argument (d : Datum) : Action.Respects Grows (argument d) :=
  respects_argument_of respects_add respects_load d

end Cairo.Segments
