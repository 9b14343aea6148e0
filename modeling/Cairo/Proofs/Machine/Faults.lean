import Cairo.Machine.Hints
import Cairo.Proofs.Builtin.Memoization

/-!
# The faults of a step

The loops that make steps end with two faults of their own: the end was not reached, or it was
reached too early.  No step fails with one of them (`failsOnly_step`), so that a loop that fails
with one of them has come to its own end.  The proof goes through whatever a step does, from the
arithmetic of addresses up.

A step may also fail because its instruction has no result.  Then it has come to one of the rules
that use the result, and the lemmas keep track of which (`IsOfStepFor`): the check of the opcode and
the updates of two registers fail for the uses that they are given, and everything else for none.
-/

namespace Cairo

/-- The fault is none of those that the loops over steps end with. -/
def Fault.IsOfStep : Fault → Prop
  | .endNotReached _ _ | .endOfProgram _ => False
  | _ => True

/-- The fault is none of those that the loops over steps end with, and a result is missing only for
one of the given uses. -/
def Fault.IsOfStepFor (uses : String → Prop) : Fault → Prop
  | .endNotReached _ _ | .endOfProgram _ => False
  | .unconstrainedResult what => uses what
  | _ => True

/-- A fault of steps for some uses is a fault of steps. -/
theorem Fault.IsOfStepFor.isOfStep {uses : String → Prop} {e : Fault} (h : e.IsOfStepFor uses) :
    e.IsOfStep := by
  cases e with
  | endNotReached pc target => exact h
  | endOfProgram remaining => exact h
  | _ => trivial

open Fault (IsOfStep IsOfStepFor)

variable {uses : String → Prop}

/-! ## Values and data -/

namespace Address

/-- Shifting an address fails with a fault of steps. -/
theorem failsOnly_shift (a : Address) (k : Int) :
    Answer.FailsOnly (IsOfStepFor uses) (a.shift k) := by
  unfold shift
  cases mk? a.segment (a.offset + k) with
  | some b => exact .ok b
  | none => exact .error trivial

/-- Moving an address by a field element fails with a fault of steps. -/
theorem failsOnly_addFelt (a : Address) (x : Felt) :
    Answer.FailsOnly (IsOfStepFor uses) (a.addFelt x) := by
  unfold addFelt
  cases mk? a.segment ((a.offset + x.val) % prime : Nat) with
  | some b => exact .ok b
  | none => exact .error trivial

/-- The difference of two addresses fails with a fault of steps. -/
theorem failsOnly_sub (a b : Address) : Answer.FailsOnly (IsOfStepFor uses) (a.sub b) := by
  unfold sub
  split
  · exact .ok _
  · exact .error trivial

/-- Advancing an address by a value fails with a fault of steps. -/
theorem failsOnly_advance (a : Address) (v : Value) :
    Answer.FailsOnly (IsOfStepFor uses) (Operand.advance a v) := by
  cases v with
  | felt x => exact failsOnly_addFelt a x
  | address b => exact .error trivial

end Address

namespace Value

/-- The sum of two values fails with a fault of steps. -/
theorem failsOnly_add (v w : Value) : Answer.FailsOnly (IsOfStepFor uses) (v.add w) := by
  cases v with
  | felt x =>
    cases w with
    | felt y => exact .ok _
    | address b => exact .map (b.failsOnly_addFelt x)
  | address a =>
    cases w with
    | felt y => exact .map (a.failsOnly_addFelt y)
    | address b => exact .error trivial

/-- The difference of two values fails with a fault of steps. -/
theorem failsOnly_sub (v w : Value) : Answer.FailsOnly (IsOfStepFor uses) (v.sub w) := by
  cases v with
  | felt x =>
    cases w with
    | felt y => exact .ok _
    | address b => exact .error trivial
  | address a =>
    cases w with
    | felt y => exact .map (a.failsOnly_addFelt (-y))
    | address b => exact .map (a.failsOnly_sub b)

end Value

/-- A quotient of field elements fails with a fault of steps. -/
theorem Felt.failsOnly_div (x y : Felt) : Answer.FailsOnly (IsOfStepFor uses) (x.div y) := by
  unfold Felt.div
  cases x.div? y with
  | some q => exact .ok q
  | none => exact .error trivial

/-- A datum less an integer fails with a fault of steps. -/
theorem Datum.failsOnly_sub_integer (d : Datum) (n : Int) :
    Answer.FailsOnly (IsOfStepFor uses) (operate .sub d (.integer n)) := by
  cases d with
  | value v =>
    cases v with
    | felt x => exact .bind (.ok _) fun _ => .ok _
    | address a => exact .bind (a.failsOnly_shift _) fun _ => .ok _
  | integer m => exact .bind (.ok _) fun _ => .ok _
  | truth b => exact .bind (.ok _) fun _ => .ok _
  | text s => exact .error trivial
  | list xs => exact .error trivial
  | nothing => exact .error trivial

/-! ## Memory -/

namespace Memory

/-- Reading a cell fails with a fault of steps. -/
theorem failsOnly_read (m : Memory) (a : Address) :
    Answer.FailsOnly (IsOfStepFor uses) (m.read a) :=
  .orThrow trivial

/-- Reading a field element fails with a fault of steps. -/
theorem failsOnly_readFelt (m : Memory) (a : Address) :
    Answer.FailsOnly (IsOfStepFor uses) (m.readFelt a) := by
  refine .bind (m.failsOnly_read a) fun v => ?_
  cases v with
  | felt x => exact .ok x
  | address b => exact .error trivial

/-- Reading an address fails with a fault of steps. -/
theorem failsOnly_readAddress (m : Memory) (a : Address) :
    Answer.FailsOnly (IsOfStepFor uses) (m.readAddress a) := by
  refine .bind (m.failsOnly_read a) fun v => ?_
  cases v with
  | felt x => exact .error trivial
  | address b => exact .ok b

/-- Reading consecutive cells fails with a fault of steps. -/
theorem failsOnly_getRange (m : Memory) (a : Address) (n : Int) :
    Answer.FailsOnly (IsOfStepFor uses) (m.getRange a n) :=
  .mapM fun i => .bind (a.failsOnly_shift i) fun _ => .ok _

/-- A rejection of a cell is a fault of steps. -/
theorem IsRejection.isOfStepFor {e : Fault} (h : IsRejection e) : e.IsOfStepFor uses := by
  unfold IsRejection at h
  split at h
  · trivial
  · trivial
  · trivial
  · exact h.elim

/-- Inserting a value fails with a fault of steps. -/
theorem failsOnly_insert (a : Address) (v : Value) :
    Action.FailsOnly (IsOfStepFor uses) (insert a v) := by
  have hcheck : Action.FailsOnly (IsOfStepFor uses) (validateCell a) :=
    (failsOnly_validateCell a).mono fun _ => IsRejection.isOfStepFor
  intro m e t h
  rw [insert_eq] at h
  split at h
  · cases h
    trivial
  · cases hold : m.get? a with
    | none =>
      rw [hold] at h
      exact hcheck _ _ _ h
    | some old =>
      rw [hold] at h
      dsimp only at h
      split at h
      · exact hcheck _ _ _ h
      · cases h
        trivial

/-- Adding a relocation rule fails with a fault of steps. -/
theorem failsOnly_addRelocation (src dst : Address) :
    Action.FailsOnly (IsOfStepFor uses) (addRelocation src dst) := by
  unfold addRelocation
  split
  · exact .throw_bind trivial _
  · refine .bind .get fun m => ?_
    dsimp only
    split
    · exact .throw_bind trivial _
    · exact .modify _

end Memory

/-! ## Builtins -/

namespace Curve

/-- Adding a multiple of a point fails with a fault of steps. -/
theorem failsOnly_multiplyAdd (alpha modulus : Int) (height : Nat) (p q : Point) (m : Int) :
    Answer.FailsOnly (IsOfStepFor uses) (multiplyAdd alpha modulus height p q m) := by
  have hsame : ∀ p q : Point, Answer.FailsOnly (IsOfStepFor uses) (sameX p q modulus) := by
    intro p q
    unfold sameX
    split
    · exact .error trivial
    · exact .ok _
  induction height generalizing p q m with
  | zero => exact .ok p
  | succ height ih =>
    refine .bind (hsame p q) fun same => ?_
    dsimp only
    split
    · exact .throw_bind trivial _
    · have hrest : ∀ partialSum, Answer.FailsOnly (IsOfStepFor uses) (do
          let doubled ← Action.orThrow (tangent? q alpha modulus) .failedAssertion
          multiplyAdd alpha modulus height partialSum doubled (m / 2)) :=
        fun partialSum => .bind (.orThrow trivial) fun doubled => ih partialSum doubled (m / 2)
      split
      · exact .bind (.orThrow trivial) hrest
      · exact hrest p

end Curve

namespace Builtin

variable (b : Builtin)

/-- Asking for the segment of a builtin fails with a fault of steps. -/
theorem failsOnly_requireSegment : Answer.FailsOnly (IsOfStepFor uses) b.requireSegment :=
  .orThrow trivial

/-- The inputs of an instance fail with faults of steps if their check does. -/
theorem failsOnly_feltInputs {first : Address} {check : Address → Felt → Except Fault Unit}
    (hcheck : ∀ a x, Answer.FailsOnly (IsOfStepFor uses) (check a x))
    (i : Nat) (values : List Value) :
    Answer.FailsOnly (IsOfStepFor uses) (b.feltInputs first check i values) := by
  induction values generalizing i with
  | nil => exact .ok _
  | cons v rest ih =>
    refine .bind (first.failsOnly_shift i) fun a => ?_
    cases v with
    | address c => exact .error trivial
    | felt x => exact .bind (hcheck a x) fun _ => .bind (ih (i + 1)) fun _ => .ok _

/-- The bit check of an input fails with a fault of steps. -/
theorem failsOnly_checkBits (a : Address) (x : Felt) :
    Answer.FailsOnly (IsOfStepFor uses) (b.checkBits a x) := by
  unfold checkBits
  split
  · exact .error trivial
  · exact .ok _

/-- The check of a point fails with a fault of steps. -/
theorem failsOnly_checkPoint (p : Curve.Point) :
    Answer.FailsOnly (IsOfStepFor uses) (checkPoint p) := by
  unfold checkPoint
  split
  · exact .ok _
  · exact .error trivial

/-- The outputs of an instance fail with faults of steps. -/
theorem failsOnly_outputs (first : Address) (inputs : List Value) :
    Answer.FailsOnly (IsOfStepFor uses) (b.outputs first inputs) := by
  have hfelts : ∀ felts, Answer.FailsOnly (IsOfStepFor uses) (feltOutputs b.kind felts) := by
    intro felts
    unfold feltOutputs
    split
    · exact .ok _
    · exact .ok _
    · exact .bind (failsOnly_checkPoint _) fun _ => .bind (failsOnly_checkPoint _) fun _ =>
        .bind (Curve.failsOnly_multiplyAdd _ _ _ _ _ _) fun _ => .ok _
    · exact .ok _
    · exact .ok _
  refine .bind (b.failsOnly_feltInputs (fun a x => ?_) 0 inputs) hfelts
  generalize b.kind = kind
  cases kind with
  | bitwise => exact b.failsOnly_checkBits a x
  | _ => exact .ok _

/-- The outputs of an instance in a memory fail with faults of steps. -/
theorem failsOnly_instanceOutputs (m : Memory) (a : Address) :
    Answer.FailsOnly (IsOfStepFor uses) (b.instanceOutputs m a) := by
  unfold instanceOutputs
  split
  · exact .ok _
  · refine .bind (m.failsOnly_getRange _ _) fun cells => ?_
    split
    · exact .ok _
    · exact .bind (b.failsOnly_outputs _ _) fun _ => .ok _

/-- Remembering values of consecutive cells fails with faults of steps. -/
theorem failsOnly_rememberFrom (a : Address) (i : Nat) (values : List Felt) :
    Action.FailsOnly (IsOfStepFor uses) (rememberFrom a i values) := by
  induction values generalizing i with
  | nil => exact .pure _
  | cons x rest ih =>
    exact .bind (.lift (a.failsOnly_shift i)) fun c => .bind (.modify _) fun _ => ih (i + 1)

/-- Remembering the outputs of an instance fails with a fault of steps. -/
theorem failsOnly_rememberOutputs (a : Address) (values : List Felt) :
    Action.FailsOnly (IsOfStepFor uses) (rememberOutputs b a values) := by
  have hfound : ∀ found, Action.FailsOnly (IsOfStepFor uses) (rememberFound a found) := by
    intro found
    cases found with
    | none => exact .pure _
    | some x => exact .bind (.modify _) fun _ => .pure _
  unfold rememberOutputs
  dsimp only
  split
  · exact .bind (.lift (Address.failsOnly_shift _ _)) fun c =>
      .bind (failsOnly_rememberFrom c 0 values) fun _ => hfound _
  · exact hfound _

/-- Deducing a cell fails with a fault of steps. -/
theorem failsOnly_deduce (m : Memory) (a : Address) :
    Action.FailsOnly (IsOfStepFor uses) (deduce m a) := by
  intro b e t h
  rcases b.deduce_cases m a with ⟨x, -, hb⟩ | ⟨e', he', hb⟩ | ⟨-, hb⟩ | ⟨values, -, hb⟩
  · rw [hb] at h
    cases h
  · rw [hb] at h
    cases h
    exact b.failsOnly_instanceOutputs m a e he'
  · rw [hb] at h
    cases h
  · rw [hb] at h
    exact b.failsOnly_rememberOutputs a values b e t h

/-- Deducing a cell of any builtin fails with a fault of steps. -/
theorem failsOnly_deduceCell (m : Memory) (a : Address) :
    Action.FailsOnly (IsOfStepFor uses) (deduceCell m a) := by
  intro bs
  induction bs with
  | nil =>
    intro e t h
    cases h
  | cons b rest ih =>
    intro e t h
    unfold deduceCell at h
    split at h
    next hsegment =>
      cases h
      exact b.failsOnly_requireSegment _ hsegment
    next =>
      split at h
      · split at h
        · cases h
        next hdeduce =>
          cases h
          exact failsOnly_deduce m a _ _ _ hdeduce
      · split at h
        · cases h
        next hrest =>
          cases h
          exact ih _ _ hrest

end Builtin

/-! ## Instructions -/

namespace Registers

variable (r : Registers) (i : Instruction)

/-- A register that is required fails with a fault of steps. -/
theorem failsOnly_require (register : Option Address) :
    Answer.FailsOnly (IsOfStepFor uses) (require register) :=
  .orThrow trivial

/-- The address of the destination fails with a fault of steps. -/
theorem failsOnly_dstAddress : Answer.FailsOnly (IsOfStepFor uses) (r.dstAddress i) :=
  .bind (failsOnly_require _) fun a => a.failsOnly_shift _

/-- The address of the first operand fails with a fault of steps. -/
theorem failsOnly_op0Address : Answer.FailsOnly (IsOfStepFor uses) (r.op0Address i) :=
  .bind (failsOnly_require _) fun a => a.failsOnly_shift _

/-- The address of the second operand fails with a fault of steps. -/
theorem failsOnly_op1Address (op0 : Option Address) :
    Answer.FailsOnly (IsOfStepFor uses) (r.op1Address i op0) := by
  unfold op1Address
  cases i.op1Source with
  | immediate => exact r.pc.failsOnly_shift _
  | ap => exact .bind (failsOnly_require _) fun a => a.failsOnly_shift _
  | fp => exact .bind (failsOnly_require _) fun a => a.failsOnly_shift _
  | op0 =>
    cases op0 with
    | none => exact .bind (r.failsOnly_op0Address i) fun _ => .error trivial
    | some a => exact a.failsOnly_shift _

/-- The address of the next instruction fails with a fault of steps. -/
theorem failsOnly_nextPc :
    Answer.FailsOnly (IsOfStepFor uses) (r.nextPc i) := r.pc.failsOnly_shift _

/-- A quotient of values fails with a fault of steps. -/
theorem failsOnly_quotient? (v w : Value) :
    Answer.FailsOnly (IsOfStepFor uses) (quotient? v w) := by
  unfold quotient?
  split
  · split
    · exact .ok _
    · exact .bind (Felt.failsOnly_div _ _) fun _ => .ok _
  · exact .ok _

/-- The first operand that an instruction implies fails with a fault of steps. -/
theorem failsOnly_solveOp0 (dst op1 : Option Value) :
    Answer.FailsOnly (IsOfStepFor uses) (r.solveOp0 i dst op1) := by
  unfold solveOp0
  split
  · exact .bind (r.failsOnly_nextPc i) fun _ => .ok _
  · exact .bind (Value.failsOnly_sub _ _) fun _ => .ok _
  · refine .bind (failsOnly_quotient? _ _) fun q => ?_
    cases q <;> exact .ok _
  · exact .ok _

/-- The second operand that an instruction implies fails with a fault of steps. -/
theorem failsOnly_solveOp1 (dst op0 : Option Value) :
    Answer.FailsOnly (IsOfStepFor uses) (solveOp1 i dst op0) := by
  unfold solveOp1
  split
  · exact .ok _
  · exact .bind (Value.failsOnly_sub _ _) fun _ => .ok _
  · refine .bind (failsOnly_quotient? _ _) fun q => ?_
    cases q <;> exact .ok _
  · exact .ok _

/-- The result of an instruction fails with a fault of steps. -/
theorem failsOnly_result (op0 op1 : Value) :
    Answer.FailsOnly (IsOfStepFor uses) (result i op0 op1) := by
  unfold result
  cases i.result with
  | op1 => exact .ok _
  | add => exact .bind (Value.failsOnly_add op0 op1) fun _ => .ok _
  | mul =>
    dsimp only
    split
    · exact .ok _
    · exact .error trivial
  | unconstrained => exact .ok _

/-- Completing the operands fails with a fault of steps. -/
theorem failsOnly_complete (a : OperandAddresses) (dst op0 op1 : Option Value) :
    Answer.FailsOnly (IsOfStepFor uses) (r.complete i a dst op0 op1) := by
  have hop0 : Answer.FailsOnly (IsOfStepFor uses) (r.knownOp0 i dst op0 op1) := by
    cases op0 with
    | none => exact r.failsOnly_solveOp0 i dst op1
    | some v => exact .ok _
  have hop1 : ∀ op0, Answer.FailsOnly (IsOfStepFor uses) (knownOp1 i dst op0 op1) := by
    intro op0
    cases op1 with
    | none => exact failsOnly_solveOp1 i dst op0
    | some v => exact .ok _
  refine .bind hop0 fun known0 => .bind (hop1 known0.1) fun known1 =>
    .bind (.orThrow trivial) fun op0 => .bind (.orThrow trivial) fun op1 => ?_
  dsimp only
  split
  · exact .bind (.ok _) fun _ => .bind (.orThrow trivial) fun _ => .ok _
  · exact .bind (failsOnly_result i op0 op1) fun _ => .bind (.orThrow trivial) fun _ => .ok _

/-- The check of an opcode fails with a fault of steps, and for lack of a result when it is an
assertion. -/
theorem failsOnly_check {o : Operands Value}
    (huse : i.opcode = .assertEq → o.res = none → uses "assert_eq") :
    Answer.FailsOnly (IsOfStepFor uses) (r.check i o) := by
  unfold check
  cases hop : i.opcode with
  | nop => exact .ok _
  | ret => exact .ok _
  | assertEq =>
    dsimp only
    split
    next hres => exact .error (huse hop hres)
    · split
      · exact .error trivial
      · exact .ok _
  | call =>
    refine .bind (r.failsOnly_nextPc i) fun pc => ?_
    dsimp only
    split
    · exact .throw_bind trivial _
    · split
      · exact .error trivial
      · exact .ok _

/-- A shifted register fails with a fault of steps. -/
theorem failsOnly_shifted (register : Option Address) (k : Int) :
    Answer.FailsOnly (IsOfStepFor uses)
      (do return some (← (← require register).shift k) : Except Fault (Option Address)) :=
  .bind (failsOnly_require _) fun a => .bind (a.failsOnly_shift k) fun _ => .ok _

/-- A register moved by a value fails with a fault of steps. -/
theorem failsOnly_advanced (register : Option Address) (v : Value) :
    Answer.FailsOnly (IsOfStepFor uses)
      (do return some (← Operand.advance (← require register) v) :
        Except Fault (Option Address)) :=
  .bind (failsOnly_require _) fun a => .bind (a.failsOnly_advance v) fun _ => .ok _

/-- The new frame pointer fails with a fault of steps. -/
theorem failsOnly_updatedFp (o : Operands Value) :
    Answer.FailsOnly (IsOfStepFor uses) (r.updatedFp i o) := by
  unfold updatedFp
  cases i.fpRule with
  | regular => exact .ok _
  | apPlusTwo => exact failsOnly_shifted r.ap 2
  | destination =>
    dsimp only
    split
    · exact .ok _
    · exact failsOnly_advanced r.fp o.dst

/-- The new allocation pointer fails with a fault of steps, and for lack of a result when that is to
be added. -/
theorem failsOnly_updatedAp {o : Operands Value}
    (huse : i.apRule = .addResult → o.res = none → uses "ap += res") :
    Answer.FailsOnly (IsOfStepFor uses) (r.updatedAp i o) := by
  unfold updatedAp
  cases hap : i.apRule with
  | regular => exact .ok _
  | addOne => exact failsOnly_shifted r.ap 1
  | addTwo => exact failsOnly_shifted r.ap 2
  | addResult =>
    dsimp only
    split
    next hres => exact .error (huse hap hres)
    next v _ => exact failsOnly_advanced r.ap v

/-- The new program counter fails with a fault of steps, and for lack of a result when that is where
to jump or how far. -/
theorem failsOnly_updatedPc {o : Operands Value}
    (hjump : i.pcRule = .jump → o.res = none → uses "jmp abs")
    (hrelative : i.pcRule = .jumpRelative → o.res = none → uses "jmp rel") :
    Answer.FailsOnly (IsOfStepFor uses) (r.updatedPc i o) := by
  unfold updatedPc
  cases hpc : i.pcRule with
  | regular => exact r.failsOnly_nextPc i
  | jump =>
    dsimp only
    split
    next hres => exact .error (hjump hpc hres)
    · exact .orThrow trivial
  | jumpRelative =>
    dsimp only
    split
    next hres => exact .error (hrelative hpc hres)
    · split
      · exact r.pc.failsOnly_addFelt _
      · exact .error trivial
  | jumpNonzero =>
    dsimp only
    split
    · exact r.failsOnly_nextPc i
    · split
      · exact r.pc.failsOnly_addFelt _
      · exact .error trivial

/-- Updating the registers fails with a fault of steps. -/
theorem failsOnly_update (o : Operands Value) :
    Action.FailsOnly (IsOfStepFor fun _ => True) (update i o) := by
  refine .bind (.bind .get fun r => .bind (.lift (r.failsOnly_updatedFp i o)) fun _ => .modify _)
    fun _ => ?_
  refine .bind (.bind .get fun r => .bind (.lift (r.failsOnly_updatedAp i fun _ _ => trivial))
    fun _ => .modify _) fun _ => ?_
  exact .bind .get fun r => .bind (.lift (r.failsOnly_updatedPc i (fun _ _ => trivial)
    fun _ _ => trivial)) fun _ => .modify _

end Registers

/-- Decoding a word fails with a fault of steps. -/
theorem Instruction.failsOnly_decode (n : Int) :
    Answer.FailsOnly (IsOfStepFor uses) (decode n) := by
  unfold decode
  cases decode? n with
  | ok i => exact .ok i
  | error defect => exact .error trivial

namespace Machine

/-- Writing to the memory of a machine fails with a fault of steps. -/
theorem failsOnly_insert (a : Address) (v : Value) :
    Action.FailsOnly (IsOfStepFor uses) (onMemory (Memory.insert a v)) :=
  .within (.within (Memory.failsOnly_insert a v))

/-- Finding the cells of the operands fails with a fault of steps. -/
theorem failsOnly_readCells (m : Machine) (i : Instruction) :
    Answer.FailsOnly (IsOfStepFor uses) (m.readCells i) :=
  .bind (m.registers.failsOnly_dstAddress i) fun _ =>
    .bind (m.registers.failsOnly_op0Address i) fun _ =>
      .bind (m.registers.failsOnly_op1Address i _) fun _ => .ok _

/-- Deducing a cell that was not found fails with a fault of steps. -/
theorem failsOnly_orDeduced (a : Address) (found : Option Value) :
    Action.FailsOnly (IsOfStepFor uses) (orDeduced a found) := by
  cases found with
  | some v => exact .pure _
  | none =>
    have hdeduce : Action.FailsOnly (IsOfStepFor uses) (deduceCell a) :=
      .bind .get fun m => .within (Builtin.failsOnly_deduceCell m.memory a)
    exact .bind hdeduce fun _ => .pure _

/-- Writing a cell that was not found fails with a fault of steps. -/
theorem failsOnly_writeMissing (a : Address) (found : Option Value) (v : Value) :
    Action.FailsOnly (IsOfStepFor uses) (writeMissing a found v) := by
  cases found with
  | some w => exact .pure _
  | none => exact failsOnly_insert a v

/-- Computing the operands fails with a fault of steps. -/
theorem failsOnly_computeOperands (i : Instruction) :
    Action.FailsOnly (IsOfStepFor uses) (computeOperands i) := by
  have hgather : ∀ c, Action.FailsOnly (IsOfStepFor uses) (gather i c) := fun c =>
    .bind (failsOnly_orDeduced _ _) fun _ => .bind (failsOnly_orDeduced _ _) fun _ =>
      .bind .get fun m => .lift (m.registers.failsOnly_complete i _ _ _ _)
  exact .bind .get fun m => .bind (.lift (m.failsOnly_readCells i)) fun c =>
    .bind (hgather c) fun _ => .bind (failsOnly_writeMissing _ _ _) fun _ =>
      .bind (failsOnly_writeMissing _ _ _) fun _ => .bind (failsOnly_writeMissing _ _ _) fun _ =>
        .pure _

/-- Executing an instruction fails with a fault of steps. -/
theorem failsOnly_runInstruction (i : Instruction) :
    Action.FailsOnly (IsOfStepFor fun _ => True) (runInstruction i) :=
  .bind (failsOnly_computeOperands i) fun o => .bind .get fun m =>
    .bind (.lift (m.registers.failsOnly_check i fun _ _ => trivial)) fun _ =>
      .bind (.modify _) fun _ => .bind (.modify _) fun _ =>
        .bind (.within (Registers.failsOnly_update i o.1)) fun _ => .modify _

/-- Finding the instruction fails with a fault of steps. -/
theorem failsOnly_currentInstruction (m : Machine) :
    Answer.FailsOnly (IsOfStepFor uses) m.currentInstruction := by
  have hword : Answer.FailsOnly (IsOfStepFor uses) m.currentWord :=
    .bind (m.memory.failsOnly_readFelt _) fun _ => .bind (m.registers.pc.failsOnly_shift 1) fun _ =>
      .ok _
  exact .bind hword fun word => Instruction.failsOnly_decode _

/-- A step after its hints fails with a fault of steps. -/
theorem failsOnly_stepInstruction :
    Action.FailsOnly (IsOfStepFor fun _ => True) stepInstruction := by
  refine .bind .get fun m => .bind (.lift m.failsOnly_currentInstruction) fun i => ?_
  split
  · exact .bind .get fun m => .bind (.lift (m.registers.failsOnly_nextPc i)) fun _ => .modify _
  · exact .bind (.modify _) fun _ => .bind (failsOnly_runInstruction i) fun _ =>
      .bind .get fun _ => .modify _

/-! ## Hints -/

/-- A name that hides a part of the machine fails with the fault that is given for it. -/
theorem failsOnly_seen (p : HintProcessor) (name : String) {e : Fault}
    (he : e.IsOfStepFor uses) :
    Answer.FailsOnly (IsOfStepFor uses) (seen p name e) := by
  unfold seen
  split
  · exact .error he
  · exact .ok _

/-- A hint that allocates fails with a fault of steps if its allocation does. -/
theorem failsOnly_hintAllocate (p : HintProcessor) {allocate : Action Segments Address}
    (h : Action.FailsOnly (IsOfStepFor uses) allocate) :
    Action.FailsOnly (IsOfStepFor uses) (hintAllocate p allocate) := by
  refine .bind (.lift (failsOnly_seen p _ trivial)) fun _ => .bind (.within h) fun base =>
    .bind .get fun m => ?_
  dsimp only
  split
  · refine .lift ?_
    unfold writeItem
    split
    · split
      · exact .ok _
      · exact .error trivial
    · exact .error trivial
  · exact .bind (.lift (.orThrow trivial)) fun a => failsOnly_insert a _

/-- A hint that relocates fails with a fault of steps. -/
theorem failsOnly_hintRelocate (p : HintProcessor) :
    Action.FailsOnly (IsOfStepFor uses) (hintRelocate p) := by
  have hoperand : ∀ (m : Machine) below,
      Answer.FailsOnly (IsOfStepFor uses) (m.hintOperand p below) :=
    fun m below => .bind (Datum.failsOnly_sub_integer _ below) fun _ =>
      .bind (.orThrow trivial) fun a => m.memory.failsOnly_readAddress a
  exact .bind (.lift (failsOnly_seen p _ trivial)) fun _ => .bind .get fun m =>
    .bind (.lift (hoperand m 2)) fun src => .bind .get fun m =>
      .bind (.lift (hoperand m 1)) fun dst =>
        .within (.within (Memory.failsOnly_addRelocation src dst))

/-- An action on the scopes fails with a fault of steps if it does so on scopes. -/
theorem failsOnly_onScopes {x : Action Scopes Unit} (hx : Action.FailsOnly (IsOfStepFor uses) x) :
    Action.FailsOnly (IsOfStepFor uses) (onScopes x) := by
  intro s e t h
  unfold onScopes at h
  split at h
  · cases h
    trivial
  · split at h
    · cases h
    next hfail =>
      cases h
      exact hx _ _ _ hfail

/-- What a hint does fails with a fault of steps. -/
theorem failsOnly_perform (p : HintProcessor) (a : HintAction) :
    Action.FailsOnly (IsOfStepFor uses) (perform p a) := by
  cases a with
  | allocateSegment =>
    have hadd : Action.FailsOnly (IsOfStepFor uses) Memory.addSegment := by
      rintro _ _ _ ⟨⟩
    exact failsOnly_hintAllocate p (.bind (.within hadd) fun _ => .pure _)
  | allocateTemporary =>
    have hadd : Action.FailsOnly (IsOfStepFor uses) Memory.addTemporary := by
      rintro _ _ _ ⟨⟩
    exact failsOnly_hintAllocate p (.bind (.within hadd) fun _ => .pure _)
  | relocateTemporary => exact failsOnly_hintRelocate p
  | enterScope =>
    exact .bind (.lift (failsOnly_seen p _ trivial)) fun _ => failsOnly_onScopes (.modify _)
  | exitScope =>
    refine .bind (.lift (failsOnly_seen p _ trivial)) fun _ => failsOnly_onScopes ?_
    intro s e t h
    unfold Scopes.exit at h
    split at h
    · cases h
      trivial
    · cases h
  | skipInstruction => exact .bind (.lift (failsOnly_seen p _ trivial)) fun _ => .modify _

/-- The hints of an instruction fail with a fault of steps. -/
theorem failsOnly_stepHint : Action.FailsOnly (IsOfStepFor uses) stepHint := by
  have hrun : ∀ p h, Action.FailsOnly (IsOfStepFor uses) (runHint p h) := fun p h =>
    .bind (failsOnly_onScopes (.modify _)) fun _ => .bind .get fun _ => .bind (.modify _) fun _ =>
      .bind (.lift (.orThrow trivial)) fun a => failsOnly_perform p a
  unfold stepHint
  refine .bind .get fun m => ?_
  split
  · exact .pure _
  · exact .pure _
  · exact .bind (.lift (.orThrow trivial)) fun p => .forM fun h => hrun p h

/-- A step fails with none of the faults that the loops over steps end with. -/
theorem failsOnly_step : Action.FailsOnly IsOfStep step :=
  (Action.FailsOnly.bind failsOnly_stepHint fun _ => failsOnly_stepInstruction).mono
    fun _ => IsOfStepFor.isOfStep

end Machine

end Cairo
