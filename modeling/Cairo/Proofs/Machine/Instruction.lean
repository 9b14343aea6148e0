import Cairo.Machine.Execution
import Cairo.Proofs.Machine.Completion
import Cairo.Proofs.Segments

/-!
# Executing an instruction

Whatever deductions it makes, an instruction that a machine executes is executed over the memory
that it leaves behind: `runInstruction_ok` reads the operands of `Executes` off the new memory,
and `runInstruction_executes` adds what becomes of the old one.  In the other direction, a machine
over whose memory an instruction is already executed executes it and writes nothing
(`exists_runInstruction`).
-/

namespace Cairo.Machine

/-! ## Changing a part of a machine -/

/-- The machine with another memory. -/
def withMemory (s : Machine) (m : Memory) : Machine :=
  { s with segments := { s.segments with memory := m } }

/-- The segments of the second machine have grown from those of the first, and the machines have
the same hints and agree on whether the next instruction is passed over. -/
structure Frame (s t : Machine) : Prop where
  segments : s.segments.Grows t.segments
  hints : t.hints = s.hints
  skipNext : t.skipNext = s.skipNext

instance : IsPreorder Machine Frame where
  refl _ := ⟨refl _, rfl, rfl⟩
  trans _ _ _ h h' := ⟨IsTrans.trans _ _ _ h.segments h'.segments, h'.hints.trans h.hints,
    h'.skipNext.trans h.skipNext⟩

/-- The memory of the second machine has the written cells of the first one. -/
theorem Frame.extends {s t : Machine} (h : s.Frame t) : s.memory.Extends t.memory :=
  h.segments.memory

/-- An action on the memory of a machine succeeds when it does so on the memory. -/
theorem onMemory_eq_ok {α : Type} {x : Action Memory α} {s t : Machine} {a : α} :
    onMemory x s = .ok a t ↔ ∃ m, x s.memory = .ok a m ∧ s.withMemory m = t := by
  unfold onMemory onSegments Segments.onMemory
  simp only [Action.within_eq_ok]
  constructor
  · rintro ⟨_, ⟨m, hm, rfl⟩, rfl⟩
    exact ⟨m, hm, rfl⟩
  · rintro ⟨m, hm, rfl⟩
    exact ⟨_, ⟨m, hm, rfl⟩, rfl⟩

/-- A deduction changes the builtins only. -/
theorem deduceCell_ok {a : Address} {s t : Machine} {x : Option Felt}
    (h : deduceCell a s = .ok x t) : ∃ bs, t = { s with builtins := bs } := by
  unfold deduceCell onBuiltins at h
  simp only [Action.bind_eq_ok, Action.get_eq_ok, Action.within_eq_ok] at h
  obtain ⟨_, _, ⟨rfl, rfl⟩, bs, -, rfl⟩ := h
  exact ⟨bs, rfl⟩

/-! ## The operands -/

/-- A cell that was found is not deduced, and a deduction changes the builtins only. -/
theorem orDeduced_ok {a : Address} {found x : Option Value} {s t : Machine}
    (h : orDeduced a found s = .ok x t) :
    (∃ bs, t = { s with builtins := bs }) ∧ ∀ v, found = some v → x = some v := by
  cases found with
  | some v =>
    obtain ⟨rfl, rfl⟩ := Action.pure_eq_ok.mp h
    exact ⟨⟨_, rfl⟩, fun _ => id⟩
  | none =>
    obtain ⟨_, _, hdeduce, h⟩ := Action.bind_eq_ok.mp h
    obtain ⟨-, rfl⟩ := Action.pure_eq_ok.mp h
    exact ⟨deduceCell_ok hdeduce, nofun⟩

/-- Gathering the operands keeps those that were found, answers a result that the rule gives for
them, and changes the builtins only. -/
theorem gather_ok {i : Instruction} {c : FoundCells} {o : Operands Value} {s t : Machine}
    (h : gather i c s = .ok o t) :
    (∃ bs, t = { s with builtins := bs }) ∧ (∀ v, c.dst = some v → o.dst = v) ∧
      (∀ v, c.op0 = some v → o.op0 = v) ∧ (∀ v, c.op1 = some v → o.op1 = v) ∧
        i.result.Gives o.op0 o.op1 o.res := by
  unfold gather at h
  obtain ⟨op0, s₁, hop0, h₁⟩ := Action.bind_eq_ok.mp h
  obtain ⟨op1, s₂, hop1, h₂⟩ := Action.bind_eq_ok.mp h₁
  obtain ⟨⟨bs₁, rfl⟩, hfound0⟩ := orDeduced_ok hop0
  obtain ⟨⟨bs₂, rfl⟩, hfound1⟩ := orDeduced_ok hop1
  simp only [Action.bind_eq_ok, Action.get_eq_ok, Action.lift_eq_ok] at h₂
  obtain ⟨_, _, ⟨rfl, rfl⟩, hcomplete, rfl⟩ := h₂
  obtain ⟨hdst, h0, h1, hgives⟩ := Registers.complete_ok hcomplete
  exact ⟨⟨bs₂, rfl⟩, hdst, fun v hv => h0 v (hfound0 v hv), fun v hv => h1 v (hfound1 v hv),
    hgives⟩

/-- Writing a missing cell changes this cell of the memory at most, and what was written stays. -/
theorem writeMissing_ok {a : Address} {found : Option Value} {v : Value} {s t : Machine}
    (h : writeMissing a found v s = .ok () t) :
    ∃ m, t = s.withMemory m ∧ s.memory.Extends m ∧ (found = none → m.get? a = some v) ∧
      ∀ b, b ≠ a → m.get? b = s.memory.get? b := by
  cases found with
  | some w =>
    obtain ⟨-, rfl⟩ := Action.pure_eq_ok.mp h
    exact ⟨s.memory, rfl, refl _, nofun, fun _ _ => rfl⟩
  | none =>
    obtain ⟨m, hm, rfl⟩ := onMemory_eq_ok.mp h
    have hget := Memory.get?_of_insert_ok hm
    refine ⟨m, rfl, (Memory.respects_insert a v).of_ok hm, fun _ => ?_, fun b hb => ?_⟩
    · rw [hget, if_pos rfl]
    · rw [hget, if_neg hb]

/-- An address of the second operand that does not need the first one is there with every first
operand. -/
theorem op1Address_of_none {r : Registers} {i : Instruction} {a : Address}
    (h : r.op1Address i none = .ok a) (b : Option Address) : r.op1Address i b = .ok a := by
  unfold Registers.op1Address at h ⊢
  cases hsource : i.op1Source with
  | op0 => simp [hsource, Answer.bind_eq_ok, Answer.throw_eq_ok] at h
  | immediate => simpa [hsource] using h
  | ap => simpa [hsource] using h
  | fp => simpa [hsource] using h

/-- An address of the second operand that is found with the first one, as far as that is there, is
also found with a value that agrees with it. -/
theorem op1Address_of_found {r : Registers} {i : Instruction} {a : Address} {found : Option Value}
    {v : Value} (h : r.op1Address i (found.bind Value.address?) = .ok a)
    (hv : ∀ w, found = some w → v = w) : r.op1Address i v.address? = .ok a := by
  cases found with
  | none => exact op1Address_of_none h _
  | some w =>
    rw [hv w rfl]
    exact h

/-- The cells of an instruction are what is found at the addresses of its operands. -/
theorem readCells_ok {i : Instruction} {c : FoundCells} {s : Machine} (h : s.readCells i = .ok c) :
    s.registers.dstAddress i = .ok c.addresses.dst ∧
      s.registers.op0Address i = .ok c.addresses.op0 ∧
        s.registers.op1Address i (c.op0.bind Value.address?) = .ok c.addresses.op1 ∧
          c.dst = s.memory.get? c.addresses.dst ∧ c.op0 = s.memory.get? c.addresses.op0 ∧
            c.op1 = s.memory.get? c.addresses.op1 := by
  unfold readCells at h
  simp only [Answer.bind_eq_ok, Answer.pure_eq_ok] at h
  obtain ⟨dst, hdst, op0, hop0, op1, hop1, rfl⟩ := h
  exact ⟨hdst, hop0, hop1, rfl, rfl, rfl⟩

/-- The operands of an instruction are fetched from the memory that is left, which keeps what was
written and has at most the three operands as new cells. -/
theorem computeOperands_ok {i : Instruction} {o : Operands Value} {a : OperandAddresses}
    {s t : Machine} (h : computeOperands i s = .ok (o, a) t) :
    ∃ bs m, t = ({ s with builtins := bs } : Machine).withMemory m ∧
      s.registers.Fetches i m a o ∧ s.memory.Extends m ∧
        ∀ b, b ≠ a.dst → b ≠ a.op0 → b ≠ a.op1 → m.get? b = s.memory.get? b := by
  unfold computeOperands at h
  simp only [Action.bind_eq_ok, Action.get_eq_ok, Action.lift_eq_ok, Action.pure_eq_ok] at h
  obtain ⟨_, _, ⟨rfl, rfl⟩, c, _, ⟨hread, rfl⟩, o', s₀, hgather, ⟨⟩, s₁, hdst, ⟨⟩, s₂, hop0, ⟨⟩, s₃,
    hop1, heq, rfl⟩ := h
  obtain ⟨rfl, rfl⟩ := Prod.mk.inj heq
  obtain ⟨hdstAddress, hop0Address, hop1Address, hdstCell, hop0Cell, hop1Cell⟩ := readCells_ok hread
  obtain ⟨⟨bs, rfl⟩, hfoundDst, hfound0, hfound1, hgives⟩ := gather_ok hgather
  obtain ⟨m₁, rfl, hext₁, hnew₁, hframe₁⟩ := writeMissing_ok hdst
  obtain ⟨m₂, rfl, hext₂, hnew₂, hframe₂⟩ := writeMissing_ok hop0
  obtain ⟨m₃, rfl, hext₃, hnew₃, hframe₃⟩ := writeMissing_ok hop1
  have hext : s.memory.Extends m₃ := fun b v hb => hext₃ b v (hext₂ b v (hext₁ b v hb))
  -- A cell holds its operand because it was found there, or because it was written now.
  have hcell : ∀ b found v, found = s.memory.get? b → (∀ w, found = some w → v = w) →
      (found = none → m₃.get? b = some v) → m₃.get? b = some v := by
    intro b found v hb hfound hnew
    cases found with
    | none => exact hnew rfl
    | some w =>
      rw [hfound w rfl]
      exact hext b w hb.symm
  refine ⟨bs, m₃, rfl, ⟨hdstAddress, hop0Address, ?_, ?_, ?_, ?_, hgives⟩, hext, ?_⟩
  · exact op1Address_of_found hop1Address hfound0
  · exact hcell _ _ _ hdstCell hfoundDst fun hnone => hext₃ _ _ (hext₂ _ _ (hnew₁ hnone))
  · exact hcell _ _ _ hop0Cell hfound0 fun hnone => hext₃ _ _ (hnew₂ hnone)
  · exact hcell _ _ _ hop1Cell hfound1 hnew₃
  · intro b hb hb0 hb1
    exact (hframe₃ b hb1).trans ((hframe₂ b hb0).trans (hframe₁ b hb))

/-- Operands that are fetched from the memory of a machine are computed without a change of the
machine. -/
theorem computeOperands_of_fetches {i : Instruction} {o : Operands Value} {a : OperandAddresses}
    {s : Machine} (h : s.registers.Fetches i s.memory a o) :
    computeOperands i s = .ok (o, a) s := by
  have hread : s.readCells i = .ok ⟨a, some o.dst, some o.op0, some o.op1⟩ := by
    refine Answer.bind_eq_ok.mpr ⟨_, h.dstAddress, Answer.bind_eq_ok.mpr ⟨_, h.op0Address, ?_⟩⟩
    refine Answer.bind_eq_ok.mpr ⟨a.op1, ?_, ?_⟩
    · rw [h.op0]
      exact h.op1Address
    · rw [h.dst, h.op0, h.op1]
      rfl
  have hgather : gather i ⟨a, some o.dst, some o.op0, some o.op1⟩ s = .ok o s := by
    refine Action.bind_eq_ok.mpr ⟨_, _, rfl, Action.bind_eq_ok.mpr ⟨_, _, rfl, ?_⟩⟩
    refine Action.bind_eq_ok.mpr ⟨_, _, rfl, Action.lift_eq_ok.mpr ⟨?_, rfl⟩⟩
    exact Registers.complete_known a h.result
  unfold computeOperands
  rw [Action.get_bind, Action.lift_bind_of_ok hread, Action.bind_of_ok hgather]
  rfl

/-! ## The whole instruction -/

/-- An instruction is executed when its operands are computed, the opcode holds of them, and the
registers can be updated; the machine then differs from the one with the operands in its registers,
its marks, its trace, its events and its count of steps. -/
theorem runInstruction_eq_ok {i : Instruction} {s t : Machine} :
    runInstruction i s = .ok () t ↔ ∃ o a u r', computeOperands i s = .ok (o, a) u ∧
      u.registers.Admits i o ∧ Registers.update i o u.registers = .ok () r' ∧
        t = { u.recordStep a with
          events := u.events.map (·.push (.executed u.stepCount u.registers i.opcode))
          registers := r'
          stepCount := u.stepCount + 1 } := by
  unfold runInstruction report onRegisters
  simp only [Action.bind_eq_ok, Action.get_eq_ok, Action.lift_eq_ok, Action.modify_eq_ok,
    Action.within_eq_ok]
  constructor
  · rintro ⟨⟨o, a⟩, u, hoperands, _, _, ⟨rfl, rfl⟩, _, _, ⟨hcheck, rfl⟩, _, _, rfl, _, _, rfl, _,
      _, ⟨r', hupdate, rfl⟩, rfl⟩
    exact ⟨o, a, u, r', hoperands, Registers.check_eq_ok.mp hcheck, hupdate, rfl⟩
  · rintro ⟨o, a, u, r', hoperands, hadmits, hupdate, rfl⟩
    have hcheck := Registers.check_eq_ok.mpr hadmits
    exact ⟨(o, a), u, hoperands, _, _, ⟨rfl, rfl⟩, (), _, ⟨hcheck, rfl⟩, (), _, rfl, (), _, rfl,
      (), _, ⟨r', hupdate, rfl⟩, rfl⟩

/-- Recording a step marks addresses only. -/
theorem marked_recordStep (s : Machine) (a : OperandAddresses) :
    s.memory.Marked (s.recordStep a).memory := ⟨_, rfl⟩

/-- What a machine does when it executes an instruction: the instruction is executed over the new
memory, which has the old cells and at most three more; the registers before it are a new row of the
trace. -/
theorem runInstruction_ok {i : Instruction} {s t : Machine} (h : runInstruction i s = .ok () t) :
    ∃ a o, s.registers.Executes i t.memory a o t.registers ∧ s.Frame t ∧
      (∀ b, b ≠ a.dst → b ≠ a.op0 → b ≠ a.op1 → t.memory.get? b = s.memory.get? b) ∧
        t.trace = s.trace.map (·.push s.registers) := by
  obtain ⟨o, a, u, r', hoperands, hadmits, hupdate, rfl⟩ := runInstruction_eq_ok.mp h
  obtain ⟨bs, m, rfl, hfetches, hext, hframe⟩ := computeOperands_ok hoperands
  obtain ⟨hfp, hap, hpc⟩ := Registers.update_eq_ok.mp hupdate
  have hmarked := marked_recordStep (({ s with builtins := bs } : Machine).withMemory m) a
  have hcells := fun b v (hb : m.get? b = some v) => (hmarked.get?_eq b).trans hb
  refine ⟨a, o, ⟨hfetches.mono hcells, hadmits, hfp, hap, hpc⟩, ⟨⟨?_, rfl, rfl⟩, rfl, rfl⟩, ?_, rfl⟩
  · exact fun b v hb => hcells b v (hext b v hb)
  · exact fun b hb hb0 hb1 => (hmarked.get?_eq b).trans (hframe b hb hb0 hb1)

/-- An instruction that is executed over the memory of a machine is executed by it, and no cell is
written. -/
theorem exists_runInstruction {i : Instruction} {s : Machine} {a : OperandAddresses}
    {o : Operands Value} {r' : Registers} (h : s.registers.Executes i s.memory a o r') :
    ∃ t, runInstruction i s = .ok () t ∧ t.registers = r' ∧ s.memory.Marked t.memory ∧
      t.trace = s.trace.map (·.push s.registers) ∧ t.hints = s.hints ∧
        t.skipNext = s.skipNext := by
  have hupdate : Registers.update i o s.registers = .ok () r' :=
    Registers.update_eq_ok.mpr ⟨h.fp, h.ap, h.pc⟩
  exact ⟨_, runInstruction_eq_ok.mpr ⟨o, a, s, r', computeOperands_of_fetches h.toFetches, h.admits,
    hupdate, rfl⟩, rfl, marked_recordStep s a, rfl, rfl, rfl⟩

/-- An instruction that a machine executes has its operands in the new memory, its result is formed
from them, its opcode holds of them, and the new registers follow from them and the old ones.  The
cells that were written before keep their values, and no cells but the operands are new. -/
theorem runInstruction_executes {i : Instruction} {s t : Machine}
    (h : runInstruction i s = .ok () t) :
    ∃ a o, s.registers.Executes i t.memory a o t.registers ∧ s.memory.Extends t.memory ∧
      ∀ b, b ≠ a.dst → b ≠ a.op0 → b ≠ a.op1 → t.memory.get? b = s.memory.get? b := by
  obtain ⟨a, o, hexecutes, hframe, hothers, -⟩ := runInstruction_ok h
  exact ⟨a, o, hexecutes, hframe.extends, hothers⟩

/-- A machine with some code in its first segment and a stack in its second one, at the start of
the code and the end of the stack. -/
def loaded (code stack : List Value) : Machine :=
  let m := Memory.empty
  let top := Address.mk? 1 stack.length
  { fresh true false with
    segments := { Segments.empty with
      memory := { m with segments := #[(code.map some).toArray, (stack.map some).toArray] } }
    registers := ⟨.base 0, top, top⟩ }

/-- The instruction that writes the immediate value to the allocation pointer and moves it on. -/
def pushImmediate : Instruction :=
  { off0 := 0, off1 := -1, off2 := 1, dstRegister := .ap, op0Register := .fp
    op1Source := .immediate, result := .op1, pcRule := .regular, apRule := .addOne
    fpRule := .regular, opcode := .assertEq }

/-- The word of the instruction that writes the immediate value. -/
def pushImmediateWord : Felt := 0x480680017fff8000

/-- Writing the number five to the stack, where the destination is found from the immediate
value. -/
theorem runInstruction_executes_pushImmediate :
    ∃ s t : Machine, runInstruction pushImmediate s = .ok () t ∧
      s = loaded [.felt pushImmediateWord, .felt 5] [.felt 0] ∧
        ∃ a o, s.registers.Executes pushImmediate t.memory a o t.registers ∧
          s.memory.Extends t.memory ∧
            ∀ b, b ≠ a.dst → b ≠ a.op0 → b ≠ a.op1 → t.memory.get? b = s.memory.get? b := by
  have hrun : runInstruction pushImmediate (loaded [.felt pushImmediateWord, .felt 5] [.felt 0]) =
      .ok () ((runInstruction pushImmediate).after
        (loaded [.felt pushImmediateWord, .felt 5] [.felt 0])) := by
    rfl
  exact ⟨_, _, hrun, rfl, runInstruction_executes hrun⟩

end Cairo.Machine
