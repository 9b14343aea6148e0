import Cairo.Proofs.Instruction.Decoding
import Cairo.Proofs.Machine.Steps

/-!
# Calls and returns

A call saves the frame pointer and the address after it in the first two cells of the frame that it
opens.  Cells are written once, so whatever is executed in between, and whatever hints try to write,
a return from this frame finds the two cells unchanged and goes back to where the call came from.
-/

namespace Cairo

namespace Instruction

/-- The instruction is a call that saves the frame pointer in the first free cell and the address
after it in the second one. -/
structure IsFrameCall (i : Instruction) : Prop where
  opcode : i.opcode = .call
  dstRegister : i.dstRegister = .ap
  off0 : i.off0 = 0
  op0Register : i.op0Register = .ap
  off1 : i.off1 = 1

/-- The instruction is a return that takes the frame pointer from the second cell below the frame
and jumps to the address in the first one. -/
structure IsFrameReturn (i : Instruction) : Prop where
  opcode : i.opcode = .ret
  dstRegister : i.dstRegister = .fp
  off0 : i.off0 = -2
  op1Source : i.op1Source = .fp
  off2 : i.off2 = -1
  result : i.result = .op1
  pcRule : i.pcRule = .jump

end Instruction

namespace Registers

variable {r r' : Registers} {i : Instruction} {m : Memory} {a : OperandAddresses}
  {o : Operands Value} {top : Address}

/-- The two cells below an address hold the frame pointer and the address to return to. -/
structure SavesFrame (m : Memory) (top : Address) (fp : Option Address) (pc : Address) :
    Prop where
  fp : ∃ a b, top.shift (-2) = .ok a ∧ fp = some b ∧ m.get? a = some (.address b)
  pc : ∃ a, top.shift (-1) = .ok a ∧ m.get? a = some (.address pc)

/-- A saved frame is saved in a memory with more cells. -/
theorem SavesFrame.mono {m m' : Memory} {fp : Option Address} {pc : Address}
    (h : SavesFrame m top fp pc) (hm : m.Extends m') : SavesFrame m' top fp pc := by
  obtain ⟨⟨a, b, ha, hb, hfp⟩, ⟨c, hc, hpc⟩⟩ := h
  exact ⟨⟨a, b, ha, hb, hm _ _ hfp⟩, ⟨c, hc, hm _ _ hpc⟩⟩

/-- An address that is formed from a register is at some distance from its content. -/
theorem shift_of_require {register : Option Address} {k : Int} {b c : Address}
    (h : (do (← require register).shift k : Except Fault Address) = .ok c)
    (hb : register = some b) : b.shift k = .ok c := by
  obtain ⟨b', hb', hshift⟩ := Answer.bind_eq_ok.mp h
  obtain rfl := Option.some.inj (hb.symm.trans (require_eq_ok.mp hb'))
  exact hshift

/-- A call saves the frame below the one that it opens. -/
theorem Executes.savesFrame {ap : Address} (h : r.Executes i m a o r') (hi : i.IsFrameCall)
    (hap : r.ap = some ap) (htop : ap.shift 2 = .ok top) :
    ∃ pc, r.pc.shift i.size = .ok pc ∧ SavesFrame m top r.fp pc := by
  obtain ⟨pc, fp, hpc, hop0, hfp, hdst⟩ := h.admits.call hi.opcode
  have hdstAddress := h.dstAddress
  have hop0Address := h.op0Address
  rw [dstAddress, hi.dstRegister, hi.off0] at hdstAddress
  rw [op0Address, hi.op0Register, hi.off1] at hop0Address
  refine ⟨pc, hpc, ⟨a.dst, fp, ?_, hfp, ?_⟩, ⟨a.op0, ?_, ?_⟩⟩
  · exact (Address.shift_trans htop).mpr (shift_of_require hdstAddress hap)
  · rw [h.dst, hdst]
  · exact (Address.shift_trans htop).mpr (shift_of_require hop0Address hap)
  · rw [h.op0, hop0]

/-- A return from a frame goes back to what is saved below it. -/
theorem Executes.returns {fp : Option Address} {pc : Address} (h : r.Executes i m a o r')
    (hi : i.IsFrameReturn) (hrule : i.fpRule = .destination) (htop : r.fp = some top)
    (hsaved : SavesFrame m top fp pc) : r'.pc = pc ∧ r'.fp = fp := by
  obtain ⟨⟨dst, b, hdst, hb, hfp⟩, ⟨op1, hop1, hpc⟩⟩ := hsaved
  have hdstAddress := h.dstAddress
  have hop1Address := h.op1Address
  rw [dstAddress, hi.dstRegister, hi.off0] at hdstAddress
  simp only [op1Address, hi.op1Source, hi.off2] at hop1Address
  obtain rfl := Except.ok.inj (hdst.symm.trans (shift_of_require hdstAddress htop))
  obtain rfl := Except.ok.inj (hop1.symm.trans (shift_of_require hop1Address htop))
  have hdstValue : o.dst = .address b := Option.some.inj (h.dst.symm.trans hfp)
  have hop1Value : o.op1 = .address pc := Option.some.inj (h.op1.symm.trans hpc)
  have hresult := h.result
  have hpcUpdate := h.pc
  have hfpUpdate := h.fp
  rw [hi.result] at hresult
  rw [hi.pcRule] at hpcUpdate
  rw [hrule, hdstValue] at hfpUpdate
  constructor
  · have hjump : some (Value.address pc) = some (.address r'.pc) :=
      hop1Value ▸ hresult.symm.trans hpcUpdate
    exact (Value.address.inj (Option.some.inj hjump)).symm
  · rw [hb]
    exact hfpUpdate

end Registers

namespace Machine

/-- In a run without faults, a return from the frame that a call has opened leads to the address
after the call and restores its frame pointer, whatever instructions and hints come between them. -/
theorem frame_return_restores_frame_call {s si sj t : Machine} {i j : Nat} {c d : Instruction}
    {ap top : Address} (hi : steps i s = .ok () si) (hj : steps j s = .ok () sj) (hij : i < j)
    (ht : steps (j + 1) s = .ok () t) (hc : si.StepExecutes c) (hcall : c.IsFrameCall)
    (hd : sj.StepExecutes d) (hreturn : d.IsFrameReturn) (hap : si.registers.ap = some ap)
    (htop : ap.shift 2 = .ok top) (hfp : sj.registers.fp = some top) :
    si.registers.pc.shift c.size = .ok t.registers.pc ∧ t.registers.fp = si.registers.fp := by
  -- The call is one step, the steps up to the return keep what it saves.
  obtain ⟨k, rfl⟩ : ∃ k, j = i + (1 + k) := ⟨j - i - 1, by omega⟩
  obtain ⟨si', hi', hrest⟩ := steps_add_eq_ok.mp hj
  obtain ⟨-, rfl⟩ := EStateM.Result.ok.inj (hi.symm.trans hi')
  obtain ⟨u, hcallStep, hbetween⟩ := steps_add_eq_ok.mp hrest
  obtain ⟨sj', hj', hreturnStep⟩ := steps_add_eq_ok.mp ht
  obtain ⟨-, rfl⟩ := EStateM.Result.ok.inj (hj.symm.trans hj')
  obtain ⟨a, o, hexecutes⟩ := hc.executes (steps_one_eq_ok.mp hcallStep)
  obtain ⟨pc, hpc, hsaved⟩ := hexecutes.savesFrame hcall hap htop
  have hreturnStep := steps_one_eq_ok.mp hreturnStep
  have hextends : u.memory.Extends t.memory :=
    IsTrans.trans _ _ _ (extends_of_steps hbetween) (extends_of_step hreturnStep)
  obtain ⟨a', o', hexecutes'⟩ := hd.executes hreturnStep
  have hrule : d.fpRule = .destination := by
    obtain ⟨word, hword⟩ := hd.exists_word
    exact (Instruction.isEncodable_of_decode? (Instruction.decode_eq_ok.mp hword)).destination.mpr
      hreturn.opcode
  obtain ⟨hpc', hfp'⟩ := hexecutes'.returns hreturn hrule hfp (hsaved.mono hextends)
  exact ⟨hpc' ▸ hpc, hfp'⟩

/-- The call of the code that is an immediate distance away. -/
def callRelative : Instruction :=
  { off0 := 0, off1 := 1, off2 := 1, dstRegister := .ap, op0Register := .ap
    op1Source := .immediate, result := .op1, pcRule := .jumpRelative, apRule := .addTwo
    fpRule := .apPlusTwo, opcode := .call }

/-- The return from a frame. -/
def returnFromFrame : Instruction :=
  { off0 := -2, off1 := -1, off2 := -1, dstRegister := .fp, op0Register := .fp
    op1Source := .fp, result := .op1, pcRule := .jump, apRule := .regular
    fpRule := .destination, opcode := .ret }

/-- A machine that calls a function in which a hint writes the base of a new segment, before the
function reserves the cell for it and returns. -/
def calling : Machine :=
  { loaded [.felt 0x1104800180018000, .felt 3, .felt 0, .felt 0x40780017fff7fff, .felt 1,
      .felt 0x208b7fff7fff7ffe] [.felt 0] with
    hints := (∅ : Std.ExtTreeMap Address (List Hint)).insert ⟨0, 3, by decide⟩ [⟨"alloc_segment"⟩]
    processor := some .standard
    scopes := some .main }

/-- The function with the hint returns to where it is called. -/
theorem frame_return_restores_frame_call_calling :
    ∃ t, steps 3 calling = .ok () t ∧ (.ok t.registers.pc : Except Fault Address) =
      calling.registers.pc.shift 2 ∧ t.registers.fp = calling.registers.fp := by
  have hi : steps 0 calling = .ok () calling := Action.pure_eq_ok.mpr ⟨rfl, rfl⟩
  have hj : steps 2 calling = .ok () ((steps 2).after calling) :=
    Action.eq_ok_of_isOk (by decide +kernel)
  have ht : steps 3 calling = .ok () ((steps 3).after calling) :=
    Action.eq_ok_of_isOk (by decide +kernel)
  have hc : calling.StepExecutes callRelative :=
    ⟨_, Action.eq_ok_of_isOk (by decide +kernel), by decide +kernel,
      Answer.eq_ok_of_toOption (by decide +kernel)⟩
  have hd : ((steps 2).after calling).StepExecutes returnFromFrame :=
    ⟨_, Action.eq_ok_of_isOk (by decide +kernel), by decide +kernel,
      Answer.eq_ok_of_toOption (by decide +kernel)⟩
  have htop : (⟨1, 1, by decide⟩ : Address).shift 2 = .ok ⟨1, 3, by decide⟩ :=
    Answer.eq_ok_of_toOption (by decide +kernel)
  obtain ⟨hpc, hfp⟩ := frame_return_restores_frame_call hi hj (by decide) ht hc
    ⟨rfl, rfl, rfl, rfl, rfl⟩ hd ⟨rfl, rfl, rfl, rfl, rfl, rfl, rfl⟩ (by decide +kernel) htop
    (by decide +kernel)
  exact ⟨_, ht, hpc.symm, hfp⟩

end Machine

end Cairo
