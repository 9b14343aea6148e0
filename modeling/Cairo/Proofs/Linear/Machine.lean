import Cairo.Instruction.Encoding
import Cairo.Proofs.Linear.Memory
import Cairo.Proofs.Machine.Semantics

/-!
# The machine over linear memory

Over linear memory there are only field elements: registers and addresses are numbers, and a
pointer is the number of the cell that it points to.  `TraceRow.Steps` is one step of this
machine.  A `Placement` sends the segments to linear memory; when the cells of a memory are found
where it sends them, what an instruction does over the segments it does over linear memory
(`Placement.Fits.steps`).
-/

namespace Cairo

/-! ## Steps over linear memory -/

/-- The result of operands that are field elements. -/
def ResultRule.ofFelts (x y : Felt) : ResultRule → Option Felt
  | .op1 => some y
  | .add => some (x + y)
  | .mul => some (x * y)
  | .unconstrained => none

namespace TraceRow

/-- The register of a row that an operand address starts from. -/
def register (row : TraceRow) : BaseRegister → Int
  | .ap => row.ap
  | .fp => row.fp

/-- The linear address of the destination of an instruction. -/
def dstAddress (row : TraceRow) (i : Instruction) : Int := row.register i.dstRegister + i.off0

/-- The linear address of the first operand of an instruction. -/
def op0Address (row : TraceRow) (i : Instruction) : Int := row.register i.op0Register + i.off1

/-- The linear address of the second operand of an instruction, which may start from the first
operand. -/
def op1Address (row : TraceRow) (i : Instruction) (op0 : Felt) : Int :=
  match i.op1Source with
  | .immediate => row.pc + i.off2
  | .ap => row.ap + i.off2
  | .fp => row.fp + i.off2
  | .op0 => op0.val + i.off2

/-- The program counter after an instruction, modulo the prime. -/
def nextPc (row : TraceRow) (i : Instruction) (o : Operands Felt) : Option Felt :=
  match i.pcRule with
  | .regular => some (.ofInt (row.pc + i.size))
  | .jump => o.res
  | .jumpRelative => o.res.map (.ofInt row.pc + ·)
  | .jumpNonzero =>
    some (if o.dst = 0 then .ofInt (row.pc + i.size) else .ofInt row.pc + o.op1)

/-- The allocation pointer after an instruction, modulo the prime. -/
def nextAp (row : TraceRow) (i : Instruction) (o : Operands Felt) : Option Felt :=
  match i.apRule with
  | .regular => some (.ofInt row.ap)
  | .addResult => o.res.map (.ofInt row.ap + ·)
  | .addOne => some (.ofInt (row.ap + 1))
  | .addTwo => some (.ofInt (row.ap + 2))

/-- The frame pointer after an instruction, modulo the prime.  Returning, it is the destination if
this is a pointer, and moves by it otherwise. -/
def nextFp (row : TraceRow) (i : Instruction) (o : Operands Felt) (isPointer : Bool) : Felt :=
  match i.fpRule with
  | .regular => .ofInt row.fp
  | .apPlusTwo => .ofInt (row.ap + 2)
  | .destination => if isPointer then o.dst else .ofInt row.fp + o.dst

/-- A step of the machine over linear memory: the word at the program counter stands for the
instruction, the operands are there, the opcode holds of them, and the next row follows from
them. -/
structure Steps (m : LinearMemory) (row : TraceRow) (i : Instruction) (o : Operands Felt)
    (isPointer : Bool) (next : TraceRow) : Prop where
  word : ∃ w, m.cell? row.pc = some w ∧ Instruction.decode w.val = .ok i
  dst : m.cell? (row.dstAddress i) = some o.dst
  op0 : m.cell? (row.op0Address i) = some o.op0
  op1 : m.cell? (row.op1Address i o.op0) = some o.op1
  result : o.res = i.result.ofFelts o.op0 o.op1
  assertEq : i.opcode = .assertEq → o.res = some o.dst
  call : i.opcode = .call → o.op0 = .ofInt (row.pc + i.size) ∧ o.dst = .ofInt row.fp
  pc : row.nextPc i o = some (.ofInt next.pc)
  ap : row.nextAp i o = some (.ofInt next.ap)
  fp : row.nextFp i o isPointer = .ofInt next.fp

/-- The registers of a row are numbers of cells that field elements can stand for. -/
structure InRange (row : TraceRow) : Prop where
  pc : 1 ≤ row.pc ∧ row.pc < prime
  ap : 1 ≤ row.ap ∧ row.ap < prime
  fp : 1 ≤ row.fp ∧ row.fp < prime

end TraceRow

/-! ## Placing the segments -/

/-- Where segments lie in linear memory, and which of them do. -/
structure Placement where
  start : Int → Int
  IsPlaced : Int → Prop

namespace Placement

variable (p : Placement)

/-- The number of the cell at an address. -/
def address (a : Address) : Int := p.start a.segment + a.offset

/-- The field element that a value is. -/
def value : Value → Felt
  | .felt x => x
  | .address a => .ofInt (p.address a)

/-- The operands as field elements. -/
def operands (o : Operands Value) : Operands Felt :=
  ⟨p.value o.dst, o.res.map p.value, p.value o.op0, p.value o.op1⟩

/-- Shifting an address shifts its number. -/
theorem address_shift {a b : Address} {k : Int} (h : a.shift k = .ok b) :
    p.address b = p.address a + k := by
  obtain ⟨hseg, hoff⟩ := Address.shift_eq_ok.mp h
  unfold address
  rw [hseg, hoff, Int.add_assoc]

/-- Moving an address by a field element moves its number, modulo the prime. -/
theorem address_addFelt {a b : Address} {x : Felt} (h : a.addFelt x = .ok b) :
    Felt.ofInt (p.address b) = Felt.ofInt (p.address a) + x := by
  obtain ⟨hseg, hoff⟩ := Address.addFelt_eq_ok.mp h
  apply Felt.residue_injective
  unfold address
  rw [Felt.residue_add, Felt.residue_ofInt, Felt.residue_ofInt, hseg, Int.cast_add, Int.cast_add,
    Int.cast_natCast, Int.cast_natCast, hoff, add_assoc]

/-- The sum of two values is that of the field elements. -/
theorem value_add {v w z : Value} (h : v.add w = .ok z) : p.value z = p.value v + p.value w := by
  have hmixed : ∀ {a : Address} {x : Felt}, Value.add (.address a) (.felt x) = .ok z →
      p.value z = p.value (.address a) + x := by
    intro a x hsum
    obtain ⟨b, hb, rfl⟩ := Value.add_address_felt.mp hsum
    exact p.address_addFelt hb
  cases v with
  | felt x =>
    cases w with
    | felt y =>
      obtain rfl := Except.ok.inj h
      rfl
    | address b => exact (hmixed (Value.add_comm_of_ok h)).trans (Felt.add_comm _ _)
  | address a =>
    cases w with
    | felt y => exact hmixed h
    | address b => cases h

/-- The result of an instruction is that of the field elements. -/
theorem ofFelts_of_gives {rule : ResultRule} {x y : Value} {res : Option Value}
    (h : rule.Gives x y res) : res.map p.value = rule.ofFelts (p.value x) (p.value y) := by
  cases rule with
  | op1 =>
    obtain rfl := h
    rfl
  | add =>
    obtain ⟨v, hv, rfl⟩ := h
    exact congrArg some (p.value_add hv)
  | mul =>
    obtain ⟨f, g, rfl, rfl, rfl⟩ := h
    rfl
  | unconstrained =>
    obtain rfl := h
    rfl

/-- A row has the numbers of the registers, all of which lie in placed segments. -/
structure IsRow (r : Registers) (row : TraceRow) : Prop where
  pc : row.pc = p.address r.pc ∧ p.IsPlaced r.pc.segment
  ap : ∃ a, r.ap = some a ∧ row.ap = p.address a ∧ p.IsPlaced a.segment
  fp : ∃ a, r.fp = some a ∧ row.fp = p.address a ∧ p.IsPlaced a.segment

/-- The cells in the placed segments of a memory are found in linear memory, and their pointers
stay in placed segments and point to cells that field elements can stand for. -/
structure Fits (m : Memory) (l : LinearMemory) : Prop where
  cell : ∀ a v, m.get? a = some v → p.IsPlaced a.segment →
    l.cell? (p.address a) = some (p.value v)
  pointer : ∀ a b, m.get? a = some (.address b) → p.IsPlaced a.segment →
    p.IsPlaced b.segment ∧ 1 ≤ p.address b ∧ p.address b < prime

/-! ## Simulating an instruction -/

variable {p} {r r' : Registers} {row next : TraceRow} {i : Instruction} {m : Memory}
  {l : LinearMemory}

/-- A shifted register has the number of the row shifted, and stays in its segment. -/
theorem IsRow.shift (hrow : p.IsRow r row) (register : BaseRegister) {a : Address} {k : Int}
    (h : (do (← Registers.require (r.from? register)).shift k : Except Fault Address) = .ok a) :
    p.address a = row.register register + k ∧ p.IsPlaced a.segment := by
  obtain ⟨b, hb, hshift⟩ := Answer.bind_eq_ok.mp h
  have hregister : row.register register = p.address b ∧ p.IsPlaced b.segment := by
    cases register with
    | ap =>
      obtain ⟨c, hc, hap, hplaced⟩ := hrow.ap
      obtain rfl := Option.some.inj (hc.symm.trans (Registers.require_eq_ok.mp hb))
      exact ⟨hap, hplaced⟩
    | fp =>
      obtain ⟨c, hc, hfp, hplaced⟩ := hrow.fp
      obtain rfl := Option.some.inj (hc.symm.trans (Registers.require_eq_ok.mp hb))
      exact ⟨hfp, hplaced⟩
  rw [hregister.1, (Address.shift_eq_ok.mp hshift).1]
  exact ⟨p.address_shift hshift, hregister.2⟩

/-- The second operand is found at its linear address, also when that starts from the first
operand. -/
theorem IsRow.op1Address (hrow : p.IsRow r row) (hfits : p.Fits m l) {a b : Address} {v : Value}
    (ha : m.get? a = some v) (hplaced : p.IsPlaced a.segment)
    (h : r.op1Address i v.address? = .ok b) :
    p.address b = row.op1Address i (p.value v) ∧ p.IsPlaced b.segment := by
  unfold Registers.op1Address at h
  unfold TraceRow.op1Address
  cases hsource : i.op1Source with
  | immediate =>
    rw [hsource] at h
    rw [hrow.pc.1, (Address.shift_eq_ok.mp h).1]
    exact ⟨p.address_shift h, hrow.pc.2⟩
  | ap =>
    rw [hsource] at h
    exact hrow.shift .ap h
  | fp =>
    rw [hsource] at h
    exact hrow.shift .fp h
  | op0 =>
    rw [hsource] at h
    cases v with
    | felt x => simp [Value.address?, Answer.bind_eq_ok, Answer.throw_eq_ok] at h
    | address c =>
      obtain ⟨hc, hpos, hlt⟩ := hfits.pointer a c ha hplaced
      have hshift : c.shift i.off2 = .ok b := h
      -- The number of a pointer is its own representative.
      have hval : ((p.value (.address c)).val : Int) = p.address c := by
        show ((p.address c % prime).toNat : Int) = p.address c
        rw [Int.emod_eq_of_lt (by omega) hlt]
        omega
      dsimp only
      rw [hval, (Address.shift_eq_ok.mp hshift).1]
      exact ⟨p.address_shift hshift, hc⟩

/-- A placed value is zero exactly when it is the field element zero: a pointer is not. -/
theorem Fits.value_eq_zero_iff (hfits : p.Fits m l) {a : Address} {v : Value}
    (ha : m.get? a = some v) (hplaced : p.IsPlaced a.segment) : p.value v = 0 ↔ v = .felt 0 := by
  cases v with
  | felt x => simp [value]
  | address b =>
    obtain ⟨-, hpos, hlt⟩ := hfits.pointer a b ha hplaced
    refine ⟨fun hzero => ?_, nofun⟩
    have hval : (p.address b % prime).toNat = 0 := congrArg Felt.val hzero
    rw [Int.emod_eq_of_lt (by omega) hlt] at hval
    omega

/-- The next program counter is the one over linear memory. -/
theorem nextPc_of_updates (hrow : p.IsRow r row) {o : Operands Value} {pc : Address}
    (hzero : p.value o.dst = 0 ↔ o.dst = .felt 0) (h : i.pcRule.Updates r i.size o pc) :
    row.nextPc i (p.operands o) = some (.ofInt (p.address pc)) := by
  have hregular : r.pc.shift i.size = .ok pc →
      Felt.ofInt (row.pc + i.size) = .ofInt (p.address pc) := by
    intro hshift
    rw [p.address_shift hshift, hrow.pc.1]
  have hrelative : ∀ x, r.pc.addFelt x = .ok pc →
      Felt.ofInt row.pc + x = .ofInt (p.address pc) := by
    intro x hx
    rw [p.address_addFelt hx, hrow.pc.1]
  unfold TraceRow.nextPc
  cases hrule : i.pcRule with
  | regular =>
    rw [hrule] at h
    exact congrArg some (hregular h)
  | jump =>
    rw [hrule] at h
    have hres : o.res = some (.address pc) := h
    show o.res.map p.value = _
    rw [hres]
    rfl
  | jumpRelative =>
    rw [hrule] at h
    obtain ⟨x, hres, hx⟩ := h
    show (o.res.map p.value).map _ = _
    rw [hres]
    exact congrArg some (hrelative x hx)
  | jumpNonzero =>
    rw [hrule] at h
    obtain ⟨hthen, helse⟩ := h
    show some (if p.value o.dst = 0 then _ else _) = _
    by_cases hdst : o.dst = .felt 0
    · rw [if_pos (hzero.mpr hdst), hregular (hthen hdst)]
    · obtain ⟨x, hop1, hx⟩ := helse hdst
      rw [if_neg fun hval => hdst (hzero.mp hval), ← hrelative x hx]
      show some (_ + p.value o.op1) = _
      rw [hop1]
      rfl

/-- The next allocation pointer is the one over linear memory. -/
theorem nextAp_of_updates (hrow : p.IsRow r row) {o : Operands Value} {ap : Address}
    (h : i.apRule.Updates r o.res (some ap)) :
    row.nextAp i (p.operands o) = some (.ofInt (p.address ap)) := by
  obtain ⟨b, hb, hap, -⟩ := hrow.ap
  have hshift : ∀ {k : Int} {c a : Address}, r.ap = some c → c.shift k = .ok a →
      some ap = some a → Felt.ofInt (row.ap + k) = .ofInt (p.address ap) := by
    rintro k c a hc hshift ⟨⟩
    obtain rfl := Option.some.inj (hb.symm.trans hc)
    rw [p.address_shift hshift, hap]
  unfold TraceRow.nextAp
  cases hrule : i.apRule with
  | regular =>
    rw [hrule] at h
    have hsame : some ap = r.ap := h
    obtain rfl := Option.some.inj (hsame.trans hb)
    rw [hap]
  | addOne =>
    rw [hrule] at h
    obtain ⟨c, a, hc, hc', ha⟩ := h
    exact congrArg some (hshift hc hc' ha)
  | addTwo =>
    rw [hrule] at h
    obtain ⟨c, a, hc, hc', ha⟩ := h
    exact congrArg some (hshift hc hc' ha)
  | addResult =>
    rw [hrule] at h
    obtain ⟨c, x, a, hc, hres, hx, ⟨⟩⟩ := h
    obtain rfl := Option.some.inj (hb.symm.trans hc)
    show (o.res.map p.value).map _ = _
    rw [hres, p.address_addFelt hx, hap]
    rfl

/-- The next frame pointer is the one over linear memory. -/
theorem nextFp_of_updates (hrow : p.IsRow r row) {o : Operands Value} {fp : Address}
    (h : i.fpRule.Updates r o.dst (some fp)) :
    row.nextFp i (p.operands o) o.dst.address?.isSome = .ofInt (p.address fp) := by
  obtain ⟨b, hb, hfp, -⟩ := hrow.fp
  unfold TraceRow.nextFp
  cases hrule : i.fpRule with
  | regular =>
    rw [hrule] at h
    have hsame : some fp = r.fp := h
    obtain rfl := Option.some.inj (hsame.trans hb)
    rw [hfp]
  | apPlusTwo =>
    rw [hrule] at h
    obtain ⟨c, a, hc, hshift, ⟨⟩⟩ := h
    obtain ⟨d, hd, hap, -⟩ := hrow.ap
    obtain rfl := Option.some.inj (hd.symm.trans hc)
    rw [p.address_shift hshift, hap]
  | destination =>
    rw [hrule] at h
    show (if o.dst.address?.isSome then p.value o.dst else _ + p.value o.dst) = _
    unfold FpRule.Updates at h
    cases hdst : o.dst with
    | address a =>
      rw [hdst] at h
      obtain rfl := Option.some.inj (show some fp = some a from h)
      rfl
    | felt x =>
      rw [hdst] at h
      obtain ⟨c, a, hc, hx, ⟨⟩⟩ := h
      obtain rfl := Option.some.inj (hb.symm.trans hc)
      show Felt.ofInt row.fp + x = _
      rw [p.address_addFelt hx, hfp]

/-- What an instruction does over a memory whose cells are placed it does over linear memory, from
the row of the registers before it to the row of those after it. -/
theorem Fits.steps (hfits : p.Fits m l) (hrow : p.IsRow r row) (hnext : p.IsRow r' next)
    {word : Felt} (hword : m.get? r.pc = some (.felt word))
    (hdecode : Instruction.decode word.val = .ok i) {a : OperandAddresses} {o : Operands Value}
    (h : r.Executes i m a o r') :
    row.Steps l i (p.operands o) o.dst.address?.isSome next := by
  obtain ⟨hdst, hdstPlaced⟩ := hrow.shift _ h.dstAddress
  obtain ⟨hop0, hop0Placed⟩ := hrow.shift _ h.op0Address
  obtain ⟨hop1, hop1Placed⟩ := hrow.op1Address hfits h.op0 hop0Placed h.op1Address
  obtain ⟨ap, hap, hnextAp, -⟩ := hnext.ap
  obtain ⟨fp, hfp, hnextFp, -⟩ := hnext.fp
  have hword' := hfits.cell _ _ hword hrow.pc.2
  rw [← hrow.pc.1] at hword'
  refine ⟨⟨word, hword', hdecode⟩, ?_, ?_, ?_, p.ofFelts_of_gives h.result, ?_, ?_, ?_, ?_, ?_⟩
  · have hcell := hfits.cell _ _ h.dst hdstPlaced
    rwa [hdst] at hcell
  · have hcell := hfits.cell _ _ h.op0 hop0Placed
    rwa [hop0] at hcell
  · have hcell := hfits.cell _ _ h.op1 hop1Placed
    rwa [hop1] at hcell
  · intro hop
    show o.res.map p.value = _
    rw [h.admits.assertEq hop]
    rfl
  · intro hop
    obtain ⟨pc, fp', hpc, hop0', hfp', hdst'⟩ := h.admits.call hop
    obtain ⟨b, hb, hrowFp, -⟩ := hrow.fp
    obtain rfl := Option.some.inj (hb.symm.trans hfp')
    constructor
    · show p.value o.op0 = _
      rw [hop0', hrow.pc.1, ← p.address_shift hpc]
      rfl
    · show p.value o.dst = _
      rw [hdst', hrowFp]
      rfl
  · rw [hnext.pc.1]
    exact nextPc_of_updates hrow (hfits.value_eq_zero_iff h.dst hdstPlaced) h.pc
  · rw [hnextAp]
    exact nextAp_of_updates hrow (hap ▸ h.ap)
  · rw [hnextFp]
    exact nextFp_of_updates hrow (hfp ▸ h.fp)

end Placement

end Cairo
