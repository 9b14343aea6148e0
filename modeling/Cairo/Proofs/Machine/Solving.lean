import Cairo.Proofs.Machine.Instruction
import Cairo.Proofs.Memory.Development

/-!
# Solving for a missing operand

An assertion with one missing cell is an equation for the value of that cell: the destination is the
result of the two operands.  The machine finds the value just if the equation has one solution, and
it then writes that value and nothing else; an equation without a solution or with several of them
makes it fail before it writes (`computeOperands_iff_existsUnique`).
-/

namespace Cairo

namespace Registers

variable {i : Instruction} {d x y v : Value} {res : Option Value}

/-! ## One unknown -/

/-- There is more than one value. -/
theorem exists_value_ne (v : Value) : ∃ w, w ≠ v := by
  by_cases hv : v = .felt 0
  · exact ⟨.felt 1, by rw [hv]; decide⟩
  · exact ⟨.felt 0, Ne.symm hv⟩

/-- A rule gives one result at most. -/
theorem gives_unique {rule : ResultRule} {res' : Option Value} (h : rule.Gives x y res)
    (h' : rule.Gives x y res') : res = res' := by
  cases rule with
  | op1 => exact Eq.trans h h'.symm
  | add =>
    obtain ⟨z, hz, rfl⟩ := h
    obtain ⟨z', hz', rfl⟩ := h'
    rw [Except.ok.inj (hz.symm.trans hz')]
  | mul =>
    obtain ⟨f, g, rfl, rfl, rfl⟩ := h
    obtain ⟨f', g', hf, hg, rfl⟩ := h'
    obtain rfl := Value.felt.inj hf
    obtain rfl := Value.felt.inj hg
    rfl
  | unconstrained => exact Eq.trans h h'.symm

/-- A rule that gives the sum does so in both orders. -/
theorem gives_add_comm : ResultRule.add.Gives x y res ↔ ResultRule.add.Gives y x res :=
  exists_congr fun _ => and_congr_left fun _ => Value.add_eq_ok_comm

/-- A rule that gives the product does so in both orders. -/
theorem gives_mul_comm : ResultRule.mul.Gives x y res ↔ ResultRule.mul.Gives y x res := by
  have hcomm : ∀ x y, ResultRule.mul.Gives x y res → ResultRule.mul.Gives y x res := by
    rintro _ _ ⟨f, g, rfl, rfl, rfl⟩
    exact ⟨g, f, rfl, rfl, by rw [Felt.mul_comm]⟩
  exact ⟨hcomm x y, hcomm y x⟩

/-- The quotient of two values is found just if it is the only factor that leads from the one to the
other. -/
theorem quotient?_eq_some_iff :
    quotient? d y = .ok (some v) ↔ ResultRule.mul.Gives v y (some d) ∧
      ∀ w, ResultRule.mul.Gives w y (some d) → w = v := by
  constructor
  · intro h
    obtain ⟨f, g, k, rfl, rfl, rfl, hk⟩ := quotient?_ok h
    obtain ⟨hproduct, hunique⟩ := Felt.div_eq_ok_iff.mp hk
    refine ⟨⟨k, g, rfl, rfl, by rw [hproduct]⟩, ?_⟩
    rintro _ ⟨k', _, rfl, ⟨⟩, hproduct'⟩
    rw [hunique k' (Value.felt.inj (Option.some.inj hproduct')).symm]
  · rintro ⟨⟨k, g, rfl, rfl, hd⟩, hunique⟩
    obtain rfl := Option.some.inj hd
    have hfelt : ∀ k', k' * g = k * g → k' = k := fun k' hk' =>
      Value.felt.inj (hunique _ ⟨k', g, rfl, rfl, by rw [hk']⟩)
    have hzero : ¬ g.isZero = true := by
      intro hzero
      obtain rfl := Felt.isZero_iff.mp hzero
      -- All factors have the same product with zero.
      have hmul : ∀ k' : Felt, k' * 0 = 0 := fun k' =>
        Felt.ext (Nat.mod_eq_of_lt (Nat.mul_zero _ ▸ prime_pos))
      have hone : (1 : Felt) = k := hfelt 1 ((hmul 1).trans (hmul k).symm)
      have hnone : (0 : Felt) = k := hfelt 0 ((hmul 0).trans (hmul k).symm)
      exact absurd (hone.trans hnone.symm) (by decide)
    have hdiv : (k * g).div g = .ok k := Felt.div_eq_ok_iff.mpr ⟨rfl, hfelt⟩
    unfold quotient?
    simp [Operand.felt?_value, Value.felt?, hzero, hdiv]
    rfl

/-- The difference of two values is found just if it is the only summand that leads from the one to
the other. -/
theorem sub_eq_some_iff :
    d.sub y = .ok v ↔ ResultRule.add.Gives v y (some d) ∧
      ∀ w, ResultRule.add.Gives w y (some d) → w = v := by
  have hgives : ∀ w, ResultRule.add.Gives w y (some d) ↔ d.sub y = .ok w := by
    intro w
    rw [Value.sub_eq_ok_iff]
    constructor
    · rintro ⟨z, hz, hd⟩
      rwa [Option.some.inj hd]
    · exact fun h => ⟨d, h, rfl⟩
  simp only [hgives]
  exact ⟨fun h => ⟨h, fun w hw => Except.ok.inj (hw.symm.trans h)⟩, And.left⟩

/-! ## The unknown is an operand -/

/-- A summand that is solved for comes with the destination as result. -/
theorem difference_eq_ok :
    (do return (some (← Operand.sub d y), some d) : Except Fault (Option Value × Option Value)) =
      .ok (some v, res) ↔ res = some d ∧ d.sub y = .ok v := by
  rw [Answer.bind_eq_ok]
  constructor
  · rintro ⟨w, hw, h⟩
    obtain ⟨hv, hres⟩ := Prod.mk.inj (Answer.pure_eq_ok.mp h)
    obtain rfl := Option.some.inj hv
    exact ⟨hres.symm, hw⟩
  · rintro ⟨rfl, hw⟩
    exact ⟨v, hw, rfl⟩

/-- A factor that is solved for comes with the destination as result. -/
theorem factor_eq_ok {f : Option Value → Except Fault (Option Value × Option Value)}
    (hsome : ∀ q, f (some q) = .ok (some q, some d)) (hnone : f none = .ok (none, none)) :
    (quotient? d y >>= f) = .ok (some v, res) ↔ res = some d ∧ quotient? d y = .ok (some v) := by
  rw [Answer.bind_eq_ok]
  constructor
  · rintro ⟨q, hq, h⟩
    cases q with
    | none => cases hnone.symm.trans h
    | some q =>
      obtain ⟨hv, hres⟩ := Prod.mk.inj (Except.ok.inj ((hsome q).symm.trans h))
      obtain rfl := Option.some.inj hv
      exact ⟨hres.symm, hq⟩
  · rintro ⟨rfl, hq⟩
    exact ⟨some v, hq, hsome v⟩

/-- The first operand that leads to a destination is found just if there is one only. -/
theorem solveOp0_eq_some_iff {r : Registers} (hop : i.opcode = .assertEq)
    (hres : i.result ≠ .unconstrained) :
    r.solveOp0 i (some d) (some y) = .ok (some v, res) ↔ res = some d ∧
      i.result.Gives v y (some d) ∧ ∀ w, i.result.Gives w y (some d) → w = v := by
  unfold solveOp0
  rw [hop]
  cases hrule : i.result with
  | op1 =>
    -- The result does not depend on the first operand.
    refine ⟨nofun, fun ⟨_, hgives, hunique⟩ => ?_⟩
    obtain ⟨w, hw⟩ := exists_value_ne v
    exact absurd (hunique w hgives) hw
  | add => exact difference_eq_ok.trans (and_congr_right fun _ => sub_eq_some_iff)
  | mul =>
    exact (factor_eq_ok (fun _ => rfl) rfl).trans (and_congr_right fun _ => quotient?_eq_some_iff)
  | unconstrained => exact absurd hrule hres

/-- The second operand that leads to a destination is found just if there is one only. -/
theorem solveOp1_eq_some_iff (hop : i.opcode = .assertEq) (hres : i.result ≠ .unconstrained) :
    solveOp1 i (some d) (some x) = .ok (some v, res) ↔ res = some d ∧
      i.result.Gives x v (some d) ∧ ∀ w, i.result.Gives x w (some d) → w = v := by
  unfold solveOp1
  rw [hop]
  cases hrule : i.result with
  | op1 =>
    constructor
    · intro h
      obtain ⟨hv, hres⟩ := Prod.mk.inj (Answer.pure_eq_ok.mp h)
      exact ⟨hres.symm, hv, fun w hw => Option.some.inj (hw.symm.trans hv)⟩
    · rintro ⟨rfl, hv, -⟩
      obtain rfl := Option.some.inj hv
      rfl
  | add =>
    simp only [gives_add_comm (x := x)]
    exact difference_eq_ok.trans (and_congr_right fun _ => sub_eq_some_iff)
  | mul =>
    simp only [gives_mul_comm (x := x)]
    exact (factor_eq_ok (fun _ => rfl) rfl).trans (and_congr_right fun _ => quotient?_eq_some_iff)
  | unconstrained => exact absurd hrule hres

end Registers

/-- The address of an operand. -/
def OperandAddresses.of (a : OperandAddresses) : OperandName → Address
  | .dst => a.dst
  | .op0 => a.op0
  | .op1 => a.op1

namespace Machine

/-! ## The missing cell -/

/-- Of the cells of an instruction just the one of an operand is missing. -/
inductive FoundCells.LacksOnly : FoundCells → OperandName → Prop
  | dst (a : OperandAddresses) (x y : Value) : LacksOnly ⟨a, none, some x, some y⟩ .dst
  | op0 (a : OperandAddresses) (d y : Value) : LacksOnly ⟨a, some d, none, some y⟩ .op0
  | op1 (a : OperandAddresses) (d x : Value) : LacksOnly ⟨a, some d, some x, none⟩ .op1

/-- With the value in the missing cell, the destination is the result of the two operands. -/
def FoundCells.Solves (c : FoundCells) (i : Instruction) (v : Value) : Prop :=
  i.result.Gives (c.op0.getD v) (c.op1.getD v) (some (c.dst.getD v))

/-- The operands of an assertion, with the value in the missing cell. -/
def FoundCells.completed (c : FoundCells) (v : Value) : Operands Value :=
  ⟨c.dst.getD v, some (c.dst.getD v), c.op0.getD v, c.op1.getD v⟩

variable {i : Instruction} {c : FoundCells} {k : OperandName} {o : Operands Value}

/-- An assertion without a destination is completed by the result of its operands. -/
theorem complete_dst_eq_ok {r : Registers} {a : OperandAddresses} {x y : Value}
    (hop : i.opcode = .assertEq) :
    r.complete i a none (some x) (some y) = .ok o ↔
      ∃ v, Registers.result i x y = .ok (some v) ∧ o = ⟨v, some v, x, y⟩ := by
  have himplied : ∀ res, r.impliedDst i res = res := by
    intro res
    unfold Registers.impliedDst
    rw [hop]
  show (Registers.result i x y >>= fun res =>
    Action.orThrow (r.impliedDst i res) (.unknownOperand .dst a.dst) >>= fun d =>
      pure (⟨d, res, x, y⟩ : Operands Value)) = .ok o ↔ _
  simp only [himplied, Answer.bind_eq_ok, Answer.orThrow_eq_ok, Answer.pure_eq_ok]
  constructor
  · rintro ⟨_, hres, v, rfl, rfl⟩
    exact ⟨v, hres, rfl⟩
  · rintro ⟨v, hres, rfl⟩
    exact ⟨_, hres, v, rfl, rfl⟩

/-- An assertion without its first operand is completed by the one that is solved for. -/
theorem complete_op0_eq_ok {r : Registers} {a : OperandAddresses} {d y : Value}
    (hop : i.opcode = .assertEq) (hres : i.result ≠ .unconstrained) :
    r.complete i a (some d) none (some y) = .ok o ↔
      ∃ v, r.solveOp0 i (some d) (some y) = .ok (some v, some d) ∧ o = ⟨d, some d, v, y⟩ := by
  unfold Registers.complete
  constructor
  · intro h
    obtain ⟨⟨x?, res⟩, hknown, h⟩ := Answer.bind_eq_ok.mp h
    obtain ⟨_, hfound, h⟩ := Answer.bind_eq_ok.mp h
    obtain rfl := Except.ok.inj hfound
    obtain ⟨x, hx, h⟩ := Answer.bind_eq_ok.mp h
    obtain rfl : x? = some x := Answer.orThrow_eq_ok.mp hx
    have hsolve : r.solveOp0 i (some d) (some y) = .ok (some x, res) := hknown
    obtain ⟨rfl, -⟩ := (Registers.solveOp0_eq_some_iff hop hres).mp hsolve
    exact ⟨x, hsolve, (Except.ok.inj h).symm⟩
  · rintro ⟨v, hsolve, rfl⟩
    exact Answer.bind_eq_ok.mpr ⟨(some v, some d), hsolve, rfl⟩

/-- An assertion without its second operand is completed by the one that is solved for. -/
theorem complete_op1_eq_ok {r : Registers} {a : OperandAddresses} {d x : Value}
    (hop : i.opcode = .assertEq) (hres : i.result ≠ .unconstrained) :
    r.complete i a (some d) (some x) none = .ok o ↔
      ∃ v, Registers.solveOp1 i (some d) (some x) = .ok (some v, some d) ∧
        o = ⟨d, some d, x, v⟩ := by
  unfold Registers.complete
  constructor
  · intro h
    obtain ⟨_, hfound, h⟩ := Answer.bind_eq_ok.mp h
    obtain rfl := Except.ok.inj hfound
    obtain ⟨⟨y?, res⟩, hknown, h⟩ := Answer.bind_eq_ok.mp h
    obtain ⟨_, hx, h⟩ := Answer.bind_eq_ok.mp h
    obtain rfl := Except.ok.inj hx
    obtain ⟨y, hy, h⟩ := Answer.bind_eq_ok.mp h
    obtain rfl : y? = some y := Answer.orThrow_eq_ok.mp hy
    have hsolve : Registers.solveOp1 i (some d) (some x) = .ok (some y, res) := hknown
    obtain ⟨rfl, -⟩ := (Registers.solveOp1_eq_some_iff hop hres).mp hsolve
    exact ⟨y, hsolve, (Except.ok.inj h).symm⟩
  · rintro ⟨v, hsolve, rfl⟩
    refine Answer.bind_eq_ok.mpr ⟨(some x, none), rfl, ?_⟩
    exact Answer.bind_eq_ok.mpr ⟨(some v, some d), hsolve, rfl⟩

/-- An assertion with one missing cell is completed just by a value that is its only solution. -/
theorem complete_eq_ok_iff {r : Registers} (hop : i.opcode = .assertEq)
    (hres : i.result ≠ .unconstrained) (hlacks : c.LacksOnly k) :
    r.complete i c.addresses c.dst c.op0 c.op1 = .ok o ↔
      ∃ v, (c.Solves i v ∧ ∀ w, c.Solves i w → w = v) ∧ o = c.completed v := by
  cases hlacks with
  | dst a x y =>
    refine (complete_dst_eq_ok hop).trans (exists_congr fun v => and_congr_left fun _ => ?_)
    rw [Registers.result_eq_ok]
    refine ⟨fun h => ⟨h, fun w hw => ?_⟩, And.left⟩
    exact Option.some.inj (Registers.gives_unique hw h)
  | op0 a d y =>
    refine (complete_op0_eq_ok hop hres).trans (exists_congr fun v => and_congr_left fun _ => ?_)
    rw [Registers.solveOp0_eq_some_iff hop hres]
    exact ⟨And.right, fun h => ⟨rfl, h⟩⟩
  | op1 a d x =>
    refine (complete_op1_eq_ok hop hres).trans (exists_congr fun v => and_congr_left fun _ => ?_)
    rw [Registers.solveOp1_eq_some_iff hop hres]
    exact ⟨And.right, fun h => ⟨rfl, h⟩⟩

/-! ## Writing the solution -/

/-- The missing cell is not written. -/
theorem get?_of_lacksOnly {s : Machine} (h : s.readCells i = .ok c) (hlacks : c.LacksOnly k) :
    s.memory.get? (c.addresses.of k) = none := by
  obtain ⟨-, -, -, hdst, hop0, hop1⟩ := readCells_ok h
  cases hlacks with
  | dst a x y => exact hdst.symm
  | op0 a d y => exact hop0.symm
  | op1 a d x => exact hop1.symm

/-- If no builtin deduces the missing operand, the operands are those that the instruction
implies. -/
theorem gather_of_lacksOnly {s : Machine} (hlacks : c.LacksOnly k)
    (hdeduce : (deduceCell (c.addresses.of k)).answer s = .ok none) :
    ∃ bs, gather i c s =
      (liftM (s.registers.complete i c.addresses c.dst c.op0 c.op1) : Action Machine _)
        { s with builtins := bs } := by
  have hdeduced := Action.eq_ok_of_toOption (congrArg Except.toOption hdeduce)
  obtain ⟨bs, hbs⟩ := deduceCell_ok hdeduced
  rw [hbs] at hdeduced
  cases hlacks with
  | dst a x y => exact ⟨s.builtins, rfl⟩
  | op0 a d y =>
    have hmissing : orDeduced a.op0 none s = .ok none { s with builtins := bs } :=
      Action.bind_of_ok hdeduced
    exact ⟨bs, Action.bind_of_ok hmissing⟩
  | op1 a d x =>
    have hmissing : orDeduced a.op1 none s = .ok none { s with builtins := bs } :=
      Action.bind_of_ok hdeduced
    exact ⟨bs, Action.bind_of_ok hmissing⟩

/-- A cell that is not written can be written if its segment is allocated and has no rules. -/
theorem insert_of_no_rules {m : Memory} {a : Address} (halloc : (m.segment? a.segment).isSome)
    (hrules : m.rulesOf a.segment = []) (hnew : m.get? a = none) (v : Value) :
    Memory.insert a v m = .ok () (m.put a v) := by
  have hallocated : (m.segment? a.segment).isNone = false := by
    rw [← Option.not_isSome, halloc]
    rfl
  have hrules' : (m.put a v).rulesOf a.segment = [] :=
    ((Memory.sameChecks_modifySegment m _ _).rulesOf_eq _).trans hrules
  rw [Memory.insert_eq, hallocated, hnew]
  unfold Memory.validateCell
  rw [if_neg nofun, Action.get_bind, hrules']
  rfl

/-- Operands that are completed are written where they are missing. -/
theorem computeOperands_of_complete_ok {s : Machine} {v : Value} (hread : s.readCells i = .ok c)
    (hlacks : c.LacksOnly k)
    (halloc : (s.memory.segment? (c.addresses.of k).segment).isSome)
    (hrules : s.memory.rulesOf (c.addresses.of k).segment = [])
    (hdeduce : (deduceCell (c.addresses.of k)).answer s = .ok none)
    (hcomplete : s.registers.complete i c.addresses c.dst c.op0 c.op1 = .ok (c.completed v)) :
    ∃ bs, computeOperands i s = .ok (c.completed v, c.addresses)
      (({ s with builtins := bs } : Machine).withMemory (s.memory.put (c.addresses.of k) v)) := by
  obtain ⟨bs, hgather⟩ := gather_of_lacksOnly hlacks hdeduce
  have hinsert := insert_of_no_rules halloc hrules (get?_of_lacksOnly hread hlacks) v
  have hwrite : onMemory (Memory.insert (c.addresses.of k) v) { s with builtins := bs } =
      .ok () (({ s with builtins := bs } : Machine).withMemory
        (s.memory.put (c.addresses.of k) v)) := onMemory_eq_ok.mpr ⟨_, hinsert, rfl⟩
  refine ⟨bs, ?_⟩
  unfold computeOperands
  rw [Action.get_bind, Action.lift_bind_of_ok hread,
    Action.bind_of_ok (hgather.trans (Action.lift_eq_ok.mpr ⟨hcomplete, rfl⟩))]
  cases hlacks with
  | dst a x y => exact Action.bind_of_ok hwrite
  | op0 a d y => exact Action.bind_of_ok hwrite
  | op1 a d x => exact Action.bind_of_ok hwrite

/-- Operands that cannot be completed are not written. -/
theorem computeOperands_of_complete_error {s : Machine} {e : Fault}
    (hread : s.readCells i = .ok c) (hlacks : c.LacksOnly k)
    (hdeduce : (deduceCell (c.addresses.of k)).answer s = .ok none)
    (hcomplete : s.registers.complete i c.addresses c.dst c.op0 c.op1 = .error e) :
    ∃ bs, computeOperands i s = .error e { s with builtins := bs } := by
  obtain ⟨bs, hgather⟩ := gather_of_lacksOnly hlacks hdeduce
  refine ⟨bs, ?_⟩
  unfold computeOperands
  rw [Action.get_bind, Action.lift_bind_of_ok hread,
    Action.bind_of_error (hgather.trans (Action.lift_eq_error.mpr ⟨hcomplete, rfl⟩))]

/-- An assertion that has one missing cell, in an allocated segment without rules and without a
value by a builtin, has its operands computed just if one value in the missing cell and no other
makes the destination the result.  Then this value is written, and nothing else; otherwise nothing
is written. -/
theorem computeOperands_iff_existsUnique {s : Machine} (hop : i.opcode = .assertEq)
    (hres : i.result ≠ .unconstrained) (hread : s.readCells i = .ok c) (hlacks : c.LacksOnly k)
    (halloc : (s.memory.segment? (c.addresses.of k).segment).isSome)
    (hrules : s.memory.rulesOf (c.addresses.of k).segment = [])
    (hdeduce : (deduceCell (c.addresses.of k)).answer s = .ok none) :
    ((∃ o t, computeOperands i s = .ok o t) ↔ ∃! v, c.Solves i v) ∧
    (∀ o t, computeOperands i s = .ok o t → ∃ v, c.Solves i v ∧ o = (c.completed v, c.addresses) ∧
      ∀ b, t.memory.get? b = if b = c.addresses.of k then some v else s.memory.get? b) ∧
    ∀ e t, computeOperands i s = .error e t → t.memory = s.memory := by
  obtain ⟨segment, hsegment⟩ := Option.isSome_iff_exists.mp halloc
  cases hcomplete : s.registers.complete i c.addresses c.dst c.op0 c.op1 with
  | error e =>
    obtain ⟨bs, hfails⟩ := computeOperands_of_complete_error hread hlacks hdeduce hcomplete
    have hnone : ¬ ∃! v, c.Solves i v := by
      rintro ⟨v, hv⟩
      have hok : s.registers.complete i c.addresses c.dst c.op0 c.op1 = .ok (c.completed v) :=
        (complete_eq_ok_iff hop hres hlacks).mpr ⟨v, hv, rfl⟩
      exact absurd (hcomplete.symm.trans hok) nofun
    refine ⟨⟨?_, fun h => absurd h hnone⟩, ?_, ?_⟩
    · rintro ⟨o, t, h⟩
      exact absurd (hfails.symm.trans h) nofun
    · intro o t h
      exact absurd (hfails.symm.trans h) nofun
    · intro e' t h
      obtain ⟨-, rfl⟩ := EStateM.Result.error.inj (hfails.symm.trans h)
      rfl
  | ok o =>
    obtain ⟨v, hv, ho⟩ := (complete_eq_ok_iff hop hres hlacks).mp hcomplete
    rw [ho] at hcomplete
    obtain ⟨bs, hreturns⟩ :=
      computeOperands_of_complete_ok hread hlacks halloc hrules hdeduce hcomplete
    refine ⟨⟨fun _ => ⟨v, hv⟩, fun _ => ⟨_, _, hreturns⟩⟩, ?_, ?_⟩
    · intro o t h
      obtain ⟨rfl, rfl⟩ := EStateM.Result.ok.inj (hreturns.symm.trans h)
      exact ⟨v, hv.1, rfl, Memory.get?_put hsegment v⟩
    · intro e t h
      exact absurd (hreturns.symm.trans h) nofun

/-- An assertion that the cell two before the frame pointer is the product of the cell at the
allocation pointer and the one just before the frame pointer. -/
def assertProduct : Instruction :=
  { off0 := -2, off1 := 0, off2 := -1, dstRegister := .fp, op0Register := .ap
    op1Source := .fp, result := .mul, pcRule := .regular, apRule := .addOne
    fpRule := .regular, opcode := .assertEq }

/-- At the end of a stack that holds fifteen and three, the machine finds the factor that leads from
three to fifteen, so it is the only one, and its cell is the only one that is new. -/
theorem computeOperands_iff_existsUnique_assertProduct :
    ∃ c o t, (loaded [] [.felt 15, .felt 3]).readCells assertProduct = .ok c ∧ c.LacksOnly .op0 ∧
      (∃! v, c.Solves assertProduct v) ∧
        computeOperands assertProduct (loaded [] [.felt 15, .felt 3]) = .ok o t ∧
          ∃ v, c.Solves assertProduct v ∧ o = (c.completed v, c.addresses) ∧
            ∀ b, t.memory.get? b = if b = c.addresses.op0 then some v
              else (loaded [] [.felt 15, .felt 3]).memory.get? b := by
  have hread : (loaded [] [.felt 15, .felt 3]).readCells assertProduct =
      .ok ⟨⟨⟨1, 0, by decide⟩, ⟨1, 2, by decide⟩, ⟨1, 1, by decide⟩⟩,
        some (.felt 15), none, some (.felt 3)⟩ := rfl
  obtain ⟨o, hrun⟩ := Action.exists_eq_ok_of_isOk (x := computeOperands assertProduct)
    (s := loaded [] [.felt 15, .felt 3]) (by decide +kernel)
  obtain ⟨hiff, hwritten, -⟩ := computeOperands_iff_existsUnique rfl (by decide) hread
    (.op0 _ _ _) (by decide +kernel) rfl rfl
  exact ⟨_, o, _, hread, .op0 _ _ _, hiff.mp ⟨_, _, hrun⟩, hrun, hwritten _ _ hrun⟩

end Machine

end Cairo
