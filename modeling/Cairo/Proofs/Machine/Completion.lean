import Cairo.Proofs.Machine.Semantics

/-!
# Completed operands

The operands that `complete` answers keep what was known of them, and their result is what the
rule of the instruction gives for them, also when it was taken from the destination and an operand
solved for it (`complete_ok`).  When all operands are known, the result alone is computed.
-/

namespace Cairo.Registers

variable {r : Registers} {i : Instruction}

/-- A quotient that a machine finds is one of field elements. -/
theorem quotient?_ok {x y q : Value} (h : quotient? x y = .ok (some q)) :
    ∃ f g k, x = .felt f ∧ y = .felt g ∧ q = .felt k ∧ f.div g = .ok k := by
  unfold quotient? at h
  rw [Operand.felt?_value, Operand.felt?_value] at h
  cases x with
  | address a => cases h
  | felt f =>
    cases y with
    | address b => cases h
    | felt g =>
      by_cases hzero : g.isZero = true
      · simp [Value.felt?, hzero] at h
      · simp only [Value.felt?, hzero] at h
        obtain ⟨k, hk, hq⟩ := Answer.bind_eq_ok.mp h
        obtain rfl := Option.some.inj (Answer.pure_eq_ok.mp hq)
        exact ⟨f, g, k, rfl, rfl, rfl, hk⟩

/-- A first operand that is solved for comes with the result that it gives. -/
theorem solveOp0_ok {dst op1 x : Option Value} {res : Value}
    (h : r.solveOp0 i dst op1 = .ok (x, some res)) :
    ∃ v w, x = some v ∧ op1 = some w ∧ i.result.Gives v w (some res) := by
  unfold solveOp0 at h
  split at h
  · obtain ⟨_, -, h⟩ := Answer.bind_eq_ok.mp h
    cases Answer.pure_eq_ok.mp h
  · rename_i hres
    obtain ⟨v, hv, h⟩ := Answer.bind_eq_ok.mp h
    cases Answer.pure_eq_ok.mp h
    rw [hres]
    exact ⟨v, _, rfl, rfl, _, Value.add_of_sub hv, rfl⟩
  · rename_i hres
    obtain ⟨q, hq, h⟩ := Answer.bind_eq_ok.mp h
    cases q with
    | none => cases Answer.pure_eq_ok.mp h
    | some q =>
      cases Answer.pure_eq_ok.mp h
      obtain ⟨f, g, k, rfl, rfl, rfl, hk⟩ := quotient?_ok hq
      rw [hres]
      exact ⟨_, _, rfl, rfl, k, g, rfl, rfl, by rw [Felt.mul_eq_of_div hk]⟩
  · cases Answer.pure_eq_ok.mp h

/-- A second operand that is solved for comes with the result that it gives. -/
theorem solveOp1_ok {dst op0 y : Option Value} {v res : Value} (hop0 : op0 = some v)
    (h : solveOp1 i dst op0 = .ok (y, some res)) :
    ∃ w, y = some w ∧ i.result.Gives v w (some res) := by
  unfold solveOp1 at h
  split at h
  · rename_i hres
    cases Answer.pure_eq_ok.mp h
    rw [hres]
    exact ⟨_, rfl, rfl⟩
  · rename_i hres
    obtain rfl := Option.some.inj hop0
    obtain ⟨w, hw, h⟩ := Answer.bind_eq_ok.mp h
    cases Answer.pure_eq_ok.mp h
    rw [hres]
    exact ⟨w, rfl, _, Value.add_comm_of_ok (Value.add_of_sub hw), rfl⟩
  · rename_i hres
    obtain rfl := Option.some.inj hop0
    obtain ⟨q, hq, h⟩ := Answer.bind_eq_ok.mp h
    cases q with
    | none => cases Answer.pure_eq_ok.mp h
    | some q =>
      cases Answer.pure_eq_ok.mp h
      obtain ⟨f, g, k, rfl, rfl, rfl, hk⟩ := quotient?_ok hq
      rw [hres]
      exact ⟨_, rfl, g, k, rfl, rfl, by rw [Felt.mul_comm, Felt.mul_eq_of_div hk]⟩
  · cases Answer.pure_eq_ok.mp h

/-- Completing keeps the operands that are known, and the result is the one that the rule gives
for all of them. -/
theorem complete_ok {a : OperandAddresses} {dst op0 op1 : Option Value} {o : Operands Value}
    (h : r.complete i a dst op0 op1 = .ok o) :
    (∀ v, dst = some v → o.dst = v) ∧ (∀ v, op0 = some v → o.op0 = v) ∧
      (∀ v, op1 = some v → o.op1 = v) ∧ i.result.Gives o.op0 o.op1 o.res := by
  unfold complete at h
  obtain ⟨⟨x?, res₀⟩, hop0, h₁⟩ := Answer.bind_eq_ok.mp h
  obtain ⟨⟨y?, res₁⟩, hop1, h₂⟩ := Answer.bind_eq_ok.mp h₁
  obtain ⟨x, hx, h₃⟩ := Answer.bind_eq_ok.mp h₂
  obtain ⟨y, hy, h₄⟩ := Answer.bind_eq_ok.mp h₃
  obtain rfl : x? = some x := Answer.orThrow_eq_ok.mp hx
  obtain rfl : y? = some y := Answer.orThrow_eq_ok.mp hy
  -- The result comes from the first operand, from the second one, or is formed from both.
  obtain ⟨res, hgives, h₅⟩ : ∃ res, i.result.Gives x y res ∧ (do
      let d ← Action.orThrow (dst.or (r.impliedDst i res)) (.unknownOperand .dst a.dst)
      return (⟨d, res, x, y⟩ : Operands Value)) = .ok o := by
    cases res₀ with
    | some res' =>
      obtain ⟨res, hres, h₅⟩ := Answer.bind_eq_ok.mp h₄
      obtain rfl := Answer.pure_eq_ok.mp hres
      refine ⟨_, ?_, h₅⟩
      cases op0 with
      | some v => cases hop0
      | none =>
        obtain ⟨v, w, hv, rfl, hgives⟩ := solveOp0_ok hop0
        cases hv
        cases hop1
        exact hgives
    | none =>
      cases res₁ with
      | some res' =>
        obtain ⟨res, hres, h₅⟩ := Answer.bind_eq_ok.mp h₄
        obtain rfl := Answer.pure_eq_ok.mp hres
        refine ⟨_, ?_, h₅⟩
        cases op1 with
        | some v => cases hop1
        | none =>
          obtain ⟨w, hw, hgives⟩ := solveOp1_ok rfl hop1
          cases hw
          exact hgives
      | none =>
        obtain ⟨res, hres, h₅⟩ := Answer.bind_eq_ok.mp h₄
        exact ⟨res, result_eq_ok.mp hres, h₅⟩
  obtain ⟨d, hd, h₆⟩ := Answer.bind_eq_ok.mp h₅
  obtain rfl := Answer.pure_eq_ok.mp h₆
  have hdst := Answer.orThrow_eq_ok.mp hd
  refine ⟨?_, ?_, ?_, hgives⟩
  · rintro v rfl
    exact (Option.some.inj hdst).symm
  · rintro v rfl
    cases hop0
    rfl
  · rintro v rfl
    cases hop1
    rfl

/-- Operands that are all known are completed by their result. -/
theorem complete_known (a : OperandAddresses) {o : Operands Value}
    (h : i.result.Gives o.op0 o.op1 o.res) :
    r.complete i a (some o.dst) (some o.op0) (some o.op1) = .ok o := by
  unfold complete
  refine Answer.bind_eq_ok.mpr ⟨_, rfl, Answer.bind_eq_ok.mpr ⟨_, rfl, ?_⟩⟩
  refine Answer.bind_eq_ok.mpr ⟨_, rfl, Answer.bind_eq_ok.mpr ⟨_, rfl, ?_⟩⟩
  exact Answer.bind_eq_ok.mpr ⟨_, result_eq_ok.mpr h, Answer.bind_eq_ok.mpr ⟨_, rfl, rfl⟩⟩

end Cairo.Registers
