import Mathlib.Data.Nat.Bitwise
import Cairo.Proofs.Builtin.Memoization
import Cairo.Proofs.Felt.Field

/-!
# Bitwise builtins

The conjunction, the disjunction and the exclusive disjunction of two numbers are tied together by
their sums, digit by digit with the carries (`and_add_or`, `xor_add_two_mul_and`).  The operations
on field elements reduce their results, so in the field these laws hold of all elements.  An
instance of a bitwise builtin refuses an input with more digits than the builtin works on; with at
most 251 of them the results stay below the prime, nothing is reduced, and the laws hold of the
outputs as numbers (`bitwise_outputs_are_exact`).
-/

namespace Cairo

/-! ## Digits of numbers -/

/-- The digits that two numbers have in common, and those that either of them has, make up both
numbers. -/
theorem and_add_or (x y : Nat) : (x &&& y) + (x ||| y) = x + y := by
  induction x using Nat.strong_induction_on generalizing y with
  | _ x ih =>
    rcases Nat.eq_zero_or_pos x with rfl | hx
    · simp
    · -- The last digits add up, and the others do by induction.
      have hrest := ih (x / 2) (Nat.div_lt_self hx Nat.one_lt_two) (y / 2)
      have hand : (x &&& y) / 2 = x / 2 &&& y / 2 := Nat.and_div_two
      have hor : (x ||| y) / 2 = x / 2 ||| y / 2 := Nat.or_div_two
      have handLast : (x &&& y) % 2 = 1 ↔ x % 2 = 1 ∧ y % 2 = 1 := Nat.and_mod_two_eq_one
      have horLast : (x ||| y) % 2 = 1 ↔ x % 2 = 1 ∨ y % 2 = 1 := Nat.or_mod_two_eq_one
      omega

/-- The digits in which two numbers differ, and twice those that they have in common, make up both
numbers. -/
theorem xor_add_two_mul_and (x y : Nat) : (x ^^^ y) + 2 * (x &&& y) = x + y := by
  induction x using Nat.strong_induction_on generalizing y with
  | _ x ih =>
    rcases Nat.eq_zero_or_pos x with rfl | hx
    · simp
    · have hrest := ih (x / 2) (Nat.div_lt_self hx Nat.one_lt_two) (y / 2)
      have hand : (x &&& y) / 2 = x / 2 &&& y / 2 := Nat.and_div_two
      have hxor : (x ^^^ y) / 2 = x / 2 ^^^ y / 2 := Nat.xor_div_two
      have handLast : (x &&& y) % 2 = 1 ↔ x % 2 = 1 ∧ y % 2 = 1 := Nat.and_mod_two_eq_one
      have hxorLast : (x ^^^ y) % 2 = (x + y) % 2 := Nat.xor_mod_two_eq
      omega

/-! ## Bitwise operations on field elements -/

namespace Felt

variable {x y : Felt}

/-- The class of a conjunction. -/
theorem residue_and (x y : Felt) : (x &&& y).residue = (x.val &&& y.val : Nat) := residue_ofNat _

/-- The class of a disjunction. -/
theorem residue_or (x y : Felt) : (x ||| y).residue = (x.val ||| y.val : Nat) := residue_ofNat _

/-- The class of an exclusive disjunction. -/
theorem residue_xor (x y : Felt) : (x ^^^ y).residue = (x.val ^^^ y.val : Nat) := residue_ofNat _

/-- In the field a conjunction and a disjunction make up both elements, although the second one may
have been reduced. -/
theorem and_add_or (x y : Felt) : (x &&& y) + (x ||| y) = x + y := by
  rw [← residue_inj, residue_add, residue_and, residue_or, residue_add, ← Nat.cast_add,
    Cairo.and_add_or, Nat.cast_add, natCast_val, natCast_val]

/-- In the field an exclusive disjunction and twice a conjunction make up both elements. -/
theorem xor_add_two_mul_and (x y : Felt) : (x ^^^ y) + 2 * (x &&& y) = x + y := by
  have htwo : (2 : Felt).residue = (2 : Nat) := residue_ofNat 2
  rw [← residue_inj, residue_add, residue_mul, residue_xor, residue_and, htwo, residue_add,
    ← Nat.cast_mul, ← Nat.cast_add, Cairo.xor_add_two_mul_and, Nat.cast_add, natCast_val,
    natCast_val]

/-- An element has at most a number of binary digits if it is below the power of two. -/
theorem bitLength_le_iff {n : Nat} : x.bitLength ≤ n ↔ x.val < 2 ^ n := by
  unfold bitLength
  split
  · rename_i hzero
    simp [hzero]
  · rename_i hne
    rw [Nat.succ_le_iff, Nat.log2_lt hne]

/-- What is below the prime is not reduced. -/
theorem val_ofNat_of_lt {k : Nat} (hk : k < prime) : (ofNat k).val = k := Nat.mod_eq_of_lt hk

end Felt

namespace Builtin

variable {b : Builtin} {m : Memory} {a c : Address}

/-! ## Deducing without a permutation -/

/-- Deducing a cell answers what it would if nothing were remembered; unless the builtin is a
permutation, which remembers all outputs of an instance at once, wherever they are. -/
theorem Remembers.answer_deduce_of_kind_ne (hb : b.Remembers m) (hkind : b.kind ≠ .poseidon) :
    (Builtin.deduce m a).answer b = b.deduceFresh m a := by
  have hok : ∀ {found b'}, Builtin.deduce m a b = .ok found b' →
      (Builtin.deduce m a).answer b = b.deduceFresh m a := by
    intro found b' h
    rw [hb.deduce_ok h, Action.answer_of_ok h]
  rcases b.deduce_cases m a with ⟨x, -, h⟩ | ⟨e, houtputs, h⟩ | ⟨-, h⟩ | ⟨values, houtputs, h⟩
  · exact hok h
  · rw [deduceFresh_eq, houtputs, Action.answer_of_error h]
    rfl
  · exact hok h
  · unfold rememberOutputs at h
    dsimp only at h
    rw [if_neg hkind] at h
    cases hx : b.outputAt a values with
    | none =>
      rw [hx] at h
      exact hok h
    | some x =>
      rw [hx] at h
      exact hok h

/-! ## Inputs that are refused -/

/-- A bitwise builtin refuses an input that is an address, or has more digits than the builtin works
on. -/
inductive Refuses (b : Builtin) : Value → Prop
  | address (d : Address) : Refuses b (.address d)
  | large {x : Felt} (hx : b.totalBits < x.bitLength) : Refuses b (.felt x)

/-- A field element is refused for its digits only. -/
theorem refuses_felt_iff {x : Felt} : b.Refuses (.felt x) ↔ b.totalBits < x.bitLength := by
  constructor
  · rintro ⟨⟩
    assumption
  · exact .large

/-- A field element that is not refused is below the power of two. -/
theorem val_lt_of_not_refuses {x : Felt} (hx : ¬ b.Refuses (.felt x)) :
    x.val < 2 ^ b.totalBits.toNat := by
  rw [refuses_felt_iff] at hx
  rw [← Felt.bitLength_le_iff]
  omega

/-- A field element that is not refused passes the check of its digits. -/
theorem checkBits_eq_ok_iff {x : Felt} : b.checkBits c x = .ok () ↔ ¬ b.Refuses (.felt x) := by
  rw [refuses_felt_iff]
  unfold checkBits
  split
  · rename_i hx
    exact ⟨nofun, fun h => absurd hx h⟩
  · rename_i hx
    exact ⟨fun _ => hx, fun _ => rfl⟩

/-- The inputs of an instance are accepted exactly when none of them is refused. -/
theorem exists_feltInputs_iff {first : Address} {i : Nat} {inputs : List Value}
    (hroom : ∀ j < inputs.length, ∃ c, first.shift (i + j : Nat) = .ok c) :
    (∃ xs, b.feltInputs first b.checkBits i inputs = .ok xs) ↔ ∀ v ∈ inputs, ¬ b.Refuses v := by
  induction inputs generalizing i with
  | nil => exact ⟨fun _ => nofun, fun _ => ⟨[], rfl⟩⟩
  | cons v rest ih =>
    obtain ⟨c, hc⟩ := hroom 0 (Nat.zero_lt_succ _)
    have hrest : ∀ j < rest.length, ∃ c, first.shift (i + 1 + j : Nat) = .ok c := by
      intro j hj
      rw [Nat.add_right_comm]
      exact hroom (j + 1) (Nat.succ_lt_succ hj)
    rw [List.forall_mem_cons, ← ih hrest, feltInputs, show first.shift i = .ok c from hc,
      Answer.ok_bind]
    cases v with
    | address d => exact ⟨fun ⟨_, h⟩ => (nomatch h), fun h => absurd (.address d) h.1⟩
    | felt x =>
      dsimp only
      constructor
      · rintro ⟨xs, h⟩
        obtain ⟨⟨⟩, hcheck, htail⟩ := Answer.bind_eq_ok.mp h
        obtain ⟨ys, hys, -⟩ := Answer.bind_eq_ok.mp htail
        exact ⟨checkBits_eq_ok_iff.mp hcheck, ys, hys⟩
      · rintro ⟨hx, ys, hys⟩
        rw [checkBits_eq_ok_iff.mpr hx, Answer.ok_bind, hys]
        exact ⟨_, rfl⟩

/-! ## Outputs -/

/-- Three field elements are the conjunction, the exclusive disjunction and the disjunction of two
others, taken as numbers of so many binary digits. -/
structure AreBitwise (n : Nat) (x y p q r : Felt) : Prop where
  and_digits : ∀ k, p.val.testBit k = (x.val.testBit k && y.val.testBit k)
  xor_digits : ∀ k, q.val.testBit k = (x.val.testBit k ^^ y.val.testBit k)
  or_digits : ∀ k, r.val.testBit k = (x.val.testBit k || y.val.testBit k)
  val_lt : p.val < 2 ^ n ∧ q.val < 2 ^ n ∧ r.val < 2 ^ n
  add_eq : p.val + r.val = x.val + y.val
  eq_sub : (q.val : Int) = r.val - p.val
  le_min : p.val ≤ min x.val y.val

/-- The results of the operations on elements of at most 251 binary digits are not reduced. -/
theorem areBitwise {n : Nat} (hn : n ≤ 251) {x y : Felt} (hx : x.val < 2 ^ n)
    (hy : y.val < 2 ^ n) : AreBitwise n x y (x &&& y) (x ^^^ y) (x ||| y) := by
  have hprime : 2 ^ n < prime :=
    Nat.lt_of_le_of_lt (Nat.pow_le_pow_right Nat.two_pos hn) (by decide : 2 ^ 251 < prime)
  have hand : x.val &&& y.val < 2 ^ n := Nat.and_lt_two_pow _ hy
  have hxor : x.val ^^^ y.val < 2 ^ n := Nat.xor_lt_two_pow hx hy
  have hor : x.val ||| y.val < 2 ^ n := Nat.or_lt_two_pow hx hy
  have hp : (x &&& y).val = x.val &&& y.val := Felt.val_ofNat_of_lt (hand.trans hprime)
  have hq : (x ^^^ y).val = x.val ^^^ y.val := Felt.val_ofNat_of_lt (hxor.trans hprime)
  have hr : (x ||| y).val = x.val ||| y.val := Felt.val_ofNat_of_lt (hor.trans hprime)
  have hsum := Cairo.and_add_or x.val y.val
  have hdouble := Cairo.xor_add_two_mul_and x.val y.val
  refine ⟨fun k => ?_, fun k => ?_, fun k => ?_, ?_, ?_, ?_, ?_⟩
  · rw [hp, Nat.testBit_and]
  · rw [hq, Nat.testBit_xor]
  · rw [hr, Nat.testBit_or]
  · rw [hp, hq, hr]
    exact ⟨hand, hxor, hor⟩
  · rw [hp, hr, hsum]
  · rw [hp, hq, hr]
    omega
  · rw [hp]
    exact Nat.le_min.mpr ⟨Nat.and_le_left, Nat.and_le_right⟩

/-- The output cells of an instance are deduced from its two inputs. -/
theorem deduceFresh_bitwise (hkind : b.kind = .bitwise) {first : Address} {v w : Value}
    (hfirst : b.placeInInstance first = 0) (hinputs : m.HoldsFrom first [v, w]) {i : Nat}
    (hi : i < 3) (hc : first.shift (2 + i : Nat) = .ok c) :
    b.deduceFresh m c = (b.outputs first [v, w]).map (·[i]?) := by
  have hstart : b.instanceStart first = first := by
    have hoff := b.offset_eq first
    refine Address.ext rfl ?_
    omega
  have hcells : b.kind.cellsPerInstance = 5 ∧ b.kind.inputCells = 2 := by
    rw [hkind]
    exact ⟨rfl, rfl⟩
  rw [← hstart] at hc
  obtain ⟨hplace, hsame⟩ := instanceStart_of_shift (by omega) hc
  rw [hstart] at hsame
  have hsameInputs : m.HoldsFrom (b.instanceStart c) [v, w] := hsame ▸ hinputs
  have hlength : [v, w].length = b.kind.inputCells := hcells.2.symm
  have houtputs := instanceOutputs_of_holdsFrom (by omega) hlength hsameInputs
  have hat : b.outputAt c = (·[i]?) := by
    funext values
    unfold outputAt
    rw [hplace, hcells.2, Nat.add_sub_cancel_left]
  rw [deduceFresh_eq, houtputs, hsame, hat]
  cases b.outputs first [v, w] with
  | ok values => rfl
  | error e => rfl

/-- An instance has outputs exactly when neither of its inputs is refused. -/
theorem exists_outputs_bitwise_iff (hkind : b.kind = .bitwise) {first : Address} {v w : Value}
    (hinputs : m.HoldsFrom first [v, w]) :
    (∃ values, b.outputs first [v, w] = .ok values) ↔ ¬ b.Refuses v ∧ ¬ b.Refuses w := by
  have hroom : ∀ j < [v, w].length, ∃ c, first.shift (0 + j : Nat) = .ok c := by
    intro j hj
    obtain ⟨c, hc, -⟩ := hinputs j _ (List.getElem?_eq_getElem hj)
    exact ⟨c, by rwa [Nat.zero_add]⟩
  have hfelts := exists_feltInputs_iff (b := b) hroom
  rw [List.forall_mem_cons, List.forall_mem_singleton] at hfelts
  rw [← hfelts]
  unfold outputs
  rw [hkind]
  dsimp only
  constructor
  · rintro ⟨values, h⟩
    obtain ⟨xs, hxs, -⟩ := Answer.bind_eq_ok.mp h
    exact ⟨xs, hxs⟩
  · rintro ⟨xs, hxs⟩
    -- There are two inputs, and then there are outputs.
    have hvalues := feltInputs_ok hxs
    match xs, hvalues with
    | [x, y], _ => exact ⟨_, Answer.bind_eq_ok.mpr ⟨_, hxs, rfl⟩⟩

/-- The outputs of an instance whose inputs are not refused. -/
theorem outputs_bitwise (hkind : b.kind = .bitwise) {first : Address} {v w : Value}
    {values : List Felt} (h : b.outputs first [v, w] = .ok values) :
    ∃ x y, v = .felt x ∧ w = .felt y ∧ values = [x &&& y, x ^^^ y, x ||| y] := by
  obtain ⟨xs, hxs, hvalues⟩ := outputs_ok h
  match xs, hxs with
  | [x, y], hxy =>
    obtain ⟨rfl, hrest⟩ := List.cons.inj hxy
    obtain ⟨rfl, -⟩ := List.cons.inj hrest
    rw [hkind] at hvalues
    exact ⟨x, y, rfl, rfl, (Except.ok.inj hvalues).symm⟩

/-- Whatever has happened to a memory and to a bitwise builtin for at most 251 bits that remembers
nothing at first: if both inputs of an instance are written, deducing an output of it fails exactly
when an input is refused, and otherwise the three outputs are the results of the operations on
numbers.  On field elements of any size the sums hold in the field. -/
theorem bitwise_outputs_are_exact :
    (∀ (b₀ b : Builtin) (m₀ m : Memory) (uses : List Use) (first : Address) (v w : Value),
      b₀.kind = .bitwise → b₀.totalBits ≤ 251 → b₀.cache = ∅ → (∀ u ∈ uses, u.IsReal) →
      afterUses uses (m₀, b₀) = (m, b) → b₀.placeInInstance first = 0 →
      m.HoldsFrom first [v, w] →
        (∀ (i : Nat) (c : Address), i < 3 → first.shift (2 + i : Nat) = .ok c →
          ((∃ e, (deduce m c).answer b = .error e) ↔ b₀.Refuses v ∨ b₀.Refuses w)) ∧
        (¬ b₀.Refuses v → ¬ b₀.Refuses w → ∃ x y p q r, v = .felt x ∧ w = .felt y ∧
          AreBitwise b₀.totalBits.toNat x y p q r ∧
          ∀ (i : Nat) (c : Address) (z : Felt), [p, q, r][i]? = some z →
            first.shift (2 + i : Nat) = .ok c → (deduce m c).answer b = .ok (some z))) ∧
    ∀ x y : Felt, (x &&& y) + (x ||| y) = x + y ∧ (x ^^^ y) + 2 * (x &&& y) = x + y := by
  refine ⟨?_, fun x y => ⟨Felt.and_add_or x y, Felt.xor_add_two_mul_and x y⟩⟩
  intro b₀ b m₀ m uses first v w hkind hbits hempty huses hrun hfirst hinputs
  obtain ⟨hb, cache, hcache⟩ := remembers_afterUses huses (remembers_of_isEmpty hempty m₀)
  rw [hrun] at hb hcache
  obtain rfl : b = { b₀ with cache := cache } := hcache
  have hanswer : ∀ (i : Nat) (c : Address), i < 3 → first.shift (2 + i : Nat) = .ok c →
      (deduce m c).answer { b₀ with cache := cache } =
        (b₀.outputs first [v, w]).map (·[i]?) := by
    intro i c hi hc
    rw [hb.answer_deduce_of_kind_ne (by simp [hkind]), deduceFresh_cache]
    exact deduceFresh_bitwise hkind hfirst hinputs hi hc
  have houtputs := exists_outputs_bitwise_iff hkind hinputs
  refine ⟨fun i c hi hc => ?_, fun hv hw => ?_⟩
  · rw [hanswer i c hi hc]
    cases hvalues : b₀.outputs first [v, w] with
    | ok values =>
      have hneither := houtputs.mp ⟨values, hvalues⟩
      exact ⟨fun ⟨_, h⟩ => (nomatch h), fun h => absurd h (not_or.mpr hneither)⟩
    | error e =>
      refine ⟨fun _ => ?_, fun _ => ⟨e, rfl⟩⟩
      by_contra hnone
      obtain ⟨values, hok⟩ := houtputs.mpr (not_or.mp hnone)
      rw [hvalues] at hok
      cases hok
  · obtain ⟨values, hvalues⟩ := houtputs.mpr ⟨hv, hw⟩
    obtain ⟨x, y, rfl, rfl, rfl⟩ := outputs_bitwise hkind hvalues
    refine ⟨x, y, _, _, _, rfl, rfl, areBitwise (Int.toNat_le.mpr hbits)
      (val_lt_of_not_refuses hv) (val_lt_of_not_refuses hw), fun i c z hz hc => ?_⟩
    obtain ⟨hi, -⟩ := List.getElem?_eq_some_iff.mp hz
    rw [hanswer i c hi hc, hvalues, ← hz]
    rfl

/-- The inputs of two instances are written, and an output of the first one is deduced.  Its inputs
have 251 and four digits; among those of the second one is a number of 252 digits. -/
def operating : List Use :=
  [.call .addSegment, .call (.load ⟨0, 15, by decide⟩ [.value (.felt (Felt.ofNat (2 ^ 251 - 1))),
      .value (.felt 12)]), .deduce ⟨0, 18, by decide⟩,
    .call (.load ⟨0, 20, by decide⟩ [.value (.felt 12), .value (.felt (Felt.ofNat (2 ^ 251)))])]

/-- The three outputs of the first instance are exact, the remembered one included; and deducing an
output of the second instance fails. -/
theorem bitwise_outputs_are_exact_operating :
    ∃ m b, afterUses operating (.empty, .ofKind .bitwise) = (m, b) ∧
      (∃ p q r, AreBitwise 251 (Felt.ofNat (2 ^ 251 - 1)) 12 p q r ∧
        (deduce m ⟨0, 17, by decide⟩).answer b = .ok (some p) ∧
        (deduce m ⟨0, 18, by decide⟩).answer b = .ok (some q) ∧
        (deduce m ⟨0, 19, by decide⟩).answer b = .ok (some r)) ∧
      ∃ e, (deduce m ⟨0, 22, by decide⟩).answer b = .error e := by
  have hreal : ∀ u ∈ operating, u.IsReal := by simp [operating, Use.IsReal]
  have hfirst : (afterUses operating (.empty, .ofKind .bitwise)).1.HoldsFrom ⟨0, 15, by decide⟩
      [.felt (Felt.ofNat (2 ^ 251 - 1)), .felt 12] := by
    rintro (_ | _ | i) v hv
    · obtain rfl := Option.some.inj hv
      exact ⟨_, rfl, by decide +kernel⟩
    · obtain rfl := Option.some.inj hv
      exact ⟨_, rfl, by decide +kernel⟩
    · cases hv
  have hsecond : (afterUses operating (.empty, .ofKind .bitwise)).1.HoldsFrom ⟨0, 20, by decide⟩
      [.felt 12, .felt (Felt.ofNat (2 ^ 251))] := by
    rintro (_ | _ | i) v hv
    · obtain rfl := Option.some.inj hv
      exact ⟨_, rfl, by decide +kernel⟩
    · obtain rfl := Option.some.inj hv
      exact ⟨_, rfl, by decide +kernel⟩
    · cases hv
  have haccepted : ¬ (ofKind .bitwise).Refuses (.felt (Felt.ofNat (2 ^ 251 - 1))) := by
    rw [refuses_felt_iff]
    decide +kernel
  have haccepted' : ¬ (ofKind .bitwise).Refuses (.felt 12) := by
    rw [refuses_felt_iff]
    decide +kernel
  have hlarge : (ofKind .bitwise).Refuses (.felt (Felt.ofNat (2 ^ 251))) :=
    .large (by decide +kernel)
  obtain ⟨-, houtputs⟩ := bitwise_outputs_are_exact.1 (.ofKind .bitwise) _ .empty _ operating
    ⟨0, 15, by decide⟩ _ _ rfl (by decide) rfl hreal Prod.mk.eta.symm rfl hfirst
  obtain ⟨hrefused, -⟩ := bitwise_outputs_are_exact.1 (.ofKind .bitwise) _ .empty _ operating
    ⟨0, 20, by decide⟩ _ _ rfl (by decide) rfl hreal Prod.mk.eta.symm rfl hsecond
  obtain ⟨x, y, p, q, r, hx, hy, hbitwise, hdeduce⟩ := houtputs haccepted haccepted'
  obtain rfl := Value.felt.inj hx
  obtain rfl := Value.felt.inj hy
  refine ⟨_, _, Prod.mk.eta.symm, ⟨p, q, r, hbitwise, ?_, ?_, ?_⟩, ?_⟩
  · exact hdeduce 0 _ p rfl rfl
  · exact hdeduce 1 _ q rfl rfl
  · exact hdeduce 2 _ r rfl rfl
  · exact (hrefused 0 _ (by decide) rfl).mpr (.inr hlarge)

end Builtin

end Cairo
