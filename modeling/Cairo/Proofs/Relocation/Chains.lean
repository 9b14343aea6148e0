import Cairo.Proofs.Relocation.Rules

/-!
# Where chains of rules end

`EndsAt` reads the rules as a map on addresses, one rule after the other and with the offsets
added up, and `RenamesTo` is the map that comes from it on values.  Both are partial: a chain that
leaves the range of offsets, or runs in a circle, has no end.  Resolving rules without cycles
computes these maps (`endsAt_iff`, `renamesTo_iff`), so that every law of the resolved rules is one
of the rules themselves.
-/

namespace Cairo.Memory

/-- The chain of rules that starts at an address ends at another one.  It ends where a segment is
not moved, and goes on at the destination of the rule, by the same offset, where it is. -/
inductive EndsAt (rules : Relocations) : Address → Address → Prop
  | stays {a : Address} (ha : ¬ IsMoved rules a.segment) : EndsAt rules a a
  | moves {a dst b c : Address} (ha : a.segment < 0) (hdst : rules.lookup a.segment = some dst)
      (hb : dst.shift a.offset = .ok b) (hc : EndsAt rules b c) : EndsAt rules a c

/-- A field element is renamed to itself, and an address to the end of its chain. -/
inductive RenamesTo (rules : Relocations) : Value → Value → Prop
  | felt (x : Felt) : RenamesTo rules (.felt x) (.felt x)
  | address {a b : Address} (h : EndsAt rules a b) : RenamesTo rules (.address a) (.address b)

variable {rules : Relocations} {a b c : Address}

/-- The chain from a segment that is not moved ends where it starts. -/
theorem endsAt_iff_of_not_isMoved (ha : ¬ IsMoved rules a.segment) :
    EndsAt rules a b ↔ b = a := by
  constructor
  · intro h
    cases h with
    | stays => rfl
    | moves hneg hdst => exact absurd ⟨hneg, _, hdst⟩ ha
  · rintro rfl
    exact .stays ha

/-- The chain from a segment that is moved goes on at the destination of its rule. -/
theorem endsAt_iff_of_lookup {dst : Address} (ha : a.segment < 0)
    (hdst : rules.lookup a.segment = some dst) :
    EndsAt rules a c ↔ ∃ b, dst.shift a.offset = .ok b ∧ EndsAt rules b c := by
  constructor
  · intro h
    cases h with
    | stays hstays => exact absurd ⟨ha, dst, hdst⟩ hstays
    | moves _ hdst' hb hc =>
      obtain rfl : dst = _ := Option.some.inj (hdst.symm.trans hdst')
      exact ⟨_, hb, hc⟩
  · rintro ⟨b, hb, hc⟩
    exact .moves ha hdst hb hc

/-- A chain has at most one end. -/
theorem EndsAt.unique (hb : EndsAt rules a b) (hc : EndsAt rules a c) : b = c := by
  induction hb with
  | stays ha => exact ((endsAt_iff_of_not_isMoved ha).mp hc).symm
  | moves ha hdst hb' _ ih =>
    obtain ⟨b'', hb'', hc⟩ := (endsAt_iff_of_lookup ha hdst).mp hc
    obtain rfl := Except.ok.inj (hb'.symm.trans hb'')
    exact ih hc

/-- A chain ends in a segment that is not moved. -/
theorem EndsAt.not_isMoved (h : EndsAt rules a b) : ¬ IsMoved rules b.segment := by
  induction h with
  | stays ha => exact ha
  | moves _ _ _ _ ih => exact ih

/-- A value is renamed to one value at most. -/
theorem RenamesTo.unique {v w x : Value} (hw : RenamesTo rules v w) (hx : RenamesTo rules v x) :
    w = x := by
  cases hw with
  | felt y =>
    cases hx
    rfl
  | address hb =>
    cases hx with
    | address hc => rw [hb.unique hc]

/-! ## Resolved rules follow the chains -/

/-- What is found at a distance from an address in a segment that is not moved ends there. -/
theorem shift_iff_of_not_isMoved {last : Address} (hlast : ¬ IsMoved rules last.segment) (k : Nat) :
    last.shift k = .ok b ↔ ∃ c, last.shift k = .ok c ∧ EndsAt rules c b := by
  have hstays : ∀ {c : Address}, last.shift k = .ok c → ¬ IsMoved rules c.segment := by
    intro c hc
    rwa [(Address.shift_eq_ok.mp hc).1]
  constructor
  · intro h
    exact ⟨b, h, .stays (hstays h)⟩
  · rintro ⟨c, hc, hend⟩
    obtain rfl := (endsAt_iff_of_not_isMoved (hstays hc)).mp hend
    exact hc

/-- If following the rules from an address leads out of all segments that are moved, then what is
found at a distance from where it leads is the end of the chain from that distance. -/
theorem shift_iff_of_follow {steps : Nat} {passed : List Int} {dst last : Address}
    (h : follow rules steps passed dst = .ok last) (hlast : ¬ IsMoved rules last.segment)
    (k : Nat) :
    last.shift k = .ok b ↔ ∃ c, dst.shift k = .ok c ∧ EndsAt rules c b := by
  induction steps generalizing passed dst with
  | zero =>
    obtain rfl : dst = last := Except.ok.inj h
    exact shift_iff_of_not_isMoved hlast k
  | succ steps ih =>
    unfold follow at h
    cases hnext : rules.lookup dst.segment with
    | none =>
      rw [hnext] at h
      obtain rfl : dst = last := Except.ok.inj h
      exact shift_iff_of_not_isMoved hlast k
    | some next =>
      rw [hnext] at h
      dsimp only at h
      split at h
      · obtain rfl : dst = last := Except.ok.inj h
        exact shift_iff_of_not_isMoved hlast k
      · rename_i hmoves
        have hneg : dst.segment < 0 := by
          by_contra hreal
          exact hmoves (.inl (Int.not_lt.mp hreal))
        obtain ⟨dst', hdst', h⟩ := Answer.bind_eq_ok.mp h
        rw [ih h]
        constructor
        · rintro ⟨c, hc, hend⟩
          -- The offset before the rule is no larger than the one after it, hence in range.
          obtain ⟨-, hsum⟩ := Address.shift_eq_ok.mp ((Address.shift_trans hdst').mp hc)
          have hlt := c.offset_lt
          let start : Address := ⟨dst.segment, dst.offset + k, by omega⟩
          have hstart : dst.shift k = .ok start :=
            Address.shift_eq_ok.mpr ⟨rfl, Int.natCast_add dst.offset k⟩
          refine ⟨start, hstart, .moves hneg hnext ?_ hend⟩
          rw [Int.natCast_add]
          exact (Address.shift_trans hdst').mp hc
        · rintro ⟨c, hc, hend⟩
          obtain ⟨hseg, hoff⟩ := Address.shift_eq_ok.mp hc
          rw [← hseg] at hneg hnext
          obtain ⟨c', hc', hend'⟩ := (endsAt_iff_of_lookup hneg hnext).mp hend
          rw [hoff] at hc'
          exact ⟨c', (Address.shift_trans hdst').mpr hc', hend'⟩

variable {resolved : Relocations}

/-- Resolved rules give an address the end of its chain. -/
theorem endsAt_iff (hacyclic : Acyclic rules) (h : resolve rules = .ok resolved) :
    EndsAt rules a b ↔ relocateAddress resolved a = .ok b := by
  by_cases hmoved : IsMoved rules a.segment
  · obtain ⟨hneg, dst, hdst⟩ := hmoved
    obtain ⟨last, hfollow, hlast⟩ := (lookup_of_resolve h a.segment).2 dst hdst
    have hend : ¬ IsMoved rules last.segment := by
      rw [← isMoved_resolve_iff h]
      exact resolved_of_resolve hacyclic h _ last hneg hlast
    rw [relocateAddress_of_lookup hneg hlast, shift_iff_of_follow hfollow hend,
      endsAt_iff_of_lookup hneg hdst]
  · have hfixed := relocateAddress_of_not_isMoved (mt (isMoved_resolve_iff h a.segment).mp hmoved)
    rw [endsAt_iff_of_not_isMoved hmoved, hfixed, Except.ok.injEq, eq_comm]

/-- Resolved rules give a value what it is renamed to. -/
theorem renamesTo_iff (hacyclic : Acyclic rules) (h : resolve rules = .ok resolved) {v w : Value} :
    RenamesTo rules v w ↔ relocateValue resolved v = .ok w := by
  cases v with
  | felt x =>
    constructor
    · rintro ⟨⟩
      rfl
    · intro hw
      obtain rfl := Except.ok.inj hw
      exact .felt x
  | address a =>
    show _ ↔ (relocateAddress resolved a).map .address = .ok w
    rw [Answer.map_eq_ok]
    constructor
    · rintro (_ | hend)
      exact ⟨_, (endsAt_iff hacyclic h).mp hend, rfl⟩
    · rintro ⟨b, hb, rfl⟩
      exact .address ((endsAt_iff hacyclic h).mpr hb)

end Cairo.Memory
