import Cairo.Proofs.Memory.Ranges
import Cairo.Proofs.Memory.WriteOnce

/-!
# Insertions that are refused

An insertion is refused when the datum is no value, when the segment is not allocated, when the cell
holds another value, and when a rule of the segment rejects the value (`insertDatum_eq_error_iff`).
A rule is asked after the cell is written, so a rejected value is left in a cell that was not
written before; in all other cases the memory stays as it is.  A value that is left behind does not
count as checked, so the insertion is refused again, now without effect (`Refused.again`).
-/

namespace Cairo

/-- A rule rejects addresses, and field elements that are too large. -/
inductive RangeRule.Rejects (r : RangeRule) (a : Address) : Value → Fault → Prop
  | address (b : Address) : Rejects r a (.address b) (.foundAddress .rangeCheck a)
  | large {x : Felt} (hx : r.bound ≤ x.val) : Rejects r a (.felt x) (.outOfRange a x r.bound)

namespace Memory

variable {m t : Memory} {a : Address} {v : Value} {e : Fault}

/-! ## Checks that fail -/

/-- The value in a cell would not pass its check: the cell does not count as checked, and the fault
is that of the first rule of its segment that the value does not obey. -/
def Rejects (m : Memory) (a : Address) (v : Value) (e : Fault) : Prop :=
  a ∉ m.validated ∧ ∃ before r after, m.rulesOf a.segment = before ++ r :: after ∧
    (∀ r' ∈ before, ∃ x, v = .felt x ∧ x.val < r'.bound) ∧ r.Rejects a v e

/-- A written cell obeys a rule when it holds a field element below the bound. -/
theorem checkRule_eq_ok_of_get? {r : RangeRule} (hv : m.get? a = some v) :
    checkRule r m a = .ok () ↔ ∃ x, v = .felt x ∧ x.val < r.bound := by
  rw [checkRule_eq_ok, Passes, hv]
  simp only [Option.some.injEq]

/-- A written cell fails the check of a rule that rejects its value. -/
theorem checkRule_eq_error_of_get? {r : RangeRule} (hv : m.get? a = some v) :
    checkRule r m a = .error e ↔ r.Rejects a v e := by
  have hread : m.read a = .ok v := Answer.orThrow_eq_ok.mpr hv
  unfold checkRule
  rw [hread, Answer.ok_bind]
  cases v with
  | address b =>
    constructor
    · rintro ⟨⟩
      exact .address b
    · rintro ⟨⟩
      rfl
  | felt x =>
    show (if x.val < r.bound then pure () else throw (Fault.outOfRange a x r.bound)) = _ ↔ _
    split
    · rename_i hx
      refine ⟨nofun, ?_⟩
      rintro ⟨⟩
      omega
    · rename_i hx
      constructor
      · rintro ⟨⟩
        exact .large (Nat.not_lt.mp hx)
      · rintro ⟨⟩
        rfl

/-- The check of a written cell fails when a rule rejects its value, and changes nothing then. -/
theorem validateCell_eq_error_iff (hv : m.get? a = some v) :
    validateCell a m = .error e t ↔ t = m ∧ m.Rejects a v e := by
  unfold validateCell Rejects
  rw [Action.get_bind]
  have hskip : ((m.rulesOf a.segment).isEmpty || m.validated.contains a) = true ↔
      m.rulesOf a.segment = [] ∨ a ∈ m.validated := by
    simp only [Bool.or_eq_true, List.isEmpty_iff, Std.ExtTreeSet.contains_iff_mem]
  by_cases h : m.rulesOf a.segment = [] ∨ a ∈ m.validated
  · -- The check is passed over.
    rw [if_pos (hskip.mpr h)]
    refine ⟨nofun, ?_⟩
    rintro ⟨-, hfresh, before, r, after, hrules, -⟩
    rcases h with hempty | hchecked
    · rw [hempty] at hrules
      simp at hrules
    · exact absurd hchecked hfresh
  · rw [if_neg (mt hskip.mp h), Action.bind_eq_error, Action.forM_lift_eq_error]
    simp only [checkRule_eq_ok_of_get? hv, checkRule_eq_error_of_get? hv]
    constructor
    · rintro (⟨rfl, hrejects⟩ | ⟨_, _, -, hmodify⟩)
      · exact ⟨rfl, fun hmem => h (.inr hmem), hrejects⟩
      · cases hmodify
    · rintro ⟨rfl, -, hrejects⟩
      exact .inl ⟨rfl, hrejects⟩

/-! ## What a refused insertion leaves behind -/

/-- Inserting a value into a cell is refused with a fault, and leaves a memory behind. -/
inductive Refused (m : Memory) (a : Address) (v : Value) : Fault → Memory → Prop
  /-- The segment is not allocated. -/
  | unallocated (hs : m.segment? a.segment = none) :
      Refused m a v (.unallocatedSegment a.segment m.segments.size) m
  /-- The cell holds another value. -/
  | inconsistent {old : Value} (hold : m.get? a = some old) (hne : old ≠ v) :
      Refused m a v (.inconsistentMemory a old v) m
  /-- The cell holds the value already, and a rule rejects it. -/
  | held {e : Fault} (hold : m.get? a = some v) (he : m.Rejects a v e) : Refused m a v e m
  /-- The cell is not written, and a rule rejects the value, which stays in the cell. -/
  | left {e : Fault} {s : Segment} (hs : m.segment? a.segment = some s) (hnew : m.get? a = none)
      (he : m.Rejects a v e) : Refused m a v e (m.put a v)

/-- Writing a cell changes neither the rules nor the checked addresses. -/
theorem rejects_put_iff (w : Value) : (m.put a w).Rejects a v e ↔ m.Rejects a v e := by
  have hsame : m.SameChecks (m.put a w) := sameChecks_modifySegment m a.segment _
  unfold Rejects
  rw [hsame.rulesOf_eq, hsame.2]

/-- An insertion fails exactly when it is refused. -/
theorem insert_eq_error_iff : insert a v m = .error e t ↔ m.Refused a v e t := by
  constructor
  · intro h
    rw [insert_eq] at h
    cases hs : m.segment? a.segment with
    | none =>
      rw [hs] at h
      cases h
      exact .unallocated hs
    | some s =>
      rw [hs, if_neg (by simp)] at h
      cases hold : m.get? a with
      | none =>
        rw [hold] at h
        have hput : (m.put a v).get? a = some v := by rw [get?_put hs, if_pos rfl]
        obtain ⟨rfl, he⟩ := (validateCell_eq_error_iff hput).mp h
        exact .left hs hold ((rejects_put_iff v).mp he)
      | some old =>
        rw [hold] at h
        dsimp only at h
        split at h
        · rename_i hv
          subst hv
          obtain ⟨rfl, he⟩ := (validateCell_eq_error_iff hold).mp h
          exact .held hold he
        · rename_i hne
          cases h
          exact .inconsistent hold hne
  · intro h
    rw [insert_eq]
    cases h with
    | unallocated hs =>
      rw [hs]
      rfl
    | inconsistent hold hne =>
      obtain ⟨s, hs, -⟩ := segment?_of_get? hold
      rw [hs, if_neg (by simp), hold]
      exact if_neg hne
    | held hold he =>
      obtain ⟨s, hs, -⟩ := segment?_of_get? hold
      rw [hs, if_neg (by simp), hold]
      dsimp only
      rw [if_pos rfl]
      exact (validateCell_eq_error_iff hold).mpr ⟨rfl, he⟩
    | left hs hnew he =>
      have hput : (m.put a v).get? a = some v := by rw [get?_put hs, if_pos rfl]
      rw [hs, if_neg (by simp), hnew]
      exact (validateCell_eq_error_iff hput).mpr ⟨rfl, (rejects_put_iff v).mpr he⟩

/-- A value that is refused is refused again, with the same fault and without effect. -/
theorem Refused.again (h : m.Refused a v e t) : t.Refused a v e t := by
  cases h with
  | unallocated hs => exact .unallocated hs
  | inconsistent hold hne => exact .inconsistent hold hne
  | held hold he => exact .held hold he
  | left hs _ he =>
    have hput : (m.put a v).get? a = some v := by rw [get?_put hs, if_pos rfl]
    exact .held hput ((rejects_put_iff v).mpr he)

/-- A datum that is no value is refused as such, and a value is refused in one of four ways. -/
theorem insertDatum_eq_error_iff (m t : Memory) (a : Address) (d : Datum) (e : Fault) :
    insertDatum a d m = .error e t ↔
      (∃ v, d.toValue = .ok v ∧ m.Refused a v e t) ∨
        (∀ v, d.toValue ≠ .ok v) ∧ e = .notStorable d ∧ t = m := by
  rw [insertDatum_eq]
  cases hd : d.toValue with
  | error e' =>
    obtain rfl := eq_notStorable_of_toValue hd
    simp [eq_comm]
  | ok v => simp [insert_eq_error_iff]

end Memory

end Cairo
