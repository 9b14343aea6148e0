import Cairo.Proofs.Memory.Development

/-!
# Cells that are checked

A rule says which field elements the cells of a segment may hold (`Passes`).  A segment that is to
get a rule may hold anything before that, as long as it has no laxer rule and what counts as checked
passes the rule (`Awaits`).  Once the rule is there and the cells that are written were looked at,
every written cell passes it (`Guards`, from `guards_of_validateExisting`).  Both are kept in
development: what counts as checked was written, so the check of a cell that is written now is not
passed over.
-/

namespace Cairo.Memory

variable {m t : Memory} {a : Address} {i : Int} {r : RangeRule}

/-! ## Rules -/

/-- The cell holds a field element that the rule admits. -/
def Passes (m : Memory) (r : RangeRule) (a : Address) : Prop :=
  ∃ x : Felt, m.get? a = some (.felt x) ∧ x.val < r.bound

/-- A cell obeys a rule when it holds a field element that the rule admits. -/
theorem checkRule_eq_ok : checkRule r m a = .ok () ↔ m.Passes r a := by
  unfold checkRule read Passes
  cases hv : m.get? a with
  | none => simp [Action.orThrow, Answer.bind_eq_ok]
  | some v =>
    cases v with
    | address b => simp [Action.orThrow, Answer.bind_eq_ok, Answer.throw_eq_ok]
    | felt x =>
      by_cases hx : x.val < r.bound
      · simp [Action.orThrow, Answer.bind_eq_ok, Answer.pure_eq_ok, hx]
      · simp [Action.orThrow, Answer.bind_eq_ok, Answer.throw_eq_ok, hx]

/-- A cell of a real segment that passes a rule does so in every memory that keeps field
elements. -/
theorem Passes.of_keepsFelts (h : m.Passes r a) (hkeeps : m.KeepsFelts t) (ha : 0 ≤ a.segment) :
    t.Passes r a := by
  obtain ⟨x, hget, hx⟩ := h
  exact ⟨x, hkeeps a x ha hget, hx⟩

/-- What passes a rule passes every laxer one. -/
theorem Passes.mono {r' : RangeRule} (h : m.Passes r a) (hr : r.parts ≤ r'.parts) :
    m.Passes r' a := by
  obtain ⟨x, hget, hx⟩ := h
  have hbound : r.bound ≤ r'.bound :=
    Nat.pow_le_pow_right Nat.zero_lt_two (Nat.mul_le_mul_left 16 hr)
  exact ⟨x, hget, hx.trans_le hbound⟩

/-- Appending a rule for a segment leaves the rules of the others alone. -/
theorem lookup_appendRule (i j : Int) (r : RangeRule) (rules : List (Int × List RangeRule)) :
    (appendRule i r rules).lookup j =
      if j = i then some ((rules.lookup i).getD [] ++ [r]) else rules.lookup j := by
  induction rules with
  | nil =>
    unfold appendRule
    by_cases hj : j = i
    · simp [hj]
    · simp [hj, List.lookup_cons, beq_eq_false_iff_ne.mpr hj]
  | cons entry rest ih =>
    obtain ⟨k, rs⟩ := entry
    unfold appendRule
    by_cases hk : k = i
    · subst hk
      by_cases hj : j = k
      · simp [hj]
      · simp [hj, List.lookup_cons, beq_eq_false_iff_ne.mpr hj]
    · rw [if_neg hk, List.lookup_cons, List.lookup_cons, List.lookup_cons, ih]
      by_cases hj : j = k
      · simp [hj, hk]
      · simp [beq_eq_false_iff_ne.mpr hj, beq_eq_false_iff_ne.mpr (Ne.symm hk)]

/-- Without any rules a segment has none. -/
theorem rulesOf_eq_nil (h : m.rules = []) (i : Int) : m.rulesOf i = [] := by
  unfold rulesOf
  rw [h]
  rfl

/-- A rule that is added for a segment is the last one of it. -/
theorem rulesOf_addRule (m : Memory) (i j : Int) (r : RangeRule) :
    (m.addRule i r).rulesOf j = if j = i then m.rulesOf i ++ [r] else m.rulesOf j := by
  unfold rulesOf addRule
  dsimp only
  rw [lookup_appendRule]
  split
  · rfl
  · rfl

/-- The rules of a segment after one is added. -/
theorem mem_rulesOf_addRule {j : Int} {r' : RangeRule} :
    r' ∈ (m.addRule i r).rulesOf j ↔ r' ∈ m.rulesOf j ∨ j = i ∧ r' = r := by
  rw [rulesOf_addRule]
  by_cases hj : j = i
  · simp [hj]
  · simp [hj]

/-- A cell that is checked is passed over, because its segment has no rules or it counts as checked
already, or it passes all rules of its segment and counts as checked from then on. -/
theorem validateCell_ok (h : validateCell a m = .ok () t) :
    (t = m ∧ (m.rulesOf a.segment = [] ∨ a ∈ m.validated)) ∨
      t = { m with validated := m.validated.insert a } ∧ m.rulesOf a.segment ≠ [] ∧
        ∀ r ∈ m.rulesOf a.segment, m.Passes r a := by
  unfold validateCell at h
  obtain ⟨_, _, hget, h⟩ := Action.bind_eq_ok.mp h
  obtain ⟨rfl, rfl⟩ := Action.get_eq_ok.mp hget
  split at h
  · rename_i hskip
    obtain ⟨-, rfl⟩ := Action.pure_eq_ok.mp h
    simp only [Bool.or_eq_true, List.isEmpty_iff, Std.ExtTreeSet.contains_iff_mem] at hskip
    exact .inl ⟨rfl, hskip⟩
  · rename_i hcheck
    simp only [Bool.or_eq_true, List.isEmpty_iff, not_or] at hcheck
    obtain ⟨_, u, hrules, h⟩ := Action.bind_eq_ok.mp h
    obtain rfl := Action.modify_eq_ok.mp h
    obtain ⟨rfl, hpasses⟩ := Action.forM_ok (· = m) (m.Passes · a) hrules rfl
      fun r _ s s' hs hround => by
        obtain ⟨hr, rfl⟩ := Action.lift_eq_ok.mp hround
        exact ⟨hs, checkRule_eq_ok.mp hr⟩
    exact .inr ⟨rfl, hcheck.1, hpasses⟩

/-! ## Before a rule is added -/

/-- The segment has no laxer rule than a given one, and what counts as checked passes the given
one. -/
structure Awaits (m : Memory) (i : Int) (r : RangeRule) : Prop where
  real : 0 ≤ i
  noLaxer : ∀ r' ∈ m.rulesOf i, r'.parts ≤ r.parts
  checked : ∀ a ∈ m.validated, a.segment = i → m.Passes r a

/-- A segment of the empty memory awaits any rule. -/
theorem awaits_empty (hi : 0 ≤ i) (r : RangeRule) : empty.Awaits i r :=
  ⟨hi, nofun, fun _ ha => absurd ha Std.ExtTreeSet.not_mem_empty⟩

/-- Checking a cell leaves a segment awaiting its rule. -/
theorem Awaits.check (hm : m.Awaits i r) (h : validateCell a m = .ok () t) : t.Awaits i r := by
  rcases validateCell_ok h with ⟨rfl, -⟩ | ⟨rfl, hrules, hpasses⟩
  · exact hm
  · refine ⟨hm.real, hm.noLaxer, fun b hb hseg => ?_⟩
    rcases Std.ExtTreeSet.mem_insert.mp hb with heq | hb
    · obtain rfl := Address.compare_eq_iff.mp heq
      -- The cell passed some rule of its segment, and none of them is laxer.
      obtain ⟨r', hr'⟩ := List.exists_mem_of_ne_nil _ hrules
      exact (hpasses r' hr').mono (hm.noLaxer r' (hseg ▸ hr'))
    · exact hm.checked b hb hseg

/-- A segment awaits its rule as long as the rules, the checked addresses and the field elements
stay. -/
theorem Awaits.of_sameChecks (hm : m.Awaits i r) (hchecks : m.SameChecks t)
    (hfelts : m.KeepsFelts t) : t.Awaits i r := by
  refine ⟨hm.real, fun r' hr' => hm.noLaxer r' ?_, fun a ha hseg => ?_⟩
  · rwa [← hchecks.rulesOf_eq]
  · exact (hm.checked a (hchecks.2 ▸ ha) hseg).of_keepsFelts hfelts (hseg ▸ hm.real)

/-- Writing a cell that is not written keeps the rules, the checked addresses and the field
elements. -/
theorem put_keeps (halloc : (m.segment? a.segment).isSome) (hnew : m.get? a = none) (v : Value) :
    m.SameChecks (m.put a v) ∧ m.KeepsFelts (m.put a v) := by
  obtain ⟨s, hs⟩ := Option.isSome_iff_exists.mp halloc
  exact ⟨sameChecks_modifySegment m _ _, (extends_put hs hnew v).keepsFelts⟩

/-- Development leaves a segment awaiting its rule. -/
theorem Awaits.of_develops (hm : m.Awaits i r) (h : m.Develops t) : t.Awaits i r := by
  induction h with
  | settle h => exact hm.of_sameChecks h.checks h.felts
  | check h => exact hm.check h
  | write halloc hnew h =>
    obtain ⟨hchecks, hfelts⟩ := put_keeps halloc hnew _
    exact (hm.of_sameChecks hchecks hfelts).check h
  | trans _ _ ih ih' => exact ih' (ih hm)

/-- A segment goes on awaiting its rule when a rule is added that is not a laxer one for it. -/
theorem Awaits.addRule (hm : m.Awaits i r) {j : Int} {r' : RangeRule}
    (hj : i = j → r'.parts ≤ r.parts) : (m.addRule j r').Awaits i r := by
  refine ⟨hm.real, fun r'' hr'' => ?_, hm.checked⟩
  rcases mem_rulesOf_addRule.mp hr'' with hold | ⟨heq, rfl⟩
  · exact hm.noLaxer r'' hold
  · exact hj heq

/-! ## After a rule was added -/

/-- The segment has a rule that all its written cells pass, and what counts as checked is
written. -/
structure Guards (m : Memory) (i : Int) (r : RangeRule) : Prop where
  real : 0 ≤ i
  rule : r ∈ m.rulesOf i
  passes : ∀ a, a.segment = i → (m.get? a).isSome → m.Passes r a
  checked : ∀ a ∈ m.validated, a.segment = i → (m.get? a).isSome

/-- A cell that counts as checked, or whose check succeeds, passes the rules of its segment. -/
theorem Guards.check (hm : m.Guards i r) (h : validateCell a m = .ok () t) : t.Guards i r := by
  rcases validateCell_ok h with ⟨rfl, -⟩ | ⟨rfl, hrules, hpasses⟩
  · exact hm
  · refine ⟨hm.real, hm.rule, hm.passes, fun b hb hseg => ?_⟩
    rcases Std.ExtTreeSet.mem_insert.mp hb with heq | hb
    · obtain rfl := Address.compare_eq_iff.mp heq
      obtain ⟨r', hr'⟩ := List.exists_mem_of_ne_nil _ hrules
      obtain ⟨x, hx, -⟩ := hpasses r' hr'
      exact Option.isSome_of_eq_some hx
    · exact hm.checked b hb hseg

/-- A memory that settles goes on guarding a segment. -/
theorem Guards.settle (hm : m.Guards i r) (h : m.Settles t) : t.Guards i r := by
  refine ⟨hm.real, ?_, fun a hseg hv => ?_, fun a ha hseg => ?_⟩
  · rw [h.checks.rulesOf_eq]
    exact hm.rule
  · have hreal : 0 ≤ a.segment := hseg ▸ hm.real
    exact (hm.passes a hseg (h.written a hreal hv)).of_keepsFelts h.felts hreal
  · -- The written cells of the segment are field elements, so they stay.
    obtain ⟨x, hx, -⟩ := hm.passes a hseg (hm.checked a (h.checks.2 ▸ ha) hseg)
    exact Option.isSome_of_eq_some (h.felts a x (hseg ▸ hm.real) hx)

/-- A cell that is written and checked passes the rule of a segment that is guarded: it does not
count as checked yet. -/
theorem Guards.write (hm : m.Guards i r) {v : Value} (halloc : (m.segment? a.segment).isSome)
    (hnew : m.get? a = none) (h : validateCell a (m.put a v) = .ok () t) : t.Guards i r := by
  obtain ⟨s, hs⟩ := Option.isSome_iff_exists.mp halloc
  obtain ⟨hchecks, hfelts⟩ := put_keeps halloc hnew v
  have hrule : r ∈ (m.put a v).rulesOf i := by
    rw [hchecks.rulesOf_eq]
    exact hm.rule
  have hput : (m.put a v).Guards i r := by
    refine ⟨hm.real, hrule, fun b hseg hb => ?_, fun b hb hseg => ?_⟩
    · by_cases heq : b = a
      · subst heq
        rcases validateCell_ok h with ⟨-, hnone | hskip⟩ | ⟨-, -, hpasses⟩
        · rw [hseg] at hnone
          rw [hnone] at hrule
          cases hrule
        · have hsome := hm.checked b (hchecks.2 ▸ hskip) hseg
          rw [hnew] at hsome
          cases hsome
        · exact hpasses r (hseg ▸ hrule)
      · rw [get?_put hs, if_neg heq] at hb
        exact (hm.passes b hseg hb).of_keepsFelts hfelts (hseg ▸ hm.real)
    · obtain ⟨x, hx, -⟩ := hm.passes b hseg (hm.checked b (hchecks.2 ▸ hb) hseg)
      exact Option.isSome_of_eq_some (hfelts b x (hseg ▸ hm.real) hx)
  exact hput.check h

/-- Development goes on guarding a segment. -/
theorem Guards.of_develops (hm : m.Guards i r) (h : m.Develops t) : t.Guards i r := by
  induction h with
  | settle h => exact hm.settle h
  | check h => exact hm.check h
  | write halloc hnew h => exact hm.write halloc hnew h
  | trans _ _ ih ih' => exact ih' (ih hm)

/-- A segment is guarded whatever rules are added. -/
theorem Guards.addRule (hm : m.Guards i r) (j : Int) (r' : RangeRule) :
    (m.addRule j r').Guards i r :=
  ⟨hm.real, mem_rulesOf_addRule.mpr (.inl hm.rule), hm.passes, hm.checked⟩

/-- More cells count as checked, and nothing else has changed. -/
def ChecksMore (m t : Memory) : Prop :=
  m.Rechecked t ∧ ∀ a ∈ m.validated, a ∈ t.validated

instance : IsPreorder Memory ChecksMore where
  refl m := ⟨refl m, fun _ => id⟩
  trans _ _ _ h h' := ⟨IsTrans.trans _ _ _ h.1 h'.1, fun a ha => h'.2 a (h.2 a ha)⟩

/-- Checking a cell only adds to the cells that count as checked. -/
theorem checksMore_validateCell (a : Address) : Action.Ensures ChecksMore (validateCell a) := by
  rintro m ⟨⟩ t h
  rcases validateCell_ok h with ⟨rfl, -⟩ | ⟨rfl, -, -⟩
  · exact refl _
  · exact ⟨⟨_, rfl⟩, fun b hb => Std.ExtTreeSet.mem_insert.mpr (.inr hb)⟩

/-- A cell of a segment with rules counts as checked when it was. -/
theorem mem_validated_of_validateCell (h : validateCell a m = .ok () t)
    (hrules : m.rulesOf a.segment ≠ []) : a ∈ t.validated := by
  rcases validateCell_ok h with ⟨rfl, hnone | hskip⟩ | ⟨rfl, -, -⟩
  · exact absurd hnone hrules
  · exact hskip
  · exact Std.ExtTreeSet.mem_insert_self

/-- The cells of a list that are in segments with rules count as checked when the list was gone
through. -/
theorem mem_validated_of_forM {items : List (Address × Value)} {v : Value}
    (h : (items.forM fun item => validateCell item.1) m = .ok () t) (ha : (a, v) ∈ items)
    (hrules : m.rulesOf a.segment ≠ []) : a ∈ t.validated := by
  refine Action.Ensures.forM_establishes (R := ChecksMore)
    (P := fun (item : Address × Value) s =>
      m.rulesOf item.1.segment ≠ [] → item.1 ∈ s.validated) h
    (fun item _ => checksMore_validateCell item.1) (fun item _ s s' hs hround hitem => ?_)
    (fun item s s' hs hchecked hitem => hs.2 item.1 (hchecked hitem)) (a, v) ha hrules
  obtain ⟨⟨_, rfl⟩, -⟩ := hs
  exact mem_validated_of_validateCell hround hitem

/-- Checking the cells that are there checks every written cell of a real segment with rules. -/
theorem mem_validated_of_validateExisting (h : validateExisting m = .ok () t)
    (hreal : 0 ≤ a.segment) (hrules : m.rulesOf a.segment ≠ []) (hv : (m.get? a).isSome) :
    a ∈ t.validated := by
  unfold validateExisting at h
  obtain ⟨_, _, hget, h⟩ := Action.bind_eq_ok.mp h
  obtain ⟨rfl, rfl⟩ := Action.get_eq_ok.mp hget
  obtain ⟨v, hv⟩ := Option.isSome_iff_exists.mp hv
  obtain ⟨rules, hentry⟩ : ∃ rules, (a.segment, rules) ∈ m.rules := by
    unfold rulesOf at hrules
    cases hlookup : m.rules.lookup a.segment with
    | none =>
      rw [hlookup] at hrules
      exact absurd rfl hrules
    | some rules =>
      obtain ⟨l₁, l₂, hl, -⟩ := List.lookup_eq_some_iff.mp hlookup
      rw [hl]
      exact ⟨rules, List.mem_append_right _ List.mem_cons_self⟩
  refine Action.Ensures.forM_establishes (R := ChecksMore)
    (P := fun (entry : Int × List RangeRule) s => entry.1 = a.segment → a ∈ s.validated) h ?_ ?_
    (fun entry s s' hs hchecked hseg => hs.2 a (hchecked hseg)) _ hentry rfl
  · rintro ⟨i, _⟩ -
    dsimp only
    split
    · exact .forM fun item _ => checksMore_validateCell item.1
    · exact .pure _
  · -- The round of the segment of the cell goes through the cells that were there at the start.
    rintro ⟨i, _⟩ - s s' ⟨⟨_, rfl⟩, -⟩ hround rfl
    dsimp only at hround
    rw [if_pos hreal] at hround
    exact mem_validated_of_forM hround (mem_itemsOf_iff.mpr ⟨rfl, hv⟩) hrules

/-- A segment that awaits a rule is guarded once the rule is there and the written cells are
checked. -/
theorem guards_of_validateExisting (hm : m.Awaits i r) (hrule : r ∈ m.rulesOf i)
    (h : validateExisting m = .ok () t) : t.Guards i r := by
  have hdevelops : m.Develops t := develops_validateExisting m () t h
  have ht : t.Awaits i r := hm.of_develops hdevelops
  obtain ⟨_, hchecked⟩ := respects_validateExisting.of_ok h
  refine ⟨hm.real, ?_, fun a hseg hv => ?_, fun a ha hseg => ?_⟩
  · rw [hdevelops.rulesOf_eq]
    exact hrule
  · refine ht.checked a (mem_validated_of_validateExisting h (hseg ▸ hm.real) ?_ ?_) hseg
    · rw [hseg]
      exact List.ne_nil_of_mem hrule
    · rw [hchecked] at hv
      exact hv
  · obtain ⟨x, hx, -⟩ := ht.checked a ha hseg
    exact Option.isSome_of_eq_some hx

end Cairo.Memory
