import Cairo.Proofs.Builtin.Parts
import Cairo.Proofs.Instruction.Decoding
import Cairo.Run.Report

/-!
# Limits of the range of a run

A run needs some numbers to be in the range of 16 bits: the biased offsets of the instructions in
its trace, and the parts of the values in the segment of its range check (`Needs`).  Its limits are
the least and the greatest of them, although of the parts only the extremes are compared with the
offsets (`limitsOf_append_endsOf`).  There are limits unless nothing is needed
(`rangeLimits_isLeast_isGreatest`).
-/

namespace Cairo

/-- Two sets have the same least element if one is part of the other and goes as far down. -/
theorem isLeast_iff_of_subset {α : Type} [PartialOrder α] {A B : Set α} (hsub : A ⊆ B)
    (hdown : ∀ b ∈ B, ∃ a ∈ A, a ≤ b) {n : α} : IsLeast A n ↔ IsLeast B n := by
  constructor
  · rintro ⟨hn, hle⟩
    refine ⟨hsub hn, fun b hb => ?_⟩
    obtain ⟨a, ha, hab⟩ := hdown b hb
    exact (hle ha).trans hab
  · rintro ⟨hn, hle⟩
    obtain ⟨a, ha, han⟩ := hdown n hn
    obtain rfl := le_antisymm han (hle (hsub ha))
    exact ⟨ha, fun a' ha' => hle (hsub ha')⟩

namespace Run

variable {r : Run}

/-! ## The least and the greatest number -/

/-- The limits of numbers are the least and the greatest of them. -/
theorem limitsOf_eq_some {l : List Int} {lo hi : Int} :
    limitsOf l = some (lo, hi) ↔ IsLeast {n | n ∈ l} lo ∧ IsGreatest {n | n ∈ l} hi := by
  cases l with
  | nil => exact iff_of_false nofun fun h => List.not_mem_nil h.1.1
  | cons n rest => rw [limitsOf, Option.some.injEq, Prod.mk.injEq, foldl_min_max_iff]

/-- There are limits of numbers if there are numbers. -/
theorem limitsOf_eq_none {l : List Int} : limitsOf l = none ↔ l = [] := by
  cases l with
  | nil => exact iff_of_true rfl rfl
  | cons n rest => exact ⟨nofun, nofun⟩

/-- The extremes of numbers, if there are any. -/
def endsOf (parts : List Nat) : List Int :=
  match Builtin.extremes parts with
  | some (low, high) => [(low : Int), (high : Int)]
  | none => []

/-- The extremes of numbers count for the limits as the numbers do. -/
theorem limitsOf_append_endsOf (offsets : List Int) (parts : List Nat) :
    limitsOf (offsets ++ endsOf parts) = limitsOf (offsets ++ parts.map Nat.cast) := by
  unfold endsOf
  cases hextremes : Builtin.extremes parts with
  | none =>
    cases parts with
    | nil => rfl
    | cons n rest => cases hextremes
  | some ends =>
    obtain ⟨low, high⟩ := ends
    obtain ⟨⟨hlow, hleast⟩, ⟨hhigh, hgreatest⟩⟩ := Builtin.extremes_eq_some.mp hextremes
    have hends : ∀ n ∈ [(low : Int), (high : Int)], n ∈ parts.map Nat.cast :=
      List.forall_mem_cons.mpr ⟨List.mem_map.mpr ⟨low, hlow, rfl⟩,
        List.forall_mem_cons.mpr ⟨List.mem_map.mpr ⟨high, hhigh, rfl⟩, nofun⟩⟩
    have hsub : {n | n ∈ offsets ++ [(low : Int), (high : Int)]} ⊆
        {n | n ∈ offsets ++ parts.map Nat.cast} := by
      intro n hn
      rcases List.mem_append.mp hn with hn | hn
      · exact List.mem_append_left _ hn
      · exact List.mem_append_right _ (hends n hn)
    refine Option.ext fun limits => ?_
    obtain ⟨lo, hi⟩ := limits
    rw [limitsOf_eq_some, limitsOf_eq_some]
    -- The greatest number is the least one in the opposite order.
    refine and_congr (isLeast_iff_of_subset hsub fun n hn => ?_)
      (isLeast_iff_of_subset (α := Intᵒᵈ) hsub fun n hn => ?_)
    · rcases List.mem_append.mp hn with hn | hn
      · exact ⟨n, List.mem_append_left _ hn, le_refl n⟩
      · obtain ⟨p, hp, rfl⟩ := List.mem_map.mp hn
        exact ⟨low, List.mem_append_right _ List.mem_cons_self, Int.ofNat_le.mpr (hleast hp)⟩
    · rcases List.mem_append.mp hn with hn | hn
      · exact ⟨n, List.mem_append_left _ hn, le_refl n⟩
      · obtain ⟨p, hp, rfl⟩ := List.mem_map.mp hn
        have hhigh' : (high : Int) ∈ offsets ++ [(low : Int), (high : Int)] :=
          List.mem_append_right _ (List.mem_cons_of_mem _ List.mem_cons_self)
        exact ⟨(high : Int), hhigh', Int.ofNat_le.mpr (hgreatest hp)⟩

/-! ## The numbers that a run needs -/

/-- The number is a biased offset of an instruction in the trace. -/
def HasOffset (r : Run) (n : Int) : Prop :=
  ∃ rows row x i, r.machine.traceRows = .ok rows ∧ row ∈ rows ∧
    r.memory.readFelt row.pc = .ok x ∧ Instruction.decode x.val = .ok i ∧
    ∃ offset ∈ [i.off0, i.off1, i.off2], n = offset + 2 ^ 15

/-- The number is a part of a value in the segment of the range check. -/
def HasPart (r : Run) (n : Nat) : Prop :=
  ∃ b, r.builtin? BuiltinKind.rangeCheck.name = some b ∧ b.HasPart r.memory n

/-- The run needs the number to be in range. -/
def Needs (r : Run) (n : Int) : Prop := r.HasOffset n ∨ ∃ p : Nat, r.HasPart p ∧ n = p

/-- The run is traced, the instructions in its trace can be read, and its range check has a
segment if there is one. -/
structure Measurable (r : Run) : Prop where
  traced : ∃ rows, r.machine.traceRows = .ok rows ∧ ∀ row ∈ rows, ∃ x i,
    r.memory.readFelt row.pc = .ok x ∧ Instruction.decode x.val = .ok i
  allocated : ∀ b, r.builtin? BuiltinKind.rangeCheck.name = some b →
    ∃ i s, b.segment = some i ∧ r.memory.segment? i = some s

/-- What a run needs has 16 bits. -/
theorem Needs.bounds {n : Int} (h : r.Needs n) : 0 ≤ n ∧ n < 2 ^ 16 := by
  rcases h with ⟨_, _, x, i, -, -, -, hdecode, offset, hoffset, rfl⟩ | ⟨p, hpart, rfl⟩
  · have hi := Instruction.isEncodable_of_decode? (Instruction.decode_eq_ok.mp hdecode)
    have hbounds : Instruction.IsOffset offset := by
      simp only [List.mem_cons, List.not_mem_nil, or_false] at hoffset
      rcases hoffset with rfl | rfl | rfl
      · exact hi.off0
      · exact hi.off1
      · exact hi.off2
    obtain ⟨hlow, hhigh⟩ := hbounds
    omega
  · obtain ⟨_, -, _, _, x, k, -, -, -, -, rfl⟩ := hpart
    have := Builtin.part_lt x k
    omega

/-! ## The limits of a run -/

/-- The parts of the values of the range check, if there is one. -/
def checkedParts (r : Run) : Except Fault (List Nat) :=
  match r.builtin? BuiltinKind.rangeCheck.name with
  | some b => b.checkedParts r.memory
  | none => .ok []

/-- The limits of a run are those of all its offsets and parts. -/
theorem rangeLimits_eq_ok {limits : Option (Int × Int)} :
    r.rangeLimits = .ok limits ↔ ∃ rows offsets parts, r.machine.traceRows = .ok rows ∧
      rows.mapM (biasedOffsets r.memory) = .ok offsets ∧ r.checkedParts = .ok parts ∧
        limitsOf (offsets.flatten ++ parts.map Nat.cast) = limits := by
  simp only [← limitsOf_append_endsOf]
  unfold rangeLimits checkedParts
  cases r.builtin? BuiltinKind.rangeCheck.name with
  | none =>
    simp only [Answer.bind_eq_ok, Answer.pure_eq_ok, Except.ok.injEq, exists_eq_left',
      exists_and_left]
    rfl
  | some b =>
    simp only [Builtin.rangeCheckUsage, Answer.bind_eq_ok, Answer.pure_eq_ok,
      exists_exists_and_eq_and, exists_and_left]
    rfl

/-- The offsets of an instruction in the trace are found if it can be read. -/
theorem biasedOffsets_eq_ok {m : Memory} {row : Registers} {l : List Int} :
    biasedOffsets m row = .ok l ↔ ∃ x i, m.readFelt row.pc = .ok x ∧
      Instruction.decode x.val = .ok i ∧ [i.off0, i.off1, i.off2].map (· + 2 ^ 15) = l := by
  have hbias : ((Instruction.offsetBias : Nat) : Int) = 2 ^ 15 := rfl
  unfold biasedOffsets
  simp only [Answer.bind_eq_ok, Answer.pure_eq_ok, hbias, exists_and_left]

/-- The offsets that are found are those of the instructions in the trace. -/
theorem mem_offsets_iff {rows : List Registers} {offsets : List (List Int)} {n : Int}
    (hrows : r.machine.traceRows = .ok rows)
    (hoffsets : rows.mapM (biasedOffsets r.memory) = .ok offsets) :
    n ∈ offsets.flatten ↔ r.HasOffset n := by
  rw [List.mem_flatten]
  constructor
  · rintro ⟨l, hl, hn⟩
    obtain ⟨row, hrow, hl⟩ := Answer.exists_of_mem_mapM hoffsets hl
    obtain ⟨x, i, hx, hi, rfl⟩ := biasedOffsets_eq_ok.mp hl
    obtain ⟨offset, hoffset, rfl⟩ := List.mem_map.mp hn
    exact ⟨rows, row, x, i, hrows, hrow, hx, hi, offset, hoffset, rfl⟩
  · rintro ⟨rows', row, x, i, hrows', hrow, hx, hi, offset, hoffset, rfl⟩
    rw [hrows] at hrows'
    cases hrows'
    obtain ⟨l, hl, hmem⟩ := Answer.mem_of_mapM hoffsets hrow
    obtain ⟨x', i', hx', hi', rfl⟩ := biasedOffsets_eq_ok.mp hl
    rw [hx] at hx'
    cases hx'
    rw [hi] at hi'
    cases hi'
    exact ⟨_, hmem, List.mem_map_of_mem hoffset⟩

/-- The parts that are found are those of the values of the range check. -/
theorem checkedParts_ok {parts : List Nat} (h : r.checkedParts = .ok parts) :
    (∀ b, r.builtin? BuiltinKind.rangeCheck.name = some b →
      ∃ i s, b.segment = some i ∧ r.memory.segment? i = some s) ∧ ∀ n, n ∈ parts ↔ r.HasPart n := by
  unfold checkedParts at h
  unfold HasPart
  cases hb : r.builtin? BuiltinKind.rangeCheck.name with
  | none =>
    rw [hb] at h
    obtain rfl := Except.ok.inj h
    exact ⟨nofun, fun n => by simp⟩
  | some b =>
    rw [hb] at h
    obtain ⟨hsegment, hparts⟩ := Builtin.checkedParts_ok h
    refine ⟨?_, fun n => (hparts n).trans ⟨fun hn => ⟨b, rfl, hn⟩, ?_⟩⟩
    · rintro _ ⟨⟩
      exact hsegment
    · rintro ⟨_, ⟨⟩, hn⟩
      exact hn

/-- The parts are found if the range check has a segment. -/
theorem exists_checkedParts (h : ∀ b, r.builtin? BuiltinKind.rangeCheck.name = some b →
    ∃ i s, b.segment = some i ∧ r.memory.segment? i = some s) :
    ∃ parts, r.checkedParts = .ok parts := by
  unfold checkedParts
  cases hb : r.builtin? BuiltinKind.rangeCheck.name with
  | none => exact ⟨[], rfl⟩
  | some b =>
    obtain ⟨i, s, hi, hs⟩ := h b hb
    exact Builtin.exists_checkedParts hi hs

/-- The limits of a run that has some are those of the numbers that it needs. -/
theorem measurable_of_rangeLimits {limits : Option (Int × Int)} (h : r.rangeLimits = .ok limits) :
    r.Measurable ∧ ∃ numbers, limitsOf numbers = limits ∧ ∀ n, n ∈ numbers ↔ r.Needs n := by
  obtain ⟨rows, offsets, parts, hrows, hoffsets, hparts, hlimits⟩ := rangeLimits_eq_ok.mp h
  obtain ⟨hallocated, hmem⟩ := checkedParts_ok hparts
  refine ⟨⟨⟨rows, hrows, fun row hrow => ?_⟩, hallocated⟩, _, hlimits, fun n => ?_⟩
  · obtain ⟨l, hl, -⟩ := Answer.mem_of_mapM hoffsets hrow
    obtain ⟨x, i, hx, hi, -⟩ := biasedOffsets_eq_ok.mp hl
    exact ⟨x, i, hx, hi⟩
  · rw [List.mem_append, mem_offsets_iff hrows hoffsets, List.mem_map]
    simp only [hmem, eq_comm (b := n)]
    rfl

/-- A run has limits if it is measurable. -/
theorem exists_rangeLimits : (∃ limits, r.rangeLimits = .ok limits) ↔ r.Measurable := by
  constructor
  · rintro ⟨limits, h⟩
    exact (measurable_of_rangeLimits h).1
  · rintro ⟨⟨rows, hrows, hread⟩, hallocated⟩
    have hanswers : ∀ row ∈ rows, ∃ l, biasedOffsets r.memory row = .ok l := by
      intro row hrow
      obtain ⟨x, i, hx, hi⟩ := hread row hrow
      exact ⟨_, biasedOffsets_eq_ok.mpr ⟨x, i, hx, hi, rfl⟩⟩
    obtain ⟨offsets, hoffsets⟩ := Answer.exists_mapM_ok hanswers
    obtain ⟨parts, hparts⟩ := exists_checkedParts hallocated
    exact ⟨_, rangeLimits_eq_ok.mpr ⟨rows, offsets, parts, hrows, hoffsets, hparts, rfl⟩⟩

/-- A run that can be measured needs no number just if it has no rows in its trace and no parts to
check. -/
theorem Measurable.needs_nothing_iff (h : r.Measurable) :
    (∀ n, ¬ r.Needs n) ↔ r.machine.traceRows = .ok [] ∧ ∀ p, ¬ r.HasPart p := by
  obtain ⟨rows, hrows, hread⟩ := h.traced
  constructor
  · intro hnone
    refine ⟨?_, fun p hp => hnone p (.inr ⟨p, hp, rfl⟩)⟩
    cases rows with
    | nil => exact hrows
    | cons row rest =>
      obtain ⟨x, i, hx, hi⟩ := hread row List.mem_cons_self
      exact absurd (.inl ⟨_, row, x, i, hrows, List.mem_cons_self, hx, hi, i.off0,
        List.mem_cons_self, rfl⟩) (hnone (i.off0 + 2 ^ 15))
  · rintro ⟨hempty, hparts⟩ n (⟨_, row, _, _, hrows', hrow, -⟩ | ⟨p, hp, -⟩)
    · rw [hempty] at hrows'
      cases hrows'
      cases hrow
    · exact hparts p hp

/-- The limits of a run are the least and the greatest number that it needs, and have 16 bits.  They
are found if the run is traced, its instructions can be read and its range check has a segment, and
there are none just if no step is traced and there is no part to check.  A value of the range check
that passes its check is made up of the parts that are needed of it. -/
theorem rangeLimits_isLeast_isGreatest (r : Run) :
    ((∃ limits, r.rangeLimits = .ok limits) ↔ r.Measurable) ∧
    (∀ lo hi, r.rangeLimits = .ok (some (lo, hi)) → 0 ≤ lo ∧ lo ≤ hi ∧ hi < 2 ^ 16 ∧
      IsLeast {n | r.Needs n} lo ∧ IsGreatest {n | r.Needs n} hi) ∧
    (r.rangeLimits = .ok none ↔
      r.Measurable ∧ r.machine.traceRows = .ok [] ∧ ∀ p, ¬ r.HasPart p) ∧
    ∀ b (a : Address), r.builtin? BuiltinKind.rangeCheck.name = some b →
      b.segment = some a.segment → Memory.checkRule b.rangeRule r.memory a = .ok () →
        ∃ x, r.memory.get? a = some (.felt x) ∧ (∀ k < b.parts, r.HasPart (Builtin.part x k)) ∧
          ∑ k ∈ Finset.range b.parts, Builtin.part x k * 2 ^ (16 * k) = x.val := by
  refine ⟨exists_rangeLimits, fun lo hi h => ?_, ⟨fun h => ?_, ?_⟩, fun b a hb ha h => ?_⟩
  · obtain ⟨-, numbers, hlimits, hneeds⟩ := measurable_of_rangeLimits h
    obtain ⟨hleast, hgreatest⟩ := limitsOf_eq_some.mp hlimits
    simp only [hneeds] at hleast hgreatest
    have hlow : r.Needs lo := hleast.1
    have hhigh : r.Needs hi := hgreatest.1
    exact ⟨hlow.bounds.1, hleast.2 hhigh, hhigh.bounds.2, hleast, hgreatest⟩
  · obtain ⟨hmeasurable, numbers, hlimits, hneeds⟩ := measurable_of_rangeLimits h
    obtain rfl := limitsOf_eq_none.mp hlimits
    refine ⟨hmeasurable, hmeasurable.needs_nothing_iff.mp fun n hn => ?_⟩
    exact List.not_mem_nil ((hneeds n).mpr hn)
  · rintro ⟨hmeasurable, hnothing⟩
    obtain ⟨limits, h⟩ := exists_rangeLimits.mpr hmeasurable
    obtain ⟨-, numbers, hlimits, hneeds⟩ := measurable_of_rangeLimits h
    have hnone := hmeasurable.needs_nothing_iff.mpr hnothing
    obtain rfl : numbers = [] :=
      List.eq_nil_iff_forall_not_mem.mpr fun n hn => hnone n ((hneeds n).mp hn)
    obtain rfl := (limitsOf_eq_none.mpr rfl).symm.trans hlimits
    exact h
  · obtain ⟨x, hx, hsum⟩ := Builtin.sum_part_of_checkRule h
    exact ⟨x, hx, fun k hk => ⟨b, hb, Builtin.hasPart_of_get? ha hx hk⟩, hsum⟩

end Run

end Cairo
