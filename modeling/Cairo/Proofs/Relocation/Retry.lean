import Cairo.Proofs.Relocation.Allocation
import Cairo.Proofs.Relocation.Repeating

/-!
# Relocating again

When relocating fails because the segment of a destination is not allocated, it has dealt with some
of the segments.  If the segment is allocated then and relocating is tried again, the stages that
have succeeded have nothing left to do, and the others go on as if the segment had been there from
the start: no cell is lost, and none is moved twice.  Only the marks of the segment that could not
be moved are gone, since they are taken from the memory before its cells are moved
(`isRetry_of_unallocated`).
-/

namespace Cairo.Memory

variable {rules : Relocations} {m t u : Memory} {i s : Int} {size : Nat} {calls : List Call}

/-! ## Without the marks of a segment -/

/-- Marks may be taken away before segments are allocated, or afterwards. -/
theorem afterCalls_unmarked (hcalls : ∀ c ∈ calls, c.isAllocation) (m : Memory) (s : Int) :
    (m.unmarked s).afterCalls calls = (m.afterCalls calls).unmarked s := by
  obtain ⟨p, q, hgrows⟩ := grows_afterCalls hcalls
  obtain ⟨hfirst, hmarks⟩ := hgrows (m.unmarked s)
  obtain ⟨hlast, hmarks'⟩ := hgrows m
  refine (hfirst.marked (marked_of_unmarked m s) (refl _)).unique
    (hlast.marked (refl m) ⟨_, rfl⟩) ?_
  rw [hmarks, unmarked, unmarked, hmarks']

/-- If the marks of a segment that is moved are taken away, they are not found at the new addresses
of its cells either, and all other marks are as before. -/
theorem mem_accessed_relocate_unmarked {t' : Memory} (hacyclic : Acyclic m.relocations)
    (hs : IsMoved m.relocations s) (hsome : (m.segment? s).isSome) (h : relocate m = .ok () t)
    (h' : relocate (m.unmarked s) = .ok () t') (b : Address) :
    b ∈ t.accessed ↔ b ∈ t'.accessed ∨ ∃ a v, a ∈ m.accessed ∧ a.segment = s ∧
      m.get? a = some v ∧ EndsAt m.relocations a b := by
  obtain ⟨rules, hresolve, hrules, -⟩ := isRelocated_of_relocate hacyclic h
  have hvacated : Vacated rules m.temporaries.size s :=
    ⟨(isMoved_resolve_iff hresolve s).mpr hs, (isSome_segment?_iff_of_neg hs.1).mp hsome⟩
  have hmarks := (vacating_of_relocate hresolve hrules h).1.marked b
  have hmarks' : b ∈ t'.accessed ↔
      (b ∈ (m.unmarked s).accessed ∧ ¬ Vacated rules m.temporaries.size b.segment) ∨
      ∃ a v, a ∈ (m.unmarked s).accessed ∧ Vacated rules m.temporaries.size a.segment ∧
        m.get? a = some v ∧ relocateAddress rules a = .ok b :=
    (vacating_of_relocate (m := m.unmarked s) hresolve hrules h').1.marked b
  simp only [mem_accessed_unmarked] at hmarks'
  simp only [endsAt_iff hacyclic hresolve]
  rw [hmarks, hmarks']
  constructor
  · rintro (⟨hb, hstays⟩ | ⟨a, v, ha, hvac, hv, hab⟩)
    · refine .inl (.inl ⟨⟨hb, ?_⟩, hstays⟩)
      rintro rfl
      exact hstays hvacated
    · by_cases hseg : a.segment = s
      · exact .inr ⟨a, v, ha, hseg, hv, hab⟩
      · exact .inl (.inr ⟨a, v, ⟨ha, hseg⟩, hvac, hv, hab⟩)
  · rintro ((⟨⟨hb, -⟩, hstays⟩ | ⟨a, v, ⟨ha, -⟩, hvac, hv, hab⟩) | ⟨a, v, ha, rfl, hv, hab⟩)
    · exact .inl ⟨hb, hstays⟩
    · exact .inr ⟨a, v, ha, hvac, hv, hab⟩
    · exact .inr ⟨a, v, ha, hvacated, hv, hab⟩

/-! ## Trying again -/

/-- Relocating the second memory repeats relocating the first one, but that the marks of a segment
are gone. -/
structure IsRetry (s : Int) (m u : Memory) : Prop where
  /-- It ends as if the segment had never had marks. -/
  run : relocate u = relocate (m.unmarked s)
  /-- It succeeds or fails alike. -/
  answer : relocate.answer u = relocate.answer m
  /-- All that it leaves is the same, but the marks. -/
  rest : (relocate.after m).Marked (relocate.after u)
  /-- It lacks the marks of the cells of the segment at their new addresses, and no others. -/
  marks : ∀ t, relocate m = .ok () t → ∀ b, b ∈ t.accessed ↔ b ∈ (relocate.after u).accessed ∨
    ∃ a v, a ∈ m.accessed ∧ a.segment = s ∧ m.get? a = some v ∧ EndsAt m.relocations a b
  /-- So nothing is different if the segment has no marks. -/
  unmarked : (∀ b ∈ m.accessed, b.segment ≠ s) → relocate u = relocate m

/-- What ends as if a segment had never had marks is the same but for these marks. -/
theorem isRetry_of_unmarked (hacyclic : Acyclic m.relocations) (hs : IsMoved m.relocations s)
    (hsome : (m.segment? s).isSome) (h : relocate u = relocate (m.unmarked s)) :
    IsRetry s m u := by
  have hmirrors : EndAlike 0 0 (relocate m) (relocate u) := by
    rw [h]
    exact mirrors_relocate (.of_marked ⟨_, rfl⟩)
  have hnone : ∀ e, ¬ IsMended 0 0 e := fun e he => he.1 rfl
  have hanswer := hmirrors.answer_eq hnone
  refine ⟨h, hanswer, (hmirrors.rel_after hnone).to_marked, fun t ht b => ?_, fun hunmarked => ?_⟩
  · obtain ⟨t', ht', -⟩ := Action.Mirrors.exists_ok (ht ▸ hmirrors)
    rw [Action.after_of_ok ht']
    exact mem_accessed_relocate_unmarked hacyclic hs hsome ht (h.symm.trans ht') b
  · rw [h, unmarked_of_forall hunmarked]

/-- The first stages may come before the marks of a segment that is still to be moved are taken away
and segments are allocated, or after it. -/
theorem relocateFirst_unmarked {n : Nat} (hrules : Resolved rules) (hmoved : IsMoved rules s)
    (hs : s < -(n : Int)) (h : relocateFirst rules n m = .ok () u)
    (hcalls : ∀ c ∈ calls, c.isAllocation) :
    relocateFirst rules n ((m.unmarked s).afterCalls calls) =
      .ok () ((u.unmarked s).afterCalls calls) := by
  obtain ⟨p, q, hgrows⟩ := grows_afterCalls hcalls
  obtain ⟨hstart, hmarks⟩ := hgrows (m.unmarked s)
  obtain ⟨hend, hmarks'⟩ := hgrows (u.unmarked s)
  have hmirrors : EndAlike p q (relocateFirst rules n m) _ :=
    mirrors_relocateFirst (hstart.marked (marked_of_unmarked m s) (refl _)) n
  rw [h] at hmirrors
  obtain ⟨y, hy, hgrow⟩ := hmirrors.exists_ok
  have hcells : ∀ a, ((m.unmarked s).afterCalls calls).get? a = m.get? a := hstart.get?_eq
  have hlater : ∀ i, Vacated rules n i → i ≠ s := by
    rintro i ⟨-, hi⟩ rfl
    omega
  have hsame : y = (u.unmarked s).afterCalls calls := by
    refine hgrow.unique (hend.marked (marked_of_unmarked u s) (refl _))
      (Std.ExtTreeSet.ext_mem fun b => ?_)
    rw [hmarks', mem_accessed_unmarked, (stage_of_relocateFirst hrules hy).2.marked,
      (stage_of_relocateFirst hrules h).2.marked, hmarks]
    simp only [mem_accessed_unmarked, hcells]
    constructor
    · rintro (⟨⟨hb, hseg⟩, hstays⟩ | ⟨a, v, ⟨ha, -⟩, hvac, hv, hab⟩)
      · exact ⟨.inl ⟨hb, hstays⟩, hseg⟩
      · refine ⟨.inr ⟨a, v, ha, hvac, hv, hab⟩, ?_⟩
        rintro rfl
        exact not_isMoved_of_relocateAddress hrules hab hmoved
    · rintro ⟨⟨hb, hstays⟩ | ⟨a, v, ha, hvac, hv, hab⟩, hseg⟩
      · exact .inl ⟨⟨hb, hseg⟩, hstays⟩
      · exact .inr ⟨a, v, ⟨ha, hlater _ hvac⟩, hvac, hv, hab⟩
  rw [hy, hsame]

/-- Relocating fails in the stage for a temporary segment, since the segment that its cells are to
be moved to is not allocated. -/
structure FailsAt (rules : Relocations) (n : Nat) (i : Int) (m u : Memory) : Prop where
  resolves : m.relocations ≠ [] ∧ resolve m.relocations = .ok rules
  isMoved : n < m.temporaries.size ∧ IsMoved rules (Int.negSucc n)
  missing : m.segment? i = none
  /-- There is a cell that is to be moved to the segment. -/
  cell : ∃ a v b, a.segment = Int.negSucc n ∧ m.get? a = some v ∧ EndsAt m.relocations a b ∧
    b.segment = i
  /-- The stages before have succeeded, and then the marks were taken away. -/
  stages : ∃ v, relocateFirst rules n m = .ok () v ∧ u = v.unmarked (Int.negSucc n)

/-- Where relocating finds a segment missing, it fails in one of the stages. -/
theorem failsAt_of_unallocated (hacyclic : Acyclic m.relocations)
    (h : relocate m = .error (.unallocatedSegment i size) u) :
    ∃ rules n, FailsAt rules n i m u := by
  obtain ⟨hsome, rules, hresolve, hrelocate⟩ := relocate_unallocated h
  have hrules := resolved_of_resolve hacyclic hresolve
  obtain ⟨n, v, dst, hn, hfirst, hdst, hu, hmissing, rfl, a, w, b, hseg, hw, hb⟩ :=
    relocateBy_unallocated hrelocate
  obtain ⟨hcells, hvacating⟩ := stage_of_relocateFirst hrules hfirst
  have hmoved : IsMoved rules (Int.negSucc n) := ⟨Int.negSucc_lt_zero n, dst, hdst⟩
  -- What the stage finds in the memory was there from the start.
  have hw₀ : m.get? a = some w :=
    (hcells.get?_eq_some_iff hrules (hseg ▸ hmoved) (by omega) w).mp hw
  have hmissing₀ : m.segment? dst.segment = none := by
    have hsame := hvacating.allocated dst.segment
    rw [hmissing] at hsame
    exact Option.not_isSome_iff_eq_none.mp (Bool.eq_false_iff.mp hsame.symm)
  have hend : EndsAt m.relocations a b := by
    rw [endsAt_iff hacyclic hresolve, relocateAddress_of_lookup (hseg ▸ hmoved.1) (hseg ▸ hdst)]
    exact hb
  exact ⟨rules, n, ⟨hsome, hresolve⟩, ⟨hn, hmoved⟩, hmissing₀,
    ⟨a, w, b, hseg, hw₀, hend, (Address.shift_eq_ok.mp hb).1⟩, v, hfirst, hu⟩

/-- When segments are allocated, relocating ends as if this had been done before, and the marks had
been taken away before, too. -/
theorem FailsAt.relocate_eq {n : Nat} (hacyclic : Acyclic m.relocations)
    (h : FailsAt rules n i m u) (hcalls : ∀ c ∈ calls, c.isAllocation) :
    relocate (u.afterCalls calls) = relocate ((m.unmarked (Int.negSucc n)).afterCalls calls) := by
  obtain ⟨⟨hsome, hresolve⟩, ⟨hn, hmoved⟩, -, -, v, hfirst, rfl⟩ := h
  have hrules := resolved_of_resolve hacyclic hresolve
  -- Both runs relocate by the same rules, and meet after the stages that have succeeded.
  have hmeet := relocateFirst_unmarked hrules hmoved (by omega) hfirst hcalls
  obtain ⟨p, q, hgrows⟩ := grows_afterCalls hcalls
  have hgrow := (hgrows (m.unmarked (Int.negSucc n))).1
  have hrelocations := hgrow.relocations
  have hkept := (sameRelocations_relocateFirst rules n).of_ok hmeet
  have hresolves : ∀ {t}, t.relocations = m.relocations → relocate t = relocateBy rules t :=
    fun ht => relocate_eq_relocateBy (ht ▸ hresolve) (ht ▸ hsome)
  have hsize : ((m.unmarked (Int.negSucc n)).afterCalls calls).temporaries.size =
      n + (m.temporaries.size - n + q) := by
    rw [hgrow.temporaries]
    show m.temporaries.size + q = _
    omega
  rw [hresolves hrelocations, hresolves (hkept.trans hrelocations)]
  exact relocateBy_eq_of_relocateFirst hrules hsize hmeet

/-- If relocating fails because the segment of a destination is not allocated, some cell of a
segment that is moved is to go there.  When segments are allocated, whichever they are, and
relocating is tried again, it ends as it would have if they had been allocated before, but that the
marks of the segment with this cell are gone. -/
theorem isRetry_of_unallocated (hacyclic : Acyclic m.relocations)
    (h : relocate m = .error (.unallocatedSegment i size) u) :
    ∃ s, IsMoved m.relocations s ∧ m.segment? i = none ∧
      (∃ a v b, a.segment = s ∧ m.get? a = some v ∧ EndsAt m.relocations a b ∧ b.segment = i) ∧
      ∀ calls : List Call, (∀ c ∈ calls, c.isAllocation) →
        IsRetry s (m.afterCalls calls) (u.afterCalls calls) := by
  obtain ⟨rules, n, hfails⟩ := failsAt_of_unallocated hacyclic h
  have hmoved := (isMoved_resolve_iff hfails.resolves.2 _).mp hfails.isMoved.2
  refine ⟨Int.negSucc n, hmoved, hfails.missing, hfails.cell, fun calls hcalls => ?_⟩
  obtain ⟨p, q, hgrows⟩ := grows_afterCalls hcalls
  have hgrow := (hgrows m).1
  have hrelocations : (m.afterCalls calls).relocations = m.relocations := hgrow.relocations
  have hsegment : ((m.afterCalls calls).segment? (Int.negSucc n)).isSome := by
    obtain ⟨a, v, -, hseg, hv, -⟩ := hfails.cell
    obtain ⟨s, hs, -⟩ := segment?_of_get? hv
    exact Option.isSome_of_eq_some (hgrow.kept _ s (hseg ▸ hs))
  refine isRetry_of_unmarked (hrelocations ▸ hacyclic) (hrelocations ▸ hmoved) hsegment ?_
  rw [← afterCalls_unmarked hcalls, hfails.relocate_eq hacyclic hcalls]

/-- A memory with two temporary segments, each with a marked cell.  The destination of the first one
is allocated, that of the second one is not. -/
def unplaced : Memory :=
  { empty with
    segments := #[#[]]
    temporaries := #[#[some (.felt 10)], #[some (.address (.base (-1)))]]
    relocations := [(-1, .base 0), (-2, .base 1)]
    accessed := ((∅ : AddressSet).insert (.base (-1))).insert (.base (-2)) }

/-- Both segments are moved to real ones. -/
theorem acyclic_unplaced : Acyclic unplaced.relocations := acyclic_of_forall_real (by decide)

/-- Relocating this memory fails, and is tried again with another segment. -/
theorem isRetry_of_unallocated_unplaced :
    ∃ u s, relocate unplaced = .error (.unallocatedSegment 1 1) u ∧
      IsRetry s (unplaced.afterCalls [.addSegment]) (u.afterCalls [.addSegment]) := by
  have hrun : relocate unplaced = .error (.unallocatedSegment 1 1) (relocate.after unplaced) := rfl
  obtain ⟨s, -, -, -, hretry⟩ := isRetry_of_unallocated acyclic_unplaced hrun
  exact ⟨_, s, hrun, hretry [.addSegment] (by decide)⟩

/-- The second try succeeds and moves the marked cell of the second segment, but not its mark, which
is moved if the segment is allocated before. -/
theorem exists_lost_mark_unplaced :
    Acyclic unplaced.relocations ∧
      ∃ u t t', relocate unplaced = .error (.unallocatedSegment 1 1) u ∧
        relocate (unplaced.afterCalls [.addSegment]) = .ok () t ∧
          relocate (u.afterCalls [.addSegment]) = .ok () t' ∧
            t'.get? (.base 1) = t.get? (.base 1) ∧
              Address.base 1 ∈ t.accessed ∧ Address.base 1 ∉ t'.accessed :=
  ⟨acyclic_unplaced, _, _, _, rfl, Action.eq_ok_of_isOk (by decide +kernel),
    Action.eq_ok_of_isOk (by decide +kernel), by decide +kernel, by decide +kernel,
    by decide +kernel⟩

end Cairo.Memory
