import Cairo.Proofs.Relocation.Chains
import Cairo.Proofs.Relocation.Loop

/-!
# Relocation is a renaming

`IsRenaming` says what relocating makes of a memory, in terms of its rules alone: the cells that are
written afterwards are the images of those written before, with the values renamed; the segments
that are moved are left empty, and no address points to them; the marks of their cells have moved
along.  For the cells this is the invariant `Relocating` of the loop over the temporary segments.
Segments and marks have an invariant of their own, `Vacating`, which reads off the cells from the
first one.
-/

namespace Cairo.Memory

variable {rules : Relocations}

/-! ## Moving marks -/

/-- What moving the cells of a segment, from an offset on and for a number of rounds, does to the
segments and the marks. -/
structure MovesMarks (i : Int) (dst : Address) (marks : AddressSet) (start stop : Nat)
    (m t : Memory) : Prop where
  /-- The segment of the destination is the only one that changes. -/
  touches : Touches (· = dst.segment) m t
  /-- The marks of the cells are added at the destination. -/
  marked : ∀ b, b ∈ t.accessed ↔ b ∈ m.accessed ∨ ∃ a v, a ∈ marks ∧ a.segment = i ∧
    start ≤ a.offset ∧ a.offset < stop ∧ m.get? a = some v ∧ dst.shift a.offset = .ok b

namespace MovesMarks

variable {i : Int} {dst : Address} {marks : AddressSet} {start stop : Nat} {m t u : Memory}

/-- No marks are moved where the segment has no cells. -/
theorem none (h : ∀ a, a.segment = i → start ≤ a.offset → a.offset < stop → m.get? a = none) :
    MovesMarks i dst marks start stop m m := by
  refine ⟨refl m, fun b => ⟨.inl, ?_⟩⟩
  rintro (hb | ⟨a, v, -, hseg, hstart, hstop, hv, -⟩)
  · exact hb
  · rw [h a hseg hstart hstop] at hv
    cases hv

/-- Moving the mark of the first cell of a range, and then those of the others. -/
theorem cons (hdst : dst.segment ≠ i) (hlt : start < stop)
    (hfirst : MovesMarks i dst marks start (start + 1) m t)
    (hrest : MovesMarks i dst marks (start + 1) stop t u) :
    MovesMarks i dst marks start stop m u := by
  refine ⟨IsTrans.trans _ _ _ hfirst.touches hrest.touches, fun b => ?_⟩
  have hsource : ∀ a : Address, a.segment = i → t.get? a = m.get? a := by
    rintro a rfl
    exact hfirst.touches.get?_eq hdst.symm
  rw [hrest.marked, hfirst.marked, or_assoc]
  refine or_congr_right ⟨?_, ?_⟩
  · rintro (⟨a, v, ha, hseg, hstart, hstop, hv⟩ | ⟨a, v, ha, hseg, hstart, hstop, hv⟩)
    · exact ⟨a, v, ha, hseg, hstart, by omega, hv⟩
    · rw [hsource a hseg] at hv
      exact ⟨a, v, ha, hseg, by omega, hstop, hv⟩
  · rintro ⟨a, v, ha, hseg, hstart, hstop, hv⟩
    rcases Nat.eq_or_lt_of_le hstart with heq | hgt
    · exact .inl ⟨a, v, ha, hseg, hstart, by omega, hv⟩
    · rw [← hsource a hseg] at hv
      exact .inr ⟨a, v, ha, hseg, hgt, hstop, hv⟩

end MovesMarks

/-- Moving a cell moves its mark, if it has one. -/
theorem movesMarks_moveCell {i : Int} {dst a : Address} {marks : AddressSet} {v : Value}
    {m t : Memory} (ha : a.segment = i) (hv : m.get? a = some v)
    (h : moveCell rules dst (marks.contains a) a.offset v m = .ok () t) :
    MovesMarks i dst marks a.offset (a.offset + 1) m t := by
  unfold moveCell at h
  obtain ⟨b, _, hlift, h⟩ := Action.bind_eq_ok.mp h
  obtain ⟨hb, rfl⟩ := Action.lift_eq_ok.mp hlift
  obtain ⟨w, _, hlift, h⟩ := Action.bind_eq_ok.mp h
  obtain ⟨-, rfl⟩ := Action.lift_eq_ok.mp hlift
  obtain ⟨_, u, hinsert, h⟩ := Action.bind_eq_ok.mp h
  have htouches : m.Touches (· = dst.segment) u := by
    have hu := (touches_insert b w).of_ok hinsert
    rwa [(Address.shift_eq_ok.mp hb).1] at hu
  have hmarks : u.accessed = m.accessed := (sameMarks_insert b w).of_ok hinsert
  -- The range has no other cell than this one.
  have honly : ∀ c, (∃ d x, d ∈ marks ∧ d.segment = i ∧ a.offset ≤ d.offset ∧
      d.offset < a.offset + 1 ∧ m.get? d = some x ∧ dst.shift d.offset = .ok c) ↔
      a ∈ marks ∧ c = b := by
    intro c
    constructor
    · rintro ⟨d, x, hd, hseg, hstart, hstop, -, hc⟩
      obtain rfl : d = a := Address.ext (hseg.trans ha.symm) (by omega)
      exact ⟨hd, Except.ok.inj (hc.symm.trans hb)⟩
    · rintro ⟨hmem, rfl⟩
      exact ⟨a, v, hmem, ha, Nat.le_refl _, Nat.lt_succ_self _, hv, hb⟩
  by_cases hmem : a ∈ marks
  · rw [Std.ExtTreeSet.contains_iff_mem.mpr hmem] at h
    obtain rfl := Action.modify_eq_ok.mp h
    refine ⟨⟨htouches.allocated, htouches.others⟩, fun c => ?_⟩
    rw [honly c, markAccessed, Std.ExtTreeSet.mem_insert, Address.compare_eq_iff, hmarks]
    simp only [hmem, true_and]
    rw [or_comm, eq_comm]
  · rw [Bool.eq_false_iff.mpr (mt Std.ExtTreeSet.contains_iff_mem.mp hmem)] at h
    obtain ⟨-, rfl⟩ := Action.pure_eq_ok.mp h
    refine ⟨htouches, fun c => ?_⟩
    rw [honly c, hmarks]
    simp only [hmem, false_and, or_false]

/-- Moving a segment takes the marks of its written cells to the destination and leaves no others
in the segment, which is empty afterwards. -/
theorem moveSegment_marks {i : Int} {dst : Address} {m t : Memory} (hdst : dst.segment ≠ i)
    (h : moveSegment rules i dst m = .ok () t) :
    Touches (fun j => j = i ∨ j = dst.segment) m t ∧
      t.segment? i = (m.segment? i).map (fun _ => #[]) ∧
      ∀ b, b ∈ t.accessed ↔ (b ∈ m.accessed ∧ b.segment ≠ i) ∨
        ∃ a v, a ∈ m.accessed ∧ a.segment = i ∧ m.get? a = some v ∧ dst.shift a.offset = .ok b := by
  obtain ⟨rounds, u, hrounds, hcells, rfl⟩ := moveSegment_inv h
  have hmoves : MovesMarks i dst m.accessed 0 (0 + rounds) _ u :=
    moveCells_induction .none movesMarks_moveCell (.cons hdst) hcells
  have hfirst : Touches (fun j => j = i ∨ j = dst.segment) m u :=
    Touches.mono ⟨hmoves.touches.allocated, hmoves.touches.others⟩ fun _ => .inr
  have hlast := (touches_modifySegment u i fun _ => #[]).mono
    (Q := fun j => j = i ∨ j = dst.segment) fun _ => .inl
  refine ⟨IsTrans.trans _ _ _ hfirst hlast, ?_, fun b => ?_⟩
  · rw [segment?_modifySegment, if_pos rfl, hmoves.touches.others i hdst.symm]
    rfl
  · rw [sameMarks_modifySegment, hmoves.marked, Std.ExtTreeSet.mem_filter]
    refine or_congr ⟨?_, ?_⟩ (exists₂_congr fun a v => ?_)
    · rintro ⟨hb, hseg⟩
      exact ⟨hb, by simpa using hseg⟩
    · rintro ⟨hb, hseg⟩
      exact ⟨hb, by simpa using hseg⟩
    · have hlt : a.offset < 0 + rounds := by
        have := a.offset_lt
        omega
      simp only [Nat.zero_le, hlt, true_and]
      exact Iff.rfl

/-! ## The loop over the temporary segments -/

/-- The loop is done with a segment that is moved when it counts `n`. -/
def Vacated (rules : Relocations) (n : Nat) (i : Int) : Prop := IsMoved rules i ∧ -(n : Int) ≤ i

/-- The segments that are moved, up to the one that is counted as `n`, are empty, and the marks of
their cells have moved along. -/
structure Vacating (rules : Relocations) (m₀ : Memory) (n : Nat) (m : Memory) : Prop where
  /-- The same segments are allocated. -/
  allocated : ∀ i, (m.segment? i).isSome = (m₀.segment? i).isSome
  /-- The segments that the loop is done with are empty. -/
  emptied : ∀ i, Vacated rules n i → (m₀.segment? i).isSome → m.segment? i = some #[]
  /-- Their marks are at the new addresses of their cells, and the others are where they were. -/
  marked : ∀ b, b ∈ m.accessed ↔ (b ∈ m₀.accessed ∧ ¬ Vacated rules n b.segment) ∨
    ∃ a v, a ∈ m₀.accessed ∧ Vacated rules n a.segment ∧ m₀.get? a = some v ∧
      relocateAddress rules a = .ok b

/-- A segment that is not moved needs no vacating. -/
theorem vacated_succ_iff_of_not_isMoved {n : Nat} (hn : ¬ IsMoved rules (Int.negSucc n)) (i : Int) :
    Vacated rules (n + 1) i ↔ Vacated rules n i := by
  refine and_congr_right fun hmoved => ?_
  have hne : i ≠ Int.negSucc n := by
    rintro rfl
    exact hn hmoved
  omega

/-- A segment that is moved is vacated when the loop is done with it. -/
theorem vacated_succ_iff_of_isMoved {n : Nat} (hn : IsMoved rules (Int.negSucc n)) (i : Int) :
    Vacated rules (n + 1) i ↔ Vacated rules n i ∨ i = Int.negSucc n := by
  constructor
  · rintro ⟨hmoved, hi⟩
    by_cases heq : i = Int.negSucc n
    · exact .inr heq
    · exact .inl ⟨hmoved, by omega⟩
  · rintro (⟨hmoved, hi⟩ | rfl)
    · exact ⟨hmoved, by omega⟩
    · exact ⟨hn, by omega⟩

/-- Renaming the real segments starts the loop. -/
theorem vacating_renameReal {m t : Memory} (h : renameReal rules m = .ok () t) :
    Vacating rules m 0 t := by
  have hnone : ∀ i, ¬ Vacated rules 0 i := fun i hi => by
    have hneg := hi.1.1
    have hle := hi.2
    omega
  have hmarks : m.SameMarks t :=
    (respects_renameReal fun m n f _ => sameMarks_modifySegment m n f).of_ok h
  refine ⟨(touches_renameReal.of_ok h).allocated, fun i hi => absurd hi (hnone i), fun b => ?_⟩
  rw [hmarks]
  constructor
  · exact fun hb => .inl ⟨hb, hnone _⟩
  · rintro (⟨hb, -⟩ | ⟨a, v, -, ha, -⟩)
    · exact hb
    · exact absurd ha (hnone _)

/-- Renaming in a segment that is not moved vacates nothing. -/
theorem Vacating.rename {m₀ m t : Memory} {n : Nat} (hn : ¬ IsMoved rules (Int.negSucc n))
    (hm : Vacating rules m₀ n m) (h : renameSegment rules (Int.negSucc n) m = .ok () t) :
    Vacating rules m₀ (n + 1) t := by
  have htouches := (touches_renameSegment (Int.negSucc n)).of_ok h
  have hmarks : m.SameMarks t :=
    (respects_renameSegment fun m f _ => sameMarks_modifySegment m _ f).of_ok h
  refine ⟨fun i => (htouches.allocated i).trans (hm.allocated i), fun i hi hsome => ?_, fun b => ?_⟩
  · have hne : i ≠ Int.negSucc n := by
      rintro rfl
      exact hn hi.1
    rw [htouches.others i hne]
    exact hm.emptied i ((vacated_succ_iff_of_not_isMoved hn i).mp hi) hsome
  · rw [hmarks, hm.marked]
    simp only [vacated_succ_iff_of_not_isMoved hn]

/-- The cells of a segment that is still to be moved are those of the first memory. -/
theorem Relocating.get?_eq_some_iff (hrules : Resolved rules) {m₀ m : Memory} {n : Nat}
    (hm : Relocating rules m₀ n m) {a : Address} (hmoved : IsMoved rules a.segment)
    (ha : a.segment < -(n : Int)) (v : Value) : m.get? a = some v ↔ m₀.get? a = some v := by
  constructor
  · intro hv
    rcases hm.origin a v hv with ⟨-, hv₀⟩ | ⟨c, w, -, -, hca, -⟩
    · exact hv₀
    · exact absurd hmoved (not_isMoved_of_relocateAddress hrules hca)
  · exact fun hv => hm.waiting a v hv ha

/-- Moving a segment vacates it. -/
theorem Vacating.move (hrules : Resolved rules) {m₀ m t : Memory} {n : Nat} {dst : Address}
    (hdst : rules.lookup (Int.negSucc n) = some dst) (hcells : Relocating rules m₀ n m)
    (hm : Vacating rules m₀ n m) (h : moveSegment rules (Int.negSucc n) dst m = .ok () t) :
    Vacating rules m₀ (n + 1) t := by
  have hmoved : IsMoved rules (Int.negSucc n) := ⟨Int.negSucc_lt_zero n, dst, hdst⟩
  have hfixed : ¬ IsMoved rules dst.segment := hrules _ dst hmoved.1 hdst
  have hdstSegment := hrules.segment_ne hmoved.1 hdst
  have hlater : ∀ i, i = Int.negSucc n → ¬ Vacated rules n i := by
    rintro i rfl hi
    have := hi.2
    omega
  obtain ⟨htouches, hempty, hmarks⟩ := moveSegment_marks hdstSegment h
  refine ⟨fun i => (htouches.allocated i).trans (hm.allocated i), fun i hi hsome => ?_, fun b => ?_⟩
  · rcases (vacated_succ_iff_of_isMoved hmoved i).mp hi with hi | rfl
    · have hne : ¬ (i = Int.negSucc n ∨ i = dst.segment) := by
        rintro (heq | rfl)
        · exact hlater i heq hi
        · exact hfixed hi.1
      rw [htouches.others i hne]
      exact hm.emptied i hi hsome
    · rw [← hm.allocated] at hsome
      obtain ⟨s, hs⟩ := Option.isSome_iff_exists.mp hsome
      rw [hempty, hs]
      rfl
  -- The marks that are moved in this round are marks of the first memory.
  · have hround : ∀ a v, (a ∈ m.accessed ∧ a.segment = Int.negSucc n ∧ m.get? a = some v ∧
        dst.shift a.offset = .ok b) ↔ (a ∈ m₀.accessed ∧ a.segment = Int.negSucc n ∧
        m₀.get? a = some v ∧ relocateAddress rules a = .ok b) := by
      intro a v
      rw [and_left_comm, and_left_comm (b := a.segment = _)]
      refine and_congr_right fun hseg => and_congr ?_ (and_congr ?_ ?_)
      · rw [hm.marked]
        constructor
        · rintro (⟨ha, -⟩ | ⟨c, x, -, -, -, hca⟩)
          · exact ha
          · exact absurd (hseg ▸ hmoved) (not_isMoved_of_relocateAddress hrules hca)
        · exact fun ha => .inl ⟨ha, hlater _ hseg⟩
      · exact hcells.get?_eq_some_iff hrules (hseg ▸ hmoved) (by omega) v
      · rw [relocateAddress_of_lookup (hseg ▸ hmoved.1) (hseg ▸ hdst)]
    rw [hmarks]
    simp only [hround, vacated_succ_iff_of_isMoved hmoved]
    constructor
    · rintro (⟨hb, hseg⟩ | ⟨a, v, ha, hseg, hv, hab⟩)
      · rcases (hm.marked b).mp hb with ⟨hb₀, hold⟩ | ⟨a, v, ha, hvac, hv, hab⟩
        · exact .inl ⟨hb₀, not_or.mpr ⟨hold, hseg⟩⟩
        · exact .inr ⟨a, v, ha, .inl hvac, hv, hab⟩
      · exact .inr ⟨a, v, ha, .inr hseg, hv, hab⟩
    · rintro (⟨hb₀, hold⟩ | ⟨a, v, ha, hvac | hseg, hv, hab⟩)
      · obtain ⟨hvac, hseg⟩ := not_or.mp hold
        exact .inl ⟨(hm.marked b).mpr (.inl ⟨hb₀, hvac⟩), hseg⟩
      · refine .inl ⟨(hm.marked b).mpr (.inr ⟨a, v, ha, hvac, hv, hab⟩), ?_⟩
        intro hseg
        exact not_isMoved_of_relocateAddress hrules hab (hseg ▸ hmoved)
      · exact .inr ⟨a, v, ha, hseg, hv, hab⟩

/-- Relocating vacates the segments that are moved and drops the rules. -/
theorem vacating_of_relocate {m t : Memory} (hresolve : resolve m.relocations = .ok rules)
    (hrules : Resolved rules) (h : relocate m = .ok () t) :
    Vacating rules m m.temporaries.size t ∧ t.relocations = [] := by
  rcases relocate_inv h with ⟨hempty, rfl⟩ | ⟨rules', hresolve', h⟩
  · have hnone : ∀ i, ¬ Vacated rules t.temporaries.size i := by
      intro i hi
      obtain ⟨-, dst, hdst⟩ := (isMoved_resolve_iff hresolve i).mp hi.1
      rw [hempty] at hdst
      cases hdst
    refine ⟨⟨fun _ => rfl, fun i hi => absurd hi (hnone i), fun b => ?_⟩, hempty⟩
    constructor
    · exact fun hb => .inl ⟨hb, hnone _⟩
    · rintro (⟨hb, -⟩ | ⟨a, v, -, ha, -⟩)
      · exact hb
      · exact absurd ha (hnone _)
  · obtain rfl := Except.ok.inj (hresolve.symm.trans hresolve')
    obtain ⟨u, ⟨-, hu⟩, rfl⟩ :=
      relocateBy_induction (I := fun n u => Relocating rules m n u ∧ Vacating rules m n u)
        (fun hreal => ⟨relocating_renameReal hrules hreal, vacating_renameReal hreal⟩)
        (fun hn hu hround => ⟨hu.1.rename hrules hn hround, hu.2.rename hn hround⟩)
        (fun _ hdst hu hround =>
          ⟨hu.1.move hrules hdst hround, hu.2.move hrules hdst hu.1 hround⟩) h
    exact ⟨⟨hu.allocated, hu.emptied, hu.marked⟩, rfl⟩

/-! ## The renaming -/

/-- The second memory is the first one, renamed by its relocation rules. -/
structure IsRenaming (m t : Memory) : Prop where
  /-- Every written cell has a new address and a new value, and only one of each. -/
  image : ∀ a v, m.get? a = some v →
    (∃! b, EndsAt m.relocations a b) ∧ ∃! w, RenamesTo m.relocations v w
  /-- What is written afterwards are the renamed cells, at their new addresses. -/
  cells : ∀ b w, t.get? b = some w ↔ ∃ a v, m.get? a = some v ∧
    EndsAt m.relocations a b ∧ RenamesTo m.relocations v w
  /-- The segments that are moved are empty. -/
  emptied : ∀ i, IsMoved m.relocations i → (m.segment? i).isSome → t.segment? i = some #[]
  /-- No address that is stored points into a segment that is moved. -/
  pointers : ∀ a b, t.get? a = some (.address b) → ¬ IsMoved m.relocations b.segment
  /-- The marks of the written cells of segments that are moved are at the new addresses, and the
  other marks are where they were. -/
  marks : ∀ b, b ∈ t.accessed ↔
    (b ∈ m.accessed ∧ ¬ (IsMoved m.relocations b.segment ∧ (m.segment? b.segment).isSome)) ∨
    ∃ a v, a ∈ m.accessed ∧ IsMoved m.relocations a.segment ∧ m.get? a = some v ∧
      EndsAt m.relocations a b
  /-- The rules are dropped. -/
  relocations : t.relocations = []

/-- Relocating a memory whose rules have no cycles renames it by its rules. -/
theorem isRenaming_of_relocate {m t : Memory} (hacyclic : Acyclic m.relocations)
    (h : relocate m = .ok () t) : IsRenaming m t := by
  obtain ⟨rules, hresolve, hrules, hrelocated⟩ := isRelocated_of_relocate hacyclic h
  obtain ⟨hvacating, hrelocations⟩ := vacating_of_relocate hresolve hrules h
  have hvacated : ∀ i, Vacated rules m.temporaries.size i ↔
      IsMoved m.relocations i ∧ (m.segment? i).isSome := by
    intro i
    unfold Vacated
    rw [isMoved_resolve_iff hresolve]
    exact and_congr_right fun hmoved => (isSome_segment?_iff_of_neg hmoved.1).symm
  have haddress : ∀ a b, EndsAt m.relocations a b ↔ relocateAddress rules a = .ok b :=
    fun _ _ => endsAt_iff hacyclic hresolve
  have hvalue : ∀ v w, RenamesTo m.relocations v w ↔ relocateValue rules v = .ok w :=
    fun _ _ => renamesTo_iff hacyclic hresolve
  have hcells : ∀ b w, t.get? b = some w ↔ ∃ a v, m.get? a = some v ∧
      EndsAt m.relocations a b ∧ RenamesTo m.relocations v w := by
    intro b w
    simp only [haddress, hvalue]
    constructor
    · exact hrelocated.origin b w
    · rintro ⟨a, v, hv, hb, hw⟩
      obtain ⟨b', w', hb', hw', ht⟩ := hrelocated.settled a v hv
      rwa [Except.ok.inj (hb.symm.trans hb'), Except.ok.inj (hw.symm.trans hw')]
  refine ⟨fun a v hv => ?_, hcells, fun i hi hsome => ?_, fun a b hb => ?_, fun b => ?_,
    hrelocations⟩
  · obtain ⟨b, w, hb, hw, -⟩ := hrelocated.settled a v hv
    rw [← haddress] at hb
    rw [← hvalue] at hw
    exact ⟨⟨b, hb, fun _ hc => hc.unique hb⟩, w, hw, fun _ hx => hx.unique hw⟩
  · exact hvacating.emptied i ((hvacated i).mpr ⟨hi, hsome⟩) hsome
  · obtain ⟨_, v, -, -, hrenames⟩ := (hcells a _).mp hb
    cases hrenames with
    | address hend => exact hend.not_isMoved
  · rw [hvacating.marked]
    simp only [hvacated, haddress]
    -- A written cell lies in a segment that is allocated.
    refine or_congr_right (exists₂_congr fun a v => and_congr_right fun _ => ?_)
    constructor
    · rintro ⟨⟨hmoved, -⟩, hv, hab⟩
      exact ⟨hmoved, hv, hab⟩
    · rintro ⟨hmoved, hv, hab⟩
      obtain ⟨s, hs, -⟩ := segment?_of_get? hv
      exact ⟨⟨hmoved, Option.isSome_of_eq_some hs⟩, hv, hab⟩

/-- A memory whose first temporary segment is moved into the second one, which is moved into a real
segment.  The third one stays where it is, and points into the first one. -/
def chained : Memory :=
  { segments := #[#[some (.address ⟨-1, 1, by decide⟩), none, some (.felt 7)], #[]]
    temporaries := #[#[some (.felt 10), some (.address (.base (-2)))],
      #[some (.address (.base (-1))), none], #[some (.address (.base (-1)))]]
    rules := []
    validated := ∅
    relocations := [(-1, ⟨-2, 2, by decide⟩), (-2, .base 1)]
    accessed := ((∅ : AddressSet).insert ⟨-1, 1, by decide⟩).insert (.base (-3)) }

/-- The rules of the memory lead from the first temporary segment to the second one, and from there
to a real one. -/
theorem acyclic_chained : Acyclic chained.relocations := by
  refine acyclic_of_rank (fun i => if i = -1 then 2 else if i = -2 then 1 else 0) ?_
  rintro i _ ⟨-, dst, hdst, rfl⟩
  have hmem : (i, dst) ∈ chained.relocations := by
    obtain ⟨l₁, l₂, hl, -⟩ := List.lookup_eq_some_iff.mp hdst
    rw [hl]
    simp
  simp only [chained, List.mem_cons, List.not_mem_nil, or_false, Prod.mk.injEq] at hmem
  rcases hmem with ⟨rfl, rfl⟩ | ⟨rfl, rfl⟩ <;> decide

/-- Relocating this memory renames it. -/
theorem isRenaming_of_relocate_chained :
    ∃ t, Acyclic chained.relocations ∧ relocate chained = .ok () t ∧ IsRenaming chained t := by
  have hrun : relocate chained = .ok () (relocate.after chained) :=
    Action.eq_ok_of_isOk (by decide +kernel)
  exact ⟨_, acyclic_chained, hrun, isRenaming_of_relocate acyclic_chained hrun⟩

end Cairo.Memory
