import Cairo.Proofs.Relocation.Cycles
import Cairo.Proofs.Relocation.Loop

/-!
# What relocating loses

Rules that form a cycle resolve to a rule that sends a segment of the cycle to itself.  Relocating
writes the cells of such a segment back to where they are, or further behind, and then empties it,
together with what was moved into it before.  `Drops` describes the segments whose cells are lost in
this way; the cells of all others are found, renamed, at their new addresses, and nothing else is
left (`isSettled_of_relocate`).  A segment that is sent behind its own start grows while it is
moved, so that moving it only comes to an end if it has no cells.
-/

namespace Cairo.Memory

variable {rules : Relocations}

/-- Relocating by rules allocates no segments, also when it fails. -/
theorem allocates_relocateBy : Action.Respects (Touches fun _ => True) (relocateBy rules) := by
  have hmodify : ∀ m i f, Touches (fun _ => True) m (modifySegment m i f) :=
    fun m i f => (touches_modifySegment m i f).mono fun _ _ => trivial
  have hinsert : ∀ b w, Action.Respects (Touches fun _ => True) (insert b w) :=
    fun b w => (touches_insert b w).mono fun _ _ h => h.mono fun _ _ => trivial
  exact respects_relocateBy (respects_renameReal fun m n f _ => hmodify m n f)
    (fun _ => respects_renameSegment fun m f _ => hmodify m _ f)
    (fun _ _ => respects_moveSegment (fun b w _ _ => hinsert b w) (fun _ _ h => h.touches _)
      fun m => hmodify m _ _)
    fun _ => ⟨fun _ => rfl, fun _ h => absurd trivial h⟩

/-- What relocating by rules that may form cycles makes of a memory. -/
structure IsSettled (rules : Relocations) (m t : Memory) : Prop where
  /-- Every cell that is not dropped is found, renamed, at its new address. -/
  settled : ∀ a v, m.get? a = some v → ¬ Drops rules a.segment →
    ∃ b w, relocateAddress rules a = .ok b ∧ Renamed rules v w ∧ t.get? b = some w
  /-- There are no other cells. -/
  origin : ∀ b w, t.get? b = some w → ∃ a v, m.get? a = some v ∧ ¬ Drops rules a.segment ∧
    relocateAddress rules a = .ok b ∧ Renamed rules v w
  /-- No segment with cells was sent behind its own start. -/
  still : ∀ a v dst, m.get? a = some v → a.segment < 0 → rules.lookup a.segment = some dst →
    dst.segment = a.segment → dst.offset = 0

/-- Relocating a memory, by whatever rules, loses the cells that the resolved rules drop and no
others, and does not end if a segment with cells is sent behind its own start. -/
theorem isSettled_of_relocate {m t : Memory} (h : relocate m = .ok () t) :
    ∃ rules, resolve m.relocations = .ok rules ∧ IsSettled rules m t := by
  rcases relocate_inv h with ⟨hempty, rfl⟩ | ⟨rules, hrules, h⟩
  · rw [hempty]
    obtain ⟨hsettled, horigin⟩ := isRelocated_refl t
    have hnone : ∀ i, ¬ Drops [] i := by
      rintro i ⟨-, dst, hdst, -⟩
      cases hdst
    refine ⟨[], rfl, fun a v hv _ => ?_, fun b w hw => ?_, fun _ _ _ _ _ hdst => nomatch hdst⟩
    · obtain ⟨b, w, hb, hw, ht⟩ := hsettled a v hv
      exact ⟨b, w, hb, .inl hw, ht⟩
    · obtain ⟨a, v, hv, hb, hw⟩ := horigin b w hw
      exact ⟨a, v, hv, hnone a.segment, hb, .inl hw⟩
  · refine ⟨rules, hrules, ?_⟩
    obtain ⟨u, hend, rfl⟩ := relocateBy_induction (I := Settling rules m) settling_renameReal
      (fun hn hu => hu.rename hn)
      (fun _ hdst hu => hu.move (fun _ _ => returns_of_resolve hrules) hdst) h
    refine ⟨fun a v hv hnot => ?_, fun b w hw => ?_, fun a v dst hv hneg hdst hback => ?_⟩
    · obtain ⟨b, w, hb, harrived, hget⟩ :=
        hend.settled a v hv (le_segment_of_get? hv) hnot
      exact ⟨b, w, hb, harrived.1, hget⟩
    · rcases hend.origin b w hw with ⟨hlt, -⟩ | ⟨a, v, hv, -, hnot, hb, harrived⟩
      · have hneg : b.segment < 0 := by omega
        obtain ⟨s, hs, -⟩ := segment?_of_get? hw
        have hsome := Option.isSome_of_eq_some hs
        rw [(allocates_relocateBy.of_ok h).allocated, isSome_segment?_iff_of_neg hneg] at hsome
        omega
      · exact ⟨a, v, hv, hnot, hb, harrived.1⟩
    · exact hend.still a v dst hv (le_segment_of_get? hv) hneg hdst hback

/-- A memory with two temporary segments. -/
def twoTemporaries : Memory :=
  { empty with temporaries := #[#[some (.felt 7)], #[none, some (.felt 8)]] }

/-- The memory with rules that send the first temporary segment to itself, and the second one to the
first. -/
def circular : Memory :=
  { twoTemporaries with relocations := [(-1, .base (-1)), (-2, .base (-1))] }

/-- Relocating this memory returns. -/
theorem relocate_circular : relocate circular = .ok () (relocate.after circular) :=
  Action.eq_ok_of_isOk (by decide +kernel)

/-- Relocating this memory settles it. -/
theorem isSettled_of_relocate_circular :
    ∃ rules t, resolve circular.relocations = .ok rules ∧ relocate circular = .ok () t ∧
      IsSettled rules circular t := by
  obtain ⟨rules, hrules, hsettled⟩ := isSettled_of_relocate relocate_circular
  exact ⟨rules, _, hrules, relocate_circular, hsettled⟩

/-- The rules are accepted, and the cell of the first segment has itself as new address; but it is
not found there afterwards. -/
theorem exists_lost_circular :
    (do addRelocation (.base (-1)) (.base (-1)); addRelocation (.base (-2)) (.base (-1)))
        twoTemporaries = .ok () circular ∧
      ∃ (rules : Relocations) (t : Memory) (a : Address) (v : Value),
        (resolve circular.relocations).toOption = some rules ∧ circular.get? a = some v ∧
          (relocateAddress rules a).toOption = some a ∧ relocate circular = .ok () t ∧
            t.get? a = none :=
  ⟨rfl, [(-1, .base (-1)), (-2, .base (-1))], _, .base (-1), .felt 7, by decide +kernel,
    by decide +kernel, by decide +kernel, relocate_circular, by decide +kernel⟩

end Cairo.Memory
