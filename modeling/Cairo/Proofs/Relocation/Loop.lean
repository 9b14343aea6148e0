import Cairo.Proofs.Relocation.Cells

/-!
# The loop over the temporary segments

Relocating goes through the temporary segments in the order of their creation and renames in each
one, or moves it.  `Settling` is the invariant of this loop for rules of any shape: a cell of a
segment that is done is found, renamed, at its new address, unless it was dropped; one of a segment
that is not is found where it was; and there are no other cells.  A cell is dropped when its segment
is moved into one that is emptied at the same time or later (`Drops`).  Resolved rules drop nothing
and rename nothing twice, and the invariant takes the simpler form `Relocating`.
-/

namespace Cairo.Memory

variable {rules : Relocations}

/-- The rules send a segment to itself. -/
def SendsBack (rules : Relocations) (i : Int) : Prop :=
  ∃ dst, rules.lookup i = some dst ∧ dst.segment = i

/-- The rules send a segment to one that is moved at the same time or later, and is emptied then. -/
def Drops (rules : Relocations) (i : Int) : Prop :=
  i < 0 ∧ ∃ dst, rules.lookup i = some dst ∧ IsMoved rules dst.segment ∧ dst.segment ≤ i

/-- A value is renamed once, or a second time in the segment that it was moved to. -/
def Renamed (rules : Relocations) (v w : Value) : Prop :=
  relocateValue rules v = .ok w ∨
    ∃ x, relocateValue rules v = .ok x ∧ relocateValue rules x = .ok w

/-- A cell that is not dropped goes to a segment that is not moved, or was moved before. -/
theorem lt_of_not_drops {a b : Address} (h : relocateAddress rules a = .ok b)
    (hdrops : ¬ Drops rules a.segment) (hmoved : IsMoved rules b.segment) :
    a.segment < b.segment := by
  by_cases ha : IsMoved rules a.segment
  · obtain ⟨hneg, dst, hdst⟩ := ha
    rw [relocateAddress_of_lookup hneg hdst] at h
    have hseg := (Address.shift_eq_ok.mp h).1
    by_contra hle
    exact hdrops ⟨hneg, dst, hdst, hseg ▸ hmoved, by omega⟩
  · rw [relocateAddress_of_not_isMoved ha] at h
    obtain rfl := Except.ok.inj h
    exact absurd hmoved ha

/-! ## Moving a segment, wherever it goes -/

/-- What moving a segment does to the cells, also if the segment is sent to itself. -/
structure Moves (rules : Relocations) (i : Int) (dst : Address) (m t : Memory) : Prop where
  /-- The cells of the other segments stay. -/
  keeps : ∀ b w, b.segment ≠ i → m.get? b = some w → t.get? b = some w
  /-- The cells of the segment are found in the destination, unless this is the segment itself. -/
  arrives : dst.segment ≠ i → ∀ a v, a.segment = i → m.get? a = some v →
    ∃ b w, MovedTo rules dst a v b w ∧ t.get? b = some w
  /-- The segment is empty, and only cells from it are new. -/
  origin : ∀ b w, t.get? b = some w → b.segment ≠ i ∧ (m.get? b = some w ∨
    dst.segment ≠ i ∧ ∃ a v, a.segment = i ∧ m.get? a = some v ∧ MovedTo rules dst a v b w)

/-- Moving a segment moves its cells, or drops them. -/
theorem moves_moveSegment {i : Int} {dst : Address} {m t : Memory}
    (h : moveSegment rules i dst m = .ok () t) : Moves rules i dst m t := by
  by_cases hdst : dst.segment = i
  · obtain ⟨rounds, u, -, hcells, rfl⟩ := moveSegment_inv h
    have htouches := (touches_moveCells i dst m.accessed rounds 0).of_ok hcells
    have hsame : ∀ b : Address, b.segment ≠ i → u.get? b = m.get? b := by
      intro b hb
      exact htouches.get?_eq fun heq => hb (heq.trans hdst)
    refine ⟨fun b w hb hw => ?_, fun hne => absurd hdst hne, fun b w hw => ?_⟩
    · rw [get?_emptied, if_neg hb, hsame b hb, hw]
    · rw [get?_emptied] at hw
      split at hw
      · cases hw
      · rename_i hb
        rw [hsame b hb] at hw
        exact ⟨hb, .inl hw⟩
  · obtain ⟨u, stop, hmoves, hstop, hget⟩ := moveSegment_ok hdst h
    refine ⟨fun b w hb hw => ?_, fun _ a v ha hv => ?_, fun b w hw => ?_⟩
    · rw [hget, if_neg hb, hmoves.keeps b w hw]
    · have hlt : a.offset < stop := Nat.lt_of_lt_of_le a.offset_lt hstop
      obtain ⟨b, w, hmoved, hu⟩ := hmoves.arrives a v ha (Nat.zero_le _) hlt hv
      have hb : b.segment ≠ i := by
        rwa [(Address.shift_eq_ok.mp hmoved.1).1]
      exact ⟨b, w, hmoved, by rw [hget, if_neg hb, hu]⟩
    · rw [hget] at hw
      split at hw
      · cases hw
      · rename_i hb
        exact ⟨hb, (hmoves.origin b w hw).imp_right fun horigin => ⟨hdst, horigin⟩⟩

/-- Moving the cells of a segment behind its own start does not end before the offsets do, if there
are any cells left: each one is written once more behind those that are still to be moved. -/
theorem get?_eq_none_of_moveCells {i : Int} {dst : Address} {marks : AddressSet}
    {rounds offset : Nat} {m t : Memory} (hdst : dst.segment = i) (hpos : 0 < dst.offset)
    (h : moveCells rules i dst marks rounds offset m = .ok () t)
    (hrounds : offsetBound ≤ offset + rounds) {a : Address} (ha : a.segment = i)
    (hoffset : offset ≤ a.offset) : m.get? a = none := by
  induction rounds generalizing offset m a with
  | zero =>
    have := a.offset_lt
    omega
  | succ rounds ih =>
    have hview : m.get? a = ((m.segment? i).bind (·[a.offset]?)).join := by
      rw [get?_eq, ha]
      cases m.segment? i <;> rfl
    unfold moveCells at h
    rw [Action.get_bind] at h
    cases hcell : (m.segment? i).bind (·[offset]?) with
    | none =>
      -- The segment ends here.
      cases hs : m.segment? i with
      | none =>
        rw [hview, hs]
        rfl
      | some s =>
        rw [hs, Option.bind_some, Array.getElem?_eq_none_iff] at hcell
        rw [hview, hs, Option.bind_some, Array.getElem?_eq_none (hcell.trans hoffset)]
        rfl
    | some found =>
      rw [hcell] at h
      cases found with
      | none =>
        rcases Nat.eq_or_lt_of_le hoffset with rfl | hlt
        · rw [hview, hcell]
          rfl
        · exact ih h (by omega) ha hlt
      | some v =>
        obtain ⟨_, u, hmove, hrest⟩ := Action.bind_eq_ok.mp h
        obtain ⟨b, w, hb, -, -, hu⟩ := moveCell_ok hmove
        obtain ⟨hseg, hoff⟩ := Address.shift_eq_ok.mp hb
        have hnone : u.get? b = none := ih hrest (by omega) (hseg.trans hdst) (by omega)
        rw [hu, if_pos rfl] at hnone
        cases hnone

/-! ## The invariant for rules of any shape -/

/-- A value has arrived at an address.  It may be renamed once more only in a segment that the loop
has come to. -/
def Arrived (rules : Relocations) (n : Nat) (v : Value) (b : Address) (w : Value) : Prop :=
  Renamed rules v w ∧ (b.segment < -(n : Int) → relocateValue rules v = .ok w)

/-- The loop has come to the temporary segment that is counted as `n`, by rules that may send
segments back to themselves. -/
structure Settling (rules : Relocations) (m₀ : Memory) (n : Nat) (m : Memory) : Prop where
  /-- A cell that is done and not dropped is found, renamed, at its new address. -/
  settled : ∀ a v, m₀.get? a = some v → -(n : Int) ≤ a.segment → ¬ Drops rules a.segment →
    ∃ b w, relocateAddress rules a = .ok b ∧ Arrived rules n v b w ∧ m.get? b = some w
  /-- A cell that is not done is where it was. -/
  waiting : ∀ a v, m₀.get? a = some v → a.segment < -(n : Int) → m.get? a = some v
  /-- There are no other cells, except in segments that are sent back to themselves later on. -/
  origin : ∀ b w, m.get? b = some w →
    b.segment < -(n : Int) ∧ (m₀.get? b = some w ∨ SendsBack rules b.segment) ∨
      ∃ a v, m₀.get? a = some v ∧ -(n : Int) ≤ a.segment ∧ ¬ Drops rules a.segment ∧
        relocateAddress rules a = .ok b ∧ Arrived rules n v b w
  /-- A segment that is done and was sent behind its own start had no cells. -/
  still : ∀ a v dst, m₀.get? a = some v → -(n : Int) ≤ a.segment → a.segment < 0 →
    rules.lookup a.segment = some dst → dst.segment = a.segment → dst.offset = 0

/-- A value that has arrived in an earlier round has arrived. -/
theorem Arrived.succ {n : Nat} {v w : Value} {b : Address} (h : Arrived rules n v b w) :
    Arrived rules (n + 1) v b w :=
  ⟨h.1, fun hb => h.2 (by omega)⟩

/-- Renaming the real segments starts the loop. -/
theorem settling_renameReal {m t : Memory} (h : renameReal rules m = .ok () t) :
    Settling rules m 0 t := by
  have hrenamed := renamedAt_renameReal h
  have hfixed : ∀ {a : Address}, 0 ≤ a.segment → relocateAddress rules a = .ok a :=
    fun ha => relocateAddress_of_not_isMoved fun hmoved => absurd hmoved.1 (by omega)
  refine ⟨fun a v hv ha _ => ?_, fun a v hv ha => ?_, fun b w hb => ?_, fun a v dst _ ha hneg => ?_⟩
  · have hreal : 0 ≤ a.segment := by omega
    obtain ⟨w, hw, ht⟩ := hrenamed.exists_get? hreal hv
    exact ⟨a, w, hfixed hreal, ⟨.inl hw, fun _ => hw⟩, ht⟩
  · rw [(hrenamed a).2 (by omega), hv]
  · by_cases hreal : 0 ≤ b.segment
    · obtain ⟨v, hv, hw⟩ := hrenamed.exists_origin hreal hb
      have hdrops : ¬ Drops rules b.segment := fun hdrops => absurd hdrops.1 (by omega)
      exact .inr ⟨b, v, hv, by omega, hdrops, hfixed hreal, .inl hw, fun _ => hw⟩
    · rw [(hrenamed b).2 hreal] at hb
      exact .inl ⟨by omega, .inl hb⟩
  · omega

/-- A segment that is not moved is done when its cells are renamed. -/
theorem Settling.rename {m₀ m t : Memory} {n : Nat} (hn : ¬ IsMoved rules (Int.negSucc n))
    (hm : Settling rules m₀ n m) (h : renameSegment rules (Int.negSucc n) m = .ok () t) :
    Settling rules m₀ (n + 1) t := by
  have hrenamed := renamedAt_renameSegment h
  have hdrops : ¬ Drops rules (Int.negSucc n) := by
    rintro ⟨hneg, dst, hdst, -⟩
    exact hn ⟨hneg, dst, hdst⟩
  -- A cell that has arrived in this segment is renamed once more.
  have hagain : ∀ {v w w' : Value} {b : Address}, b.segment = Int.negSucc n →
      Arrived rules n v b w → relocateValue rules w = .ok w' → Arrived rules (n + 1) v b w' := by
    intro v w w' b hb harrived hw'
    exact ⟨.inr ⟨w, harrived.2 (by omega), hw'⟩, fun hlt => by omega⟩
  refine ⟨fun a v hv ha hnot => ?_, fun a v hv ha => ?_, fun b w hb => ?_, ?_⟩
  · by_cases hseg : a.segment = Int.negSucc n
    · obtain ⟨w, hw, ht⟩ := hrenamed.exists_get? hseg (hm.waiting a v hv (by omega))
      exact ⟨a, w, relocateAddress_of_not_isMoved (by rwa [hseg]), ⟨.inl hw, fun _ => hw⟩, ht⟩
    · obtain ⟨b, w, hb, harrived, hget⟩ := hm.settled a v hv (by omega) hnot
      by_cases hbseg : b.segment = Int.negSucc n
      · obtain ⟨w', hw', ht⟩ := hrenamed.exists_get? hbseg hget
        exact ⟨b, w', hb, hagain hbseg harrived hw', ht⟩
      · exact ⟨b, w, hb, harrived.succ, by rw [(hrenamed b).2 hbseg, hget]⟩
  · rw [(hrenamed a).2 (by omega)]
    exact hm.waiting a v hv (by omega)
  · by_cases hbseg : b.segment = Int.negSucc n
    · obtain ⟨v, hv, hw'⟩ := hrenamed.exists_origin hbseg hb
      rcases hm.origin b v hv with ⟨-, hv₀ | ⟨dst, hdst, -⟩⟩ |
        ⟨a, v₀, hv₀, ha, hnot, hab, harrived⟩
      · exact .inr ⟨b, v, hv₀, by omega, by rwa [hbseg],
          relocateAddress_of_not_isMoved (by rwa [hbseg]), .inl hw', fun _ => hw'⟩
      · rw [hbseg] at hdst
        exact absurd ⟨Int.negSucc_lt_zero n, dst, hdst⟩ hn
      · exact .inr ⟨a, v₀, hv₀, by omega, hnot, hab, hagain hbseg harrived hw'⟩
    · rw [(hrenamed b).2 hbseg] at hb
      rcases hm.origin b w hb with ⟨hlt, hw⟩ | ⟨a, v, hv, ha, hnot, hab, harrived⟩
      · exact .inl ⟨by omega, hw⟩
      · exact .inr ⟨a, v, hv, by omega, hnot, hab, harrived.succ⟩
  · intro a v dst hv ha hneg hdst
    by_cases hseg : a.segment = Int.negSucc n
    · rw [hseg] at hneg hdst
      exact absurd ⟨hneg, dst, hdst⟩ hn
    · exact hm.still a v dst hv (by omega) hneg hdst

/-- A segment that is moved is done when its cells are moved, or dropped. -/
theorem Settling.move {m₀ m t : Memory} {n : Nat} {dst : Address}
    (hreturns : ∀ i dst, i < 0 → rules.lookup i = some dst → IsMoved rules dst.segment →
      SendsBack rules dst.segment)
    (hdst : rules.lookup (Int.negSucc n) = some dst) (hm : Settling rules m₀ n m)
    (h : moveSegment rules (Int.negSucc n) dst m = .ok () t) : Settling rules m₀ (n + 1) t := by
  have hmoved : IsMoved rules (Int.negSucc n) := ⟨Int.negSucc_lt_zero n, dst, hdst⟩
  have hmoves := moves_moveSegment h
  -- What is done and not dropped does not lie in this segment.
  have hother : ∀ {a b : Address}, -(n : Int) ≤ a.segment → ¬ Drops rules a.segment →
      relocateAddress rules a = .ok b → b.segment ≠ Int.negSucc n := by
    intro a b ha hdrops hb hseg
    have hlt := lt_of_not_drops hb hdrops (hseg ▸ hmoved)
    omega
  have haddress := fun a => relocateAddress_of_segment_eq (a := a) hmoved.1 hdst
  refine ⟨fun a v hv ha hnot => ?_, fun a v hv ha => ?_, fun b w hw => ?_, ?_⟩
  · by_cases hseg : a.segment = Int.negSucc n
    · have hne : dst.segment ≠ Int.negSucc n := by
        intro heq
        rw [hseg] at hnot
        exact hnot ⟨hmoved.1, dst, hdst, heq ▸ hmoved, Int.le_of_eq heq⟩
      obtain ⟨b, w, ⟨hb, hw⟩, ht⟩ := hmoves.arrives hne a v hseg (hm.waiting a v hv (by omega))
      exact ⟨b, w, (haddress a hseg).trans hb, ⟨.inl hw, fun _ => hw⟩, ht⟩
    · obtain ⟨b, w, hb, harrived, hget⟩ := hm.settled a v hv (by omega) hnot
      exact ⟨b, w, hb, harrived.succ, hmoves.keeps b w (hother (by omega) hnot hb) hget⟩
  · exact hmoves.keeps a v (by omega) (hm.waiting a v hv (by omega))
  · obtain ⟨hbseg, hb | ⟨hne, a, v, hseg, hv, hshift, hvalue⟩⟩ := hmoves.origin b w hw
    · rcases hm.origin b w hb with ⟨hlt, hw⟩ | ⟨a, v, hv, ha, hnot, hab, harrived⟩
      · exact .inl ⟨by omega, hw⟩
      · exact .inr ⟨a, v, hv, by omega, hnot, hab, harrived.succ⟩
    · rcases hm.origin a v hv with ⟨-, hv₀ | ⟨dst', hdst', hback⟩⟩ | ⟨c, x, -, hc, hnot, hca, -⟩
      · by_cases hdrops : Drops rules (Int.negSucc n)
        · obtain ⟨-, dst', hdst', hmovedDst, hle⟩ := hdrops
          obtain rfl := Option.some.inj (hdst.symm.trans hdst')
          have hb := (Address.shift_eq_ok.mp hshift).1
          rw [← hb] at hmovedDst hle hne
          refine .inl ⟨by omega, .inr ?_⟩
          rw [hb] at hmovedDst ⊢
          exact hreturns _ dst hmoved.1 hdst hmovedDst
        · exact .inr ⟨a, v, hv₀, by omega, by rwa [hseg], (haddress a hseg).trans hshift,
            .inl hvalue, fun _ => hvalue⟩
      -- A segment that is sent back to itself does not pass its cells on.
      · rw [hseg] at hdst' hback
        obtain rfl := Option.some.inj (hdst.symm.trans hdst')
        exact absurd hback hne
      · exact absurd hseg (hother hc hnot hca)
  · intro a v dst' hv ha hneg hdst' hback
    by_cases hseg : a.segment = Int.negSucc n
    · rw [hseg] at hdst' hback
      obtain rfl := Option.some.inj (hdst.symm.trans hdst')
      by_contra hpos
      obtain ⟨rounds, u, hrounds, hcells, -⟩ := moveSegment_inv h
      have hnone := get?_eq_none_of_moveCells hback (Nat.pos_of_ne_zero hpos) hcells (by omega)
        hseg (Nat.zero_le _)
      have hwaiting := hm.waiting a v hv (by omega)
      rw [show m.get? a = none from hnone] at hwaiting
      cases hwaiting
    · exact hm.still a v dst' hv (by omega) hneg hdst' hback

/-! ## The invariant for resolved rules -/

/-- The cells of the temporary segments are relocated up to the one that is counted as `n`; those
of the segments behind it are still where they were. -/
structure Relocating (rules : Relocations) (m₀ : Memory) (n : Nat) (m : Memory) : Prop where
  /-- A cell that is done is found, renamed, at its new address. -/
  settled : ∀ a v, m₀.get? a = some v → -(n : Int) ≤ a.segment → ∃ b w,
    relocateAddress rules a = .ok b ∧ relocateValue rules v = .ok w ∧ m.get? b = some w
  /-- A cell that is not is where it was. -/
  waiting : ∀ a v, m₀.get? a = some v → a.segment < -(n : Int) → m.get? a = some v
  /-- There are no other cells. -/
  origin : ∀ b w, m.get? b = some w → b.segment < -(n : Int) ∧ m₀.get? b = some w ∨
    ∃ a v, m₀.get? a = some v ∧ -(n : Int) ≤ a.segment ∧ relocateAddress rules a = .ok b ∧
      relocateValue rules v = .ok w

/-- Resolved rules drop no segment. -/
theorem not_drops (hrules : Resolved rules) (i : Int) : ¬ Drops rules i := by
  rintro ⟨hneg, dst, hdst, hmoved, -⟩
  exact hrules i dst hneg hdst hmoved

/-- Resolved rules rename a value once. -/
theorem renamed_iff (hrules : Resolved rules) {v w : Value} :
    Renamed rules v w ↔ relocateValue rules v = .ok w := by
  constructor
  · rintro (hw | ⟨x, hx, hw⟩)
    · exact hw
    · rw [relocateValue_idem hrules hx] at hw
      rwa [← Except.ok.inj hw]
  · exact .inl

/-- For resolved rules the two invariants say the same. -/
theorem settling_iff (hrules : Resolved rules) {m₀ m : Memory} {n : Nat} :
    Settling rules m₀ n m ↔ Relocating rules m₀ n m := by
  have harrived : ∀ {v b w}, Arrived rules n v b w ↔ relocateValue rules v = .ok w := by
    intro v b w
    unfold Arrived
    rw [renamed_iff hrules]
    exact ⟨And.left, fun hw => ⟨hw, fun _ => hw⟩⟩
  constructor
  · intro h
    refine ⟨fun a v hv ha => ?_, h.waiting, fun b w hw => ?_⟩
    · obtain ⟨b, w, hb, hw, hget⟩ := h.settled a v hv ha (not_drops hrules _)
      exact ⟨b, w, hb, harrived.mp hw, hget⟩
    · rcases h.origin b w hw with ⟨hlt, hw₀ | ⟨dst, hdst, hback⟩⟩ | ⟨a, v, hv, ha, -, hb, hw⟩
      · exact .inl ⟨hlt, hw₀⟩
      · exact absurd hback (hrules.segment_ne (by omega) hdst)
      · exact .inr ⟨a, v, hv, ha, hb, harrived.mp hw⟩
  · intro h
    refine ⟨fun a v hv ha _ => ?_, h.waiting, fun b w hw => ?_, ?_⟩
    · obtain ⟨b, w, hb, hw, hget⟩ := h.settled a v hv ha
      exact ⟨b, w, hb, harrived.mpr hw, hget⟩
    · rcases h.origin b w hw with ⟨hlt, hw₀⟩ | ⟨a, v, hv, ha, hb, hw⟩
      · exact .inl ⟨hlt, .inl hw₀⟩
      · exact .inr ⟨a, v, hv, ha, not_drops hrules _, hb, harrived.mpr hw⟩
    · exact fun a v dst _ _ hneg hdst hback => absurd hback (hrules.segment_ne hneg hdst)

/-- Renaming the real segments starts the loop. -/
theorem relocating_renameReal (hrules : Resolved rules) {m t : Memory}
    (h : renameReal rules m = .ok () t) : Relocating rules m 0 t :=
  (settling_iff hrules).mp (settling_renameReal h)

/-- A segment that is not moved is done when its cells are renamed. -/
theorem Relocating.rename (hrules : Resolved rules) {m₀ m t : Memory} {n : Nat}
    (hn : ¬ IsMoved rules (Int.negSucc n)) (hm : Relocating rules m₀ n m)
    (h : renameSegment rules (Int.negSucc n) m = .ok () t) : Relocating rules m₀ (n + 1) t := by
  rw [← settling_iff hrules] at hm ⊢
  exact hm.rename hn h

/-- A segment that is moved is done when its cells are moved. -/
theorem Relocating.move (hrules : Resolved rules) {m₀ m t : Memory} {n : Nat} {dst : Address}
    (hdst : rules.lookup (Int.negSucc n) = some dst) (hm : Relocating rules m₀ n m)
    (h : moveSegment rules (Int.negSucc n) dst m = .ok () t) : Relocating rules m₀ (n + 1) t := by
  rw [← settling_iff hrules] at hm ⊢
  exact hm.move (fun i dst hi hdst hmoved => absurd hmoved (hrules i dst hi hdst)) hdst h

/-! ## The whole loop -/

/-- After all segments, a memory has the renamed cells at their new addresses and no others. -/
structure IsRelocated (rules : Relocations) (m t : Memory) : Prop where
  /-- Every cell is found, renamed, at its new address. -/
  settled : ∀ a v, m.get? a = some v → ∃ b w,
    relocateAddress rules a = .ok b ∧ relocateValue rules v = .ok w ∧ t.get? b = some w
  /-- There are no other cells. -/
  origin : ∀ b w, t.get? b = some w → ∃ a v, m.get? a = some v ∧
    relocateAddress rules a = .ok b ∧ relocateValue rules v = .ok w

/-- Renaming the real segments leaves the temporary ones as they are. -/
theorem temporaries_eq_of_renameReal {m t : Memory} (h : renameReal rules m = .ok () t) :
    t.temporaries = m.temporaries :=
  Array.ext_getElem? fun n => (touches_renameReal.of_ok h).others (Int.negSucc n) (by omega)

/-- A round of the loop renames in a segment that is not moved, and moves one that is. -/
theorem round_cases {n : Nat} {m : Memory} {r : EStateM.Result Fault Memory Unit}
    (h : (match rules.lookup (Int.negSucc n) with
      | none => renameSegment rules (Int.negSucc n)
      | some dst => moveSegment rules (Int.negSucc n) dst) m = r) :
    ¬ IsMoved rules (Int.negSucc n) ∧ renameSegment rules (Int.negSucc n) m = r ∨
      ∃ dst, rules.lookup (Int.negSucc n) = some dst ∧
        moveSegment rules (Int.negSucc n) dst m = r := by
  cases hdst : rules.lookup (Int.negSucc n) with
  | none =>
    rw [hdst] at h
    refine .inl ⟨?_, h⟩
    rintro ⟨-, dst, hmoved⟩
    rw [hdst] at hmoved
    cases hmoved
  | some dst =>
    rw [hdst] at h
    exact .inr ⟨dst, rfl, h⟩

/-- Relocating by rules renames in the real segments, then renames in every temporary segment or
moves it, in the order of their creation, and drops the rules.  What holds at the start and is kept
by each round holds at the end. -/
theorem relocateBy_induction {m t : Memory} {I : Nat → Memory → Prop}
    (start : ∀ {u}, renameReal rules m = .ok () u → I 0 u)
    (rename : ∀ {n u v}, ¬ IsMoved rules (Int.negSucc n) → I n u →
      renameSegment rules (Int.negSucc n) u = .ok () v → I (n + 1) v)
    (move : ∀ {n dst u v}, n < m.temporaries.size → rules.lookup (Int.negSucc n) = some dst →
      I n u → moveSegment rules (Int.negSucc n) dst u = .ok () v → I (n + 1) v)
    (h : relocateBy rules m = .ok () t) :
    ∃ u, I m.temporaries.size u ∧ t = { u with relocations := [] } := by
  obtain ⟨_, m₁, hreal, h⟩ := Action.bind_eq_ok.mp h
  obtain ⟨_, m₂, htemporaries, h⟩ := Action.bind_eq_ok.mp h
  obtain rfl := Action.modify_eq_ok.mp h
  obtain ⟨_, _, hget, hloop⟩ := Action.bind_eq_ok.mp htemporaries
  obtain ⟨rfl, rfl⟩ := Action.get_eq_ok.mp hget
  rw [temporaries_eq_of_renameReal hreal] at hloop
  refine ⟨m₂, Action.forM_range_ok I hloop (start hreal) ?_, rfl⟩
  intro n u v hn hu hround
  rcases round_cases hround with ⟨hstays, hround⟩ | ⟨dst, hdst, hround⟩
  · exact rename hstays hu hround
  · exact move hn hdst hu hround

/-- A written cell lies in a segment that the loop comes to. -/
theorem le_segment_of_get? {m : Memory} {a : Address} {v : Value} (hv : m.get? a = some v) :
    -(m.temporaries.size : Int) ≤ a.segment := by
  rcases Int.lt_or_le a.segment 0 with hneg | hreal
  · obtain ⟨s, hs, -⟩ := segment?_of_get? hv
    exact (isSome_segment?_iff_of_neg hneg).mp (Option.isSome_of_eq_some hs)
  · omega

/-- Relocating by resolved rules renames and moves all cells. -/
theorem isRelocated_relocateBy (hrules : Resolved rules) {m t : Memory}
    (h : relocateBy rules m = .ok () t) : IsRelocated rules m t := by
  obtain ⟨u, hend, rfl⟩ := relocateBy_induction (I := Relocating rules m)
    (relocating_renameReal hrules)
    (fun hn hu => hu.rename hrules hn) (fun _ hdst hu => hu.move hrules hdst) h
  refine ⟨fun a v hv => hend.settled a v hv (le_segment_of_get? hv), fun b w hb => ?_⟩
  rcases hend.origin b w hb with ⟨hbound, hw⟩ | ⟨a, v, hv, -, hab, hw⟩
  · exact absurd (le_segment_of_get? hw) (by omega)
  · exact ⟨a, v, hv, hab, hw⟩

/-- Without rules nothing is relocated. -/
theorem isRelocated_refl (m : Memory) : IsRelocated [] m m := by
  have haddress : ∀ a, relocateAddress [] a = .ok a :=
    fun a => relocateAddress_of_not_isMoved fun hmoved => nomatch hmoved.2
  have hvalue : ∀ v, relocateValue [] v = .ok v := by
    intro v
    cases v with
    | felt x => rfl
    | address a => exact Answer.map_eq_ok.mpr ⟨a, haddress a, rfl⟩
  exact ⟨fun a v hv => ⟨a, v, haddress a, hvalue v, hv⟩,
    fun b w hb => ⟨b, w, hb, haddress b, hvalue w⟩⟩

/-- Relocating does nothing without rules, and relocates by the resolved rules otherwise. -/
theorem relocate_inv {m t : Memory} (h : relocate m = .ok () t) :
    m.relocations = [] ∧ t = m ∨
      ∃ rules, resolve m.relocations = .ok rules ∧ relocateBy rules m = .ok () t := by
  unfold relocate at h
  obtain ⟨_, _, hget, h⟩ := Action.bind_eq_ok.mp h
  obtain ⟨rfl, rfl⟩ := Action.get_eq_ok.mp hget
  split at h
  · rename_i hempty
    obtain ⟨-, rfl⟩ := Action.pure_eq_ok.mp h
    exact .inl ⟨List.isEmpty_iff.mp hempty, rfl⟩
  · obtain ⟨rules, _, hlift, h⟩ := Action.bind_eq_ok.mp h
    obtain ⟨hrules, rfl⟩ := Action.lift_eq_ok.mp hlift
    exact .inr ⟨rules, hrules, h⟩

/-- Relocating a memory whose rules have no cycles renames and moves all cells by the resolved
rules. -/
theorem isRelocated_of_relocate {m t : Memory} (hacyclic : Acyclic m.relocations)
    (h : relocate m = .ok () t) :
    ∃ rules, resolve m.relocations = .ok rules ∧ Resolved rules ∧ IsRelocated rules m t := by
  rcases relocate_inv h with ⟨hempty, rfl⟩ | ⟨rules, hrules, h⟩
  · rw [hempty]
    exact ⟨[], rfl, nofun, isRelocated_refl t⟩
  · have hresolved := resolved_of_resolve hacyclic hrules
    exact ⟨rules, hrules, hresolved, isRelocated_relocateBy hresolved h⟩

end Cairo.Memory
