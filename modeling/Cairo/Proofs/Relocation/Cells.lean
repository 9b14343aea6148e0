import Cairo.Proofs.Memory.Cells
import Cairo.Proofs.Relocation.Rules

/-!
# What relocating does to the cells

Relocating renames cells in place and moves the cells of temporary segments.  `RenamedAt P` says
that the cells at the addresses of `P` are renamed and the others are as before; such changes add
up.  `MovesCells` says that a range of cells of a segment is found, renamed, at the destination; the
ranges add up to the segment, which is emptied in the end (`moveSegment_ok`).
-/

namespace Cairo.Memory

variable {rules : Relocations}

/-! ## Adding rules -/

/-- Adding a rule for a temporary segment changes no cell. -/
theorem respects_addRelocation (src dst : Address) :
    Action.Respects Extends (addRelocation src dst) := by
  unfold addRelocation
  split
  · exact .throw_bind _ _
  · refine .bind .get fun m => ?_
    split
    · exact .throw_bind _ _
    · exact .modify fun _ _ _ h => h

/-! ## Renaming in place -/

/-- A cell that is not written stays so. -/
theorem relocateCell_none {c : Option Value} (h : relocateCell rules none = .ok c) : c = none :=
  (Except.ok.inj h).symm

/-- A written cell gets the relocated value. -/
theorem relocateCell_some {v : Value} {c : Option Value} :
    relocateCell rules (some v) = .ok c ↔ ∃ w, relocateValue rules v = .ok w ∧ c = some w := by
  refine Answer.map_eq_ok.trans (exists_congr fun w => and_congr_right fun _ => ?_)
  exact eq_comm

/-- The cells at some addresses are renamed, and the others are as before. -/
def RenamedAt (rules : Relocations) (P : Address → Prop) (m t : Memory) : Prop :=
  ∀ a, (P a → relocateCell rules (m.get? a) = .ok (t.get? a)) ∧ (¬ P a → t.get? a = m.get? a)

namespace RenamedAt

variable {P Q : Address → Prop} {m t u : Memory}

/-- No cell is renamed when nothing changes. -/
theorem none (m : Memory) (hP : ∀ a, ¬ P a) : RenamedAt rules P m m :=
  fun a => ⟨fun ha => absurd ha (hP a), fun _ => rfl⟩

/-- A renamed cell that was written holds the relocated value. -/
theorem exists_get? (h : RenamedAt rules P m t) {a : Address} {v : Value} (ha : P a)
    (hv : m.get? a = some v) : ∃ w, relocateValue rules v = .ok w ∧ t.get? a = some w := by
  have hcell := (h a).1 ha
  rw [hv] at hcell
  exact relocateCell_some.mp hcell

/-- A renamed cell that is written holds the relocated value of what it held before. -/
theorem exists_origin (h : RenamedAt rules P m t) {a : Address} {w : Value} (ha : P a)
    (hw : t.get? a = some w) : ∃ v, m.get? a = some v ∧ relocateValue rules v = .ok w := by
  have hcell := (h a).1 ha
  rw [hw] at hcell
  cases hv : m.get? a with
  | none =>
    rw [hv] at hcell
    cases relocateCell_none hcell
  | some v =>
    rw [hv] at hcell
    obtain ⟨w', hw', heq⟩ := relocateCell_some.mp hcell
    obtain rfl := Option.some.inj heq
    exact ⟨v, rfl, hw'⟩

/-- Cells at different addresses can be renamed one after another. -/
theorem add (h : RenamedAt rules P m t) (h' : RenamedAt rules Q t u) (hPQ : ∀ a, P a → ¬ Q a) :
    RenamedAt rules (fun a => P a ∨ Q a) m u := by
  intro a
  constructor
  · rintro (ha | ha)
    · rw [(h' a).2 (hPQ a ha)]
      exact (h a).1 ha
    · rw [← (h a).2 fun hp => hPQ a hp ha]
      exact (h' a).1 ha
  · intro ha
    rw [(h' a).2 fun hq => ha (.inr hq), (h a).2 fun hp => ha (.inl hp)]

/-- It only matters at which written cells a renaming takes place. -/
theorem congr (h : RenamedAt rules P m t) (hPQ : ∀ a v, m.get? a = some v → (P a ↔ Q a)) :
    RenamedAt rules Q m t := by
  intro a
  cases hv : m.get? a with
  | none =>
    -- Both readings say that the cell is not written afterwards.
    have hnone : t.get? a = Option.none := by
      by_cases hp : P a
      · have hcell := (h a).1 hp
        rw [hv] at hcell
        exact relocateCell_none hcell
      · rw [(h a).2 hp, hv]
    exact ⟨fun _ => by rw [hnone]; rfl, fun _ => hnone⟩
  | some v =>
    rw [← hPQ a v hv, ← hv]
    exact h a

end RenamedAt

/-- Renaming a cell renames this cell. -/
theorem renamedAt_renameCell {i : Int} {offset : Nat} {m t : Memory}
    (h : renameCell rules i offset m = .ok () t) :
    RenamedAt rules (fun a => a.segment = i ∧ a.offset = offset) m t := by
  unfold renameCell at h
  obtain ⟨_, _, hget, h⟩ := Action.bind_eq_ok.mp h
  obtain ⟨rfl, rfl⟩ := Action.get_eq_ok.mp hget
  have hcell : ∀ a : Address, a.segment = i → a.offset = offset →
      m.get? a = (m.segment? i).bind (·[offset]?.join) := by
    rintro a rfl rfl
    rfl
  cases hv : (m.segment? i).bind (·[offset]?.join) with
  | none =>
    rw [hv] at h hcell
    obtain ⟨-, rfl⟩ := Action.pure_eq_ok.mp h
    refine fun a => ⟨fun ha => ?_, fun _ => rfl⟩
    rw [hcell a ha.1 ha.2]
    rfl
  | some v =>
    rw [hv] at h hcell
    obtain ⟨w, _, hlift, h⟩ := Action.bind_eq_ok.mp h
    obtain ⟨hw, rfl⟩ := Action.lift_eq_ok.mp hlift
    obtain rfl := Action.modify_eq_ok.mp h
    obtain ⟨s, hs, hsv⟩ := Option.bind_eq_some_iff.mp hv
    have hsize : offset < s.size := by
      by_contra hge
      rw [Array.getElem?_eq_none (Nat.not_lt.mp hge)] at hsv
      cases hsv
    intro a
    constructor
    · rintro ⟨hseg, hoff⟩
      rw [hcell a hseg hoff, get?_modifySegment_self hs hseg, hoff,
        Array.getElem?_setIfInBounds_self, if_pos hsize]
      exact relocateCell_some.mpr ⟨w, hw, rfl⟩
    · intro ha
      by_cases hseg : a.segment = i
      · have hne : offset ≠ a.offset := fun hoff => ha ⟨hseg, hoff.symm⟩
        rw [get?_modifySegment_self hs hseg, Array.getElem?_setIfInBounds_ne hne, get?_eq, hseg, hs]
        rfl
      · rw [get?_modifySegment_of_ne hseg]

/-- Renaming the real segments renames the cells in them. -/
theorem renamedAt_renameReal {m t : Memory} (h : renameReal rules m = .ok () t) :
    RenamedAt rules (fun a => 0 ≤ a.segment) m t := by
  unfold renameReal at h
  obtain ⟨_, _, hget, h⟩ := Action.bind_eq_ok.mp h
  obtain ⟨rfl, rfl⟩ := Action.get_eq_ok.mp hget
  have hsegment : ∀ (n : Nat) (u v : Memory),
      ((List.range (m.segments.getD n #[]).size).forM fun offset => renameCell rules n offset) u =
        .ok () v →
      RenamedAt rules (fun a => a.segment = n ∧ a.offset < (m.segments.getD n #[]).size) u v := by
    intro n u v hrun
    refine Action.forM_range_ok
      (fun k w => RenamedAt rules (fun a => a.segment = n ∧ a.offset < k) u w)
      hrun (.none u fun a ha => absurd ha.2 (Nat.not_lt_zero _)) ?_
    intro k w w' _ hrenamed hcell
    refine (hrenamed.add (renamedAt_renameCell hcell) fun a ha hk => ?_).congr fun a _ _ => ?_
    · exact absurd hk.2 (Nat.ne_of_lt ha.2)
    · rw [← and_or_left, Nat.lt_succ_iff_lt_or_eq]
  have hall : RenamedAt rules
      (fun a => ∃ n : Nat, n < m.segments.size ∧ a.segment = n ∧
        a.offset < (m.segments.getD n #[]).size) m t := by
    refine Action.forM_range_ok (fun k w => RenamedAt rules
      (fun a => ∃ n : Nat, n < k ∧ a.segment = n ∧ a.offset < (m.segments.getD n #[]).size) m w)
      h (.none m fun a ha => absurd ha.choose_spec.1 (Nat.not_lt_zero _)) ?_
    intro k w w' _ hrenamed hrun
    refine (hrenamed.add (hsegment k w w' hrun) ?_).congr fun a _ _ => ?_
    · rintro a ⟨n, hn, hseg, -⟩ ⟨hseg', -⟩
      omega
    · constructor
      · rintro (⟨n, hn, ha⟩ | ha)
        · exact ⟨n, Nat.lt_succ_of_lt hn, ha⟩
        · exact ⟨k, Nat.lt_succ_self k, ha⟩
      · rintro ⟨n, hn, ha⟩
        rcases Nat.lt_succ_iff_lt_or_eq.mp hn with hlt | rfl
        · exact .inl ⟨n, hlt, ha⟩
        · exact .inr ha
  refine hall.congr fun a v hv => ⟨?_, fun hreal => ?_⟩
  · rintro ⟨n, -, hseg, -⟩
    omega
  · obtain ⟨s, hs, hsv⟩ := segment?_of_get? hv
    obtain ⟨n, hn⟩ := Int.eq_ofNat_of_zero_le hreal
    rw [hn] at hs
    have hs' : m.segments[n]? = some s := hs
    obtain ⟨hlt, rfl⟩ := Array.getElem?_eq_some_iff.mp hs'
    refine ⟨n, hlt, hn, ?_⟩
    rw [Array.getD_eq_getD_getElem?, hs', Option.getD_some]
    by_contra hge
    rw [Array.getElem?_eq_none (Nat.not_lt.mp hge)] at hsv
    cases hsv

/-- Renaming a segment renames the cells in it. -/
theorem renamedAt_renameSegment {i : Int} {m t : Memory}
    (h : renameSegment rules i m = .ok () t) :
    RenamedAt rules (fun a => a.segment = i) m t := by
  unfold renameSegment at h
  obtain ⟨_, _, hget, h⟩ := Action.bind_eq_ok.mp h
  obtain ⟨rfl, rfl⟩ := Action.get_eq_ok.mp hget
  cases hs : m.segment? i with
  | none =>
    rw [hs] at h
    obtain ⟨-, rfl⟩ := Action.pure_eq_ok.mp h
    refine fun a => ⟨?_, fun _ => rfl⟩
    rintro rfl
    rw [get?_of_segment?_eq_none hs]
    rfl
  | some s =>
    rw [hs] at h
    obtain ⟨cells, _, hlift, h⟩ := Action.bind_eq_ok.mp h
    obtain ⟨hcells, rfl⟩ := Action.lift_eq_ok.mp hlift
    obtain rfl := Action.modify_eq_ok.mp h
    rw [Array.mapM_eq_mapM_toList] at hcells
    obtain ⟨l, hl, rfl⟩ := Answer.map_eq_ok.mp hcells
    refine fun a => ⟨?_, fun ha => get?_modifySegment_of_ne ha⟩
    rintro rfl
    obtain ⟨hnone, hsome⟩ := Answer.getElem?_of_mapM hl a.offset
    rw [get?_modifySegment_self hs rfl, get?_eq, hs, List.getElem?_toArray]
    rw [Array.getElem?_toList] at hnone hsome
    rw [Option.bind_some]
    cases hcell : s[a.offset]? with
    | none =>
      rw [hnone hcell]
      rfl
    | some c =>
      obtain ⟨c', hc', hl'⟩ := hsome c hcell
      rw [hl']
      exact hc'

section Segments

variable {R : Memory → Memory → Prop} [IsPreorder Memory R]

/-- Renaming a cell respects what changes of its segment that keep the shape respect. -/
theorem respects_renameCell {i : Int} (offset : Nat)
    (hR : ∀ m f, (∀ s, m.segment? i = some s → s.SameShape (f s)) → R m (modifySegment m i f)) :
    Action.Respects R (renameCell rules i offset) := by
  unfold renameCell
  refine .get_bind fun m => ?_
  split
  · exact refl m
  · rename_i v hv
    refine Action.Respects.rel_lift_bind fun w _ => hR m _ fun s hs => ?_
    rw [hs, Option.bind_some] at hv
    refine ⟨Array.size_setIfInBounds, fun p => ?_⟩
    rw [Array.getElem?_setIfInBounds]
    split
    · rename_i hp
      obtain rfl := hp
      obtain ⟨hlt, -⟩ := Array.getElem?_eq_some_iff.mp (Option.join_eq_some_iff.mp hv)
      rw [if_pos hlt, hv]
      rfl
    · rfl

/-- Renaming the real segments respects what changes of real segments that keep the shape
respect. -/
theorem respects_renameReal (hR : ∀ m (n : Nat) f,
    (∀ s, m.segment? n = some s → s.SameShape (f s)) → R m (modifySegment m n f)) :
    Action.Respects R (renameReal rules) :=
  .bind .get fun _ => .forM fun n _ => .forM fun offset _ =>
    respects_renameCell offset fun m => hR m n

/-- Cells that are renamed are written when they were. -/
theorem isSome_of_relocateCell {c c' : Option Value} (h : relocateCell rules c = .ok c') :
    c'.isSome = c.isSome := by
  cases c with
  | none => rw [relocateCell_none h]
  | some v =>
    obtain ⟨w, -, rfl⟩ := relocateCell_some.mp h
    rfl

/-- Renaming a segment respects what changes of this segment that keep the shape respect. -/
theorem respects_renameSegment {i : Int}
    (hR : ∀ m f, (∀ s, m.segment? i = some s → s.SameShape (f s)) → R m (modifySegment m i f)) :
    Action.Respects R (renameSegment rules i) := by
  unfold renameSegment
  refine .get_bind fun m => ?_
  split
  · exact refl m
  · rename_i s hs
    refine Action.Respects.rel_lift_bind fun cells hcells => hR m _ fun s' hs' => ?_
    obtain rfl := Option.some.inj (hs.symm.trans hs')
    rw [Array.mapM_eq_mapM_toList] at hcells
    obtain ⟨l, hl, rfl⟩ := Answer.map_eq_ok.mp hcells
    refine ⟨?_, fun p => ?_⟩
    · rw [List.size_toArray, Answer.length_of_mapM hl, Array.length_toList]
    · obtain ⟨hnone, hsome⟩ := Answer.getElem?_of_mapM hl p
      rw [Array.getElem?_toList] at hnone hsome
      rw [List.getElem?_toArray]
      cases hp : s[p]? with
      | none => rw [hnone hp]
      | some c =>
        obtain ⟨c', hc', hp'⟩ := hsome c hp
        rw [hp']
        exact isSome_of_relocateCell hc'

/-- Moving a cell respects what insertions of relocated values into the segment of the destination
respect, if it does not depend on marks. -/
theorem respects_moveCell {dst : Address}
    (hinsert : ∀ b w, b.segment = dst.segment → (∃ v, relocateValue rules v = .ok w) →
      Action.Respects R (insert b w))
    (hmark : ∀ m t, Marked m t → R m t) (marked : Bool) (offset : Nat) (v : Value) :
    Action.Respects R (moveCell rules dst marked offset v) := by
  unfold moveCell
  refine .lift_bind fun b hb => .lift_bind fun w hw => .bind ?_ fun _ => ?_
  · exact hinsert b w (Address.shift_eq_ok.mp hb).1 ⟨v, hw⟩
  · split
    · exact .modify fun m => hmark m _ ⟨_, rfl⟩
    · exact .pure _

/-- Moving the cells of a segment respects what insertions of relocated values into the segment of
the destination respect, if it does not depend on marks. -/
theorem respects_moveCells {dst : Address}
    (hinsert : ∀ b w, b.segment = dst.segment → (∃ v, relocateValue rules v = .ok w) →
      Action.Respects R (insert b w))
    (hmark : ∀ m t, Marked m t → R m t) (i : Int) (marks : AddressSet) (rounds offset : Nat) :
    Action.Respects R (moveCells rules i dst marks rounds offset) := by
  induction rounds generalizing offset with
  | zero => exact .pure _
  | succ rounds ih =>
    unfold moveCells
    refine .bind .get fun m => ?_
    split
    · exact .pure _
    · dsimp only
      split
      · exact ih (offset + 1)
      · exact .bind (respects_moveCell hinsert hmark _ offset _) fun _ => ih (offset + 1)

/-- Moving a segment respects what insertions of relocated values into the segment of the
destination and emptying the segment respect, if it does not depend on marks. -/
theorem respects_moveSegment {i : Int} {dst : Address}
    (hinsert : ∀ b w, b.segment = dst.segment → (∃ v, relocateValue rules v = .ok w) →
      Action.Respects R (insert b w))
    (hmark : ∀ m t, Marked m t → R m t) (hempty : ∀ m, R m (modifySegment m i fun _ => #[])) :
    Action.Respects R (moveSegment rules i dst) :=
  .bind .get fun m => .bind (.modify fun m => hmark m _ ⟨_, rfl⟩) fun _ =>
    .bind (respects_moveCells hinsert hmark i m.accessed _ 0) fun _ => .modify hempty

/-- Relocating by rules respects what renaming in segments, moving them and dropping the rules
respect. -/
theorem respects_relocateBy (hreal : Action.Respects R (renameReal rules))
    (hrename : ∀ n, Action.Respects R (renameSegment rules (Int.negSucc n)))
    (hmove : ∀ n dst, Action.Respects R (moveSegment rules (Int.negSucc n) dst))
    (hdrop : ∀ m : Memory, R m { m with relocations := [] }) :
    Action.Respects R (relocateBy rules) := by
  refine .bind hreal fun _ => .bind (.bind .get fun m => .forM fun n _ => ?_) fun _ => .modify hdrop
  split
  · exact hrename n
  · exact hmove n _

/-- Relocating respects what relocating by any rules respects. -/
theorem respects_relocate (h : ∀ rules, Action.Respects R (relocateBy rules)) :
    Action.Respects R relocate := by
  refine .bind .get fun m => ?_
  split
  · exact .pure _
  · exact .bind (.lift _) h

end Segments

/-- Renaming the real segments touches no others. -/
theorem touches_renameReal : Action.Respects (Touches (0 ≤ ·)) (renameReal rules) := by
  refine respects_renameReal fun _ n _ _ => (touches_modifySegment _ n _).mono ?_
  rintro _ rfl
  exact Int.natCast_nonneg n

/-- Renaming a segment touches no other one. -/
theorem touches_renameSegment (i : Int) :
    Action.Respects (Touches (· = i)) (renameSegment rules i) :=
  respects_renameSegment fun m f _ => touches_modifySegment m i f

/-- Moving the cells of a segment touches the segment of the destination. -/
theorem touches_moveCells (i : Int) (dst : Address) (marks : AddressSet) (rounds offset : Nat) :
    Action.Respects (Touches (· = dst.segment)) (moveCells rules i dst marks rounds offset) :=
  respects_moveCells (fun b w hb _ => hb ▸ touches_insert b w)
    (fun _ _ h => h.touches _) i marks rounds offset

/-! ## Moving -/

/-- A cell is found, renamed, at its place in the destination. -/
def MovedTo (rules : Relocations) (dst a : Address) (v : Value) (b : Address) (w : Value) : Prop :=
  dst.shift a.offset = .ok b ∧ relocateValue rules v = .ok w

/-- Moving a cell writes it, renamed, at its place in the destination, and changes no other one. -/
theorem moveCell_ok {dst : Address} {marked : Bool} {offset : Nat} {v : Value} {m t : Memory}
    (h : moveCell rules dst marked offset v m = .ok () t) :
    ∃ b w, dst.shift offset = .ok b ∧ relocateValue rules v = .ok w ∧ m.Extends t ∧
      ∀ c, t.get? c = if c = b then some w else m.get? c := by
  unfold moveCell at h
  obtain ⟨b, _, hlift, h⟩ := Action.bind_eq_ok.mp h
  obtain ⟨hb, rfl⟩ := Action.lift_eq_ok.mp hlift
  obtain ⟨w, _, hlift, h⟩ := Action.bind_eq_ok.mp h
  obtain ⟨hw, rfl⟩ := Action.lift_eq_ok.mp hlift
  obtain ⟨_, u, hinsert, h⟩ := Action.bind_eq_ok.mp h
  have hmarked : u.Marked t := by
    cases marked with
    | false =>
      obtain ⟨-, rfl⟩ := Action.pure_eq_ok.mp h
      exact refl u
    | true =>
      obtain rfl := Action.modify_eq_ok.mp h
      exact ⟨_, rfl⟩
  refine ⟨b, w, hb, hw, fun c x hc => ?_, fun c => ?_⟩
  · rw [hmarked.get?_eq]
    exact (respects_insert b w).of_ok hinsert c x hc
  · rw [hmarked.get?_eq]
    exact get?_of_insert_ok hinsert c

/-- What moving the cells of a segment, from an offset on and for a number of rounds, does to a
memory. -/
structure MovesCells (rules : Relocations) (i : Int) (dst : Address) (start stop : Nat)
    (m t : Memory) : Prop where
  /-- What was written stays. -/
  keeps : m.Extends t
  /-- The cells of the segment itself are as before. -/
  source : ∀ a, a.segment = i → t.get? a = m.get? a
  /-- The cells of the segment are found in the destination. -/
  arrives : ∀ a v, a.segment = i → start ≤ a.offset → a.offset < stop → m.get? a = some v →
    ∃ b w, MovedTo rules dst a v b w ∧ t.get? b = some w
  /-- No other cells are new. -/
  origin : ∀ b w, t.get? b = some w → m.get? b = some w ∨
    ∃ a v, a.segment = i ∧ m.get? a = some v ∧ MovedTo rules dst a v b w

/-- Nothing moves where the segment has no cells. -/
theorem MovesCells.none {i : Int} {dst : Address} {start stop : Nat} {m : Memory}
    (h : ∀ a, a.segment = i → start ≤ a.offset → a.offset < stop → m.get? a = none) :
    MovesCells rules i dst start stop m m where
  keeps := refl m
  source _ _ := rfl
  arrives a v hseg hstart hstop hv := by
    rw [h a hseg hstart hstop] at hv
    cases hv
  origin _ _ := .inl

/-- Moving the first cell of a range, if it is written, and then the others. -/
theorem MovesCells.cons {i : Int} {dst : Address} {start stop : Nat} {m t u : Memory}
    (hfirst : MovesCells rules i dst start (start + 1) m t)
    (hrest : MovesCells rules i dst (start + 1) stop t u) :
    MovesCells rules i dst start stop m u where
  keeps a v hv := hrest.keeps a v (hfirst.keeps a v hv)
  source a ha := (hrest.source a ha).trans (hfirst.source a ha)
  arrives a v hseg hstart hstop hv := by
    rcases Nat.eq_or_lt_of_le hstart with rfl | hlt
    · obtain ⟨b, w, hmoved, hb⟩ := hfirst.arrives a v hseg (Nat.le_refl _) (Nat.lt_succ_self _) hv
      exact ⟨b, w, hmoved, hrest.keeps b w hb⟩
    · exact hrest.arrives a v hseg hlt hstop (hfirst.keeps a v hv)
  origin b w hb := by
    rcases hrest.origin b w hb with hb' | ⟨a, v, hseg, hv, hmoved⟩
    · exact hfirst.origin b w hb'
    · rw [hfirst.source a hseg] at hv
      exact .inr ⟨a, v, hseg, hv, hmoved⟩

/-- Moving a cell moves the range that it makes up. -/
theorem movesCells_moveCell {i : Int} {dst a : Address} {marked : Bool} {v : Value}
    {m t : Memory} (hdst : dst.segment ≠ i) (ha : a.segment = i) (hv : m.get? a = some v)
    (h : moveCell rules dst marked a.offset v m = .ok () t) :
    MovesCells rules i dst a.offset (a.offset + 1) m t := by
  obtain ⟨b, w, hb, hw, hkeeps, hcells⟩ := moveCell_ok h
  have hseg : b.segment ≠ i := by
    rwa [(Address.shift_eq_ok.mp hb).1]
  refine ⟨hkeeps, fun c hc => ?_, fun c x hc hstart hstop hx => ?_, fun c x hc => ?_⟩
  · rw [hcells, if_neg]
    rintro rfl
    exact hseg hc
  · obtain rfl : c = a := Address.ext (hc.trans ha.symm) (by omega)
    obtain rfl := Option.some.inj (hx.symm.trans hv)
    exact ⟨b, w, ⟨hb, hw⟩, by rw [hcells, if_pos rfl]⟩
  · rw [hcells] at hc
    by_cases heq : c = b
    · rw [if_pos heq] at hc
      obtain rfl := Option.some.inj hc
      exact .inr ⟨a, v, ha, hv, by rw [heq]; exact ⟨hb, hw⟩⟩
    · rw [if_neg heq] at hc
      exact .inl hc

/-- Moving the cells of a segment, in rounds, moves its written cells one by one.  A relation
between the memories before and after holds of the whole if it holds of a range without cells and
of a single cell, and passes from the first cell of a range and the others to the range. -/
theorem moveCells_induction {i : Int} {dst : Address} {marks : AddressSet}
    {R : Nat → Nat → Memory → Memory → Prop}
    (none : ∀ {start stop : Nat} {m : Memory},
      (∀ a, a.segment = i → start ≤ a.offset → a.offset < stop → m.get? a = none) →
      R start stop m m)
    (cell : ∀ {a : Address} {v : Value} {m t : Memory}, a.segment = i → m.get? a = some v →
      moveCell rules dst (marks.contains a) a.offset v m = .ok () t →
      R a.offset (a.offset + 1) m t)
    (cons : ∀ {start stop : Nat} {m t u : Memory}, start < stop →
      R start (start + 1) m t → R (start + 1) stop t u → R start stop m u)
    {rounds offset : Nat} {m t : Memory}
    (h : moveCells rules i dst marks rounds offset m = .ok () t) :
    R offset (offset + rounds) m t := by
  induction rounds generalizing offset m with
  | zero =>
    obtain ⟨-, rfl⟩ := Action.pure_eq_ok.mp h
    exact none fun a _ hstart hstop => by omega
  | succ rounds ih =>
    unfold moveCells at h
    obtain ⟨_, _, hget, h⟩ := Action.bind_eq_ok.mp h
    obtain ⟨rfl, rfl⟩ := Action.get_eq_ok.mp hget
    have hcons : ∀ {u : Memory}, R offset (offset + 1) m u →
        moveCells rules i dst marks rounds (offset + 1) u = .ok () t →
        R offset (offset + (rounds + 1)) m t := by
      intro u hfirst hrest
      rw [← Nat.succ_add_eq_add_succ]
      exact cons (by omega) hfirst (ih hrest)
    cases hcell : (m.segment? i).bind (·[offset]?) with
    | none =>
      -- The segment ends here, so none of its cells is left.
      rw [hcell] at h
      obtain ⟨-, rfl⟩ := Action.pure_eq_ok.mp h
      refine none fun a hseg hstart _ => ?_
      rw [get?_eq, hseg]
      cases hs : m.segment? i with
      | none => rfl
      | some s =>
        rw [hs, Option.bind_some, Array.getElem?_eq_none_iff] at hcell
        rw [Option.bind_some, Array.getElem?_eq_none (hcell.trans hstart)]
        rfl
    | some found =>
      rw [hcell] at h
      have hview : ∀ a : Address, a.segment = i → a.offset = offset → m.get? a = found := by
        rintro a rfl rfl
        obtain ⟨s, hs, hsv⟩ := Option.bind_eq_some_iff.mp hcell
        rw [get?_eq, hs, Option.bind_some, hsv]
        rfl
      cases found with
      | none => exact hcons (none fun a hseg hstart hstop => hview a hseg (by omega)) h
      | some v =>
        obtain ⟨_, u, hmove, hrest⟩ := Action.bind_eq_ok.mp h
        refine hcons ?_ hrest
        obtain ⟨b, -, hb, -⟩ := moveCell_ok hmove
        have hoffset : offset < offsetBound := by
          have hsum := (Address.shift_eq_ok.mp hb).2
          have hlt := b.offset_lt
          omega
        have ha : Address.mk? i offset = some ⟨i, offset, hoffset⟩ :=
          Address.mk?_eq_some_iff.mpr ⟨rfl, rfl⟩
        rw [ha] at hmove
        exact cell rfl (hview _ rfl rfl) hmove

/-- Moving the cells of a segment, in rounds, moves a range of them. -/
theorem movesCells_moveCells {i : Int} {dst : Address} {marks : AddressSet} {rounds offset : Nat}
    {m t : Memory} (hdst : dst.segment ≠ i)
    (h : moveCells rules i dst marks rounds offset m = .ok () t) :
    MovesCells rules i dst offset (offset + rounds) m t :=
  moveCells_induction .none (movesCells_moveCell hdst) (fun _ => .cons) h

/-- An emptied segment has no cells, and the other segments are as before. -/
theorem get?_emptied (m : Memory) (i : Int) (a : Address) :
    (m.modifySegment i fun _ => #[]).get? a = if a.segment = i then none else m.get? a := by
  by_cases hseg : a.segment = i
  · rw [if_pos hseg]
    cases hs : m.segment? i with
    | none =>
      apply get?_of_segment?_eq_none
      rw [segment?_modifySegment, if_pos hseg, hs]
      rfl
    | some s =>
      rw [get?_modifySegment_self hs hseg]
      rfl
  · rw [if_neg hseg, get?_modifySegment_of_ne hseg]

/-- Moving a segment takes away the marks of its cells, moves its cells in enough rounds for all of
them, and then empties it. -/
theorem moveSegment_inv {i : Int} {dst : Address} {m t : Memory}
    (h : moveSegment rules i dst m = .ok () t) :
    ∃ rounds u, offsetBound ≤ rounds ∧
      moveCells rules i dst m.accessed rounds 0
        { m with accessed := m.accessed.filter (·.segment ≠ i) } = .ok () u ∧
      t = u.modifySegment i fun _ => #[] := by
  unfold moveSegment at h
  obtain ⟨_, _, hget, h⟩ := Action.bind_eq_ok.mp h
  obtain ⟨rfl, rfl⟩ := Action.get_eq_ok.mp hget
  obtain ⟨_, _, hmodify, h⟩ := Action.bind_eq_ok.mp h
  obtain rfl := Action.modify_eq_ok.mp hmodify
  obtain ⟨_, u, hcells, h⟩ := Action.bind_eq_ok.mp h
  obtain rfl := Action.modify_eq_ok.mp h
  exact ⟨_, u, Nat.le_add_left _ _, hcells, rfl⟩

/-- Moving a segment moves all its cells and then empties it. -/
theorem moveSegment_ok {i : Int} {dst : Address} {m t : Memory} (hdst : dst.segment ≠ i)
    (h : moveSegment rules i dst m = .ok () t) :
    ∃ u stop, MovesCells rules i dst 0 stop m u ∧ offsetBound ≤ stop ∧
      ∀ a, t.get? a = if a.segment = i then none else u.get? a := by
  obtain ⟨rounds, u, hrounds, hcells, rfl⟩ := moveSegment_inv h
  have hmoves := movesCells_moveCells hdst hcells
  -- Taking the marks away first changes no cell.
  refine ⟨u, _, ⟨hmoves.keeps, hmoves.source, hmoves.arrives, hmoves.origin⟩, ?_, get?_emptied u i⟩
  omega

end Cairo.Memory
