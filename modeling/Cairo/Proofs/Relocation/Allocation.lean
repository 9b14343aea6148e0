import Cairo.Proofs.Memory.Insertions
import Cairo.Proofs.Relocation.Stages

/-!
# Relocating with more segments

`Grows p q` relates a memory to one that has the same cells and checks, and so many more segments
and temporary segments, which are empty; the marks may be any.  The steps of relocating end alike in
both memories, unless the first one lacks a segment (`mirrors_relocateFirst`).  With no segments
more, the memories differ in their marks only, and relocating ends alike in any case
(`mirrors_relocate`): marks have no part in anything but the marks.  Memories grow when segments are
allocated (`grows_afterCalls`).
-/

namespace Cairo.Memory

open Cairo.Action (Mirrors)

variable {rules : Relocations} {p q : Nat} {m n t u : Memory} {i : Int} {calls : List Call}

/-! ## More segments -/

/-- The second memory has the cells and checks of the first one, and numbers of empty segments and
temporary segments more. -/
structure Grows (p q : Nat) (m n : Memory) : Prop where
  kept : ∀ i s, m.segment? i = some s → n.segment? i = some s
  added : ∀ i, m.segment? i = none → n.segment? i = none ∨ n.segment? i = some #[]
  segments : n.segments.size = m.segments.size + p
  temporaries : n.temporaries.size = m.temporaries.size + q
  rules : n.rules = m.rules
  validated : n.validated = m.validated
  relocations : n.relocations = m.relocations

/-- The fault is that a segment is missing, of which there are more in the second memory. -/
def IsMended (p q : Nat) (e : Fault) : Prop := p + q ≠ 0 ∧ ∃ i k, e = .unallocatedSegment i k

namespace Grows

/-- A memory grows by nothing if only its marks change. -/
theorem of_marked (h : m.Marked n) : Grows 0 0 m n := by
  obtain ⟨_, rfl⟩ := h
  exact ⟨fun _ _ => id, fun _ => .inl, rfl, rfl, rfl, rfl, rfl⟩

/-- Memories grow in two steps. -/
theorem trans {p' q' : Nat} (h : Grows p q m n) (h' : Grows p' q' n t) :
    Grows (p + p') (q + q') m t := by
  refine ⟨fun i s hs => h'.kept i s (h.kept i s hs), fun i hi => ?_, ?_, ?_,
    h'.rules.trans h.rules, h'.validated.trans h.validated, h'.relocations.trans h.relocations⟩
  · rcases h.added i hi with hnone | hempty
    · exact h'.added i hnone
    · exact .inr (h'.kept i _ hempty)
  · rw [h'.segments, h.segments, Nat.add_assoc]
  · rw [h'.temporaries, h.temporaries, Nat.add_assoc]

/-- Marks do not count. -/
theorem marked (h : Grows p q m n) (hm : m.Marked t) (hn : n.Marked u) : Grows p q t u := by
  obtain ⟨_, rfl⟩ := hm
  obtain ⟨_, rfl⟩ := hn
  exact ⟨h.kept, h.added, h.segments, h.temporaries, h.rules, h.validated, h.relocations⟩

/-- What is looked up in a segment, and not found in an empty one, is the same. -/
theorem bind_segment? {α : Type} (h : Grows p q m n) (i : Int) {f : Segment → Option α}
    (hf : f #[] = none) : (n.segment? i).bind f = (m.segment? i).bind f := by
  cases hs : m.segment? i with
  | some s => rw [h.kept i s hs]
  | none =>
    rcases h.added i hs with hnone | hempty
    · rw [hnone]
    · rw [hempty]
      exact hf

/-- The same cells are written. -/
theorem get?_eq (h : Grows p q m n) (a : Address) : n.get? a = m.get? a :=
  h.bind_segment? a.segment rfl

/-- A segment that is not allocated counts as an empty one. -/
theorem getD_segment? (h : Grows p q m n) (i : Int) :
    (n.segment? i).getD #[] = (m.segment? i).getD #[] := by
  cases hs : m.segment? i with
  | some s => rw [h.kept i s hs]
  | none =>
    rcases h.added i hs with hnone | hempty
    · rw [hnone]
    · rw [hempty]
      rfl

/-- The segments that are allocated are determined by their numbers. -/
theorem isSome_segment?_eq (h : Grows p q m n) (h' : Grows p q m t) (i : Int) :
    (n.segment? i).isSome = (t.segment? i).isSome := by
  have hsegments : n.segments.size = t.segments.size := h.segments.trans h'.segments.symm
  have htemporaries : n.temporaries.size = t.temporaries.size :=
    h.temporaries.trans h'.temporaries.symm
  rw [Bool.eq_iff_iff]
  cases i with
  | ofNat k =>
    show (n.segments[k]?).isSome = true ↔ (t.segments[k]?).isSome = true
    rw [isSome_getElem?, isSome_getElem?, hsegments]
  | negSucc k =>
    show (n.temporaries[k]?).isSome = true ↔ (t.temporaries[k]?).isSome = true
    rw [isSome_getElem?, isSome_getElem?, htemporaries]

/-- Memories that a memory grows to by the same numbers of segments, and that have the same marks,
are the same. -/
theorem unique (h : Grows p q m n) (h' : Grows p q m t) (hmarks : n.accessed = t.accessed) :
    n = t := by
  refine ext_segment? (fun i => ?_) (h.rules.trans h'.rules.symm)
    (h.validated.trans h'.validated.symm) (h.relocations.trans h'.relocations.symm) hmarks
  cases hs : m.segment? i with
  | some s => rw [h.kept i s hs, h'.kept i s hs]
  | none =>
    have hsome := h.isSome_segment?_eq h' i
    rcases h.added i hs with hn | hn <;> rcases h'.added i hs with ht | ht
    · rw [hn, ht]
    · rw [hn, ht] at hsome
      cases hsome
    · rw [hn, ht] at hsome
      cases hsome
    · rw [hn, ht]

/-- If no segments are added, only the marks differ. -/
theorem to_marked (h : Grows 0 0 m n) : m.Marked n :=
  ⟨n.accessed, h.unique (of_marked ⟨n.accessed, rfl⟩) rfl⟩

/-- Memories grow alike when the same segment is changed in both, if it is allocated in the first
one, or if the change leaves an empty segment empty. -/
theorem modify (h : Grows p q m n) {f : Segment → Segment}
    (hf : (m.segment? i).isSome ∨ f #[] = #[]) :
    Grows p q (m.modifySegment i f) (n.modifySegment i f) := by
  have hsize : ∀ m : Memory, (m.modifySegment i f).segments.size = m.segments.size ∧
      (m.modifySegment i f).temporaries.size = m.temporaries.size := fun m =>
    size_eq_of_allocated (touches_modifySegment m i f).allocated
  have hm := sameChecks_modifySegment m i f
  have hn := sameChecks_modifySegment n i f
  refine ⟨fun j s hs => ?_, fun j hj => ?_, ?_, ?_, hn.1.trans (h.rules.trans hm.1.symm),
    hn.2.trans (h.validated.trans hm.2.symm), ?_⟩
  · rw [segment?_modifySegment] at hs ⊢
    split at hs
    · rename_i hj
      obtain ⟨s', hs', rfl⟩ := Option.map_eq_some_iff.mp hs
      rw [if_pos hj, h.kept i s' hs']
      rfl
    · rename_i hj
      rw [if_neg hj]
      exact h.kept j s hs
  · rw [segment?_modifySegment] at hj ⊢
    split at hj
    · rename_i heq
      rw [if_pos heq]
      have hi := Option.map_eq_none_iff.mp hj
      rcases hf with hsome | hempty
      · rw [hi] at hsome
        cases hsome
      · rcases h.added i hi with hnone | hadded
        · exact .inl (by rw [hnone]; rfl)
        · exact .inr (by rw [hadded, Option.map_some, hempty])
    · rename_i hne
      rw [if_neg hne]
      exact h.added j hj
  · rw [(hsize n).1, (hsize m).1, h.segments]
  · rw [(hsize n).2, (hsize m).2, h.temporaries]
  · rw [sameRelocations_modifySegment, sameRelocations_modifySegment, h.relocations]

end Grows

/-! ## Allocating segments -/

/-- The call allocates a segment. -/
def Call.isAllocation : Call → Bool
  | addSegment => true
  | addTemporary => true
  | _ => false

/-- Behind an array of segments, there is nothing or an empty segment when one more is pushed. -/
theorem getElem?_push_cases {segments : Array Segment} {k : Nat} :
    (∀ s, segments[k]? = some s → (segments.push #[])[k]? = some s) ∧
      (segments[k]? = none →
        (segments.push #[])[k]? = none ∨ (segments.push #[])[k]? = some #[]) := by
  rw [Array.getElem?_push]
  by_cases hk : k = segments.size
  · rw [if_pos hk, Array.getElem?_eq_none (Nat.le_of_eq hk.symm)]
    exact ⟨nofun, fun _ => .inr rfl⟩
  · rw [if_neg hk]
    exact ⟨fun _ => id, .inl⟩

/-- A memory grows by a segment. -/
theorem grows_addSegment (m : Memory) : Grows 1 0 m (addSegment.after m) := by
  refine ⟨fun i s hs => ?_, fun i hi => ?_, Array.size_push .., rfl, rfl, rfl, rfl⟩
  · cases i with
    | ofNat k => exact getElem?_push_cases.1 s hs
    | negSucc k => exact hs
  · cases i with
    | ofNat k => exact getElem?_push_cases.2 hi
    | negSucc k => exact .inl hi

/-- A memory grows by a temporary segment. -/
theorem grows_addTemporary (m : Memory) : Grows 0 1 m (addTemporary.after m) := by
  refine ⟨fun i s hs => ?_, fun i hi => ?_, rfl, Array.size_push .., rfl, rfl, rfl⟩
  · cases i with
    | ofNat k => exact hs
    | negSucc k => exact getElem?_push_cases.1 s hs
  · cases i with
    | ofNat k => exact .inl hi
    | negSucc k => exact getElem?_push_cases.2 hi

/-- Calls that allocate segments make every memory grow by the same numbers of them, and leave its
marks as they are. -/
theorem grows_afterCalls (hcalls : ∀ c ∈ calls, c.isAllocation) :
    ∃ p q, ∀ m : Memory, Grows p q m (m.afterCalls calls) ∧ m.SameMarks (m.afterCalls calls) := by
  induction calls with
  | nil => exact ⟨0, 0, fun m => ⟨.of_marked ⟨m.accessed, rfl⟩, rfl⟩⟩
  | cons c calls ih =>
    obtain ⟨hc, hcalls⟩ := List.forall_mem_cons.mp hcalls
    obtain ⟨p, q, hrest⟩ := ih hcalls
    have hfirst : ∃ p q, ∀ m : Memory,
        Grows p q m (c.act.after m) ∧ m.SameMarks (c.act.after m) := by
      cases c with
      | addSegment => exact ⟨1, 0, fun m => ⟨grows_addSegment m, rfl⟩⟩
      | addTemporary => exact ⟨0, 1, fun m => ⟨grows_addTemporary m, rfl⟩⟩
      | _ => cases hc
    obtain ⟨p', q', hfirst⟩ := hfirst
    refine ⟨p' + p, q' + q, fun m => ⟨(hfirst m).1.trans (hrest _).1, ?_⟩⟩
    exact (hrest _).2.trans (hfirst m).2

/-! ## Steps that end alike -/

/-- Two runs end alike in memories of which the second one has more segments, unless the first one
lacks one of them. -/
abbrev EndAlike (p q : Nat) :
    EStateM.Result Fault Memory Unit → EStateM.Result Fault Memory Unit → Prop :=
  Mirrors (IsMended p q) (Grows p q)

section Steps

variable (h : Grows p q m n)

include h

/-- Checking a cell ends alike. -/
theorem mirrors_validateCell (a : Address) :
    EndAlike p q (validateCell a m) (validateCell a n) := by
  have hrules : n.rulesOf a.segment = m.rulesOf a.segment := by
    unfold rulesOf
    rw [h.rules]
  have hcheck : ∀ r, checkRule r n a = checkRule r m a := by
    intro r
    unfold checkRule read
    rw [h.get?_eq]
  unfold validateCell
  rw [Action.get_bind, Action.get_bind, hrules, h.validated]
  simp only [hcheck]
  split
  · exact .ok h
  · refine .bind (.forM (fun r _ s t hst => .lift _ hst) h) fun _ s t hst => .ok ?_
    refine ⟨hst.kept, hst.added, hst.segments, hst.temporaries, hst.rules, ?_, hst.relocations⟩
    show t.validated.insert a = s.validated.insert a
    rw [hst.validated]

/-- Inserting a value ends alike. -/
theorem mirrors_insert (a : Address) (v : Value) :
    EndAlike p q (insert a v m) (insert a v n) := by
  rw [insert_eq, insert_eq, h.get?_eq]
  cases hs : m.segment? a.segment with
  | none =>
    by_cases hpq : p + q = 0
    · obtain ⟨rfl, rfl⟩ : p = 0 ∧ q = 0 := by omega
      have hn : n.segment? a.segment = none := by
        obtain ⟨_, rfl⟩ := h.to_marked
        exact hs
      rw [hn, h.segments]
      exact .error h
    · exact .excepted ⟨hpq, _, _, rfl⟩
  | some s =>
    rw [h.kept _ s hs]
    dsimp only [Option.isNone_some]
    rw [if_neg Bool.false_ne_true, if_neg Bool.false_ne_true]
    cases m.get? a with
    | none => exact mirrors_validateCell (h.modify (.inl (Option.isSome_of_eq_some hs))) a
    | some old =>
      dsimp only
      split
      · exact mirrors_validateCell h a
      · exact .error h

/-- Renaming a cell ends alike. -/
theorem mirrors_renameCell (i : Int) (offset : Nat) :
    EndAlike p q (renameCell rules i offset m) (renameCell rules i offset n) := by
  unfold renameCell
  rw [Action.get_bind, Action.get_bind, h.bind_segment? i (by simp)]
  cases (m.segment? i).bind (·[offset]?.join) with
  | none => exact .ok h
  | some v =>
    exact .bind (.lift _ h) fun w s t hst => .ok (hst.modify (.inr (by simp)))

/-- Renaming the real segments ends alike: there is nothing to rename in those that are added. -/
theorem mirrors_renameReal : EndAlike p q (renameReal rules m) (renameReal rules n) := by
  have hsegment : ∀ k : Nat, n.segments.getD k #[] = m.segments.getD k #[] := by
    intro k
    rw [Array.getD_eq_getD_getElem?, Array.getD_eq_getD_getElem?]
    exact h.getD_segment? k
  unfold renameReal
  rw [Action.get_bind, Action.get_bind, h.segments, List.range_add]
  simp only [hsegment]
  refine .forM_append (fun k _ s t hst => ?_) (fun k hk t => ?_) h
  · exact .forM (fun offset _ s t hst => mirrors_renameCell hst k offset) hst
  · obtain ⟨j, -, rfl⟩ := List.mem_map.mp hk
    rw [Array.getD_eq_getD_getElem?, Array.getElem?_eq_none (Nat.le_add_right _ _)]
    rfl

/-- Renaming a segment ends alike. -/
theorem mirrors_renameSegment (i : Int) :
    EndAlike p q (renameSegment rules i m) (renameSegment rules i n) := by
  unfold renameSegment
  rw [Action.get_bind, Action.get_bind]
  cases hs : m.segment? i with
  | none =>
    rcases h.added i hs with hnone | hempty
    · rw [hnone]
      exact .ok h
    -- An empty segment is replaced by itself.
    · have hcells : (#[] : Segment).mapM (relocateCell rules) = .ok #[] := by
        rw [Array.mapM_eq_mapM_toList]
        rfl
      have hgrows : Grows p q m (n.modifySegment i fun _ => #[]) := by
        rwa [modifySegment_of_eq fun s hs' => Option.some.inj (hempty.symm.trans hs')]
      rw [hempty]
      dsimp only
      rw [hcells]
      exact .ok hgrows
  | some s =>
    rw [h.kept i s hs]
    cases hcells : s.mapM (relocateCell rules) with
    | error e =>
      dsimp only
      rw [hcells]
      exact .error h
    | ok cells =>
      dsimp only
      rw [hcells]
      exact .ok (h.modify (.inl (Option.isSome_of_eq_some hs)))

/-- Moving a cell ends alike, with its mark or without. -/
theorem mirrors_moveCell (dst : Address) (marked marked' : Bool) (offset : Nat) (v : Value) :
    EndAlike p q (moveCell rules dst marked offset v m)
      (moveCell rules dst marked' offset v n) := by
  unfold moveCell
  refine .bind (.lift _ h) fun a s t h => .bind (.lift _ h) fun w s t h =>
    .bind (mirrors_insert h a w) fun _ s t h => ?_
  split <;> split
  · exact .ok (h.marked ⟨_, rfl⟩ ⟨_, rfl⟩)
  · exact .ok (h.marked ⟨_, rfl⟩ ⟨_, rfl⟩)
  · exact .ok (h.marked ⟨_, rfl⟩ ⟨_, rfl⟩)
  · exact .ok h

omit h in
/-- Moving the cells of a segment ends alike, whatever marks are to be moved. -/
theorem mirrors_moveCells (i : Int) (dst : Address) (marks marks' : AddressSet)
    (rounds offset : Nat) (h : Grows p q m n) :
    EndAlike p q (moveCells rules i dst marks rounds offset m)
      (moveCells rules i dst marks' rounds offset n) := by
  induction rounds generalizing offset m n with
  | zero => exact .ok h
  | succ rounds ih =>
    unfold moveCells
    rw [Action.get_bind, Action.get_bind, h.bind_segment? i (f := (·[offset]?)) rfl]
    cases (m.segment? i).bind (·[offset]?) with
    | none => exact .ok h
    | some cell =>
      cases cell with
      | none => exact ih (offset + 1) h
      | some v =>
        exact .bind (mirrors_moveCell h dst _ _ offset v) fun _ _ _ h => ih (offset + 1) h

/-- Moving a segment ends alike. -/
theorem mirrors_moveSegment (i : Int) (dst : Address) :
    EndAlike p q (moveSegment rules i dst m) (moveSegment rules i dst n) := by
  unfold moveSegment
  rw [Action.get_bind, Action.get_bind, Action.modify_bind, Action.modify_bind, h.getD_segment?]
  refine .bind (mirrors_moveCells i dst _ _ _ 0 (h.marked ⟨_, rfl⟩ ⟨_, rfl⟩)) fun _ s t h => ?_
  exact .ok (h.modify (.inr rfl))

/-- A stage of relocating ends alike. -/
theorem mirrors_relocateTemporary (k : Nat) :
    EndAlike p q (relocateTemporary rules k m) (relocateTemporary rules k n) := by
  unfold relocateTemporary
  cases rules.lookup (Int.negSucc k) with
  | none => exact mirrors_renameSegment h _
  | some dst => exact mirrors_moveSegment h _ dst

/-- The first stages of relocating end alike. -/
theorem mirrors_relocateFirst (k : Nat) :
    EndAlike p q (relocateFirst rules k m) (relocateFirst rules k n) :=
  .bind (mirrors_renameReal h) fun _ _ _ h =>
    .forM (fun k _ _ _ h => mirrors_relocateTemporary h k) h

omit h in
/-- Relocating ends alike if no temporary segments are added. -/
theorem mirrors_relocate (h : Grows p 0 m n) : EndAlike p 0 (relocate m) (relocate n) := by
  unfold relocate
  rw [Action.get_bind, Action.get_bind, h.relocations]
  split
  · exact .ok h
  · refine .bind (.lift _ h) fun rules s t h => ?_
    rw [relocateBy_eq, relocateBy_eq, h.temporaries]
    refine .bind (mirrors_relocateFirst h _) fun _ s t h => .ok ?_
    exact ⟨h.kept, h.added, h.segments, h.temporaries, h.rules, h.validated, rfl⟩

end Steps

end Cairo.Memory
