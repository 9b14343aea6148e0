import Cairo.Proofs.Memory.WriteOnce

/-!
# Segments fit the offsets

A property of segments that persists when a cell is written, whatever was in it, and that segments
without cells have, is a property of all segments of a memory that is made by calls
(`all_afterCalls`).  One such property is about their lengths.  The cells of a segment have
addresses as long as their offsets stay below `offsetBound`.  Segments only grow up to a cell that
is written, and that cell has an address; so a memory that is made by calls has no cells without
addresses (`fits_afterCalls`).
-/

namespace Cairo

/-- A property that segments have when they are allocated or emptied, and keep when a cell is
written or the values in them are replaced. -/
structure Segment.Persists (P : Segment → Prop) : Prop where
  empty : P #[]
  write : ∀ (s : Segment) (a : Address) (v : Value), P s → P (s.write a.offset v)
  replace : ∀ s t : Segment, s.SameShape t → P s → P t

namespace Memory

variable {m t : Memory} {P : Segment → Prop}

/-! ## Properties of all segments -/

/-- All segments of the memory have a property. -/
def All (P : Segment → Prop) (m : Memory) : Prop := ∀ i s, m.segment? i = some s → P s

/-- If all segments of the first memory have a property, those of the second one have it. -/
def KeepsAll (P : Segment → Prop) (m t : Memory) : Prop := m.All P → t.All P

instance (P : Segment → Prop) : IsPreorder Memory (KeepsAll P) where
  refl _ := id
  trans _ _ _ h h' := h' ∘ h

/-- The memory without segments has none that lack a property. -/
theorem all_empty (P : Segment → Prop) : empty.All P := by
  rintro (n | n) s hs
  · exact absurd hs (by simp [segment?, empty])
  · exact absurd hs (by simp [segment?, empty])

/-- A property of all segments stays with the segments. -/
theorem keepsAll_of_segment? (h : ∀ i s, t.segment? i = some s → m.segment? i = some s) :
    m.KeepsAll P t :=
  fun hm i s hs => hm i s (h i s hs)

/-- A property of all segments stays when a segment is changed that has it afterwards. -/
theorem keepsAll_modifySegment {i : Int} {f : Segment → Segment}
    (hf : ∀ s, m.segment? i = some s → P s → P (f s)) : m.KeepsAll P (m.modifySegment i f) := by
  intro hm j s hs
  rw [segment?_modifySegment] at hs
  split at hs
  · obtain ⟨s', hs', rfl⟩ := Option.map_eq_some_iff.mp hs
    exact hf s' hs' (hm i s' hs')
  · exact hm j s hs

/-- A property of all segments that the empty one has stays when a segment is allocated. -/
theorem keepsAll_addSegment (hP : P #[]) : Action.Respects (KeepsAll P) addSegment := by
  rintro m hm (n | n) s hs
  · have hs' : (m.segments.push #[])[n]? = some s := hs
    rw [Array.getElem?_push] at hs'
    split at hs'
    · obtain rfl := Option.some.inj hs'
      exact hP
    · exact hm n s hs'
  · exact hm (Int.negSucc n) s hs

/-- A property of all segments that the empty one has stays when a temporary segment is
allocated. -/
theorem keepsAll_addTemporary (hP : P #[]) : Action.Respects (KeepsAll P) addTemporary := by
  rintro m hm (n | n) s hs
  · exact hm n s hs
  · have hs' : (m.temporaries.push #[])[n]? = some s := hs
    rw [Array.getElem?_push] at hs'
    split at hs'
    · obtain rfl := Option.some.inj hs'
      exact hP
    · exact hm (Int.negSucc n) s hs'

/-- Checking cells leaves the segments as they are. -/
theorem Rechecked.keepsAll (h : m.Rechecked t) : m.KeepsAll P t :=
  keepsAll_of_segment? fun i _ hs => (h.segment?_eq i).symm.trans hs

/-- Marking cells leaves the segments as they are. -/
theorem Marked.keepsAll (h : m.Marked t) : m.KeepsAll P t := by
  obtain ⟨_, rfl⟩ := h
  exact id

/-- A property of segments that persists stays when a value is inserted. -/
theorem keepsAll_insert (h : Segment.Persists P) (a : Address) (v : Value) :
    Action.Respects (KeepsAll P) (insert a v) :=
  respects_insert_of (fun _ _ _ _ => keepsAll_modifySegment fun s _ hs => h.write s a v hs)
    ((respects_validateCell a).mono fun _ _ => Rechecked.keepsAll)

/-- A property of segments that persists stays with all segments, whatever calls are made. -/
theorem callsRespect_keepsAll (h : Segment.Persists P) : CallsRespect (KeepsAll P) where
  addSegment := keepsAll_addSegment h.empty
  addTemporary := keepsAll_addTemporary h.empty
  insert := keepsAll_insert h
  check a := (respects_validateCell a).mono fun _ _ => Rechecked.keepsAll
  addRule _ _ _ := id
  mark _ _ := id

/-- The segments of a memory that is made by calls have every property that persists. -/
theorem all_afterCalls (h : Segment.Persists P) (calls : List Call) :
    (empty.afterCalls calls).All P :=
  rel_afterCalls (callsRespect_keepsAll h).act empty calls (all_empty P)

/-! ## Lengths -/

/-- No segment is longer than there are offsets. -/
def Fits (m : Memory) : Prop := ∀ i s, m.segment? i = some s → s.size ≤ offsetBound

/-- If the segments of the first memory fit the offsets, those of the second one do. -/
def KeepsFit (m t : Memory) : Prop := m.Fits → t.Fits

/-- Segments go on fitting the offsets: they grow up to cells that have addresses. -/
theorem persists_fits : Segment.Persists fun s => s.size ≤ offsetBound where
  empty := Nat.zero_le _
  write s a v hs := by
    rw [Segment.size_write]
    exact Nat.max_le.mpr ⟨hs, a.offset_lt⟩
  replace s t h hs := by
    rw [h.size]
    exact hs

/-- The segments of a memory that is made by calls fit the offsets. -/
theorem fits_afterCalls (calls : List Call) : (empty.afterCalls calls).Fits :=
  all_afterCalls persists_fits calls

end Memory

end Cairo
