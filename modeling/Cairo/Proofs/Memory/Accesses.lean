import Mathlib.Data.Finset.Card
import Cairo.Proofs.Memory.WriteOnce
import Cairo.Proofs.Relocation.Renaming

/-!
# Accessed addresses are written

An address is only marked when its cell is written, and a written cell stays so; hence every
accessed address is that of a written cell (`AccessesWritten`), as long as nothing is marked
blindly. Relocation takes cells out of their segments, but it takes their marks along.  The accessed
offsets of a segment then lie below its size (`accessedOffsets_subset_range`).
-/

namespace Cairo.Memory

variable {m t : Memory} {a : Address}

/-- Every accessed address is that of a written cell. -/
def AccessesWritten (m : Memory) : Prop := ∀ a ∈ m.accessed, (m.get? a).isSome

/-- If the accessed addresses of the first memory are written, those of the second one are. -/
def KeepsAccesses (m t : Memory) : Prop := m.AccessesWritten → t.AccessesWritten

instance : IsPreorder Memory KeepsAccesses where
  refl _ := id
  trans _ _ _ h h' := h' ∘ h

/-- Without marks there is nothing to be written. -/
theorem accessesWritten_empty : AccessesWritten empty :=
  fun _ ha => absurd ha Std.ExtTreeSet.not_mem_empty

/-- A memory with more cells and the same marks keeps the accesses written. -/
theorem keepsAccesses_of_extends (hcells : m.Extends t) (hmarks : m.SameMarks t) :
    m.KeepsAccesses t := by
  intro hm a ha
  rw [hmarks] at ha
  obtain ⟨v, hv⟩ := Option.isSome_iff_exists.mp (hm a ha)
  exact Option.isSome_of_eq_some (hcells a v hv)

/-- The accesses stay written when a written cell is marked. -/
theorem AccessesWritten.markAccessed (hm : m.AccessesWritten) (ha : (m.get? a).isSome) :
    (m.markAccessed a).AccessesWritten := by
  intro b hb
  unfold Memory.markAccessed at hb
  rw [Std.ExtTreeSet.mem_insert, Address.compare_eq_iff] at hb
  rcases hb with rfl | hb
  · exact ha
  · exact hm b hb

/-! ## Actions that mark nothing -/

/-- Inserting a value keeps the accesses written. -/
theorem keepsAccesses_insert (a : Address) (v : Value) :
    Action.Respects KeepsAccesses (insert a v) :=
  fun m => keepsAccesses_of_extends (respects_insert a v m) (sameMarks_insert a v m)

/-- A new segment keeps the accesses written. -/
theorem keepsAccesses_addSegment : Action.Respects KeepsAccesses addSegment :=
  fun m => keepsAccesses_of_extends (respects_addSegment m) rfl

/-- A new temporary segment keeps the accesses written. -/
theorem keepsAccesses_addTemporary : Action.Respects KeepsAccesses addTemporary :=
  fun m => keepsAccesses_of_extends (respects_addTemporary m) rfl

/-- A relocation rule keeps the accesses written. -/
theorem keepsAccesses_addRelocation (src dst : Address) :
    Action.Respects KeepsAccesses (addRelocation src dst) := by
  unfold addRelocation
  split
  · exact .throw_bind _ _
  · refine .bind .get fun m => ?_
    split
    · exact .throw_bind _ _
    · exact .modify fun _ => id

/-- Checking a cell keeps the accesses written. -/
theorem keepsAccesses_validateCell (a : Address) :
    Action.Respects KeepsAccesses (validateCell a) := by
  refine (respects_validateCell a).mono fun m t h => keepsAccesses_of_extends h.extends ?_
  obtain ⟨_, rfl⟩ := h
  rfl

/-! ## Relocation -/

/-- Relocating by rules without cycles keeps the accesses written: a cell that is moved takes its
mark along, and one that is marked and not moved stays. -/
theorem keepsAccesses_relocate (hacyclic : Acyclic m.relocations) (h : relocate m = .ok () t) :
    m.KeepsAccesses t := by
  intro hm b hb
  obtain ⟨rules, hresolve, hrules, hrelocated⟩ := isRelocated_of_relocate hacyclic h
  obtain ⟨hvacating, -⟩ := vacating_of_relocate hresolve hrules h
  have harrives : ∀ {a v}, m.get? a = some v → relocateAddress rules a = .ok b →
      (t.get? b).isSome := by
    intro a v hv hab
    obtain ⟨b', w, hb', -, hw⟩ := hrelocated.settled a v hv
    obtain rfl := Except.ok.inj (hab.symm.trans hb')
    exact Option.isSome_of_eq_some hw
  rcases (hvacating.marked b).mp hb with ⟨hmark, hstays⟩ | ⟨a, v, -, -, hv, hab⟩
  · obtain ⟨v, hv⟩ := Option.isSome_iff_exists.mp (hm b hmark)
    have hfixed : ¬ IsMoved rules b.segment := fun hmoved =>
      hstays ⟨hmoved, le_segment_of_get? hv⟩
    exact harrives hv (relocateAddress_of_not_isMoved hfixed)
  · exact harrives hv hab

/-! ## Accessed offsets -/

/-- The offsets of the accessed addresses of a segment. -/
def accessedOffsets (m : Memory) (i : Int) : Finset Nat :=
  ((m.accessed.toList.filter (·.segment = i)).map Address.offset).toFinset

/-- An offset is accessed when an address with this offset is. -/
theorem mem_accessedOffsets {i : Int} {k : Nat} :
    k ∈ m.accessedOffsets i ↔ ∃ a ∈ m.accessed, a.segment = i ∧ a.offset = k := by
  unfold accessedOffsets
  simp only [List.mem_toFinset, List.mem_map, List.mem_filter, Std.ExtTreeSet.mem_toList,
    decide_eq_true_eq, and_assoc]

/-- There are as many accessed offsets as accessed addresses: two addresses of a segment differ in
their offsets. -/
theorem card_accessedOffsets (m : Memory) (i : Int) :
    (m.accessedOffsets i).card = (m.accessed.toList.filter (·.segment = i)).length := by
  have hdistinct : m.accessed.toList.Nodup := by
    refine Std.ExtTreeSet.distinct_toList.imp fun hne heq => hne ?_
    exact Address.compare_eq_iff.mpr heq
  unfold accessedOffsets
  rw [List.toFinset_card_of_nodup, List.length_map]
  refine (hdistinct.filter _).map_on fun a ha b hb hoffset => ?_
  have hsegment : ∀ c ∈ m.accessed.toList.filter (·.segment = i), c.segment = i :=
    fun c hc => of_decide_eq_true (List.mem_filter.mp hc).2
  exact Address.ext ((hsegment a ha).trans (hsegment b hb).symm) hoffset

/-- The accesses of a segment are counted by their offsets. -/
theorem accessedCount_eq (m : Memory) (i : Int) :
    m.accessedCount i = (m.segment? i).map fun _ => (m.accessedOffsets i).card := by
  rw [card_accessedOffsets]
  rfl

/-- If the accesses are written, those of a segment lie below its size. -/
theorem accessedOffsets_subset_range (hm : m.AccessesWritten) {i : Int} {s : Segment}
    (hs : m.segment? i = some s) : m.accessedOffsets i ⊆ Finset.range s.size := by
  intro k hk
  obtain ⟨a, ha, rfl, rfl⟩ := mem_accessedOffsets.mp hk
  obtain ⟨v, hv⟩ := Option.isSome_iff_exists.mp (hm a ha)
  obtain ⟨s', hs', hcell⟩ := segment?_of_get? hv
  obtain rfl := Option.some.inj (hs.symm.trans hs')
  obtain ⟨hlt, -⟩ := Array.getElem?_eq_some_iff.mp (Option.join_eq_some_iff.mp hcell)
  exact Finset.mem_range.mpr hlt

end Cairo.Memory
