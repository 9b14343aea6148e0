import Cairo.Proofs.Memory.Bounds
import Cairo.Proofs.Relocation.Cells

/-!
# Segments end with written cells

A segment only grows when a cell is written behind its end, and then it ends with that cell; the
cells in between are holes.  Renaming in place writes no cell and takes none away, and a segment
that was moved has no cells left.  So every segment is empty or ends with a written cell
(`EndsWritten`), also when an insertion is refused or a relocation is broken off.  Its length is
then one past the offset of its last written cell (`IsExtent`), which is what the sizes in use are
meant to be.
-/

namespace Cairo

/-- The segment has no cells, or its last one is written and has an address. -/
def Segment.EndsWritten (s : Segment) : Prop :=
  s.size = 0 ∨ ∃ k < offsetBound, s.size = k + 1 ∧ s[k]?.join.isSome

/-- Segments go on ending with written cells: a segment ends with the cell that it grew up to. -/
theorem Segment.persists_endsWritten : Segment.Persists EndsWritten where
  empty := .inl rfl
  write s a v hs := by
    rcases Nat.lt_or_ge (a.offset + 1) s.size with hinside | hbehind
    · -- The cell is not the last one, which stays.
      rcases hs with hempty | ⟨k, hk, hsize, hlast⟩
      · omega
      · refine .inr ⟨k, hk, ?_, ?_⟩
        · rw [size_write]
          omega
        · rw [cell_write, if_neg (by omega)]
          exact hlast
    · refine .inr ⟨a.offset, a.offset_lt, ?_, ?_⟩
      · rw [size_write]
        omega
      · rw [cell_write, if_pos rfl]
        rfl
  replace s t h hs := by
    unfold EndsWritten at hs ⊢
    rw [h.size]
    simpa only [h.written] using hs

namespace Memory

variable {m t : Memory} {P : Segment → Prop} {rules : Relocations} {i : Int}

/-! ## Relocating -/

section Relocating

variable (h : Segment.Persists P)

include h

/-- A property of segments that persists stays when a segment is renamed in. -/
theorem keepsAll_replace {f : Segment → Segment}
    (hf : ∀ s, m.segment? i = some s → s.SameShape (f s)) : m.KeepsAll P (m.modifySegment i f) :=
  keepsAll_modifySegment fun s hs => h.replace s (f s) (hf s hs)

/-- A property of segments that persists stays when the real segments are renamed in. -/
theorem keepsAll_renameReal : Action.Respects (KeepsAll P) (renameReal rules) :=
  respects_renameReal fun _ _ _ => keepsAll_replace h

/-- A property of segments that persists stays when a temporary segment is renamed in. -/
theorem keepsAll_renameSegment (i : Int) : Action.Respects (KeepsAll P) (renameSegment rules i) :=
  respects_renameSegment fun _ _ => keepsAll_replace h

/-- A property of segments that persists stays when a segment is moved. -/
theorem keepsAll_moveSegment (i : Int) (dst : Address) :
    Action.Respects (KeepsAll P) (moveSegment rules i dst) :=
  respects_moveSegment (fun b w _ _ => keepsAll_insert h b w) (fun _ _ => Marked.keepsAll)
    fun _ => keepsAll_modifySegment fun _ _ _ => h.empty

/-- A property of segments that persists stays in a relocation, whether it succeeds or fails. -/
theorem keepsAll_relocate : Action.Respects (KeepsAll P) relocate :=
  respects_relocate fun _ => respects_relocateBy (keepsAll_renameReal h)
    (fun _ => keepsAll_renameSegment h _) (fun _ dst => keepsAll_moveSegment h _ dst) fun _ => id

end Relocating

/-! ## Extents -/

/-- Every segment is empty or ends with a written cell. -/
def EndsWritten (m : Memory) : Prop := ∀ i s, m.segment? i = some s → s.EndsWritten

/-- The number is one past the highest offset of the written cells of a segment, or 0 if none of
its cells is written. -/
structure IsExtent (m : Memory) (i : Int) (n : Nat) : Prop where
  bound : ∀ a, a.segment = i → (m.get? a).isSome → a.offset < n
  attained : n = 0 ∨ ∃ a, a.segment = i ∧ a.offset + 1 = n ∧ (m.get? a).isSome

/-- The extent of a segment is what its cells determine. -/
theorem IsExtent.unique {n n' : Nat} (h : m.IsExtent i n) (h' : m.IsExtent i n') : n = n' := by
  have hle : ∀ {k k' : Nat}, m.IsExtent i k → m.IsExtent i k' → k ≤ k' := by
    intro k k' hk hk'
    rcases hk.attained with rfl | ⟨a, ha, rfl, hv⟩
    · exact Nat.zero_le k'
    · exact hk'.bound a ha hv
  exact Nat.le_antisymm (hle h h') (hle h' h)

/-- The extent of a segment that ends with a written cell is its length. -/
theorem EndsWritten.isExtent (hm : m.EndsWritten) {s : Segment} (hs : m.segment? i = some s) :
    m.IsExtent i s.size := by
  have hcell : ∀ a : Address, a.segment = i → m.get? a = s[a.offset]?.join := by
    intro a ha
    rw [get?_eq, ha, hs]
    rfl
  refine ⟨fun a ha hv => ?_, ?_⟩
  · rw [hcell a ha] at hv
    by_contra hge
    rw [Array.getElem?_eq_none (Nat.not_lt.mp hge)] at hv
    cases hv
  · rcases hm i s hs with hempty | ⟨k, hk, hsize, hlast⟩
    · exact .inl hempty
    · refine .inr ⟨⟨i, k, hk⟩, rfl, hsize.symm, ?_⟩
      rw [hcell ⟨i, k, hk⟩ rfl]
      exact hlast

end Memory

end Cairo
