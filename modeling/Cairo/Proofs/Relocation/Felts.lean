import Cairo.Proofs.Relocation.Cells

/-!
# Field elements in real segments stay

Relocation renames addresses and empties temporary segments.  A field element in a real segment is
neither, so it stays through relocation, also through one that fails half-way and for rules of any
shape.  Together with `Extends`, which holds of all other operations on a memory, this makes
`KeepsFelts` a law of everything that happens to a memory.
-/

namespace Cairo.Memory

variable {rules : Relocations}

/-- Every field element in a real segment of the first memory stands in the second one. -/
def KeepsFelts (m t : Memory) : Prop :=
  ∀ a x, 0 ≤ a.segment → m.get? a = some (.felt x) → t.get? a = some (.felt x)

instance : IsPreorder Memory KeepsFelts where
  refl _ _ _ _ h := h
  trans _ _ _ h h' a x ha hx := h' a x ha (h a x ha hx)

/-- What keeps all cells keeps field elements. -/
theorem Extends.keepsFelts {m t : Memory} (h : m.Extends t) : m.KeepsFelts t :=
  fun a x _ hx => h a (.felt x) hx

/-- Changes of temporary segments keep field elements in the real ones. -/
theorem Touches.keepsFelts {P : Int → Prop} {m t : Memory} (h : Touches P m t)
    (hP : ∀ i, P i → i < 0) : m.KeepsFelts t := by
  intro a x ha hx
  rwa [h.get?_eq fun hp => Int.not_lt.mpr ha (hP _ hp)]

/-- Renaming cells in place keeps field elements. -/
theorem RenamedAt.keepsFelts {P : Address → Prop} {m t : Memory} (h : RenamedAt rules P m t) :
    m.KeepsFelts t := by
  intro a x _ hx
  by_cases ha : P a
  · have hcell := (h a).1 ha
    rw [hx] at hcell
    exact (Except.ok.inj hcell).symm
  · rw [(h a).2 ha, hx]

/-- Renaming a cell keeps field elements. -/
theorem keepsFelts_renameCell (i : Int) (offset : Nat) :
    Action.Respects KeepsFelts (renameCell rules i offset) := by
  refine Action.Atomic.respects ?_ fun m _ t h => (renamedAt_renameCell h).keepsFelts
  unfold renameCell
  refine .get_bind fun m => ?_
  split
  · exact .pure _
  · exact .lift_bind fun w => .modify _

/-- Renaming the real segments keeps field elements. -/
theorem keepsFelts_renameReal : Action.Respects KeepsFelts (renameReal rules) :=
  .bind .get fun _ => .forM fun n _ => .forM fun offset _ => keepsFelts_renameCell n offset

/-- Renaming a segment keeps field elements. -/
theorem keepsFelts_renameSegment (i : Int) :
    Action.Respects KeepsFelts (renameSegment rules i) := by
  refine Action.Atomic.respects ?_ fun m _ t h => (renamedAt_renameSegment h).keepsFelts
  unfold renameSegment
  refine .get_bind fun m => ?_
  split
  · exact .pure _
  · exact .lift_bind fun cells => .modify _

/-- Marking cells keeps field elements. -/
theorem Marked.keepsFelts {m t : Memory} (h : m.Marked t) : m.KeepsFelts t := by
  intro a x _ hx
  rwa [h.get?_eq]

/-- Moving a temporary segment keeps field elements in the real ones. -/
theorem keepsFelts_moveSegment {i : Int} (hi : i < 0) (dst : Address) :
    Action.Respects KeepsFelts (moveSegment rules i dst) := by
  refine respects_moveSegment (fun b w _ _ => ?_) (fun _ _ => Marked.keepsFelts) fun m => ?_
  · exact (respects_insert b w).mono fun _ _ => Extends.keepsFelts
  · refine (touches_modifySegment m i _).keepsFelts ?_
    rintro _ rfl
    exact hi

/-- Relocating a memory, whether it succeeds or fails, keeps the field elements in the real
segments. -/
theorem keepsFelts_relocate : Action.Respects KeepsFelts relocate :=
  respects_relocate fun _ => respects_relocateBy keepsFelts_renameReal
    (fun _ => keepsFelts_renameSegment _)
    (fun n dst => keepsFelts_moveSegment (Int.negSucc_lt_zero n) dst) fun _ _ _ _ hx => hx

end Cairo.Memory
