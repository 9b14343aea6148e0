import Cairo.Proofs.Memory.Extents
import Cairo.Proofs.Run.Memory
import Cairo.Proofs.Run.Relocation

/-!
# Sizes mean what they say

Whatever is done to a run that starts without segments, be it set up, advanced, ended or written to
from outside, and its temporary segments moved at any time (`Change`), whether this succeeds or
fails, every segment is empty or ends with a written cell.  So the sizes that are computed first are
the extents of the real segments (`isExtent_of_changes`).
-/

namespace Cairo

namespace Memory

/-- A relocation rule leaves the segments as they are. -/
theorem keepsAll_addRelocation {P : Segment → Prop} (src dst : Address) :
    Action.Respects (KeepsAll P) (addRelocation src dst) := by
  unfold addRelocation
  split
  · exact .throw_bind _ _
  · refine .bind .get fun m => ?_
    split
    · exact .throw_bind _ _
    · exact .modify fun _ => id

/-- A property of segments that persists stays with all segments, whatever is done to the
memory. -/
theorem changesRespect_keepsAll {P : Segment → Prop} (h : Segment.Persists P) :
    ChangesRespect (KeepsAll P) :=
  { callsRespect_keepsAll h with
    addRelocation := keepsAll_addRelocation
    relocate := keepsAll_relocate h }

end Memory

namespace Run

/-- An operation on a run, or the moving of its temporary segments at any time. -/
inductive Change
  | operation (o : Operation)
  | relocateMemory

/-- What a change does to a run. -/
def Change.act : Change → Action Run Unit
  | operation o => o.act
  | relocateMemory => onMemory Memory.relocate

/-- The run after a list of changes, each of which may have failed. -/
def afterChanges (r : Run) (changes : List Change) : Run :=
  changes.foldl (fun r c => c.act.after r) r

/-- Every change respects what is done to the memory. -/
theorem through_change {R : Memory → Memory → Prop} [IsPreorder Memory R]
    (h : Memory.ChangesRespect R) (c : Change) : Action.Respects (Through R) c.act := by
  cases c with
  | operation o => exact through_act h o
  | relocateMemory => exact through_onMemory h.relocate

/-- A list of changes respects what is done to the memory. -/
theorem through_afterChanges {R : Memory → Memory → Prop} [IsPreorder Memory R]
    (h : Memory.ChangesRespect R) (r : Run) (changes : List Change) :
    Through R r (r.afterChanges changes) := by
  induction changes generalizing r with
  | nil => exact refl r
  | cons c rest ih =>
    exact IsTrans.trans _ _ _ (through_change h c r) (ih (c.act.after r))

/-- Whatever is done to a run that starts without segments, and whether it succeeds or fails, every
segment is empty or ends with a written cell; and sizes that are computed when none are known yet
are the extents of all real segments. -/
theorem isExtent_of_changes {r : Run} (hr : r.memory = .empty) (changes : List Change) :
    (r.afterChanges changes).memory.EndsWritten ∧
      ((r.afterChanges changes).machine.segments.usedSizes = none →
        ∃ sizes t, onSegments Segments.computeSizes (r.afterChanges changes) = .ok sizes t ∧
          sizes.length = (r.afterChanges changes).memory.segments.size ∧
          ∀ i (hi : i < sizes.length), (r.afterChanges changes).memory.IsExtent i sizes[i]) := by
  have hstart : r.memory.EndsWritten := hr ▸ Memory.all_empty _
  have hkeeps := Memory.changesRespect_keepsAll Segment.persists_endsWritten
  have hends : (r.afterChanges changes).memory.EndsWritten :=
    through_afterChanges hkeeps r changes hstart
  refine ⟨hends, fun hnone => ?_⟩
  obtain ⟨sizes, hcompute⟩ := exists_computeSizes (r.afterChanges changes)
  obtain ⟨-, hsizes⟩ := computeSizes_ok hcompute
  rw [hnone, Option.getD_none] at hsizes
  have hlength : sizes.length = (r.afterChanges changes).memory.segments.size := by
    rw [hsizes, List.length_map, Array.length_toList]
  refine ⟨sizes, _, hcompute, hlength, fun i hi => ?_⟩
  obtain ⟨s, hs⟩ : ∃ s, (r.afterChanges changes).memory.segments[i]? = some s :=
    ⟨_, Array.getElem?_eq_getElem (hlength ▸ hi)⟩
  have hsize : sizes[i] = s.size := by
    apply Option.some.inj
    rw [← List.getElem?_eq_getElem hi, hsizes, List.getElem?_map, Array.getElem?_toList, hs,
      Option.map_some]
  rw [hsize]
  exact hends.isExtent hs

/-- A pointer behind holes into a temporary segment, which is moved into the holes, and a number
behind the end of another segment, which a rule rejects. -/
def patching : List Change :=
  [.operation (.memory .addSegment), .operation (.memory .addSegment),
    .operation (.memory .addTemporary),
    .operation (.memory (.insert ⟨0, 8, by decide⟩ (.value (.address (.base (-1)))))),
    .operation (.memory (.load (.base (-1)) [.value (.felt 5), .value (.felt 6)])),
    .operation (.memory (.addRule 1 ⟨1⟩)),
    .operation (.memory (.insert ⟨1, 9, by decide⟩ (.integer 65536))),
    .operation (.addRelocation (.base (-1)) (.base 0)), .relocateMemory]

/-- The first segment reaches up to the pointer, and the second one up to the number, which was left
there. -/
theorem isExtent_of_changes_patching :
    (new blank ⟨"plain", []⟩ true false).memory = .empty ∧
      ((new blank ⟨"plain", []⟩ true false).afterChanges patching).machine.segments.usedSizes =
        none ∧
      ∃ t, onSegments Segments.computeSizes
          ((new blank ⟨"plain", []⟩ true false).afterChanges patching) = .ok [9, 10] t ∧
        ((new blank ⟨"plain", []⟩ true false).afterChanges patching).memory.IsExtent 0 9 ∧
        ((new blank ⟨"plain", []⟩ true false).afterChanges patching).memory.IsExtent 1 10 := by
  have hnone : ((new blank ⟨"plain", []⟩ true false).afterChanges
      patching).machine.segments.usedSizes = none := by decide +kernel
  obtain ⟨sizes, t, hcompute, -, hextent⟩ :=
    (isExtent_of_changes (r := new blank ⟨"plain", []⟩ true false) rfl patching).2 hnone
  have hanswer : onSegments Segments.computeSizes
      ((new blank ⟨"plain", []⟩ true false).afterChanges patching) = .ok [9, 10] _ :=
    Action.eq_ok_of_toOption (by decide +kernel)
  obtain ⟨rfl, -⟩ := EStateM.Result.ok.inj (hcompute.symm.trans hanswer)
  exact ⟨rfl, hnone, t, hcompute, hextent 0 (by decide), hextent 1 (by decide)⟩

end Run

end Cairo
