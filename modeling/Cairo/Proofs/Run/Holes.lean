import Mathlib.Algebra.BigOperators.Group.Finset.Basic
import Cairo.Proofs.Machine.Accesses
import Cairo.Proofs.Machine.Development
import Cairo.Proofs.Run.Memory
import Cairo.Proofs.Run.Sizes

/-!
# Memory holes

A run only accesses cells that are written, from its set-up to its end, so that the accessed offsets
of a segment are some of those below its size.  What is left of them when the size is taken less the
number of accesses are the offsets that were never accessed; the memory holes are all of these, in
the real segments that do not belong to a builtin and were accessed at all
(`memoryHoles_of_endRun`).
-/

namespace Cairo

/-- A loop that adds a number in each round adds up these numbers. -/
theorem Answer.foldlM_range_add {f : Int → Nat → Except Fault Int} {g : Nat → Nat} {n : Nat}
    (hf : ∀ i < n, ∀ z, f z i = .ok (z + g i)) :
    (List.range n).foldlM f 0 = .ok ((∑ i ∈ Finset.range n, g i : Nat) : Int) := by
  induction n with
  | zero => rfl
  | succ n ih =>
    have hbefore := ih fun i hi => hf i (Nat.lt_succ_of_lt hi)
    rw [List.range_succ, List.foldlM_append, hbefore, Answer.ok_bind, List.foldlM_cons,
      hf n (Nat.lt_succ_self n), Finset.sum_range_succ, Nat.cast_add]
    rfl

/-! ## Counting -/

namespace Segments

variable {s : Segments}

/-- The offsets below the size in use of a real segment that were never accessed. -/
def neverAccessed (s : Segments) (i : Nat) : Finset Nat :=
  Finset.range ((s.usedSizes.getD [])[i]?.getD 0) \ s.memory.accessedOffsets i

/-- The sizes in use are those that the segments have, and no others were set. -/
structure SizesCurrent (s : Segments) : Prop where
  used : s.usedSizes = some (s.memory.segments.toList.map Array.size)
  fixed : s.fixedSizes = ∅

/-- The size in use of a real segment is the one that it has. -/
theorem SizesCurrent.getElem?_used (h : s.SizesCurrent) {i : Nat}
    (hi : i < s.memory.segments.size) :
    (s.usedSizes.getD [])[i]? = some s.memory.segments[i].size := by
  rw [h.used, Option.getD_some, List.getElem?_map, Array.getElem?_toList,
    Array.getElem?_eq_getElem hi]
  rfl

/-- The required size of a real segment is the one that it has. -/
theorem SizesCurrent.requireSize_eq (h : s.SizesCurrent) {i : Nat}
    (hi : i < s.memory.segments.size) :
    s.requireSize i = .ok (s.memory.segments[i].size : Int) := by
  have hused := h.getElem?_used hi
  rw [h.used, Option.getD_some] at hused
  have hsize : s.usedSize i = .ok (some s.memory.segments[i].size) := by
    unfold usedSize
    rw [h.used]
    dsimp only
    rw [if_neg (Int.not_lt.mpr (Int.natCast_nonneg i)), Int.toNat_natCast, hused]
  unfold requireSize size
  rw [h.fixed, Std.ExtTreeMap.getElem?_empty, hsize]
  rfl

/-- The holes of a segment with an accessed cell are the offsets that were never accessed. -/
theorem holesOf_eq (hsizes : s.SizesCurrent) (haccesses : s.memory.AccessesWritten) {i : Nat}
    (hi : i < s.memory.segments.size) :
    s.holesOf i = .ok ((if (s.memory.accessedOffsets i).Nonempty then (s.neverAccessed i).card
      else 0 : Nat) : Int) := by
  have hcells : s.memory.segment? i = some s.memory.segments[i] := Array.getElem?_eq_getElem hi
  have hsubset := Memory.accessedOffsets_subset_range haccesses hcells
  unfold holesOf
  rw [Memory.accessedCount_eq, hcells, Option.map_some]
  by_cases hnone : (s.memory.accessedOffsets i).Nonempty
  · obtain ⟨count, hcount⟩ := Nat.exists_eq_succ_of_ne_zero (Finset.card_pos.mpr hnone).ne'
    have hle : (s.memory.accessedOffsets i).card ≤ s.memory.segments[i].size := by
      simpa using Finset.card_le_card hsubset
    have hcard : (s.neverAccessed i).card =
        s.memory.segments[i].size - (s.memory.accessedOffsets i).card := by
      unfold neverAccessed
      rw [hsizes.getElem?_used hi, Option.getD_some, Finset.card_sdiff_of_subset hsubset,
        Finset.card_range]
    rw [if_pos hnone, hcard, Nat.cast_sub hle, hcount]
    show (do return (← s.requireSize i) - _ : Except Fault Int) = _
    rw [hsizes.requireSize_eq hi]
    rfl
  · rw [if_neg hnone, Finset.not_nonempty_iff_eq_empty.mp hnone]
    rfl

/-- The memory holes are the offsets that were never accessed, added up over the segments that were
accessed and do not belong to a builtin. -/
theorem memoryHoles_eq (hsizes : s.SizesCurrent) (haccesses : s.memory.AccessesWritten)
    (indexes : List Int) :
    s.memoryHoles indexes = .ok ((∑ i ∈ (Finset.range s.memory.segments.size).filter fun i : Nat =>
      (i : Int) ∉ indexes ∧ (s.memory.accessedOffsets i).Nonempty, (s.neverAccessed i).card : Nat) :
        Int) := by
  unfold memoryHoles
  rw [hsizes.used, Finset.sum_filter]
  refine Answer.foldlM_range_add fun i hi z => ?_
  by_cases hbuiltin : (i : Int) ∈ indexes
  · rw [if_pos (List.contains_iff_mem.mpr hbuiltin), if_neg fun h => h.1 hbuiltin, Nat.cast_zero,
      add_zero]
    rfl
  · rw [if_neg (mt List.contains_iff_mem.mp hbuiltin), holesOf_eq hsizes haccesses hi]
    simp only [hbuiltin, not_false_eq_true, true_and]
    rfl

end Segments

/-! ## Runs -/

namespace Run

variable {r t : Run} {α : Type}

/-- If the accessed addresses of the first run are written, those of the second one are. -/
def KeepsAccesses (r t : Run) : Prop := r.machine.KeepsAccesses t.machine

instance : IsPreorder Run KeepsAccesses where
  refl r := refl r.machine
  trans _ _ _ h h' := IsTrans.trans (r := Machine.KeepsAccesses) _ _ _ h h'

/-! ### Setting up -/

/-- Marking written cells keeps the accesses written. -/
theorem keepsAccesses_markFrom {a : Address} {n : Nat}
    (hcells : ∀ i < n, ∀ c, a.shift (i : Nat) = .ok c → (r.memory.get? c).isSome)
    (h : markFrom a n r = .ok () t) : r.KeepsAccesses t := by
  intro hr
  -- The marks leave the cells as they are, so that those to be marked are written in every round.
  refine (Action.forM_range_ok
    (fun _ u => u.memory.AccessesWritten ∧ ∀ c, u.memory.get? c = r.memory.get? c)
    h ⟨hr, fun _ => rfl⟩ ?_).1
  rintro i u v hi ⟨hu, hsame⟩ hround
  obtain ⟨c, _, hlift, hmark⟩ := Action.bind_eq_ok.mp hround
  obtain ⟨hc, rfl⟩ := Action.lift_eq_ok.mp hlift
  unfold onMemory onMachine at hmark
  obtain ⟨m, hmachine, rfl⟩ := Action.within_eq_ok.mp hmark
  obtain ⟨_, hmodify, rfl⟩ := Machine.onMemory_eq_ok.mp hmachine
  obtain rfl := Action.modify_eq_ok.mp hmodify
  refine ⟨Memory.AccessesWritten.markAccessed hu ?_, hsame⟩
  rw [show u.machine.memory.get? c = _ from hsame c]
  exact hcells i hi c hc

/-- Data that is loaded is written. -/
theorem isSome_get?_of_load {a b c : Address} {data : List Datum}
    (h : onSegments (Segments.load a data) r = .ok b t) {i : Nat} (hi : i < data.length)
    (hc : a.shift i = .ok c) : (t.memory.get? c).isSome := by
  unfold onSegments onMachine at h
  obtain ⟨_, hmachine, rfl⟩ := Action.within_eq_ok.mp h
  obtain ⟨m, hm, rfl⟩ := Machine.onMemory_eq_ok.mp hmachine
  obtain ⟨v, -, hv⟩ := Memory.get?_of_load hm (List.getElem?_eq_getElem hi) hc
  exact Option.isSome_of_eq_some hv

/-- Loading the program and the stack keeps the accesses written: the cells that are marked are
those of the program, which are loaded before. -/
theorem keepsAccesses_initializeState (entrypoint : Int) (stack : List Datum) :
    Action.Ensures KeepsAccesses (initializeState entrypoint stack) := by
  have hload : ∀ a data, Action.Respects KeepsAccesses (onSegments (Segments.load a data)) :=
    fun a data =>
      through_onSegments (Segments.through_load Memory.writesRespect_keepsAccesses a data)
  unfold initializeState
  refine .bind .get fun r => ?_
  split
  · refine .bind (.lift _) fun _ => .bind (.modify fun _ => id) fun _ => ?_
    intro s _ t h
    obtain ⟨_, s₁, hprogram, h⟩ := Action.bind_eq_ok.mp h
    obtain ⟨_, s₂, hmark, h⟩ := Action.bind_eq_ok.mp h
    obtain ⟨_, _, hstack, hend⟩ := Action.bind_eq_ok.mp h
    obtain ⟨-, rfl⟩ := Action.pure_eq_ok.mp hend
    have hmarked : s₁.KeepsAccesses s₂ := keepsAccesses_markFrom (fun i hi c hc =>
      isSome_get?_of_load hprogram (by rwa [List.length_map]) hc) hmark
    exact IsTrans.trans _ _ _ ((hload _ _).of_ok hprogram)
      (IsTrans.trans _ _ _ hmarked ((hload _ _).of_ok hstack))
  · exact .throw _

/-- Setting a run up keeps the accesses written. -/
theorem keepsAccesses_setUp (entry : Entry) : Action.Ensures KeepsAccesses (setUp entry) := by
  have hparts : SetUpParts (Action.Ensures.law KeepsAccesses) :=
    setUpParts_of_through (fun hx => .of_respects hx) Memory.writesRespect_keepsAccesses
      (fun _ _ _ => id) Memory.keepsAccesses_validateCell keepsAccesses_initializeState
  exact hparts.holds_setUp entry

/-! ### Advancing and ending -/

/-- Every way to advance a run keeps the accesses written. -/
theorem keepsAccesses_advance (a : Advance) : Action.Respects KeepsAccesses (advance a) :=
  holds_advance (L := Action.Respects.law KeepsAccesses) (fun _ hf => through_modifyMachine hf)
    (.within Machine.keepsAccesses_step fun _ _ h => h) a

/-- Setting a run up and advancing it makes no sizes known. -/
theorem sameSizes_advances {entry : Entry} {advances : List Advance} {final : Address} {s : Run}
    (hsetUp : setUp entry r = .ok final s) (hadvance : advances.forM advance s = .ok () t) :
    r.SameSizes t := by
  have hparts := operationParts_sameSizes
  have hadvances : Action.Respects SameSizes (advances.forM advance) :=
    .forM fun a _ => holds_advance hparts.machine hparts.step a
  exact IsTrans.trans _ _ _ ((hparts.holds_setUp entry).of_ok hsetUp) (hadvances.of_ok hadvance)

/-- The builtins of a run that has ended have segments: without one their cells could not be
checked. -/
theorem exists_segment_of_endRun (h : endRun r = .ok () t) {b : Builtin}
    (hb : b ∈ t.machine.builtins) : ∃ i, b.segment = some i := by
  obtain ⟨_, _, hget, h⟩ := Action.bind_eq_ok.mp h
  obtain ⟨rfl, rfl⟩ := Action.get_eq_ok.mp hget
  split at h
  · cases h
  obtain ⟨_, r₁, -, h⟩ := Action.bind_eq_ok.mp h
  obtain ⟨_, r₂, hverify, h⟩ := Action.bind_eq_ok.mp h
  obtain ⟨_, r₃, hsizes, h⟩ := Action.bind_eq_ok.mp h
  obtain rfl := Action.modify_eq_ok.mp h
  obtain ⟨rfl, -⟩ := computeSizes_ok hsizes
  obtain ⟨_, hmachine, rfl⟩ := Action.within_eq_ok.mp hverify
  obtain ⟨_, _, hget, hbuiltins⟩ := Action.bind_eq_ok.mp hmachine
  obtain ⟨rfl, rfl⟩ := Action.get_eq_ok.mp hget
  obtain ⟨bs, hall, rfl⟩ := Action.within_eq_ok.mp hbuiltins
  refine Builtin.forall_mem_of_forall₂ (P := fun _ => True) (Q := fun b => ∃ i, b.segment = some i)
    (Builtin.onEach_ok hall) ?_ (fun _ _ => trivial) b hb
  intro b b' hchecked _
  have hpost : b.SamePost b' := (Builtin.samePost_verify _).of_ok hchecked
  obtain ⟨_, _, hget, hchecked⟩ := Action.bind_eq_ok.mp hchecked
  obtain ⟨rfl, rfl⟩ := Action.get_eq_ok.mp hget
  obtain ⟨i, _, hlift, -⟩ := Action.bind_eq_ok.mp hchecked
  obtain ⟨hi, -⟩ := Action.lift_eq_ok.mp hlift
  exact ⟨i, hpost.segment.trans (Answer.orThrow_eq_ok.mp hi)⟩

/-! ## The holes of a run -/

/-- The real segments that were accessed and do not belong to a builtin. -/
def accessedSegments (r : Run) : Finset Nat :=
  (Finset.range r.memory.segments.size).filter fun i : Nat =>
    (∀ b ∈ r.machine.builtins, b.segment ≠ some (i : Int)) ∧ (r.memory.accessedOffsets i).Nonempty

/-- The indexes that are required of builtins are those of their segments. -/
theorem map_segment_eq {bs : List Builtin} {indexes : List Int}
    (h : bs.mapM Builtin.requireSegment = .ok indexes) :
    bs.map Builtin.segment = indexes.map some := by
  refine List.ext_getElem? fun k => ?_
  obtain ⟨hnone, hsome⟩ := Answer.getElem?_of_mapM h k
  rw [List.getElem?_map, List.getElem?_map]
  cases hk : bs[k]? with
  | none => rw [hnone hk, Option.map_none, Option.map_none]
  | some b =>
    obtain ⟨i, hi, hk'⟩ := hsome b hk
    rw [hk', Option.map_some, Option.map_some, Answer.orThrow_eq_ok.mp hi]

/-- The memory holes of a run whose builtins have segments. -/
theorem memoryHoles_eq (hsizes : r.machine.segments.SizesCurrent)
    (haccesses : r.memory.AccessesWritten)
    (hbuiltins : ∀ b ∈ r.machine.builtins, ∃ i, b.segment = some i) :
    r.memoryHoles = .ok
      ((∑ i ∈ r.accessedSegments, (r.machine.segments.neverAccessed i).card : Nat) : Int) := by
  obtain ⟨indexes, hindexes⟩ : ∃ indexes,
      r.machine.builtins.mapM Builtin.requireSegment = .ok indexes := by
    refine Answer.exists_mapM_ok fun b hb => ?_
    obtain ⟨i, hi⟩ := hbuiltins b hb
    exact ⟨i, Answer.orThrow_eq_ok.mpr hi⟩
  have hmem : ∀ i : Int, i ∉ indexes ↔ ∀ b ∈ r.machine.builtins, b.segment ≠ some i := by
    intro i
    rw [← List.mem_map_of_injective (Option.some_injective Int), ← map_segment_eq hindexes,
      List.mem_map]
    exact ⟨fun h b hb hi => h ⟨b, hb, hi⟩, fun h ⟨b, hb, hi⟩ => h b hb hi⟩
  unfold memoryHoles
  rw [hindexes, Answer.ok_bind, Segments.memoryHoles_eq hsizes haccesses]
  unfold accessedSegments
  simp only [hmem]
  rfl

/-- Some of the ways to advance a run were taken, and some steps of the next one. -/
def OnTheWay (r : Run) (advances : List Advance) (s : Run) : Prop :=
  ∃ early n u, early <+: advances ∧ early.forM advance r = .ok () u ∧
    onMachine (Machine.steps n) u = .ok () s

/-- In a run that is set up, advanced and ended without a fault, by relocation rules without cycles,
every accessed address is that of a written cell, before and after each step and at the end, and
the memory holes are then the offsets below the sizes in use that were never accessed, added up
over the real segments that were accessed and do not belong to a builtin. -/
theorem memoryHoles_of_endRun {entry : Entry} {program : Program} {layout : Layout}
    {tracing recording : Bool} {final : Address} {advances : List Advance} {r₀ r t : Run}
    (hsetUp : setUp entry (.new program layout tracing recording) = .ok final r₀)
    (hadvance : advances.forM advance r₀ = .ok () r)
    (hacyclic : Memory.Acyclic r.memory.relocations) (hend : endRun r = .ok () t) :
    (∀ s, r₀.OnTheWay advances s → s.memory.AccessesWritten) ∧ t.memory.AccessesWritten ∧
      ∃ holes : Nat, t.memoryHoles = .ok holes ∧
        holes = ∑ i ∈ t.accessedSegments, (t.machine.segments.neverAccessed i).card := by
  have hstart : r₀.memory.AccessesWritten :=
    keepsAccesses_setUp entry _ _ _ hsetUp Memory.accessesWritten_empty
  have hadvances : ∀ l : List Advance, Action.Respects KeepsAccesses (l.forM advance) := fun l =>
    .forM fun a _ => keepsAccesses_advance a
  have hsizes : (new program layout tracing recording).SameSizes r :=
    sameSizes_advances hsetUp hadvance
  obtain ⟨hrelocate, hused, hfixed, -⟩ := endRun_ok hsizes.1 hend
  have haccesses : t.memory.AccessesWritten :=
    Memory.keepsAccesses_relocate hacyclic hrelocate ((hadvances _).of_ok hadvance hstart)
  refine ⟨?_, haccesses, _, memoryHoles_eq ⟨hused, hfixed.trans hsizes.2⟩ haccesses
    fun b hb => exists_segment_of_endRun hend hb, rfl⟩
  rintro s ⟨early, n, u, -, hearly, hsteps⟩
  have hmachine : Action.Respects KeepsAccesses (onMachine (Machine.steps n)) :=
    .within (Machine.keepsAccesses_steps n) fun _ _ h => h
  exact hmachine.of_ok hsteps ((hadvances early).of_ok hearly hstart)

/-- The run of the program that moves a temporary segment has one memory hole: the fourth cell of
the execution segment, which a hint writes and no instruction reads. -/
theorem memoryHoles_of_endRun_relocating :
    ∃ (final : Address) (r₀ r t : Run),
      setUp .main (.new relocating ⟨"plain", []⟩ true false) = .ok final r₀ ∧
        [Advance.toAddress (some (.base 3)) ⟨some 10⟩].forM advance r₀ = .ok () r ∧
          r.memory.relocations ≠ [] ∧ Memory.Acyclic r.memory.relocations ∧
            endRun r = .ok () t ∧ t.memory.AccessesWritten ∧ t.memoryHoles = .ok 1 ∧
              1 = ∑ i ∈ t.accessedSegments, (t.machine.segments.neverAccessed i).card := by
  obtain ⟨final, r₀, r, t, hsetUp, hadvance, hrules, hreal, hend, hone⟩ :
      ∃ (final : Address) (r₀ r t : Run),
        setUp .main (.new relocating ⟨"plain", []⟩ true false) = .ok final r₀ ∧
          [Advance.toAddress (some (.base 3)) ⟨some 10⟩].forM advance r₀ = .ok () r ∧
            r.memory.relocations.isEmpty = false ∧
              (∀ rule ∈ r.memory.relocations, 0 ≤ rule.2.segment) ∧ endRun r = .ok () t ∧
                t.memoryHoles.toOption = some 1 := by
    obtain ⟨final, hsetUp⟩ : ∃ final, setUp .main (.new relocating ⟨"plain", []⟩ true false) =
        .ok final _ := Action.exists_eq_ok_of_isOk (by decide +kernel)
    exact ⟨final, _, _, _, hsetUp, Action.eq_ok_of_isOk (by decide +kernel), by decide +kernel,
      by decide +kernel, Action.eq_ok_of_isOk (by decide +kernel), by decide +kernel⟩
  have hacyclic := Memory.acyclic_of_forall_real hreal
  have hholes : t.memoryHoles = .ok 1 := Answer.eq_ok_of_toOption hone
  obtain ⟨-, haccesses, holes, hcounted, hsum⟩ :=
    memoryHoles_of_endRun hsetUp hadvance hacyclic hend
  obtain rfl : holes = 1 := Int.ofNat.inj (Except.ok.inj (hcounted.symm.trans hholes))
  refine ⟨final, r₀, r, t, hsetUp, hadvance, ?_, hacyclic, hend, haccesses, hholes, hsum⟩
  exact fun hempty => by simp [hempty] at hrules

end Run

end Cairo
