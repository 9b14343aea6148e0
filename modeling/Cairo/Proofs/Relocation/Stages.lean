import Cairo.Proofs.Memory.Refusals
import Cairo.Proofs.Relocation.Renaming
import Cairo.Proofs.Relocation.Resolution

/-!
# Relocating in stages

Relocating deals with the real segments first and then with one temporary segment after another;
`relocateFirst` is the part of it up to one of them.  When relocating fails because a segment is not
allocated, all stages before have succeeded, and the one that failed has moved no cell, since it
would have moved all of them to the segment that is missing.  But it has taken away the marks of the
segment that it was to move (`relocateBy_unallocated`).
-/

namespace Cairo.Memory

variable {rules : Relocations} {m t u : Memory} {i j : Int} {n size : Nat}

/-! ## Stages -/

/-- The stage of relocating that renames in a temporary segment or moves it. -/
def relocateTemporary (rules : Relocations) (n : Nat) : Action Memory Unit :=
  match rules.lookup (Int.negSucc n) with
  | none => renameSegment rules (Int.negSucc n)
  | some dst => moveSegment rules (Int.negSucc n) dst

/-- The stages of relocating up to a number of temporary segments. -/
def relocateFirst (rules : Relocations) (n : Nat) : Action Memory Unit := do
  renameReal rules
  (List.range n).forM (relocateTemporary rules)

/-- Relocating a memory that has rules relocates by the resolved rules. -/
theorem relocate_eq_relocateBy (hrules : resolve m.relocations = .ok rules)
    (hsome : m.relocations ≠ []) : relocate m = relocateBy rules m := by
  unfold relocate
  rw [Action.get_bind, if_neg (mt List.isEmpty_iff.mp hsome)]
  exact Action.lift_bind_of_ok hrules _ m

/-- Relocating goes through the stages for all temporary segments and drops the rules. -/
theorem relocateBy_eq (rules : Relocations) (m : Memory) :
    relocateBy rules m = (relocateFirst rules m.temporaries.size >>= fun _ =>
      modify fun u : Memory => { u with relocations := [] }) m := by
  unfold relocateBy relocateFirst
  rw [bind_assoc]
  cases hreal : renameReal rules m with
  | error e u => rw [Action.bind_of_error hreal, Action.bind_of_error hreal]
  | ok x u =>
    rw [Action.bind_of_ok hreal, Action.bind_of_ok hreal, ← temporaries_eq_of_renameReal hreal]
    rfl

/-- The stages go on where the first ones end. -/
theorem relocateFirst_add (rules : Relocations) (n k : Nat) :
    relocateFirst rules (n + k) = relocateFirst rules n >>= fun _ =>
      (List.range k).forM fun j => relocateTemporary rules (n + j) := by
  unfold relocateFirst
  rw [bind_assoc, List.range_add]
  simp only [List.forM_eq_forM, List.forM_append, List.forM_map]

/-- Where relocating goes on from a stage that has succeeded. -/
theorem relocateBy_of_relocateFirst {n k : Nat} (hsize : m.temporaries.size = n + k)
    (h : relocateFirst rules n m = .ok () u) :
    relocateBy rules m = ((List.range k).forM (fun j => relocateTemporary rules (n + j)) >>=
      fun _ => modify fun u : Memory => { u with relocations := [] }) u := by
  rw [relocateBy_eq, hsize, relocateFirst_add, bind_assoc]
  exact Action.bind_of_ok h

/-- After the first stages, the cells of the first temporary segments are relocated, and those of
them that are moved are left empty. -/
theorem stage_of_relocateFirst (hrules : Resolved rules)
    (h : relocateFirst rules n m = .ok () u) :
    Relocating rules m n u ∧ Vacating rules m n u := by
  obtain ⟨_, v, hreal, hloop⟩ := Action.bind_eq_ok.mp h
  refine Action.forM_range_ok (fun k u => Relocating rules m k u ∧ Vacating rules m k u) hloop
    ⟨relocating_renameReal hrules hreal, vacating_renameReal hreal⟩ ?_
  intro k u v _ hu hround
  rcases round_cases hround with ⟨hstays, hround⟩ | ⟨dst, hdst, hround⟩
  · exact ⟨hu.1.rename hrules hstays hround, hu.2.rename hstays hround⟩
  · exact ⟨hu.1.move hrules hdst hround, hu.2.move hrules hdst hu.1 hround⟩

/-- The rules that move temporary segments are the same. -/
def SameRelocations (m t : Memory) : Prop := t.relocations = m.relocations

instance : IsPreorder Memory SameRelocations where
  refl _ := rfl
  trans _ _ _ h h' := h'.trans h

/-- The rules do not change with a segment. -/
theorem sameRelocations_modifySegment (m : Memory) (i : Int) (f : Segment → Segment) :
    m.SameRelocations (m.modifySegment i f) := by
  cases i <;> rfl

/-- Only at the end does relocating change the rules of the memory. -/
theorem sameRelocations_relocateFirst (rules : Relocations) (n : Nat) :
    Action.Respects SameRelocations (relocateFirst rules n) := by
  refine .bind (respects_renameReal fun m k f _ => sameRelocations_modifySegment m k f) fun _ =>
    .forM fun k _ => ?_
  unfold relocateTemporary
  split
  · exact respects_renameSegment fun m f _ => sameRelocations_modifySegment m _ f
  · refine respects_moveSegment (fun b w _ _ => ?_) ?_ fun m => sameRelocations_modifySegment m _ _
    · refine respects_insert_of (fun m _ _ _ => sameRelocations_modifySegment m _ _) ?_
      exact (respects_validateCell b).mono fun _ _ ⟨_, h⟩ => h ▸ rfl
    · rintro m _ ⟨_, rfl⟩
      rfl

/-- Memories with the same segments allocated have the same number of them. -/
theorem size_eq_of_allocated (h : ∀ i, (t.segment? i).isSome = (m.segment? i).isSome) :
    t.segments.size = m.segments.size ∧ t.temporaries.size = m.temporaries.size := by
  have hsize : ∀ {xs ys : Array Segment},
      (∀ k : Nat, ys[k]?.isSome = xs[k]?.isSome) → ys.size = xs.size := by
    intro xs ys hall
    have hlt : ∀ k, k < ys.size ↔ k < xs.size := by
      intro k
      have hk := hall k
      rw [Bool.eq_iff_iff, isSome_getElem?, isSome_getElem?] at hk
      exact hk
    have hfirst := hlt ys.size
    have hsecond := hlt xs.size
    omega
  exact ⟨hsize fun k => h k, hsize fun k => h (Int.negSucc k)⟩

/-! ## Where a segment is missing -/

/-- Relocating an address fails only where the offset leaves its range. -/
theorem eq_offsetExceeded_of_relocateValue {v : Value} {e : Fault}
    (h : relocateValue rules v = .error e) : ∃ a k, e = .offsetExceeded a k := by
  cases v with
  | felt x => cases h
  | address a =>
    have haddress : relocateAddress rules a = .error e := Answer.map_eq_error.mp h
    unfold relocateAddress at haddress
    split at haddress
    · cases haddress
    · split at haddress
      · cases haddress
      · exact ⟨_, _, Address.eq_offsetExceeded_of_shift haddress⟩

/-- An insertion finds a segment missing only if it is that of the cell, and changes nothing
then. -/
theorem insert_unallocated {a : Address} {v : Value}
    (h : insert a v m = .error (.unallocatedSegment j size) t) :
    t = m ∧ m.segment? a.segment = none ∧ j = a.segment := by
  cases insert_eq_error_iff.mp h with
  | unallocated hs => exact ⟨rfl, hs, rfl⟩
  | held _ he =>
    obtain ⟨-, _, _, _, -, -, hrejects⟩ := he
    cases hrejects
  | left _ _ he =>
    obtain ⟨-, _, _, _, -, -, hrejects⟩ := he
    cases hrejects

/-- Moving a cell finds a segment missing only if it is that of the destination. -/
theorem moveCell_unallocated {dst : Address} {marked : Bool} {offset : Nat} {v : Value}
    (h : moveCell rules dst marked offset v m = .error (.unallocatedSegment j size) t) :
    t = m ∧ m.segment? dst.segment = none ∧ j = dst.segment ∧
      ∃ b, dst.shift offset = .ok b := by
  unfold moveCell at h
  rcases Action.bind_eq_error.mp h with hshift | ⟨b, _, hlift, h⟩
  · cases Address.eq_offsetExceeded_of_shift (Action.lift_eq_error.mp hshift).1
  obtain ⟨hb, rfl⟩ := Action.lift_eq_ok.mp hlift
  rcases Action.bind_eq_error.mp h with hvalue | ⟨w, _, hlift, h⟩
  · obtain ⟨_, _, heq⟩ := eq_offsetExceeded_of_relocateValue (Action.lift_eq_error.mp hvalue).1
    cases heq
  obtain ⟨-, rfl⟩ := Action.lift_eq_ok.mp hlift
  rcases Action.bind_eq_error.mp h with hinsert | ⟨_, _, -, hmark⟩
  · obtain ⟨rfl, hs, rfl⟩ := insert_unallocated hinsert
    have hsegment := (Address.shift_eq_ok.mp hb).1
    rw [hsegment] at hs ⊢
    exact ⟨rfl, hs, rfl, b, hb⟩
  · split at hmark <;> cases hmark

/-- Moving the cells of a segment finds a segment missing only if it is that of the destination, at
the first cell, and changes nothing then. -/
theorem moveCells_unallocated {dst : Address} {marks : AddressSet} {rounds offset : Nat}
    (h : moveCells rules i dst marks rounds offset m = .error (.unallocatedSegment j size) t) :
    t = m ∧ m.segment? dst.segment = none ∧ j = dst.segment ∧
      ∃ a v b, a.segment = i ∧ m.get? a = some v ∧ dst.shift a.offset = .ok b := by
  induction rounds generalizing offset m with
  | zero => cases h
  | succ rounds ih =>
    unfold moveCells at h
    rw [Action.get_bind] at h
    cases hcell : (m.segment? i).bind (·[offset]?) with
    | none =>
      rw [hcell] at h
      cases h
    | some found =>
      rw [hcell] at h
      cases found with
      | none => exact ih h
      | some v =>
        rcases Action.bind_eq_error.mp h with hfirst | ⟨⟨⟩, u, hfirst, hrest⟩
        · obtain ⟨rfl, hs, rfl, b, hb⟩ := moveCell_unallocated hfirst
          refine ⟨rfl, hs, rfl, ⟨i, offset, ?_⟩, v, b, rfl, ?_, hb⟩
          · have hsum := (Address.shift_eq_ok.mp hb).2
            have hlt := b.offset_lt
            omega
          · obtain ⟨s, hs, hsv⟩ := Option.bind_eq_some_iff.mp hcell
            rw [get?_eq, hs, Option.bind_some, hsv]
            rfl
        -- The first cell was moved, so the segment of the destination is not the missing one.
        · obtain ⟨-, hnone, -⟩ := ih hrest
          obtain ⟨b, w, hb, -, -, hget⟩ := moveCell_ok hfirst
          have hsome : u.get? b = some w := by rw [hget, if_pos rfl]
          obtain ⟨s, hs, -⟩ := segment?_of_get? hsome
          rw [(Address.shift_eq_ok.mp hb).1, hnone] at hs
          cases hs

/-- The memory without the marks of a segment. -/
def unmarked (m : Memory) (i : Int) : Memory :=
  { m with accessed := m.accessed.filter (·.segment ≠ i) }

/-- A memory has the same cells as without the marks of a segment. -/
theorem marked_of_unmarked (m : Memory) (i : Int) : (m.unmarked i).Marked m := ⟨m.accessed, rfl⟩

/-- The marks of the other segments. -/
theorem mem_accessed_unmarked {b : Address} :
    b ∈ (m.unmarked i).accessed ↔ b ∈ m.accessed ∧ b.segment ≠ i := by
  unfold unmarked
  rw [Std.ExtTreeSet.mem_filter]
  simp

/-- Where a segment has no marks, none are taken away. -/
theorem unmarked_of_forall (h : ∀ b ∈ m.accessed, b.segment ≠ i) : m.unmarked i = m := by
  have hsame : (m.unmarked i).accessed = m.accessed := by
    apply Std.ExtTreeSet.ext_mem
    intro b
    rw [mem_accessed_unmarked]
    exact and_iff_left_of_imp (h b)
  exact congrArg (fun marks => { m with accessed := marks }) hsame

/-- Moving a segment finds a segment missing only if it is that of the destination, and only takes
away the marks then. -/
theorem moveSegment_unallocated {dst : Address}
    (h : moveSegment rules i dst m = .error (.unallocatedSegment j size) t) :
    t = m.unmarked i ∧ m.segment? dst.segment = none ∧ j = dst.segment ∧
      ∃ a v b, a.segment = i ∧ m.get? a = some v ∧ dst.shift a.offset = .ok b := by
  unfold moveSegment at h
  rw [Action.get_bind, Action.modify_bind] at h
  rcases Action.bind_eq_error.mp h with hcells | ⟨_, _, -, hlast⟩
  · exact moveCells_unallocated hcells
  · cases hlast

/-- Renaming finds no segment missing. -/
theorem failsOnly_renameCell (i : Int) (offset : Nat) :
    Action.FailsOnly (fun e => ∃ a k, e = .offsetExceeded a k) (renameCell rules i offset) := by
  unfold renameCell
  refine .bind .get fun m => ?_
  split
  · exact .pure _
  · exact .bind (.lift fun _ he => eq_offsetExceeded_of_relocateValue he) fun _ => .modify _

/-- Renaming the real segments finds no segment missing. -/
theorem failsOnly_renameReal :
    Action.FailsOnly (fun e => ∃ a k, e = .offsetExceeded a k) (renameReal rules) :=
  .bind .get fun _ => .forM fun _ => .forM fun _ => failsOnly_renameCell _ _

/-- Renaming a segment finds no segment missing. -/
theorem failsOnly_renameSegment (i : Int) :
    Action.FailsOnly (fun e => ∃ a k, e = .offsetExceeded a k) (renameSegment rules i) := by
  have hcell : ∀ c, Answer.FailsOnly (fun e => ∃ a k, e = .offsetExceeded a k)
      (relocateCell rules c) := by
    intro c
    cases c with
    | none => exact .ok _
    | some v => exact .map fun _ he => eq_offsetExceeded_of_relocateValue he
  unfold renameSegment
  refine .bind .get fun m => ?_
  split
  · exact .pure _
  · refine .bind (.lift ?_) fun _ => .modify _
    rw [Array.mapM_eq_mapM_toList]
    exact .map (.mapM hcell)

/-- Where relocating by rules finds a segment missing, the stages before have succeeded, and the
stage that failed has taken away the marks of the segment that it was to move. -/
theorem relocateBy_unallocated (h : relocateBy rules m = .error (.unallocatedSegment j size) t) :
    ∃ n u dst, n < m.temporaries.size ∧ relocateFirst rules n m = .ok () u ∧
      rules.lookup (Int.negSucc n) = some dst ∧ t = u.unmarked (Int.negSucc n) ∧
        u.segment? dst.segment = none ∧ j = dst.segment ∧
          ∃ a v b, a.segment = Int.negSucc n ∧ u.get? a = some v ∧
            dst.shift a.offset = .ok b := by
  rw [relocateBy_eq] at h
  rcases Action.bind_eq_error.mp h with hfirst | ⟨_, _, -, hlast⟩
  · rcases Action.bind_eq_error.mp hfirst with hreal | ⟨⟨⟩, v, hreal, hloop⟩
    · obtain ⟨_, _, heq⟩ := failsOnly_renameReal _ _ _ hreal
      cases heq
    · -- The state in which a round fails is the one that the rounds before it lead to.
      obtain ⟨n, u, hn, hu, hround⟩ := Action.forM_range_error
        (fun n u => relocateFirst rules n m = .ok () u) hloop
        (Action.bind_of_ok hreal) fun n u w _ hu hround => by
          rw [relocateFirst_add, Action.bind_of_ok hu]
          exact Action.bind_of_ok hround
      rcases round_cases hround with ⟨-, hround⟩ | ⟨dst, hdst, hround⟩
      · obtain ⟨_, _, heq⟩ := failsOnly_renameSegment _ _ _ _ hround
        cases heq
      · exact ⟨n, u, dst, hn, hu, hdst, moveSegment_unallocated hround⟩
  · cases hlast

/-- Where relocating finds a segment missing, it has resolved the rules. -/
theorem relocate_unallocated (h : relocate m = .error (.unallocatedSegment i size) u) :
    m.relocations ≠ [] ∧ ∃ rules, resolve m.relocations = .ok rules ∧
      relocateBy rules m = .error (.unallocatedSegment i size) u := by
  unfold relocate at h
  rw [Action.get_bind] at h
  split at h
  · cases h
  · rename_i hsome
    refine ⟨mt List.isEmpty_iff.mpr hsome, ?_⟩
    rcases Action.bind_eq_error.mp h with hresolve | ⟨rules, _, hlift, h⟩
    · obtain ⟨_, _, heq⟩ := eq_offsetExceeded_of_resolve (Action.lift_eq_error.mp hresolve).1
      cases heq
    · obtain ⟨hrules, rfl⟩ := Action.lift_eq_ok.mp hlift
      exact ⟨rules, hrules, h⟩

end Cairo.Memory
