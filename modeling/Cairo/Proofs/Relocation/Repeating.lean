import Cairo.Proofs.Memory.Insertions
import Cairo.Proofs.Relocation.Stages

/-!
# Stages that are repeated

Resolved rules change a value once.  A cell whose value they do not change is `FixedAt` its place,
and no part of relocating makes it change again, since only relocated values are written
(`KeepsFixed`).  So the stages of relocating that have succeeded leave nothing to do for themselves
(`Rests`): in the memory that they lead to, they change nothing (`relocateFirst_again`).
-/

namespace Cairo.Memory

variable {rules : Relocations} {m t u : Memory} {i : Int} {n : Nat}

/-! ## Cells that stay -/

/-- The value in a cell, of whatever offset. -/
def cell? (m : Memory) (i : Int) (p : Nat) : Option Value :=
  (m.segment? i).bind fun s => s[p]?.join

/-- The value in a cell is not changed by the rules. -/
def FixedAt (rules : Relocations) (m : Memory) (i : Int) (p : Nat) : Prop :=
  ∀ v, m.cell? i p = some v → relocateValue rules v = .ok v

/-- The cells whose values are not changed by the rules go on to be so. -/
def KeepsFixed (rules : Relocations) (m t : Memory) : Prop :=
  ∀ i p, m.FixedAt rules i p → t.FixedAt rules i p

instance (rules : Relocations) : IsPreorder Memory (KeepsFixed rules) where
  refl _ _ _ := id
  trans _ _ _ h h' i p := h' i p ∘ h i p

/-- Cells in which only values are new that are not changed by the rules. -/
theorem keepsFixed_of_cell? (h : ∀ i p v, t.cell? i p = some v →
    m.cell? i p = some v ∨ relocateValue rules v = .ok v) : KeepsFixed rules m t := by
  intro i p hm v hv
  rcases h i p v hv with hold | hfixed
  · exact hm v hold
  · exact hfixed

/-- The cells of a memory with a segment changed. -/
theorem cell?_modifySegment (m : Memory) (i j : Int) (f : Segment → Segment) (p : Nat) :
    (m.modifySegment i f).cell? j p =
      if j = i then (m.segment? i).bind fun s => (f s)[p]?.join else m.cell? j p := by
  unfold cell?
  rw [segment?_modifySegment]
  split
  · cases m.segment? i with
    | none => rfl
    | some s => rfl
  · rfl

/-- Inserting a value that is not changed by the rules keeps cells fixed. -/
theorem keepsFixed_insert {a : Address} {w : Value} (hw : relocateValue rules w = .ok w) :
    Action.Respects (KeepsFixed rules) (insert a w) := by
  refine respects_insert_of (fun m s hs _ => keepsFixed_of_cell? fun i p v hv => ?_)
    ((respects_validateCell a).mono fun m t h i p hm v hv => ?_)
  · rw [put, cell?_modifySegment] at hv
    split at hv
    · rename_i hi
      rw [hs, Option.bind_some, Segment.cell_write] at hv
      split at hv
      · rw [← Option.some.inj hv]
        exact .inr hw
      · left
        rw [cell?, hi, hs]
        exact hv
    · exact .inl hv
  · rw [cell?, h.segment?_eq] at hv
    exact hm v hv

/-- Emptying a segment keeps cells fixed. -/
theorem keepsFixed_emptied (m : Memory) (i : Int) :
    KeepsFixed rules m (m.modifySegment i fun _ => #[]) := by
  refine keepsFixed_of_cell? fun j p v hv => ?_
  rw [cell?_modifySegment] at hv
  split at hv
  · cases hs : m.segment? i with
    | none =>
      rw [hs] at hv
      cases hv
    | some s =>
      rw [hs] at hv
      cases hv
  · exact .inl hv

/-- Moving a segment keeps cells fixed. -/
theorem keepsFixed_moveSegment (hrules : Resolved rules) (i : Int) (dst : Address) :
    Action.Respects (KeepsFixed rules) (moveSegment rules i dst) := by
  refine respects_moveSegment (fun b w _ hw => ?_) ?_ fun m => keepsFixed_emptied m i
  · obtain ⟨v, hv⟩ := hw
    exact keepsFixed_insert (relocateValue_idem hrules hv)
  · rintro m _ ⟨_, rfl⟩ _ _ hm
    exact hm

/-- A renamed cell is fixed, and the others are as before. -/
theorem renameCell_ok (hrules : Resolved rules) {p : Nat}
    (h : renameCell rules i p m = .ok () t) :
    t.FixedAt rules i p ∧ KeepsFixed rules m t := by
  unfold renameCell at h
  rw [Action.get_bind] at h
  cases hv : m.cell? i p with
  | none =>
    rw [show (m.segment? i).bind (·[p]?.join) = none from hv] at h
    obtain ⟨-, rfl⟩ := Action.pure_eq_ok.mp h
    refine ⟨fun v hv' => ?_, refl m⟩
    rw [hv] at hv'
    cases hv'
  | some v =>
    rw [show (m.segment? i).bind (·[p]?.join) = some v from hv] at h
    obtain ⟨w, _, hlift, h⟩ := Action.bind_eq_ok.mp h
    obtain ⟨hw, rfl⟩ := Action.lift_eq_ok.mp hlift
    obtain rfl := Action.modify_eq_ok.mp h
    have hfixed := relocateValue_idem hrules hw
    obtain ⟨s, hs, -⟩ := Option.bind_eq_some_iff.mp hv
    have hcells : ∀ j q x, (m.modifySegment i (·.setIfInBounds p (some w))).cell? j q = some x →
        x = w ∨ (j, q) ≠ (i, p) ∧ m.cell? j q = some x := by
      intro j q x hx
      rw [cell?_modifySegment] at hx
      split at hx
      · rename_i hj
        rw [hs, Option.bind_some, Array.getElem?_setIfInBounds] at hx
        split at hx
        · split at hx
          · exact .inl (Option.some.inj hx).symm
          · cases hx
        · rename_i hq
          refine .inr ⟨fun heq => hq (congrArg Prod.snd heq).symm, ?_⟩
          rw [cell?, hj, hs]
          exact hx
      · rename_i hj
        exact .inr ⟨fun heq => hj (congrArg Prod.fst heq), hx⟩
    refine ⟨fun x hx => ?_, keepsFixed_of_cell? fun j q x hx => ?_⟩
    · rcases hcells i p x hx with rfl | ⟨hne, -⟩
      · exact hfixed
      · exact absurd rfl hne
    · rcases hcells j q x hx with rfl | ⟨-, hold⟩
      · exact .inr hfixed
      · exact .inl hold

/-- The same cells are written. -/
def SameWritten (m t : Memory) : Prop := ∀ i p, (t.cell? i p).isSome = (m.cell? i p).isSome

instance : IsPreorder Memory SameWritten where
  refl _ _ _ := rfl
  trans _ _ _ h h' i p := (h' i p).trans (h i p)

/-- Renaming the real segments leaves the same cells written. -/
theorem sameWritten_renameReal : Action.Respects SameWritten (renameReal rules) := by
  refine respects_renameReal fun m n f hf i p => ?_
  rw [cell?_modifySegment]
  split
  · rename_i hi
    unfold cell?
    rw [hi]
    cases hs : m.segment? n with
    | none => rfl
    | some s => exact (hf s hs).written p
  · rfl

/-- When the real segments are renamed, all cells in them are fixed, and those in others stay so. -/
theorem renameReal_ok (hrules : Resolved rules) (h : renameReal rules m = .ok () t) :
    (∀ (k p : Nat), t.FixedAt rules k p) ∧ KeepsFixed rules m t := by
  have hcell : ∀ (k p : Nat), Action.Ensures (KeepsFixed rules) (renameCell rules k p) :=
    fun k p _ _ _ h => (renameCell_ok hrules h).2
  have hsegment : ∀ (k : Nat), Action.Ensures (KeepsFixed rules)
      ((List.range (m.segments.getD k #[]).size).forM fun p => renameCell rules k p) :=
    fun k => .forM fun p _ => hcell k p
  have hwritten := sameWritten_renameReal.of_ok h
  unfold renameReal at h
  rw [Action.get_bind] at h
  have hfixed : ∀ k ∈ List.range m.segments.size,
      ∀ p ∈ List.range (m.segments.getD k #[]).size, t.FixedAt rules k p :=
    Action.Ensures.forM_establishes h (fun k _ => hsegment k)
      (fun k _ s' t' _ hrun => Action.Ensures.forM_establishes hrun (fun p _ => hcell k p)
        (fun p _ _ _ _ hp => (renameCell_ok hrules hp).1) fun p _ _ hkeeps => hkeeps k p)
      fun k _ _ hkeeps hs p hp => hkeeps k p (hs p hp)
  refine ⟨fun k p v hv => ?_, Action.Ensures.forM (fun k _ => hsegment k) m _ t h⟩
  -- A cell that is written now was there when the loops started.
  have hsome : (m.cell? k p).isSome := by
    rw [← hwritten, hv]
    rfl
  obtain ⟨x, hx⟩ := Option.isSome_iff_exists.mp hsome
  obtain ⟨s, hs, hsx⟩ := Option.bind_eq_some_iff.mp hx
  have hs : m.segments[k]? = some s := hs
  obtain ⟨hk, -⟩ := Array.getElem?_eq_some_iff.mp hs
  obtain ⟨hp, -⟩ := Array.getElem?_eq_some_iff.mp (Option.join_eq_some_iff.mp hsx)
  refine hfixed k (List.mem_range.mpr hk) p (List.mem_range.mpr ?_) v hv
  rwa [Array.getD_eq_getD_getElem?, hs]

/-- When a segment is renamed, all cells in it are fixed, and those in others stay so. -/
theorem renameSegment_ok (hrules : Resolved rules) (h : renameSegment rules i m = .ok () t) :
    (∀ p, t.FixedAt rules i p) ∧ KeepsFixed rules m t := by
  unfold renameSegment at h
  rw [Action.get_bind] at h
  cases hs : m.segment? i with
  | none =>
    rw [hs] at h
    obtain ⟨-, rfl⟩ := Action.pure_eq_ok.mp h
    refine ⟨fun p v hv => ?_, refl m⟩
    rw [cell?, hs] at hv
    cases hv
  | some s =>
    rw [hs] at h
    obtain ⟨cells, _, hlift, h⟩ := Action.bind_eq_ok.mp h
    obtain ⟨hcells, rfl⟩ := Action.lift_eq_ok.mp hlift
    obtain rfl := Action.modify_eq_ok.mp h
    rw [Array.mapM_eq_mapM_toList] at hcells
    obtain ⟨l, hl, rfl⟩ := Answer.map_eq_ok.mp hcells
    have hfixed : ∀ p, (m.modifySegment i fun _ => l.toArray).FixedAt rules i p := by
      intro p w hw
      rw [cell?_modifySegment, if_pos rfl, hs, Option.bind_some, List.getElem?_toArray,
        Option.join_eq_some_iff] at hw
      obtain ⟨c, -, hc⟩ := Answer.exists_of_mem_mapM hl (List.mem_of_getElem? hw)
      cases c with
      | none => cases relocateCell_none hc
      | some v =>
        obtain ⟨w', hw', heq⟩ := relocateCell_some.mp hc
        obtain rfl := Option.some.inj heq
        exact relocateValue_idem hrules hw'
    refine ⟨hfixed, keepsFixed_of_cell? fun j p v hv => ?_⟩
    by_cases hj : j = i
    · subst hj
      exact .inr (hfixed p v hv)
    · rw [cell?_modifySegment, if_neg hj] at hv
      exact .inl hv

/-! ## Stages that change nothing -/

/-- A cell that is fixed is renamed to itself. -/
theorem renameCell_of_fixedAt {p : Nat} (h : m.FixedAt rules i p) :
    renameCell rules i p m = .ok () m := by
  unfold renameCell
  rw [Action.get_bind]
  cases hv : m.cell? i p with
  | none =>
    rw [show (m.segment? i).bind (·[p]?.join) = none from hv]
    rfl
  | some v =>
    rw [show (m.segment? i).bind (·[p]?.join) = some v from hv]
    refine (Action.lift_bind_of_ok (h v hv) _ m).trans (congrArg (EStateM.Result.ok ()) ?_)
    refine modifySegment_of_eq fun s hs => ?_
    have hcell : s[p]?.join = some v := by
      unfold cell? at hv
      rwa [hs] at hv
    apply Segment.ext_cells Array.size_setIfInBounds
    intro q
    rw [Array.getElem?_setIfInBounds]
    split
    · rename_i hq
      obtain rfl := hq
      obtain ⟨hlt, -⟩ := Array.getElem?_eq_some_iff.mp (Option.join_eq_some_iff.mp hcell)
      rw [if_pos hlt, hcell]
      rfl
    · rfl

/-- Real segments in which all cells are fixed are renamed to themselves. -/
theorem renameReal_of_fixedAt (h : ∀ (k p : Nat), m.FixedAt rules k p) :
    renameReal rules m = .ok () m :=
  Action.forM_of_rounds fun k _ => Action.forM_of_rounds fun p _ => renameCell_of_fixedAt (h k p)

/-- A segment in which all cells are fixed is renamed to itself. -/
theorem renameSegment_of_fixedAt (h : ∀ p, m.FixedAt rules i p) :
    renameSegment rules i m = .ok () m := by
  unfold renameSegment
  rw [Action.get_bind]
  cases hs : m.segment? i with
  | none => rfl
  | some s =>
    have hcell : ∀ c ∈ s.toList, relocateCell rules c = .ok c := by
      intro c hc
      cases c with
      | none => rfl
      | some v =>
        obtain ⟨p, hp⟩ := List.mem_iff_getElem?.mp hc
        refine relocateCell_some.mpr ⟨v, h p v ?_, rfl⟩
        rw [Array.getElem?_toList] at hp
        rw [cell?, hs, Option.bind_some, hp]
        rfl
    obtain ⟨l, hl⟩ := Answer.exists_mapM_ok fun c hc => ⟨c, hcell c hc⟩
    have hsame : l = s.toList := by
      refine List.ext_getElem? fun p => ?_
      obtain ⟨hnone, hsome⟩ := Answer.getElem?_of_mapM hl p
      cases hp : s.toList[p]? with
      | none => exact hnone hp
      | some c =>
        obtain ⟨c', hc', hp'⟩ := hsome c hp
        rw [hp', Except.ok.inj (hc'.symm.trans (hcell c (List.mem_of_getElem? hp)))]
    have hcells : s.mapM (relocateCell rules) = .ok s := by
      rw [Array.mapM_eq_mapM_toList, hl, hsame]
      rfl
    refine (Action.lift_bind_of_ok hcells _ m).trans (congrArg (EStateM.Result.ok ()) ?_)
    exact modifySegment_of_eq fun s' hs' => Option.some.inj (hs.symm.trans hs')

/-- An empty segment without marks is moved without effect. -/
theorem moveSegment_of_empty {dst : Address} (hempty : ∀ s, m.segment? i = some s → s = #[])
    (hmarks : ∀ b ∈ m.accessed, b.segment ≠ i) : moveSegment rules i dst m = .ok () m := by
  have hcells : ∀ marks rounds, moveCells rules i dst marks rounds 0 m = .ok () m := by
    intro marks rounds
    cases rounds with
    | zero => rfl
    | succ rounds =>
      have hnone : (m.segment? i).bind (·[0]?) = none := by
        cases hs : m.segment? i with
        | none => rfl
        | some s =>
          rw [hempty s hs]
          rfl
      unfold moveCells
      rw [Action.get_bind, hnone]
      rfl
  unfold moveSegment
  rw [Action.get_bind, Action.modify_bind]
  show (moveCells rules i dst m.accessed _ 0 >>= _) (m.unmarked i) = _
  rw [unmarked_of_forall hmarks, Action.bind_of_ok (hcells _ _)]
  exact congrArg (EStateM.Result.ok ()) (modifySegment_of_eq fun s hs => (hempty s hs).symm)

/-- The first stages of relocating have nothing to do in the memory. -/
structure Rests (rules : Relocations) (n : Nat) (m : Memory) : Prop where
  real : ∀ (k p : Nat), m.FixedAt rules k p
  stays : ∀ k < n, ¬ IsMoved rules (Int.negSucc k) → ∀ p, m.FixedAt rules (Int.negSucc k) p
  empty : ∀ k < n, IsMoved rules (Int.negSucc k) →
    ∀ s, m.segment? (Int.negSucc k) = some s → s = #[]
  unmarked : ∀ k < n, IsMoved rules (Int.negSucc k) → ∀ b ∈ m.accessed, b.segment ≠ Int.negSucc k

/-- Stages that have nothing to do change nothing. -/
theorem relocateFirst_of_rests (h : Rests rules n m) : relocateFirst rules n m = .ok () m := by
  refine (Action.bind_of_ok (renameReal_of_fixedAt h.real)).trans ?_
  refine Action.forM_of_rounds fun k hk => ?_
  rw [List.mem_range] at hk
  have hcases := round_cases (show relocateTemporary rules k m = _ from rfl)
  rcases hcases with ⟨hstays, hround⟩ | ⟨dst, hdst, hround⟩
  · exact hround.symm.trans (renameSegment_of_fixedAt (h.stays k hk hstays))
  · have hmoved : IsMoved rules (Int.negSucc k) := ⟨Int.negSucc_lt_zero k, dst, hdst⟩
    exact hround.symm.trans (moveSegment_of_empty (h.empty k hk hmoved) (h.unmarked k hk hmoved))

/-- The stages that have succeeded have nothing to do in the memory that they lead to. -/
theorem rests_of_relocateFirst (hrules : Resolved rules)
    (h : relocateFirst rules n m = .ok () u) : Rests rules n u := by
  have hstage : ∀ k, Action.Ensures (KeepsFixed rules) (relocateTemporary rules k) := by
    intro k s _ t hround
    rcases round_cases hround with ⟨-, hround⟩ | ⟨dst, -, hround⟩
    · exact (renameSegment_ok hrules hround).2
    · exact (keepsFixed_moveSegment hrules _ dst).of_ok hround
  obtain ⟨-, hvacating⟩ := stage_of_relocateFirst hrules h
  obtain ⟨_, v, hreal, hloop⟩ := Action.bind_eq_ok.mp h
  have hstays : ∀ k ∈ List.range n, ¬ IsMoved rules (Int.negSucc k) →
      ∀ p, u.FixedAt rules (Int.negSucc k) p := by
    refine Action.Ensures.forM_establishes
      (P := fun k t => ¬ IsMoved rules (Int.negSucc k) → ∀ p, t.FixedAt rules (Int.negSucc k) p)
      hloop (fun k _ => hstage k) (fun k _ s t _ hround hk => ?_)
      fun k _ _ hkeeps hs hk p => hkeeps _ p (hs hk p)
    rcases round_cases hround with ⟨-, hround⟩ | ⟨dst, hdst, -⟩
    · exact (renameSegment_ok hrules hround).1
    · exact absurd ⟨Int.negSucc_lt_zero k, dst, hdst⟩ hk
  have hvacated : ∀ k < n, IsMoved rules (Int.negSucc k) → Vacated rules n (Int.negSucc k) :=
    fun k hk hmoved => ⟨hmoved, by omega⟩
  refine ⟨fun k p => ?_, fun k hk => hstays k (List.mem_range.mpr hk), fun k hk hmoved s hs => ?_,
    fun k hk hmoved b hb hseg => ?_⟩
  · exact Action.Ensures.forM (fun k _ => hstage k) v _ u hloop k p
      ((renameReal_ok hrules hreal).1 k p)
  · have hsome : (m.segment? (Int.negSucc k)).isSome := by
      rw [← hvacating.allocated, hs]
      rfl
    have hempty := hvacating.emptied _ (hvacated k hk hmoved) hsome
    exact Option.some.inj (hs.symm.trans hempty)
  · rcases (hvacating.marked b).mp hb with ⟨-, hnot⟩ | ⟨a, v, -, -, -, hab⟩
    · exact hnot (hseg ▸ hvacated k hk hmoved)
    · exact not_isMoved_of_relocateAddress hrules hab (hseg ▸ hmoved)

/-- Stages that have succeeded change nothing when they are repeated. -/
theorem relocateFirst_again (hrules : Resolved rules)
    (h : relocateFirst rules n m = .ok () u) : relocateFirst rules n u = .ok () u :=
  relocateFirst_of_rests (rests_of_relocateFirst hrules h)

/-- Stages that lead from a memory to another one do not matter for relocating, if they have nothing
to do in the other one. -/
theorem relocateBy_eq_of_relocateFirst {n k : Nat} (hrules : Resolved rules)
    (hsize : m.temporaries.size = n + k) (h : relocateFirst rules n m = .ok () u) :
    relocateBy rules u = relocateBy rules m := by
  obtain ⟨-, hvacating⟩ := stage_of_relocateFirst hrules h
  have hsame := (size_eq_of_allocated hvacating.allocated).2
  rw [relocateBy_of_relocateFirst hsize h,
    relocateBy_of_relocateFirst (hsame.trans hsize) (relocateFirst_again hrules h)]

end Cairo.Memory
