import Cairo.Proofs.Memory.WriteOnce
import Cairo.Proofs.Relocation.Felts

/-!
# What calls that succeed do to a memory

A call that succeeds lets a memory develop (`Develops`): cells are checked, or written and then
checked, and for the rest the memory settles.  That leaves the rules, the checked addresses and the
field elements in real segments as they are, and writes no cell of a real segment (`Settles`).
Renaming addresses in place is of that kind, so relocation lets a memory develop too
(`develops_relocate`).  An invariant of memories has to be proved for these three cases only.
-/

namespace Cairo.Memory

variable {m t : Memory} {i : Int}

/-! ## Settling -/

/-- The rules and the checked addresses are the same. -/
def SameChecks (m t : Memory) : Prop := t.rules = m.rules ∧ t.validated = m.validated

instance : IsPreorder Memory SameChecks where
  refl _ := ⟨rfl, rfl⟩
  trans _ _ _ h h' := ⟨h'.1.trans h.1, h'.2.trans h.2⟩

/-- With the same rules, every segment has the same. -/
theorem SameChecks.rulesOf_eq (h : m.SameChecks t) (i : Int) : t.rulesOf i = m.rulesOf i := by
  unfold rulesOf
  rw [h.1]

/-- Changing a segment leaves the rules and the checked addresses alone. -/
theorem sameChecks_modifySegment (m : Memory) (i : Int) (f : Segment → Segment) :
    m.SameChecks (m.modifySegment i f) := by
  cases i <;> exact ⟨rfl, rfl⟩

/-- Nothing is written to real segments or checked, and their field elements stay. -/
structure Settles (m t : Memory) : Prop where
  checks : m.SameChecks t
  allocated : ∀ i, (m.segment? i).isSome → (t.segment? i).isSome
  felts : m.KeepsFelts t
  written : ∀ a, 0 ≤ a.segment → (t.get? a).isSome → (m.get? a).isSome

instance : IsPreorder Memory Settles where
  refl _ := ⟨refl _, fun _ => id, refl _, fun _ _ => id⟩
  trans _ _ _ h h' := ⟨IsTrans.trans _ _ _ h.checks h'.checks,
    fun i hi => h'.allocated i (h.allocated i hi), IsTrans.trans _ _ _ h.felts h'.felts,
    fun a ha hv => h.written a ha (h'.written a ha hv)⟩

/-- A memory settles if its cells, its rules and the checked addresses stay. -/
theorem settles_of_get?_eq (hchecks : m.SameChecks t)
    (hallocated : ∀ i, (m.segment? i).isSome → (t.segment? i).isSome)
    (hget : ∀ a, t.get? a = m.get? a) : m.Settles t :=
  ⟨hchecks, hallocated, fun a _ _ hx => (hget a).trans hx, fun a _ hv => hget a ▸ hv⟩

/-- A memory settles if some of its segments change and these are all temporary. -/
theorem Touches.settles {P : Int → Prop} (h : m.Touches P t) (hP : ∀ i, P i → i < 0)
    (hchecks : m.SameChecks t) : m.Settles t := by
  refine ⟨hchecks, fun i hi => (h.allocated i).symm ▸ hi, h.keepsFelts hP, ?_⟩
  intro a ha hv
  rwa [h.get?_eq fun hp => Int.not_lt.mpr ha (hP _ hp)] at hv

/-- A memory settles if a temporary segment changes. -/
theorem settles_modifySegment (m : Memory) (hi : i < 0) (f : Segment → Segment) :
    m.Settles (m.modifySegment i f) := by
  refine (touches_modifySegment m i f).settles ?_ (sameChecks_modifySegment m i f)
  rintro _ rfl
  exact hi

/-- A new segment settles. -/
theorem settles_addSegment : Action.Ensures Settles addSegment := by
  rintro m _ _ ⟨⟩
  refine settles_of_get?_eq ⟨rfl, rfl⟩ (fun i hi => ?_) (get?_addSegment m)
  cases i with
  | ofNat n =>
    rw [segment?, isSome_getElem?] at hi ⊢
    rw [Array.size_push]
    omega
  | negSucc n => exact hi

/-- A new temporary segment settles. -/
theorem settles_addTemporary : Action.Ensures Settles addTemporary := by
  rintro m _ _ ⟨⟩
  refine settles_of_get?_eq ⟨rfl, rfl⟩ (fun i hi => ?_) (get?_addTemporary m)
  cases i with
  | ofNat n => exact hi
  | negSucc n =>
    rw [segment?, isSome_getElem?] at hi ⊢
    rw [Array.size_push]
    omega

/-- A rule for a temporary segment settles. -/
theorem settles_addRelocation (src dst : Address) :
    Action.Ensures Settles (addRelocation src dst) := by
  unfold addRelocation
  split
  · exact .throw_bind _ _
  · refine .bind .get fun m => ?_
    split
    · exact .throw_bind _ _
    · exact .modify fun _ => settles_of_get?_eq ⟨rfl, rfl⟩ (fun _ => id) fun _ => rfl

/-- Renaming a cell settles: a field element has no other name. -/
theorem settles_renameCell (rules : Relocations) (i : Int) (offset : Nat) :
    Action.Ensures Settles (renameCell rules i offset) := by
  intro m _ t h
  have hrenamed := renamedAt_renameCell h
  have htouches : m.Touches (· = i) t :=
    (respects_renameCell offset fun m f _ => touches_modifySegment m i f).of_ok h
  have hchecks : m.SameChecks t :=
    (respects_renameCell offset fun m f _ => sameChecks_modifySegment m i f).of_ok h
  refine ⟨hchecks, fun j hj => (htouches.allocated j).symm ▸ hj,
    hrenamed.keepsFelts, fun a _ hv => ?_⟩
  by_cases ha : a.segment = i ∧ a.offset = offset
  · obtain ⟨w, hw⟩ := Option.isSome_iff_exists.mp hv
    obtain ⟨v, hold, -⟩ := hrenamed.exists_origin ha hw
    exact Option.isSome_of_eq_some hold
  · rwa [(hrenamed a).2 ha] at hv

/-- Renaming the real segments settles. -/
theorem settles_renameReal (rules : Relocations) : Action.Ensures Settles (renameReal rules) :=
  .bind .get fun _ => .forM fun n _ => .forM fun offset _ => settles_renameCell rules n offset

/-- Renaming a temporary segment settles. -/
theorem settles_renameSegment (rules : Relocations) (hi : i < 0) :
    Action.Ensures Settles (renameSegment rules i) :=
  .of_respects (respects_renameSegment fun m f _ => settles_modifySegment m hi f)

/-! ## Development -/

/-- What calls that succeed do to a memory. -/
inductive Develops : Memory → Memory → Prop
  | settle {m t : Memory} (h : m.Settles t) : Develops m t
  | check {m t : Memory} {a : Address} (h : validateCell a m = .ok () t) : Develops m t
  | write {m t : Memory} {a : Address} {v : Value} (halloc : (m.segment? a.segment).isSome)
      (hnew : m.get? a = none) (h : validateCell a (m.put a v) = .ok () t) : Develops m t
  | trans {m t u : Memory} (h : Develops m t) (h' : Develops t u) : Develops m u

instance : IsPreorder Memory Develops where
  refl m := .settle (refl m)
  trans _ _ _ := .trans

/-- What settles develops. -/
theorem develops_of_settles {α : Type} {x : Action Memory α} (hx : Action.Ensures Settles x) :
    Action.Ensures Develops x :=
  hx.mono fun _ _ => .settle

/-- A change that leaves the cells, the rules and the checked addresses alone is no development to
speak of. -/
theorem Marked.develops (h : m.Marked t) : m.Develops t := by
  obtain ⟨_, rfl⟩ := h
  exact .settle (settles_of_get?_eq ⟨rfl, rfl⟩ (fun _ => id) fun _ => rfl)

/-- Inserting a value develops a memory. -/
theorem develops_insert (a : Address) (v : Value) : Action.Ensures Develops (insert a v) := by
  rintro m ⟨⟩ t h
  rw [insert_eq] at h
  cases hs : m.segment? a.segment with
  | none => simp [hs] at h
  | some s =>
    cases hold : m.get? a with
    | none => exact .write (Option.isSome_of_eq_some hs) hold (by simpa [hs, hold] using h)
    | some old =>
      by_cases hv : old = v
      · exact .check (by simpa [hs, hold, hv] using h)
      · simp [hs, hold, hv] at h

/-- Inserting a datum develops a memory. -/
theorem develops_insertDatum (a : Address) (d : Datum) :
    Action.Ensures Develops (insertDatum a d) :=
  .bind (.lift _) fun v => develops_insert a v

/-- Loading data develops a memory. -/
theorem develops_load (a : Address) (data : List Datum) :
    Action.Ensures Develops (load a data) := by
  have hfrom : ∀ i, Action.Ensures Develops (loadFrom a i data) := by
    induction data with
    | nil => exact fun _ => .pure _
    | cons d rest ih =>
      exact fun i => .bind (.lift _) fun b => .bind (develops_insertDatum b d) fun _ => ih (i + 1)
  exact .bind (hfrom 0) fun _ => .lift _

/-- Checking a cell develops a memory. -/
theorem develops_validateCell (a : Address) : Action.Ensures Develops (validateCell a) :=
  fun _ _ _ h => .check h

/-- Checking the cells that are there develops a memory. -/
theorem develops_validateExisting : Action.Ensures Develops validateExisting := by
  unfold validateExisting
  refine .bind .get fun m => .forM fun ⟨i, _⟩ _ => ?_
  dsimp only
  split
  · exact .forM fun ⟨a, _⟩ _ => develops_validateCell a
  · exact .pure _

/-- Moving a cell develops a memory. -/
theorem develops_moveCell (rules : Relocations) (dst : Address) (marked : Bool) (offset : Nat)
    (v : Value) : Action.Ensures Develops (moveCell rules dst marked offset v) := by
  unfold moveCell
  refine .bind (.lift _) fun a => .bind (.lift _) fun w => .bind (develops_insert a w) fun _ => ?_
  split
  · exact .modify fun _ => Marked.develops ⟨_, rfl⟩
  · exact .pure _

/-- Moving the cells of a segment develops a memory. -/
theorem develops_moveCells (rules : Relocations) (i : Int) (dst : Address) (marks : AddressSet)
    (rounds offset : Nat) :
    Action.Ensures Develops (moveCells rules i dst marks rounds offset) := by
  induction rounds generalizing offset with
  | zero => exact .pure _
  | succ rounds ih =>
    unfold moveCells
    refine .bind .get fun m => ?_
    split
    · exact .pure _
    · dsimp only
      split
      · exact ih (offset + 1)
      · exact .bind (develops_moveCell rules dst _ offset _) fun _ => ih (offset + 1)

/-- Moving a temporary segment develops a memory. -/
theorem develops_moveSegment (rules : Relocations) (hi : i < 0) (dst : Address) :
    Action.Ensures Develops (moveSegment rules i dst) :=
  .bind .get fun m => .bind (.modify fun _ => Marked.develops ⟨_, rfl⟩) fun _ =>
    .bind (develops_moveCells rules i dst m.accessed _ 0) fun _ =>
      .modify fun _ => .settle (settles_modifySegment _ hi _)

/-- Relocating develops a memory. -/
theorem develops_relocate : Action.Ensures Develops relocate := by
  refine .bind .get fun m => ?_
  split
  · exact .pure _
  · refine .bind (.lift _) fun rules => .bind (develops_of_settles (settles_renameReal rules))
      fun _ => .bind ?_ fun _ =>
        .modify fun _ => .settle (settles_of_get?_eq ⟨rfl, rfl⟩ (fun _ => id) fun _ => rfl)
    refine .bind .get fun m => .forM fun n _ => ?_
    split
    · exact develops_of_settles (settles_renameSegment rules (Int.negSucc_lt_zero n))
    · exact develops_moveSegment rules (Int.negSucc_lt_zero n) _

/-- A call develops a memory, unless it adds a rule. -/
theorem develops_act {c : Call} (hc : ∀ i r, c ≠ .addRule i r) :
    Action.Ensures Develops c.act := by
  cases c with
  | addSegment => exact .bind (develops_of_settles settles_addSegment) fun _ => .pure _
  | addTemporary => exact .bind (develops_of_settles settles_addTemporary) fun _ => .pure _
  | insert a d => exact develops_insertDatum a d
  | load a data => exact .bind (develops_load a data) fun _ => .pure _
  | addRule i r => exact absurd rfl (hc i r)
  | validateExisting => exact develops_validateExisting
  | markAccessed a => exact .modify fun _ => Marked.develops ⟨_, rfl⟩

/-- Allocated segments stay so in development. -/
theorem Develops.isSome_segment? (h : m.Develops t) (hi : (m.segment? i).isSome) :
    (t.segment? i).isSome := by
  have hcheck : ∀ {a : Address} {m t : Memory}, validateCell a m = .ok () t →
      t.segment? i = m.segment? i :=
    fun h => ((respects_validateCell _).of_ok h).segment?_eq i
  induction h with
  | settle h => exact h.allocated i hi
  | check h => rwa [hcheck h]
  | write _ _ h =>
    rw [hcheck h]
    exact ((touches_modifySegment _ _ _).allocated i).symm ▸ hi
  | trans _ _ ih ih' => exact ih' (ih hi)

/-- Development adds no rules. -/
theorem Develops.rules_eq (h : m.Develops t) : t.rules = m.rules := by
  have hcheck : ∀ {a : Address} {m t : Memory}, validateCell a m = .ok () t →
      t.rules = m.rules := by
    intro a m t h
    obtain ⟨_, rfl⟩ := (respects_validateCell a).of_ok h
    rfl
  induction h with
  | settle h => exact h.checks.1
  | check h => exact hcheck h
  | write _ _ h => exact (hcheck h).trans (sameChecks_modifySegment _ _ _).1
  | trans _ _ ih ih' => exact ih'.trans ih

/-- The rules of a segment stay in development. -/
theorem Develops.rulesOf_eq (h : m.Develops t) (i : Int) : t.rulesOf i = m.rulesOf i := by
  unfold rulesOf
  rw [h.rules_eq]

end Cairo.Memory
