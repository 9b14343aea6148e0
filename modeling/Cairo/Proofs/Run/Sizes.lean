import Cairo.Proofs.Linear.Overlay
import Cairo.Proofs.Machine.Sizes
import Cairo.Proofs.Run.Layout
import Cairo.Proofs.Run.Operations

/-!
# Sizes are computed once

The sizes of the segments are computed once, by whatever operation asks for them first, and are not
computed again when the segments grow (`Settles`).  A run is then laid out by the sizes that its
segments had behind that operation (`RecordsSizes`): every cell within them is found in linear
memory and has its address for itself, while a cell that was written beyond them later may have to
give way to a cell of a later segment.  If no segment has outgrown its size, no two cells share an
address (`isOverlay_of_operations`).
-/

namespace Cairo.Run

/-! ## Operations that make no sizes known -/

/-- The same sizes are known of the segments of both runs. -/
def SameSizes (r t : Run) : Prop := r.machine.segments.SameSizes t.machine.segments

instance : IsPreorder Run SameSizes where
  refl _ := ⟨rfl, rfl⟩
  trans _ _ _ h h' := ⟨h'.1.trans h.1, h'.2.trans h.2⟩

variable {α : Type}

/-- An action on the machine makes sizes known as it does for the machine. -/
theorem sameSizes_onMachine {x : Action Machine α} (hx : Action.Respects Machine.SameSizes x) :
    Action.Respects SameSizes (onMachine x) :=
  .within hx fun _ _ h => h

/-- What prepares a run makes no sizes known. -/
theorem sameSizes_of_prepares {x : Action Run α} (hx : Action.Respects Prepares x) :
    Action.Respects SameSizes x :=
  hx.mono fun _ _ h => ⟨h.usedSizes, h.fixedSizes⟩

/-- The parts of the operations that compute no sizes make none known. -/
theorem operationParts_sameSizes : OperationParts (Action.Respects.law SameSizes) where
  toSetUpParts := setUpParts_prepares.mono sameSizes_of_prepares
  step := sameSizes_onMachine Machine.sameSizes_step
  deduce a := sameSizes_onMachine (Machine.sameSizes_deduceCell a)
  verify := sameSizes_onMachine Machine.sameSizes_verifyBuiltins
  addRelocation _ _ := sameSizes_onMachine (Machine.sameSizes_onMemory _)
  returns := holds_readReturnValues fun _ => sameSizes_onMachine (Machine.sameSizes_onBuiltins _)

/-! ## Operations that make sizes known -/

/-- No sizes are set, and those that are known are kept; sizes that become known are those of the
segments. -/
def Settles (r t : Run) : Prop :=
  t.machine.segments.fixedSizes = r.machine.segments.fixedSizes ∧
    (t.machine.segments.usedSizes = r.machine.segments.usedSizes ∨
      r.machine.segments.usedSizes = none ∧
        t.machine.segments.usedSizes = some (t.memory.segments.toList.map Array.size))

/-- What makes no sizes known settles none. -/
theorem SameSizes.settles {r t : Run} (h : r.SameSizes t) : r.Settles t := ⟨h.2, .inl h.1⟩

/-- The runs have the same segments. -/
def SameSegments (r t : Run) : Prop := t.machine.segments = r.machine.segments

instance : IsPreorder Run SameSegments where
  refl _ := rfl
  trans _ _ _ h h' := Eq.trans h' h

/-- An action that makes no sizes known may come before one that settles them. -/
theorem settles_bind_of_sameSizes {β : Type} {x : Action Run α} {f : α → Action Run β}
    (hx : Action.Respects SameSizes x) (hf : ∀ a, Action.Respects Settles (f a)) :
    Action.Respects Settles (x >>= f) := by
  refine fun r => Action.Respects.rel_bind (hx r).settles fun a u h => ?_
  obtain ⟨hused, hfixed⟩ := hx.of_ok h
  obtain ⟨hfixed', hused'⟩ := hf a u
  refine ⟨hfixed'.trans hfixed, hused'.imp (fun hsame => hsame.trans hused) ?_⟩
  rintro ⟨hnone, hsome⟩
  exact ⟨hused.symm.trans hnone, hsome⟩

/-- An action that leaves the segments alone may come after one that settles their sizes. -/
theorem settles_bind_of_sameSegments {β : Type} {x : Action Run α} {f : α → Action Run β}
    (hx : Action.Respects Settles x) (hf : ∀ a, Action.Respects SameSegments (f a)) :
    Action.Respects Settles (x >>= f) := by
  refine fun r => Action.Respects.rel_bind (hx r) fun a u h => ?_
  have hsegments : ((f a).after u).machine.segments = u.machine.segments := hf a u
  have hsettles : r.Settles u := hx.of_ok h
  unfold Settles memory Machine.memory at hsettles ⊢
  rwa [hsegments]

/-- Computing the sizes settles them. -/
theorem settles_computeSizes : Action.Respects Settles (onSegments Segments.computeSizes) := by
  intro r
  have hafter : ∀ s : Segments, Segments.computeSizes.after s = { s with
      usedSizes := some (s.usedSizes.getD (s.memory.segments.toList.map Array.size)) } := by
    intro s
    unfold Segments.computeSizes Action.after
    rw [Action.get_bind]
    cases hused : s.usedSizes with
    | none => rfl
    | some sizes =>
      show s = _
      rw [Option.getD_some, ← hused]
  unfold onSegments onMachine Machine.onSegments
  rw [Action.after_within, Action.after_within, hafter]
  refine ⟨rfl, ?_⟩
  cases hused : r.machine.segments.usedSizes with
  | none => exact .inr ⟨rfl, rfl⟩
  | some sizes => exact .inl rfl

/-- Checking the builtins leaves the segments alone. -/
theorem sameSegments_verifyBuiltins :
    Action.Respects SameSegments (onMachine Machine.verifyBuiltins) := by
  have hmachine : Action.Respects (fun s t : Machine => t.segments = s.segments)
      Machine.verifyBuiltins := by
    refine .get_bind fun s => ?_
    unfold Machine.onBuiltins
    rw [Action.after_within]
  exact .within hmachine fun _ _ h => h

/-- Ending a run settles the sizes. -/
theorem settles_endRun : Action.Respects Settles endRun := by
  unfold endRun
  refine .get_bind fun r => ?_
  dsimp only
  split
  · exact ⟨rfl, .inl rfl⟩
  · refine settles_bind_of_sameSizes (sameSizes_onMachine Machine.sameSizes_relocateTemporaries)
      (fun _ => ?_) r
    refine settles_bind_of_sameSizes (sameSizes_onMachine Machine.sameSizes_verifyBuiltins)
      fun _ => ?_
    exact settles_bind_of_sameSegments settles_computeSizes fun _ => .modify fun _ => rfl

/-- Relocating a run settles the sizes. -/
theorem settles_relocate : Action.Respects Settles relocate := by
  have hreport : ∀ e, Action.Respects SameSegments (onMachine (Machine.report e)) :=
    fun e r => rfl
  unfold relocate
  refine .get_bind fun r => ?_
  dsimp only
  split
  · exact ⟨rfl, .inl rfl⟩
  · refine settles_bind_of_sameSegments settles_computeSizes (fun _ => ?_) r
    refine .bind .get fun r => .bind (.lift _) fun table => .bind (.lift _) fun memory =>
      .bind (.modify fun _ => rfl) fun _ => ?_
    split
    · exact .bind (.lift _) fun _ => .bind (.modify fun _ => rfl) fun _ => hreport _
    · exact hreport _

/-- Running a function settles the sizes. -/
theorem settles_runFunction (entrypoint : Int) (args : List Datum) (secure : Bool)
    (budget : Budget) : Action.Respects Settles (runFunction entrypoint args secure budget) := by
  have hparts := operationParts_sameSizes
  unfold runFunction
  refine settles_bind_of_sameSizes (.mapM fun d _ => hparts.argument d) fun _ => ?_
  refine settles_bind_of_sameSizes (hparts.holds_initializeCall _ _ _) fun _ => ?_
  refine settles_bind_of_sameSizes hparts.holds_initializeMachine fun _ => ?_
  refine settles_bind_of_sameSizes (holds_runUntil hparts.machine hparts.step _ budget) fun _ => ?_
  refine settles_bind_of_sameSegments settles_endRun fun _ => ?_
  split
  · exact holds_verifySecure (L := Action.Respects.law SameSegments) sameSegments_verifyBuiltins
  · exact .pure _

/-! ## Any operations -/

/-- The operation sets the size of a segment. -/
def Operation.SetsSize : Operation → Prop
  | .finalize _ (some _) _ => True
  | _ => False

/-- An operation that computes no sizes, and sets none, makes none known. -/
theorem sameSizes_act {o : Operation} (hcomputes : ¬ o.ComputesSizes) (hsets : ¬ o.SetsSize) :
    Action.Respects SameSizes o.act := by
  refine operationParts_sameSizes.holds_act hcomputes
    (fun call _ => sameSizes_onMachine (Machine.sameSizes_onMemory _)) ?_
  rintro i (_ | n) offsets rfl
  · exact .modify fun _ => ⟨rfl, rfl⟩
  · exact absurd trivial hsets

/-- An operation that sets no size settles the sizes or leaves them alone. -/
theorem settles_act {o : Operation} (ho : ¬ o.SetsSize) : Action.Respects Settles o.act := by
  by_cases hcomputes : o.ComputesSizes
  · cases o with
    | computeSizes => exact settles_bind_of_sameSegments settles_computeSizes fun _ => .pure _
    | endRun => exact settles_endRun
    | relocate => exact settles_relocate
    | runFunction entrypoint args secure budget =>
      exact settles_runFunction entrypoint args secure budget
    | runLabel name args secure budget =>
      exact settles_bind_of_sameSizes .get fun _ => settles_bind_of_sameSizes (.lift _) fun _ =>
        settles_runFunction _ args secure budget
    | _ => exact hcomputes.elim
  · exact (sameSizes_act hcomputes ho).mono fun _ _ => SameSizes.settles

/-- The sizes that the segments of a run have. -/
def currentSizes (r : Run) : List Nat := r.memory.segments.toList.map Array.size

/-- Sizes in use that no segment has outgrown cover the segments, if none was set. -/
theorem sizesCover_of_currentSizes {r : Run} {sizes : List Nat}
    (hused : r.machine.segments.usedSizes = some sizes) (hfixed : r.machine.segments.fixedSizes = ∅)
    (h : ∀ k n n' : Nat, sizes[k]? = some n → r.currentSizes[k]? = some n' → n' ≤ n) :
    r.machine.segments.SizesCover := by
  refine ⟨fun known k n cells hknown hn hcells => ?_, fun k n cells hn => ?_⟩
  · obtain rfl := Option.some.inj (hused.symm.trans hknown)
    refine h k n cells.size hn ?_
    have hcells' : r.memory.segments[k]? = some cells := hcells
    unfold currentSizes
    rw [List.getElem?_map, Array.getElem?_toList, hcells', Option.map_some]
  · rw [hfixed, Std.ExtTreeMap.getElem?_empty] at hn
    cases hn

/-- The sizes of the segments become known with the last of the early operations: no sizes were
known at any time before, and those that are known then are the ones that the segments have. -/
structure RecordsSizes (r : Run) (operations early : List Operation) : Prop where
  /-- The early operations are the first ones. -/
  initial : early <+: operations
  /-- No sizes are known before they all have been made. -/
  unknown : ∀ before, before <+: early → before ≠ early →
    (r.afterOperations before).machine.segments.usedSizes = none
  /-- The sizes that are known behind them are those of the segments. -/
  known : (r.afterOperations early).machine.segments.usedSizes =
    some (r.afterOperations early).currentSizes

/-- The operations with which the sizes become known are determined. -/
theorem RecordsSizes.unique {r : Run} {operations early early' : List Operation}
    (h : r.RecordsSizes operations early) (h' : r.RecordsSizes operations early') :
    early = early' := by
  -- Of two beginnings one begins the other, and if they differ no sizes are known behind it.
  have hwithin : ∀ {l l' : List Operation}, r.RecordsSizes operations l →
      r.RecordsSizes operations l' → l <+: l' → l = l' := by
    intro l l' hl hl' hinitial
    by_contra hne
    have hnone := hl'.unknown l hinitial hne
    rw [hl.known] at hnone
    cases hnone
  rcases List.prefix_or_prefix_of_prefix h.initial h'.initial with hinitial | hinitial
  · exact hwithin h h' hinitial
  · exact (hwithin h' h hinitial).symm

/-- An operation that is made after others goes on where these end. -/
theorem afterOperations_append_singleton (r : Run) (before : List Operation) (o : Operation) :
    r.afterOperations (before ++ [o]) = o.act.after (r.afterOperations before) := by
  unfold afterOperations
  rw [List.foldl_append]
  rfl

/-- Operations that set no size leave the sizes that were set as they are.  Either no sizes become
known with any of them, or those in use in the end were recorded with one of them. -/
theorem usedSizes_afterOperations {r : Run} {operations : List Operation}
    (hused : r.machine.segments.usedSizes = none) (hset : ∀ o ∈ operations, ¬ o.SetsSize) :
    (r.afterOperations operations).machine.segments.fixedSizes = r.machine.segments.fixedSizes ∧
      ((∀ before, before <+: operations →
          (r.afterOperations before).machine.segments.usedSizes = none) ∨
        ∃ early, r.RecordsSizes operations early ∧
          (r.afterOperations operations).machine.segments.usedSizes =
            some (r.afterOperations early).currentSizes) := by
  -- The induction is on the operations from the last one back: an operation finds the sizes as the
  -- ones before it left them.
  induction operations using List.reverseRecOn with
  | nil =>
    refine ⟨rfl, .inl fun before hbefore => ?_⟩
    rw [List.prefix_nil.mp hbefore]
    exact hused
  | append_singleton before o ih =>
    obtain ⟨hbefore, ho⟩ := List.forall_mem_append.mp hset
    obtain ⟨hfixed, hknown⟩ := ih hbefore
    obtain ⟨hfixed', hsettles⟩ :=
      settles_act (ho o (List.mem_singleton_self o)) (r.afterOperations before)
    rw [← afterOperations_append_singleton] at hfixed' hsettles
    refine ⟨hfixed'.trans hfixed, ?_⟩
    rcases hknown with hnone | ⟨early, hrecords, hsizes⟩
    · rcases hsettles with hsame | ⟨-, hsome⟩
      · refine .inl fun early hearly => ?_
        rcases List.prefix_concat_iff.mp hearly with rfl | hearly
        · exact hsame.trans (hnone before (List.prefix_refl before))
        · exact hnone early hearly
      -- The sizes become known with this operation.
      · refine .inr ⟨before ++ [o], ⟨List.prefix_refl _, fun early hearly hne => ?_, hsome⟩, hsome⟩
        exact hnone early ((List.prefix_concat_iff.mp hearly).resolve_left hne)
    · refine .inr ⟨early, { hrecords with
        initial := hrecords.initial.trans (List.prefix_append before [o]) }, ?_⟩
      rcases hsettles with hsame | ⟨hnone, -⟩
      · exact hsame.trans hsizes
      · rw [hsizes] at hnone
        cases hnone

/-- Whatever was done to a new run, apart from setting sizes, if relocating it returns, its segments
are laid out by the sizes that they had when sizes first became known, with an operation before or
with the relocation itself.  If none has outgrown its size since then, nothing lies over anything
else. -/
theorem isOverlay_of_operations {program : Program} {layout : Layout} {tracing recording : Bool}
    {operations : List Operation} {t : Run} (hset : ∀ o ∈ operations, ¬ o.SetsSize)
    (h : relocate ((new program layout tracing recording).afterOperations operations) =
      .ok () t) :
    ∃ early sizes table memory,
      (new program layout tracing recording).RecordsSizes (operations ++ [.relocate]) early ∧
        sizes = ((new program layout tracing recording).afterOperations early).currentSizes ∧
        t.machine.segments.usedSizes = some sizes ∧
        t.machine.segments.relocationTable = .ok table ∧ t.linearMemory = some memory ∧
        t.memory = ((new program layout tracing recording).afterOperations operations).memory ∧
        IsOverlay sizes table t.memory memory ∧
        ((∀ k n n' : Nat, sizes[k]? = some n → t.currentSizes[k]? = some n' → n' ≤ n) →
          IsLayout t.machine.segments table memory) := by
  set r := new program layout tracing recording with hr
  have hend : r.afterOperations (operations ++ [.relocate]) = t := by
    rw [afterOperations_append_singleton]
    exact Action.after_of_ok h
  have hset' : ∀ o ∈ operations ++ [.relocate], ¬ o.SetsSize :=
    List.forall_mem_append.mpr ⟨hset, List.forall_mem_singleton.mpr id⟩
  obtain ⟨hfixed, hknown⟩ := usedSizes_afterOperations (r := r) rfl hset'
  obtain ⟨table, memory, hsegments, htable, hmemory, hkeep, -⟩ := relocate_inv h
  have hsame : t.memory = (r.afterOperations operations).memory := by
    show t.machine.segments.memory = _
    rw [hsegments]
    rfl
  rw [← hsame] at hmemory
  rw [hend] at hfixed hknown
  obtain ⟨early, hrecords, hsizes⟩ := hknown.resolve_left fun hnone => by
    have hunknown := hnone _ (List.prefix_refl _)
    rw [hend, hsegments] at hunknown
    cases hunknown
  refine ⟨early, _, table, memory, hrecords, rfl, hsizes, htable, hkeep, hsame,
    isOverlay_ofMemory hsizes hfixed htable hmemory, fun hkept => ?_⟩
  exact isLayout_ofMemory (sizesCover_of_currentSizes hsizes hfixed hkept) htable hmemory

/-- The program without data. -/
def blank : Program := ⟨[], [], none, [], ∅, ∅⟩

/-- Two segments of one cell each, whose sizes are computed before the first one gets a second
cell. -/
def outgrowing : List Operation :=
  [.memory .addSegment, .memory .addSegment,
    .memory (.insert (.base 0) (.value (.felt 1))), .memory (.insert (.base 1) (.value (.felt 2))),
    .computeSizes, .memory (.load (.base 0) [.value (.felt 1), .value (.felt 3)])]

/-- The run of the program without data in which a segment outgrows its size. -/
def outgrown : Run := (new blank ⟨"plain", []⟩ true false).afterOperations outgrowing

/-- The run before the segment outgrows its size. -/
def fitting : Run := (new blank ⟨"plain", []⟩ true false).afterOperations outgrowing.dropLast

/-- No size is set in the run. -/
theorem not_setsSize_outgrowing : ∀ o ∈ outgrowing, ¬ o.SetsSize := by
  unfold outgrowing
  simp [Operation.SetsSize]

/-- The run can be relocated. -/
theorem relocate_outgrown : relocate outgrown = .ok () (relocate.after outgrown) :=
  Action.eq_ok_of_isOk (by decide +kernel)

/-- The run is an overlay by the sizes that its segments had before one of them got a second cell.
Without that cell nothing lies over anything else. -/
theorem isOverlay_of_operations_outgrowing :
    (∀ o ∈ outgrowing, ¬ o.SetsSize) ∧
    (∃ early table memory t, relocate outgrown = .ok () t ∧
      (new blank ⟨"plain", []⟩ true false).RecordsSizes (outgrowing ++ [.relocate]) early ∧
        t.currentSizes = [2, 1] ∧ t.linearMemory = some memory ∧
          IsOverlay [1, 1] table t.memory memory) ∧
    ∃ table memory t, relocate fitting = .ok () t ∧ t.linearMemory = some memory ∧
      IsLayout t.machine.segments table memory := by
  refine ⟨not_setsSize_outgrowing, ?_, ?_⟩
  · obtain ⟨early, sizes, table, memory, hrecords, -, hused, -, hkeep, -, hoverlay, -⟩ :=
      isOverlay_of_operations not_setsSize_outgrowing relocate_outgrown
    have hsizes : (relocate.after outgrown).machine.segments.usedSizes = some [1, 1] := by
      decide +kernel
    obtain rfl := Option.some.inj (hused.symm.trans hsizes)
    exact ⟨early, table, memory, _, relocate_outgrown, hrecords, by decide +kernel, hkeep, hoverlay⟩
  · have hset : ∀ o ∈ outgrowing.dropLast, ¬ o.SetsSize := fun o ho =>
      not_setsSize_outgrowing o (List.mem_of_mem_dropLast ho)
    have hreturns : relocate fitting = .ok () (relocate.after fitting) :=
      Action.eq_ok_of_isOk (by decide +kernel)
    obtain ⟨_, sizes, table, memory, -, -, hused, -, hkeep, -, -, hlayout⟩ :=
      isOverlay_of_operations hset hreturns
    have hsizes : (relocate.after fitting).machine.segments.usedSizes =
        some (relocate.after fitting).currentSizes := by decide +kernel
    obtain rfl := Option.some.inj (hused.symm.trans hsizes)
    refine ⟨table, memory, _, hreturns, hkeep, hlayout fun k n n' hn hn' => ?_⟩
    exact Nat.le_of_eq (Option.some.inj (hn'.symm.trans hn))

/-- The second cell of the first segment has the linear address of the first cell of the second
segment, and only the latter is found there. -/
theorem exists_overlaid :
    ∃ (t : Run) (table : List Int) (memory : LinearMemory) (a b : Address) (n : Int),
      relocate outgrown = .ok () t ∧ t.machine.segments.relocationTable.toOption = some table ∧
        t.linearMemory = some memory ∧ a ≠ b ∧ t.memory.get? a = some (.felt 3) ∧
          t.memory.get? b = some (.felt 2) ∧ (a.linear table).toOption = some n ∧
            (b.linear table).toOption = some n ∧ memory.cell? n = some 2 := by
  refine ⟨relocate.after outgrown, [1, 2], #[none, some 1, some 2], ⟨0, 1, by decide⟩, .base 1, 2,
    relocate_outgrown, ?_⟩
  decide +kernel

end Cairo.Run
