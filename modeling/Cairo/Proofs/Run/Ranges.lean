import Cairo.Proofs.Memory.Ranges
import Cairo.Proofs.Run.Development

/-!
# Range checks hold

Whatever is done to a run, by its program, by hints or from outside, either lets its machine
develop, adds the rule of a range check for its segment or one by hand, or gives the builtins new
segments (`Evolves`).  So the segment of a range check was always its own (`Reserved`), and until
the machine is set up it awaits the rule of its range check, as long as no laxer one was added by
hand (`Evolves.awaits`).  Setting the machine up adds the rule and checks the cells that are there,
and from then on the segment is guarded, so that every written cell of a range check is a field
element below its bound (`rangeCheck_cells_lt`).
-/

namespace Cairo.Run

variable {r s t : Run} {i : Int} {rule : RangeRule} {α : Type}

-- The rules that may be added by hand, each for a segment.
variable {H : Int → RangeRule → Prop}

/-! ## How runs evolve -/

/-- What is done to a run, if it succeeds, lets the machine develop, adds the rule of a range check
for its segment or an admitted one by hand, takes builtins away or brings in some that have no
segments yet, or gives the range checks new segments, each its own. -/
inductive Evolves (H : Int → RangeRule → Prop) : Run → Run → Prop
  | develops {r t : Run} (h : r.Develops t) : Evolves H r t
  | ruled {r t : Run} {i : Int} {rule : RangeRule} (hrule : (some i, rule) ∈ r.posts ∨ H i rule)
      (hmemory : t.memory = r.memory.addRule i rule) (hposts : t.posts = r.posts) : Evolves H r t
  | exchanged {r t : Run} (hmemory : t.memory = r.memory)
      (hposts : ∀ i rule, (some i, rule) ∈ t.posts → (some i, rule) ∈ r.posts) : Evolves H r t
  | allotted {r t : Run} (hmemory : r.memory.Develops t.memory)
      (hnew : ∀ i rule, (some i, rule) ∈ t.posts →
        0 ≤ i ∧ r.memory.segment? i = none ∧ (t.memory.segment? i).isSome)
      (hown : ∀ i rule rule', (some i, rule) ∈ t.posts → (some i, rule') ∈ t.posts → rule = rule') :
      Evolves H r t
  | trans {r s t : Run} (h : Evolves H r s) (h' : Evolves H s t) : Evolves H r t

instance : IsPreorder Run (Evolves H) where
  refl r := .develops (refl r)
  trans _ _ _ := .trans

/-- The segments of the range checks are real and allocated, and two range checks of one segment
have the same rule. -/
structure Lodged (r : Run) : Prop where
  real : ∀ i rule, (some i, rule) ∈ r.posts → 0 ≤ i
  allocated : ∀ i rule, (some i, rule) ∈ r.posts → (r.memory.segment? i).isSome
  own : ∀ i rule rule', (some i, rule) ∈ r.posts → (some i, rule') ∈ r.posts → rule = rule'

/-- The range checks of a new run have no segments. -/
theorem lodged_new (program : Program) (layout : Layout) (tracing recording : Bool) :
    (new program layout tracing recording).Lodged :=
  ⟨nofun, nofun, nofun⟩

/-- The range checks keep segments of their own as the run evolves. -/
theorem Lodged.of_evolves (hr : r.Lodged) (h : r.Evolves H t) : t.Lodged := by
  induction h with
  | develops h =>
    have hposts := h.posts_eq
    refine ⟨hposts ▸ hr.real, fun i rule hpost => ?_, hposts ▸ hr.own⟩
    exact h.memory.isSome_segment? (hr.allocated i rule (hposts ▸ hpost))
  | ruled _ hmemory hposts =>
    refine ⟨hposts ▸ hr.real, fun i rule hpost => ?_, hposts ▸ hr.own⟩
    rw [hmemory]
    exact hr.allocated i rule (hposts ▸ hpost)
  | exchanged hmemory hposts =>
    refine ⟨fun i rule hpost => hr.real i rule (hposts i rule hpost), fun i rule hpost => ?_,
      fun i rule rule' hpost hpost' => ?_⟩
    · rw [hmemory]
      exact hr.allocated i rule (hposts i rule hpost)
    · exact hr.own i rule rule' (hposts i rule hpost) (hposts i rule' hpost')
  | allotted _ hnew hown =>
    exact ⟨fun i rule hpost => (hnew i rule hpost).1, fun i rule hpost => (hnew i rule hpost).2.2,
      hown⟩
  | trans _ _ ih ih' => exact ih' (ih hr)

/-- The segment is that of a range check with the rule, or it is not allocated yet. -/
def Reserved (r : Run) (i : Int) (rule : RangeRule) : Prop :=
  (some i, rule) ∈ r.posts ∨ r.memory.segment? i = none

/-- The segment of a range check belonged to nothing else before: range checks get new segments. -/
theorem Evolves.reserved (h : r.Evolves H t) (ht : t.Reserved i rule) : r.Reserved i rule := by
  have hunallocated : ∀ {m m' : Memory}, m.Develops m' → m'.segment? i = none →
      m.segment? i = none := by
    intro m m' hm hfree
    by_contra hallocated
    have hsome := hm.isSome_segment? (Option.isSome_iff_ne_none.mpr hallocated)
    rw [hfree] at hsome
    cases hsome
  induction h with
  | develops h =>
    rcases ht with hpost | hfree
    · exact .inl (h.posts_eq ▸ hpost)
    · exact .inr (hunallocated h.memory hfree)
  | ruled _ hmemory hposts =>
    rcases ht with hpost | hfree
    · exact .inl (hposts ▸ hpost)
    · rw [hmemory] at hfree
      exact .inr hfree
  | exchanged hmemory hposts =>
    rcases ht with hpost | hfree
    · exact .inl (hposts i rule hpost)
    · exact .inr (hmemory ▸ hfree)
  | allotted hmemory hnew _ =>
    rcases ht with hpost | hfree
    · exact .inr (hnew i rule hpost).2.1
    · exact .inr (hunallocated hmemory hfree)
  | trans _ _ ih ih' => exact ih (ih' ht)

/-- A segment that is to be that of a range check goes on awaiting its rule as the run evolves, if
no laxer rule may be added for it by hand. -/
theorem Evolves.awaits (h : r.Evolves H t) (hr : r.Lodged) (ht : t.Reserved i rule)
    (hH : ∀ rule', H i rule' → rule'.parts ≤ rule.parts) (hm : r.memory.Awaits i rule) :
    t.memory.Awaits i rule := by
  induction h with
  | develops h => exact hm.of_develops h.memory
  | ruled hrule hmemory hposts =>
    rw [hmemory]
    refine hm.addRule ?_
    rintro rfl
    rcases hrule with hpost | hhand
    · -- The range check that the rule is of has its segment, which is thus that of the other one.
      rcases (Evolves.ruled (H := H) (.inl hpost) hmemory hposts).reserved ht with hpost' | hfree
      · rw [hr.own _ _ _ hpost hpost']
      · have hallocated := hr.allocated _ _ hpost
        rw [hfree] at hallocated
        cases hallocated
    · exact hH _ hhand
  | exchanged hmemory _ => exact hmemory ▸ hm
  | allotted hmemory _ _ => exact hm.of_develops hmemory
  | trans h h' ih ih' => exact ih' (hr.of_evolves h) ht (ih hr (h'.reserved ht) hm)

/-- A segment that is guarded stays so as the run evolves, whatever rules are added. -/
theorem Evolves.guards (h : r.Evolves H t) (hr : r.memory.Guards i rule) :
    t.memory.Guards i rule := by
  induction h with
  | develops h => exact hr.of_develops h.memory
  | ruled _ hmemory _ =>
    rw [hmemory]
    exact hr.addRule _ _
  | exchanged hmemory _ => exact hmemory ▸ hr
  | allotted hmemory _ _ => exact hr.of_develops hmemory
  | trans _ _ ih ih' => exact ih' (ih hr)

/-- What lets the machine develop lets the run evolve. -/
theorem evolves_of_develops {x : Action Run α} (hx : Action.Ensures Develops x) :
    Action.Ensures (Evolves H) x :=
  hx.mono fun _ _ => .develops

/-! ## Allotting segments -/

/-- A change of the builtins after which none has a segment that was not one of them before lets the
run evolve. -/
theorem evolves_modifyBuiltins {f : List Builtin → List Builtin}
    (hf : ∀ bs, ∀ b ∈ f bs, b ∈ bs ∨ b.segment = none) :
    Action.Ensures (Evolves H) (onBuiltins (modify f)) := by
  rintro r _ t ⟨⟩
  refine .exchanged rfl fun i rule hpost => ?_
  obtain ⟨b, hb, heq⟩ := List.mem_map.mp hpost
  obtain ⟨hb, hkind⟩ := List.mem_filter.mp hb
  obtain ⟨hsegment, rfl⟩ := Prod.mk.inj heq
  rcases hf _ b hb with hold | hnone
  · rw [← hsegment]
    exact Builtin.mem_posts hold (of_decide_eq_true hkind)
  · rw [hnone] at hsegment
    cases hsegment

/-- The segment that a builtin is given is the next one. -/
theorem allocate_next {b b' : Builtin} (h : onSegments b.allocate r = .ok b' t) :
    b' = { b with segment := some (r.memory.segments.size : Int) } ∧
      t.memory.segments.size = r.memory.segments.size + 1 := by
  unfold onSegments onMachine at h
  obtain ⟨_, hmachine, rfl⟩ := Action.within_eq_ok.mp h
  obtain ⟨_, hallocate, rfl⟩ := Action.within_eq_ok.mp hmachine
  obtain ⟨base, _, hadd, hb'⟩ := Action.bind_eq_ok.mp hallocate
  obtain ⟨rfl, rfl⟩ := Action.pure_eq_ok.mp hb'
  obtain ⟨i, _, hmemory, hbase⟩ := Action.bind_eq_ok.mp hadd
  obtain ⟨rfl, rfl⟩ := Action.pure_eq_ok.mp hbase
  obtain ⟨_, hindex, rfl⟩ := Action.within_eq_ok.mp hmemory
  cases hindex
  exact ⟨rfl, Array.size_push _⟩

/-- Builtins are given segments that were not allocated, each its own. -/
theorem allocate_distinct {bs bs' : List Builtin}
    (h : (bs.mapM fun b => onSegments b.allocate) r = .ok bs' t) :
    r.memory.segments.size ≤ t.memory.segments.size ∧ (bs'.map (·.segment)).Nodup ∧
      ∀ b ∈ bs', ∃ n : Nat, b.segment = some (n : Int) ∧ r.memory.segments.size ≤ n ∧
        n < t.memory.segments.size := by
  induction bs generalizing r bs' with
  | nil =>
    rw [List.mapM_nil] at h
    obtain ⟨rfl, rfl⟩ := Action.pure_eq_ok.mp h
    exact ⟨Nat.le_refl _, .nil, nofun⟩
  | cons b rest ih =>
    rw [List.mapM_cons] at h
    obtain ⟨b', s, hfirst, h⟩ := Action.bind_eq_ok.mp h
    obtain ⟨rest', _, hrest, h⟩ := Action.bind_eq_ok.mp h
    obtain ⟨rfl, rfl⟩ := Action.pure_eq_ok.mp h
    obtain ⟨rfl, hsize⟩ := allocate_next hfirst
    obtain ⟨hle, hnodup, hrange⟩ := ih hrest
    rw [hsize] at hle hrange
    refine ⟨by omega, ?_, List.forall_mem_cons.mpr ⟨⟨_, rfl, Nat.le_refl _, by omega⟩, ?_⟩⟩
    · rw [List.map_cons, List.nodup_cons]
      refine ⟨fun hmem => ?_, hnodup⟩
      obtain ⟨c, hc, heq⟩ := List.mem_map.mp hmem
      obtain ⟨n, hn, hlt, -⟩ := hrange c hc
      rw [hn] at heq
      have := Int.ofNat.inj (Option.some.inj heq)
      omega
    · intro c hc
      obtain ⟨n, hn, hlt, hlast⟩ := hrange c hc
      exact ⟨n, hn, by omega, hlast⟩

/-- Giving the builtins segments lets the run evolve. -/
theorem evolves_allocateBuiltins : Action.Ensures (Evolves H) allocateBuiltins := by
  refine .get_bind fun r u t h => ?_
  obtain ⟨bs, s, hallocate, hset⟩ := Action.bind_eq_ok.mp h
  have hdevelops : r.Develops s := by
    refine Action.Ensures.mapM (fun b _ => ?_) r bs s hallocate
    exact develops_onSegments (.bind (Segments.develops_add none) fun _ => .pure _)
  obtain ⟨-, hnodup, hrange⟩ := allocate_distinct hallocate
  cases hset
  have hmem : ∀ {i : Int} {rule : RangeRule}, (some i, rule) ∈ Builtin.posts bs →
      ∃ b ∈ bs, b.segment = some i ∧ b.rangeRule = rule := by
    intro i rule hpost
    obtain ⟨b, hb, heq⟩ := List.mem_map.mp hpost
    obtain ⟨hsegment, hrule⟩ := Prod.mk.inj heq
    exact ⟨b, (List.mem_filter.mp hb).1, hsegment, hrule⟩
  refine .allotted hdevelops.memory (fun i rule hpost => ?_) fun i rule rule' hpost hpost' => ?_
  · obtain ⟨b, hb, hsegment, -⟩ := hmem hpost
    obtain ⟨n, hn, hfirst, hlast⟩ := hrange b hb
    obtain rfl := Option.some.inj (hsegment.symm.trans hn)
    refine ⟨Int.natCast_nonneg n, Array.getElem?_eq_none hfirst, ?_⟩
    show (s.memory.segments[n]?).isSome
    rw [isSome_getElem?]
    exact hlast
  · obtain ⟨b, hb, hsegment, rfl⟩ := hmem hpost
    obtain ⟨c, hc, hsegment', rfl⟩ := hmem hpost'
    rw [List.inj_on_of_nodup_map hnodup hb hc (hsegment.trans hsegment'.symm)]

/-! ## Adding the rules -/

/-- Adding the rule of a builtin does nothing, unless it is a range check. -/
theorem addRule_ok {b : Builtin} (h : (do
    let memory ← b.addRule (← get).memory
    onMemory (set memory) : Action Run Unit) r = .ok () t) :
    t.machine.builtins = r.machine.builtins ∧
      ((b.kind ≠ .rangeCheck ∧ t.memory = r.memory) ∨
        ∃ i, b.kind = .rangeCheck ∧ b.segment = some i ∧
          t.memory = r.memory.addRule i b.rangeRule) := by
  obtain ⟨_, _, hget, h⟩ := Action.bind_eq_ok.mp h
  obtain ⟨rfl, rfl⟩ := Action.get_eq_ok.mp hget
  obtain ⟨m, _, hlift, h⟩ := Action.bind_eq_ok.mp h
  obtain ⟨hm, rfl⟩ := Action.lift_eq_ok.mp hlift
  cases h
  refine ⟨rfl, ?_⟩
  by_cases hkind : b.kind = .rangeCheck
  · unfold Builtin.addRule at hm
    rw [hkind] at hm
    obtain ⟨i, hi, hm⟩ := Answer.bind_eq_ok.mp hm
    exact .inr ⟨i, hkind, Builtin.requireSegment_eq_ok.mp hi, (Answer.pure_eq_ok.mp hm).symm⟩
  · unfold Builtin.addRule at hm
    split at hm
    · contradiction
    · exact .inl ⟨hkind, (Except.ok.inj hm).symm⟩

/-- The builtins are the same and no rule is lost, and a run with these builtins evolves. -/
structure Rules (bs : List Builtin) (r t : Run) : Prop where
  builtins : t.machine.builtins = r.machine.builtins
  keeps : ∀ i rule, rule ∈ r.memory.rulesOf i → rule ∈ t.memory.rulesOf i
  evolves : r.machine.builtins = bs → ∀ H, r.Evolves H t

instance (bs : List Builtin) : IsPreorder Run (Rules bs) where
  refl r := ⟨rfl, fun _ _ => id, fun _ _ => refl r⟩
  trans _ _ _ h h' := ⟨h'.builtins.trans h.builtins,
    fun i rule hrule => h'.keeps i rule (h.keeps i rule hrule),
    fun hbs H => (h.evolves hbs H).trans (h'.evolves (h.builtins.trans hbs) H)⟩

/-- Adding the rules of the builtins lets the run evolve, and gives every range check its rule. -/
theorem addRules_ok (h : addRules r = .ok () t) :
    Rules r.machine.builtins r t ∧ ∀ b ∈ r.machine.builtins, b.kind = .rangeCheck →
      ∃ i, b.segment = some i ∧ b.rangeRule ∈ t.memory.rulesOf i := by
  obtain ⟨_, _, hget, h⟩ := Action.bind_eq_ok.mp h
  obtain ⟨rfl, rfl⟩ := Action.get_eq_ok.mp hget
  have hround : ∀ b ∈ r.machine.builtins, Action.Ensures (Rules r.machine.builtins) (do
      let memory ← b.addRule (← get).memory
      onMemory (set memory) : Action Run Unit) := by
    rintro b hb s ⟨⟩ t hadd
    obtain ⟨hbuiltins, ⟨-, hmemory⟩ | ⟨i, hkind, hi, hmemory⟩⟩ := addRule_ok hadd
    · refine ⟨hbuiltins, fun i rule hrule => hmemory ▸ hrule, fun _ _ => .develops ⟨?_, ?_⟩⟩
      · show s.memory.Develops t.memory
        rw [hmemory]
        exact refl _
      · rw [hbuiltins]
    · refine ⟨hbuiltins, fun j rule hrule => ?_,
        fun hbs _ => .ruled (.inl ?_) hmemory ?_⟩
      · rw [hmemory]
        exact Memory.mem_rulesOf_addRule.mpr (.inl hrule)
      · unfold posts
        rw [hbs, ← hi]
        exact Builtin.mem_posts hb hkind
      · unfold posts
        rw [hbuiltins]
  refine ⟨Action.Ensures.forM hround r _ t h, ?_⟩
  refine Action.Ensures.forM_establishes (P := fun (b : Builtin) (t : Run) => b.kind = .rangeCheck →
    ∃ i, b.segment = some i ∧ b.rangeRule ∈ t.memory.rulesOf i) h hround ?_ ?_
  · intro b _ s t _ hadd hkind
    obtain ⟨-, ⟨hother, -⟩ | ⟨i, -, hi, hmemory⟩⟩ := addRule_ok hadd
    · exact absurd hkind hother
    · refine ⟨i, hi, ?_⟩
      rw [hmemory]
      exact Memory.mem_rulesOf_addRule.mpr (.inr ⟨rfl, rfl⟩)
  · intro b s t hs hruled hkind
    obtain ⟨i, hi, hrule⟩ := hruled hkind
    exact ⟨i, hi, hs.keeps i _ hrule⟩

/-- Setting the machine up adds the rules of the builtins and checks the cells that are there; for
the rest the machine develops. -/
theorem initializeMachine_inv (h : initializeMachine r = .ok () t) :
    ∃ r₁ r₂ r₃, r.Develops r₁ ∧ addRules r₁ = .ok () r₂ ∧
      onMemory Memory.validateExisting r₂ = .ok () r₃ ∧ r₃.Develops t := by
  obtain ⟨_, _, hget, h⟩ := Action.bind_eq_ok.mp h
  obtain ⟨rfl, rfl⟩ := Action.get_eq_ok.mp hget
  obtain ⟨pc, _, hlift, h⟩ := Action.bind_eq_ok.mp h
  obtain ⟨-, rfl⟩ := Action.lift_eq_ok.mp hlift
  obtain ⟨_, r₁, hregisters, h⟩ := Action.bind_eq_ok.mp h
  obtain ⟨_, r₂, hrules, h⟩ := Action.bind_eq_ok.mp h
  obtain ⟨_, r₃, hexisting, h⟩ := Action.bind_eq_ok.mp h
  have hfirst : Action.Ensures Develops
      (onMachine (modify ({ · with registers := ⟨pc, r.initialAp, r.initialFp⟩ }))) :=
    develops_modifyMachine (fun _ => rfl) fun _ => rfl
  have hlast : Action.Ensures Develops (do
      let hints ← (← get).placedHints
      onMachine (modify ({ · with hints := hints, processor := some .standard }))
      shareScopes : Action Run Unit) :=
    .bind .get fun _ => .bind (.lift _) fun _ =>
      .bind (develops_modifyMachine (fun _ => rfl) fun _ => rfl) fun _ => develops_shareScopes
  exact ⟨r₁, r₂, r₃, hfirst r _ r₁ hregisters, hrules, hexisting, hlast r₃ () t h⟩

/-- Once the machine is set up, every range check has a segment, and it is guarded if it awaited the
rule. -/
theorem guards_of_initializeMachine {segment : Option Int} (hr : r.Lodged)
    (h : initializeMachine r = .ok () t) (hpost : (segment, rule) ∈ t.posts) :
    ∃ i, segment = some i ∧ (r.memory.Awaits i rule → t.memory.Guards i rule) := by
  obtain ⟨r₁, r₂, r₃, hfirst, hrules, hexisting, hlast⟩ := initializeMachine_inv h
  obtain ⟨hruled, hown⟩ := addRules_ok hrules
  have hposts : r₃.posts = r₂.posts :=
    (develops_onMemory Memory.develops_validateExisting r₂ () r₃ hexisting).posts_eq
  rw [hlast.posts_eq, hposts] at hpost
  obtain ⟨b, hb, heq⟩ := List.mem_map.mp hpost
  obtain ⟨hb, hkind⟩ := List.mem_filter.mp hb
  rw [hruled.builtins] at hb
  obtain ⟨i, hi, hrule⟩ := hown b hb (of_decide_eq_true hkind)
  cases heq
  rw [hi] at hpost ⊢
  refine ⟨i, rfl, fun hawaits => ?_⟩
  have hevolves : r.Evolves (fun _ _ => False) r₂ :=
    (Evolves.develops hfirst).trans (hruled.evolves rfl _)
  have hready : r₂.memory.Awaits i b.rangeRule :=
    hevolves.awaits hr (.inl hpost) (fun _ => False.elim) hawaits
  refine Memory.Guards.of_develops ?_ hlast.memory
  unfold onMemory onMachine Machine.onMemory Machine.onSegments Segments.onMemory at hexisting
  obtain ⟨_, hmachine, rfl⟩ := Action.within_eq_ok.mp hexisting
  obtain ⟨_, hsegments, rfl⟩ := Action.within_eq_ok.mp hmachine
  obtain ⟨_, hmemory, rfl⟩ := Action.within_eq_ok.mp hsegments
  exact Memory.guards_of_validateExisting hready hrule hmemory

/-! ## Operations -/

/-- The parts of the operations let the run evolve. -/
theorem sizingParts_evolves : SizingParts (Action.Ensures.law (Evolves H)) where
  toLoadingParts := loadingParts_develops.mono evolves_of_develops
  machine _ hf := evolves_of_develops (develops_of_keepsContents hf)
  builtins _ hf := evolves_modifyBuiltins fun bs b hb => (hf bs b hb).imp_right And.left
  allocate := evolves_allocateBuiltins
  rules _ _ _ h := (addRules_ok h).1.evolves rfl H
  validate := evolves_of_develops (develops_onMemory Memory.develops_validateExisting)
  step := evolves_of_develops (develops_onMachine Machine.develops_step)
  deduce a := evolves_of_develops (develops_onMachine (Machine.develops_deduceCell a))
  verify := evolves_of_develops (develops_onMachine Machine.develops_verifyBuiltins)
  addRelocation src dst := evolves_of_develops
    (develops_onMemory (Memory.develops_of_settles (Memory.settles_addRelocation src dst)))
  returns := evolves_of_develops develops_readReturnValues
  move := evolves_of_develops (develops_onMachine Machine.develops_relocateTemporaries)
  sizes := evolves_of_develops (develops_onSegments Segments.develops_computeSizes)

/-- The run of a function, after the machine was set up for it. -/
theorem develops_afterCall (final : Address) (secure : Bool) (budget : Budget) :
    Action.Ensures Develops (do
      let _ ← runUntil (some final) budget
      endRun
      if secure then
        verifySecure : Action Run Unit) := by
  refine .bind (develops_runUntil _ budget) fun _ => .bind develops_endRun fun _ => ?_
  split
  · exact develops_verifySecure
  · exact .pure _

/-- Running a function prepares its call, sets the machine up, and lets it develop after that. -/
theorem runFunction_inv {entrypoint : Int} {args : List Datum} {secure : Bool} {budget : Budget}
    (h : runFunction entrypoint args secure budget r = .ok () t) :
    ∃ r₁ r₂, r.Develops r₁ ∧ initializeMachine r₁ = .ok () r₂ ∧ r₂.Develops t := by
  obtain ⟨stack, r₀, hargs, h⟩ := Action.bind_eq_ok.mp h
  obtain ⟨final, r₁, hcall, h⟩ := Action.bind_eq_ok.mp h
  obtain ⟨_, r₂, hmachine, h⟩ := Action.bind_eq_ok.mp h
  have hstack : r.Develops r₀ := by
    refine Action.Ensures.mapM (fun d _ => ?_) r stack r₀ hargs
    exact develops_onSegments (Segments.develops_argument d)
  refine ⟨r₁, r₂, IsTrans.trans (r := Develops) _ _ _ hstack ?_, hmachine, ?_⟩
  · exact loadingParts_develops.holds_initializeCall _ _ _ r₀ final r₁ hcall
  · exact develops_afterCall final secure budget r₂ () t h

/-- An operation lets the run evolve, if a rule that it adds by hand is admitted. -/
theorem evolves_act {o : Operation} (ho : ∀ i rule, o = .memory (.addRule i rule) → H i rule) :
    Action.Ensures (Evolves H) o.act := by
  refine sizingParts_evolves.holds_act ?_ (fun i size offsets _ => ?_) fun _ _ => ?_
  · rintro call rfl
    by_cases hrule : ∃ i rule, call = .addRule i rule
    · obtain ⟨i, rule, rfl⟩ := hrule
      rintro r _ t ⟨⟩
      exact .ruled (.inr (ho i rule rfl)) rfl rfl
    · push Not at hrule
      exact evolves_of_develops (develops_onMemory (Memory.develops_act hrule))
  · exact evolves_of_develops (develops_onSegments
      (.modify fun s => Segments.develops_finalize s i size offsets))
  · exact evolves_of_develops (develops_modify fun _ => rfl)

/-! ## Deeds -/

/-- Something that is done to a run: an operation, or a part of one that can be done by itself.  A
change of the machine may be any that leaves its segments and its builtins alone. -/
inductive Deed
  | operation (o : Operation)
  | writeArguments (a : Address) (items : List Datum)
  | validateCell (a : Address)
  | relocateMemory
  | relocateTemporaries
  | runHint (p : HintProcessor) (h : Hint)
  | stepHint
  | stepInstruction
  | changeMachine (f : Machine → Machine) (hsegments : ∀ m, (f m).segments = m.segments)
      (hbuiltins : ∀ m, (f m).builtins = m.builtins)

namespace Deed

/-- What a deed does to a run. -/
def act : Deed → Action Run Unit
  | operation o => o.act
  | writeArguments a items => do let _ ← onSegments (Segments.writeArguments a items)
  | validateCell a => onMemory (Memory.validateCell a)
  | relocateMemory => onMemory Memory.relocate
  | relocateTemporaries => onMachine Machine.relocateTemporaries
  | runHint p h => onMachine (Machine.runHint p h)
  | stepHint => onMachine Machine.stepHint
  | stepInstruction => onMachine Machine.stepInstruction
  | changeMachine f _ _ => onMachine (modify f)

/-- A deed lets the run evolve, if a rule that it adds by hand is admitted. -/
theorem evolves {d : Deed} (hd : ∀ i rule, d = operation (.memory (.addRule i rule)) → H i rule) :
    Action.Ensures (Evolves H) d.act := by
  cases d with
  | operation o => exact evolves_act fun i rule ho => hd i rule (congrArg operation ho)
  | writeArguments a items =>
    exact .bind (evolves_of_develops (develops_onSegments
      (Segments.develops_writeArguments a items))) fun _ => .pure _
  | validateCell a =>
    exact evolves_of_develops (develops_onMemory (Memory.develops_validateCell a))
  | relocateMemory => exact evolves_of_develops (develops_onMemory Memory.develops_relocate)
  | relocateTemporaries =>
    exact evolves_of_develops (develops_onMachine Machine.develops_relocateTemporaries)
  | runHint p h => exact evolves_of_develops (develops_onMachine (Machine.develops_runHint p h))
  | stepHint => exact evolves_of_develops (develops_onMachine Machine.develops_stepHint)
  | stepInstruction =>
    exact evolves_of_develops (develops_onMachine Machine.develops_stepInstruction)
  | changeMachine f hsegments hbuiltins =>
    exact evolves_of_develops (develops_modifyMachine hsegments hbuiltins)

/-- One of the deeds adds the rule for the segment by hand. -/
def AddsRule (deeds : List Deed) (i : Int) (rule : RangeRule) : Prop :=
  operation (.memory (.addRule i rule)) ∈ deeds

/-- Deeds let the run evolve, by hand with the rules that they add. -/
theorem evolves_forM (deeds : List Deed) :
    Action.Ensures (Evolves (AddsRule deeds)) (deeds.forM act) := by
  refine .forM fun d hd => evolves fun i rule h => ?_
  rwa [h] at hd

end Deed

/-- The operation sets the machine up. -/
def Operation.SetsUp : Operation → Prop
  | .initializeMachine | .initializeAll | .runFunction _ _ _ _ | .runLabel _ _ _ _ => True
  | _ => False

/-- An operation that sets the machine up lets the run evolve before that, and develop after it. -/
theorem setsUp_inv {o : Operation} (ho : o.SetsUp) (h : o.act r = .ok () t)
    (H : Int → RangeRule → Prop) :
    ∃ r₁ r₂, r.Evolves H r₁ ∧ initializeMachine r₁ = .ok () r₂ ∧ r₂.Develops t := by
  have hfunction : ∀ {entrypoint args secure budget},
      runFunction entrypoint args secure budget r = .ok () t →
        ∃ r₁ r₂, r.Evolves H r₁ ∧ initializeMachine r₁ = .ok () r₂ ∧ r₂.Develops t := by
    intro entrypoint args secure budget h
    obtain ⟨r₁, r₂, hfirst, hmachine, hlast⟩ := runFunction_inv h
    exact ⟨r₁, r₂, .develops hfirst, hmachine, hlast⟩
  cases o with
  | initializeMachine => exact ⟨r, t, refl r, h, refl t⟩
  | initializeAll =>
    obtain ⟨_, _, hall, hpure⟩ := Action.bind_eq_ok.mp h
    obtain ⟨-, rfl⟩ := Action.pure_eq_ok.mp hpure
    obtain ⟨_, r₁, hbuiltins, h⟩ := Action.bind_eq_ok.mp hall
    obtain ⟨_, r₂, hsegments, h⟩ := Action.bind_eq_ok.mp h
    obtain ⟨_, r₃, hmain, h⟩ := Action.bind_eq_ok.mp h
    obtain ⟨_, r₄, hmachine, h⟩ := Action.bind_eq_ok.mp h
    obtain ⟨-, rfl⟩ := Action.pure_eq_ok.mp h
    refine ⟨r₃, r₄, ?_, hmachine, refl r₄⟩
    have hparts := sizingParts_evolves (H := H)
    exact (hparts.holds_initializeBuiltins r _ r₁ hbuiltins).trans
      ((hparts.holds_initializeSegments none r₁ _ r₂ hsegments).trans
        (hparts.holds_initializeMain r₂ _ r₃ hmain))
  | runFunction entrypoint args secure budget => exact hfunction h
  | runLabel name args secure budget =>
    obtain ⟨_, _, hget, h⟩ := Action.bind_eq_ok.mp h
    obtain ⟨rfl, rfl⟩ := Action.get_eq_ok.mp hget
    obtain ⟨entrypoint, _, hlift, h⟩ := Action.bind_eq_ok.mp h
    obtain ⟨-, rfl⟩ := Action.lift_eq_ok.mp hlift
    exact hfunction h
  | _ => exact absurd ho id

/-- A range check has a segment once the machine of a new run is set up, and it is guarded if no
laxer rule was added for it by hand before. -/
theorem guards_of_setsUp {program : Program} {layout : Layout} {tracing recording : Bool}
    {before : List Deed} {setUp : Operation} (hsetUp : setUp.SetsUp)
    (hr : before.forM Deed.act (new program layout tracing recording) = .ok () r)
    (hs : setUp.act r = .ok () s) {segment : Option Int} (hpost : (segment, rule) ∈ s.posts)
    (hrules : ∀ i rule', Deed.AddsRule before i rule' → segment = some i →
      rule'.parts ≤ rule.parts) :
    ∃ i, segment = some i ∧ s.memory.Guards i rule := by
  have hnew := lodged_new program layout tracing recording
  obtain ⟨r₁, r₂, hfirst, hmachine, hlast⟩ := setsUp_inv hsetUp hs (Deed.AddsRule before)
  have hbefore : (new program layout tracing recording).Evolves (Deed.AddsRule before) r₁ :=
    (Deed.evolves_forM before _ () r hr).trans hfirst
  rw [hlast.posts_eq] at hpost
  obtain ⟨i, rfl, hguards⟩ := guards_of_initializeMachine (hnew.of_evolves hbefore) hmachine hpost
  have hsets : r₁.Evolves (Deed.AddsRule before) r₂ :=
    sizingParts_evolves.holds_initializeMachine r₁ () r₂ hmachine
  have hreal : 0 ≤ i := (hnew.of_evolves (hbefore.trans hsets)).real i rule hpost
  have hawaits : r₁.memory.Awaits i rule :=
    hbefore.awaits hnew (hsets.reserved (.inl hpost)) (fun rule' h => hrules i rule' h rfl)
      (Memory.awaits_empty hreal rule)
  exact ⟨i, rfl, (hguards hawaits).of_develops hlast.memory⟩

/-- Range checks hold in every state from the set-up of the machine on.  A new run is brought to its
set-up by any deeds, and any deeds follow.  If nothing has failed, every range check has a segment
of its own, of which every written cell holds a field element with no more than the number of
16-bit parts that the range check admits.  Only a laxer rule may not have been added by hand for
that segment before the set-up: the cells that it has accepted would not be checked again. -/
theorem rangeCheck_cells_lt {program : Program} {layout : Layout} {tracing recording : Bool}
    {before after : List Deed} {setUp : Operation} (hsetUp : setUp.SetsUp)
    (hr : before.forM Deed.act (new program layout tracing recording) = .ok () r)
    (hs : setUp.act r = .ok () s) (ht : after.forM Deed.act s = .ok () t)
    {b : Builtin} (hb : b ∈ s.machine.builtins) (hkind : b.kind = .rangeCheck)
    (hrules : ∀ i rule, Deed.AddsRule before i rule → b.segment = some i →
      rule.parts ≤ b.parts) :
    ∃ i, b.segment = some i ∧ ∀ a v, a.segment = i → t.memory.get? a = some v →
      ∃ x : Felt, v = .felt x ∧ x.val < 2 ^ (16 * b.parts) := by
  obtain ⟨i, hi, hguards⟩ := guards_of_setsUp hsetUp hr hs (Builtin.mem_posts hb hkind) hrules
  have hkept : t.memory.Guards i b.rangeRule :=
    (Deed.evolves_forM after s () t ht).guards hguards
  refine ⟨i, hi, fun a v hseg hv => ?_⟩
  obtain ⟨x, hx, hlt⟩ := hkept.passes a hseg (Option.isSome_of_eq_some hv)
  exact ⟨x, Option.some.inj (hv.symm.trans hx), hlt⟩

/-- A program that writes the number twelve to the second cell of its range check and returns. -/
def checking : Program where
  data := [.felt Machine.pushImmediateWord, .felt 12, .felt 0x400280017ffd7fff,
    .felt 0x208b7fff7fff7ffe]
  builtins := ["range_check"]
  main := some 0
  hints := []
  constants := ∅
  labels := ∅

/-- Prepares a run of the main function, and writes to the first cell of its range check before the
machine is set up. -/
def writingEarly : List Deed :=
  [.operation .initializeBuiltins, .operation (.initializeSegments none),
    .operation .initializeMain, .operation (.memory (.insert (.base 2) (.value (.felt 5))))]

/-- Writes three numbers to a temporary segment that is to be moved to the range check, and runs to
the end. -/
def writingTemporary : List Deed :=
  [.operation (.memory .addTemporary),
    .operation (.memory (.load (.base (-1)) [.integer 5, .integer 12, .integer 77])),
    .operation (.addRelocation (.base (-1)) (.base 2)),
    .operation (.advance (.toAddress (some (.base 4)) ⟨some 10⟩)), .operation .endRun]

/-- The range check of the program that writes to it holds the number that was written early, the
one of the program, which were both moved to it once more, and a third one that was only moved.  All
of them are below its bound. -/
theorem rangeCheck_cells_lt_checking : ∃ (r s t : Run) (b : Builtin),
    writingEarly.forM Deed.act (new checking ⟨"checking", [(.rangeCheck, some 8)]⟩ true false) =
      .ok () r ∧ Operation.initializeMachine.act r = .ok () s ∧
        writingTemporary.forM Deed.act s = .ok () t ∧ s.machine.builtins = [b] ∧
          b.kind = .rangeCheck ∧ (t.memory.itemsOf 2).map (·.2) =
            [.felt 5, .felt 12, .felt 77] ∧
              ∃ i, b.segment = some i ∧ ∀ a v, a.segment = i → t.memory.get? a = some v →
                ∃ x : Felt, v = .felt x ∧ x.val < 2 ^ (16 * b.parts) := by
  obtain ⟨r, s, t, hr, hs, ht, hkinds, hcells⟩ : ∃ (r s t : Run),
      writingEarly.forM Deed.act (new checking ⟨"checking", [(.rangeCheck, some 8)]⟩ true false) =
        .ok () r ∧ Operation.initializeMachine.act r = .ok () s ∧
          writingTemporary.forM Deed.act s = .ok () t ∧
            s.machine.builtins.map (·.kind) = [.rangeCheck] ∧
              (t.memory.itemsOf 2).map (·.2) = [.felt 5, .felt 12, .felt 77] :=
    ⟨_, _, _, Action.eq_ok_of_isOk (by decide +kernel), Action.eq_ok_of_isOk (by decide +kernel),
      Action.eq_ok_of_isOk (by decide +kernel), by decide +kernel, by decide +kernel⟩
  obtain ⟨b, hb, hkind⟩ := List.map_eq_singleton_iff.mp hkinds
  have hsetUp : Operation.initializeMachine.SetsUp := trivial
  have hrules : ∀ i rule, Deed.AddsRule writingEarly i rule → b.segment = some i →
      rule.parts ≤ b.parts := by
    simp [Deed.AddsRule, writingEarly]
  exact ⟨r, s, t, b, hr, hs, ht, hb, hkind, hcells,
    rangeCheck_cells_lt hsetUp hr hs ht (hb ▸ List.mem_singleton_self b) hkind hrules⟩

end Cairo.Run
