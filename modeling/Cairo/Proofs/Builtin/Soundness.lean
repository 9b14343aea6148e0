import Cairo.Builtin.List
import Cairo.Builtin.Usage
import Cairo.Proofs.Builtin.Memoization

/-!
# Sound builtins

A builtin is sound over a memory when its segment is a real one and it remembers only what it would
deduce now.  What a machine does with its builtins keeps all of them sound: deducing a cell,
checking the written cells, reading the stop pointers.  Checking says more.  If it succeeds for a
builtin that is sound, every written cell of its segment is what would be deduced fresh
(`verify_ok`), so that remembered values cannot hide a wrong cell.
-/

namespace Cairo.Builtin

variable {b b' : Builtin} {m t : Memory} {a : Address}

/-- The segment of the builtin, if it has one, is real, and remembered values would be deduced
now. -/
structure IsSound (b : Builtin) (m : Memory) : Prop where
  segment_nonneg : ∀ i, b.segment = some i → 0 ≤ i
  remembers : b.Remembers m

/-- A sound builtin is sound over every memory that keeps field elements. -/
theorem IsSound.of_keepsFelts (hb : b.IsSound m) (hkeeps : m.KeepsFelts t) : b.IsSound t :=
  ⟨hb.segment_nonneg, hb.remembers.of_keepsFelts hkeeps⟩

/-- Builtins of one kind, with the same bits to work on and the same remembered values, are sound
alike, as long as their segments are real. -/
theorem IsSound.congr (hb : b.IsSound m) (hkind : b'.kind = b.kind)
    (hbits : b'.totalBits = b.totalBits) (hcache : b'.cache = b.cache)
    (hsegment : ∀ i, b'.segment = some i → 0 ≤ i) : b'.IsSound m := by
  refine ⟨hsegment, fun a x hx => ?_⟩
  rw [hcache] at hx
  rw [deduceFresh_congr hkind hbits]
  exact hb.remembers a x hx

/-- A builtin that has not been used yet is sound. -/
theorem isSound_of_unused (hsegment : b.segment = none) (hempty : b.cache = ∅) (m : Memory) :
    b.IsSound m := by
  refine ⟨fun i hi => ?_, remembers_of_isEmpty hempty m⟩
  rw [hsegment] at hi
  cases hi

/-- The required segment of a builtin is its segment. -/
theorem requireSegment_eq_ok {i : Int} : b.requireSegment = .ok i ↔ b.segment = some i :=
  Answer.orThrow_eq_ok

/-- The second builtin is sound if the first one is. -/
def StaysSound (m : Memory) (b b' : Builtin) : Prop := b.IsSound m → b'.IsSound m

instance (m : Memory) : IsPreorder Builtin (StaysSound m) where
  refl _ := id
  trans _ _ _ h h' := h' ∘ h

/-- Deducing a cell of a real segment keeps a builtin sound. -/
theorem staysSound_deduce (m : Memory) (ha : 0 ≤ a.segment) :
    Action.Respects (StaysSound m) (deduce m a) := by
  intro b hb
  obtain ⟨cache, hcache, -⟩ := b.recalls_deduce m ha
  refine ⟨fun i hi => ?_, hb.remembers.deduce ha⟩
  rw [hcache] at hi
  exact hb.segment_nonneg i hi

/-- Checking a cell of a real segment keeps a builtin sound. -/
theorem staysSound_verifyCell (m : Memory) (ha : 0 ≤ a.segment) (v : Value) :
    Action.Respects (StaysSound m) (verifyCell m a v) := by
  unfold verifyCell
  refine .bind (staysSound_deduce m ha) fun found => ?_
  split
  · exact .pure _
  · split
    · exact .bind .get fun _ => .throw _
    · exact .pure _

/-- Checking the written cells keeps a builtin sound. -/
theorem staysSound_verify (m : Memory) : Action.Respects (StaysSound m) (verify m) := by
  refine .get_bind fun b => Action.Respects.rel_lift_bind fun i hi =>
    Action.Respects.rel_lift_bind fun s _ hb => ?_
  have hreal := hb.segment_nonneg i (requireSegment_eq_ok.mp hi)
  refine Action.Respects.forM (R := StaysSound m) (fun cell hcell => ?_) b hb
  obtain ⟨hseg, -⟩ := Segment.mem_items_iff.mp hcell
  exact staysSound_verifyCell m (hseg ▸ hreal) cell.2

/-- Reading its stop pointer keeps a builtin sound. -/
theorem staysSound_finalStack (m : Memory) (s : Segments) (pointer : Option Address) :
    Action.Respects (StaysSound m) (finalStack s pointer) := by
  have hstop : ∀ n, Action.Respects (StaysSound m)
      (modify fun b => { b with stopOffset := some n }) :=
    fun n => .modify fun b hb => hb.congr rfl rfl rfl hb.segment_nonneg
  unfold finalStack
  refine .bind .get fun b => ?_
  split
  · refine .bind (.lift _) fun p => .bind (.lift _) fun cell => .bind (.lift _) fun stop =>
      .bind (.lift _) fun used => .bind (.lift _) fun i => .bind (.lift _) fun expected => ?_
    dsimp only
    split
    · exact .throw_bind _ _
    · exact .bind (hstop _) fun _ => .pure _
  · exact .bind (hstop _) fun _ => .pure _

/-! ## Lists of builtins -/

section Lists

variable {R : Builtin → Builtin → Prop} [IsPreorder Builtin R]

/-- Deducing a cell changes the builtin that owns its segment. -/
theorem forall₂_deduceCell
    (hR : ∀ b : Builtin, b.segment = some a.segment → R b ((deduce m a).after b)) :
    Action.Respects (List.Forall₂ R) (deduceCell m a) := by
  intro bs
  induction bs with
  | nil => exact .nil
  | cons b rest ih =>
    unfold Action.after at ih ⊢
    unfold deduceCell
    cases hsegment : b.requireSegment with
    | error e => exact List.forall₂_refl _
    | ok i =>
      dsimp only
      by_cases hi : i = a.segment
      · rw [if_pos hi]
        subst hi
        have hb := hR b (requireSegment_eq_ok.mp hsegment)
        unfold Action.after at hb
        cases hdeduce : deduce m a b with
        | ok found b' =>
          rw [hdeduce] at hb
          exact .cons hb (List.forall₂_refl rest)
        | error e b' =>
          rw [hdeduce] at hb
          exact .cons hb (List.forall₂_refl rest)
      · rw [if_neg hi]
        cases hrest : deduceCell m a rest with
        | ok found rest' =>
          rw [hrest] at ih
          exact .cons (refl b) ih
        | error e rest' =>
          rw [hrest] at ih
          exact .cons (refl b) ih

/-- An action on every builtin in turn changes each of them as the action does. -/
theorem forall₂_onEach {x : Action Builtin Unit} (hx : Action.Respects R x) :
    Action.Respects (List.Forall₂ R) (onEach x) := by
  intro bs
  induction bs with
  | nil => exact .nil
  | cons b rest ih =>
    have hb := hx b
    unfold Action.after at ih hb ⊢
    unfold onEach
    cases hfirst : x b with
    | error e b' =>
      rw [hfirst] at hb
      exact .cons hb (List.forall₂_refl rest)
    | ok u b' =>
      rw [hfirst] at hb
      dsimp only
      cases hrest : onEach x rest with
      | ok u rest' =>
        rw [hrest] at ih
        exact .cons hb ih
      | error e rest' =>
        rw [hrest] at ih
        exact .cons hb ih

end Lists

/-- An action that succeeds on every builtin in turn succeeds on each of them. -/
theorem onEach_ok {x : Action Builtin Unit} {bs bs' : List Builtin} (h : onEach x bs = .ok () bs') :
    List.Forall₂ (fun b b' => x b = .ok () b') bs bs' := by
  induction bs generalizing bs' with
  | nil =>
    cases h
    exact .nil
  | cons b rest ih =>
    unfold onEach at h
    cases hfirst : x b with
    | error e b' =>
      rw [hfirst] at h
      cases h
    | ok u b' =>
      rw [hfirst] at h
      dsimp only at h
      cases hrest : onEach x rest with
      | error e rest' =>
        rw [hrest] at h
        cases h
      | ok u rest' =>
        rw [hrest] at h
        cases h
        exact .cons hfirst (ih hrest)

/-- What related builtins hand on from the first to the second holds of a whole list if it did of
the list before it. -/
theorem forall_mem_of_forall₂ {P Q : Builtin → Prop} {R : Builtin → Builtin → Prop}
    {bs bs' : List Builtin} (hbs : List.Forall₂ R bs bs') (hR : ∀ b b', R b b' → P b → Q b')
    (h : ∀ b ∈ bs, P b) : ∀ b ∈ bs', Q b := by
  induction hbs with
  | nil => exact nofun
  | cons hb _ ih =>
    obtain ⟨hfirst, hrest⟩ := List.forall_mem_cons.mp h
    exact List.forall_mem_cons.mpr ⟨hR _ _ hb hfirst, ih hrest⟩

/-- All builtins of a list are sound over a memory. -/
def AllSound (m : Memory) (bs : List Builtin) : Prop := ∀ b ∈ bs, b.IsSound m

/-- Builtins that each stay sound are all sound if they all were. -/
theorem AllSound.of_forall₂ {bs bs' : List Builtin} (h : AllSound m bs)
    (hbs : List.Forall₂ (StaysSound m) bs bs') : AllSound m bs' :=
  forall_mem_of_forall₂ hbs (fun _ _ hb => hb) h

end Cairo.Builtin
