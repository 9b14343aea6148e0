import Cairo.Proofs.Memory.Insertions

/-!
# Rules that come late

A cell is checked once, against the rules that its segment has then.  So a rule decides about the
cells that did not count as checked when it was added, however the calls go on: once the cells that
are there were looked at, they pass it (`passes_of_registered`).  A rule that comes later than the
check of a cell is not applied to it (`late`).

Rules that the written cells pass in the end make no difference to the calls on the way, which have
the same answers and write the same cells without them (`Indifferent`).  From this it follows when
the order of rules and writes does not matter: with all rules added first, every call has the answer
that it had, and the cells pass their check, exactly when every written cell passes every rule
(`rulesFirst_of_validateExisting`).
-/

namespace Cairo.Memory

variable {m n t u : Memory} {a : Address} {v : Value} {r : RangeRule} {α β : Type}

/-! ## Rules that decide about a cell -/

/-- A cell that passes a rule does so as long as it is not rewritten. -/
theorem Passes.of_extends (h : m.Passes r a) (hext : m.Extends t) : t.Passes r a := by
  obtain ⟨x, hget, hx⟩ := h
  exact ⟨x, hext a _ hget, hx⟩

/-- A check that fails leaves the memory as it is. -/
theorem atomic_validateCell (a : Address) : Action.Atomic (validateCell a) := by
  unfold validateCell
  refine .get_bind fun m s e t h => ?_
  split at h
  · cases h
  · rcases Action.bind_eq_error.mp h with hrules | ⟨_, _, -, hmodify⟩
    · exact (Action.forM_lift_eq_error.mp hrules).1.symm
    · cases hmodify

/-- A rule of the segment of a cell, which the cell passes if it counts as checked. -/
structure Judges (m : Memory) (r : RangeRule) (a : Address) : Prop where
  rule : r ∈ m.rulesOf a.segment
  passes : a ∈ m.validated → m.Passes r a

/-- The rules that decide about a cell go on doing so. -/
def KeepsJudging (m t : Memory) : Prop := ∀ r a, m.Judges r a → t.Judges r a

instance : IsPreorder Memory KeepsJudging where
  refl _ _ _ := id
  trans _ _ _ h h' r a := h' r a ∘ h r a

/-- With the same rules and checked cells, the rules go on deciding about cells that are written or
stay as they are. -/
theorem SameChecks.keepsJudging (h : m.SameChecks t) (hext : m.Extends t) : m.KeepsJudging t := by
  intro r a hm
  refine ⟨?_, fun ha => ?_⟩
  · rw [h.rulesOf_eq]
    exact hm.rule
  · rw [h.2] at ha
    exact (hm.passes ha).of_extends hext

/-- A cell comes to count as checked only when it passes all rules of its segment. -/
theorem keepsJudging_validateCell (a : Address) :
    Action.Respects KeepsJudging (validateCell a) := by
  refine (atomic_validateCell a).respects fun m u t h => ?_
  rcases validateCell_ok h with ⟨rfl, -⟩ | ⟨rfl, -, hpasses⟩
  · exact refl t
  · intro r b hm
    refine ⟨hm.rule, fun hb => ?_⟩
    rcases Std.ExtTreeSet.mem_insert.mp hb with heq | hb
    · obtain rfl := Address.compare_eq_iff.mp heq
      exact hpasses r hm.rule
    · exact hm.passes hb

/-- Whatever calls are made, the rules that decide about a cell go on doing so. -/
theorem keepsJudging_act : ∀ c : Call, Action.Respects KeepsJudging c.act :=
  CallsRespect.act
    { addSegment := fun m => SameChecks.keepsJudging ⟨rfl, rfl⟩ (respects_addSegment m)
      addTemporary := fun m => SameChecks.keepsJudging ⟨rfl, rfl⟩ (respects_addTemporary m)
      insert := fun a v => respects_insert_of
        (fun m _ hs hnew =>
          (sameChecks_modifySegment m a.segment _).keepsJudging (extends_put hs hnew v))
        (keepsJudging_validateCell a)
      check := keepsJudging_validateCell
      addRule := fun _ _ _ _ _ hm => ⟨mem_rulesOf_addRule.mpr (.inl hm.rule), hm.passes⟩
      mark := fun _ _ _ _ hm => ⟨hm.rule, hm.passes⟩ }

/-- A list of calls goes on where its first part ends. -/
theorem afterCalls_append (m : Memory) (first second : List Call) :
    m.afterCalls (first ++ second) = (m.afterCalls first).afterCalls second :=
  List.foldl_append

/-- A written cell of a real segment passes every rule that was added for its segment when the cell
did not count as checked yet, once the cells that are there were checked. -/
theorem passes_of_registered {before after : List Call}
    (h : validateExisting (m.afterCalls (before ++ .addRule a.segment r :: after)) = .ok () t)
    (hreal : 0 ≤ a.segment) (hfresh : a ∉ (m.afterCalls before).validated)
    (hv : (t.get? a).isSome) : t.Passes r a := by
  have hadded : ((m.afterCalls before).addRule a.segment r).Judges r a :=
    ⟨mem_rulesOf_addRule.mpr (.inr ⟨rfl, rfl⟩), fun hchecked => absurd hchecked hfresh⟩
  rw [afterCalls_append] at h
  have hend := rel_afterCalls keepsJudging_act _ after r a hadded
  have hchecks := respects_validateExisting_of keepsJudging_validateCell
  have ht : t.Judges r a := hchecks.of_ok h r a hend
  refine ht.passes (mem_validated_of_validateExisting h hreal (List.ne_nil_of_mem hend.rule) ?_)
  rwa [(respects_validateExisting.of_ok h).get?_eq] at hv

/-! ## Memories with the same cells -/

/-- The cells of two memories are the same. -/
structure Alike (m n : Memory) : Prop where
  segments : n.segments = m.segments
  temporaries : n.temporaries = m.temporaries

instance : IsPreorder Memory Alike where
  refl _ := ⟨rfl, rfl⟩
  trans _ _ _ h h' := ⟨h'.1.trans h.1, h'.2.trans h.2⟩

namespace Alike

/-- Two memories are alike in both directions. -/
theorem symm (h : m.Alike n) : n.Alike m := ⟨h.segments.symm, h.temporaries.symm⟩

/-- Memories that are alike have the same segments. -/
theorem segment?_eq (h : m.Alike n) (i : Int) : n.segment? i = m.segment? i := by
  unfold segment?
  rw [h.segments, h.temporaries]

/-- Memories that are alike have the same content. -/
theorem get?_eq (h : m.Alike n) (a : Address) : n.get? a = m.get? a := by
  unfold get?
  rw [h.segment?_eq]

/-- Memories that are alike are so after the same cell was written. -/
theorem put (h : m.Alike n) (a : Address) (v : Value) : (m.put a v).Alike (n.put a v) := by
  obtain ⟨hsegments, htemporaries⟩ := h
  unfold Memory.put modifySegment
  cases a.segment with
  | ofNat k => exact ⟨by rw [hsegments], htemporaries⟩
  | negSucc k => exact ⟨hsegments, by rw [htemporaries]⟩

/-- The cells of memories that are alike pass the same rules. -/
theorem passes (h : m.Alike n) (hm : m.Passes r a) : n.Passes r a := by
  obtain ⟨x, hget, hx⟩ := hm
  exact ⟨x, (h.get?_eq a).trans hget, hx⟩

end Alike

/-- Checking leaves the cells as they are. -/
theorem Rechecked.alike (h : m.Rechecked t) : m.Alike t := by
  obtain ⟨_, rfl⟩ := h
  exact ⟨rfl, rfl⟩

/-- An action has the same answer on two memories, and leaves the same cells. -/
structure EndsAlike (x : Action Memory α) (m n : Memory) : Prop where
  answer : x.answer n = x.answer m
  cells : (x.after m).Alike (x.after n)

namespace EndsAlike

/-- Runs that succeed with the same answer and the same cells end alike. -/
theorem of_ok {x : Action Memory α} {b : α} (hm : x m = .ok b t) (hn : x n = .ok b u)
    (h : t.Alike u) : EndsAlike x m n := by
  refine ⟨?_, ?_⟩
  · rw [Action.answer_of_ok hm, Action.answer_of_ok hn]
  · rwa [Action.after_of_ok hm, Action.after_of_ok hn]

/-- Runs that fail with the same fault and the same cells end alike. -/
theorem of_error {x : Action Memory α} {e : Fault} (hm : x m = .error e t)
    (hn : x n = .error e u) (h : t.Alike u) : EndsAlike x m n := by
  refine ⟨?_, ?_⟩
  · rw [Action.answer_of_error hm, Action.answer_of_error hn]
  · rwa [Action.after_of_error hm, Action.after_of_error hn]

/-- A sequence ends alike if both of its halves do. -/
theorem bind {x : Action Memory α} {f : α → Action Memory β} (hx : EndsAlike x m n)
    (hf : ∀ b t u, x m = .ok b t → x n = .ok b u → t.Alike u → EndsAlike (f b) t u) :
    EndsAlike (x >>= f) m n := by
  obtain ⟨hanswer, hcells⟩ := hx
  unfold Action.answer at hanswer
  unfold Action.after at hcells
  cases hm : x m with
  | ok b t =>
    cases hn : x n with
    | ok c u =>
      rw [hm, hn] at hanswer hcells
      obtain rfl := Except.ok.inj hanswer
      have hrest := hf c t u hm hn hcells
      refine ⟨?_, ?_⟩
      · rw [Action.answer_congr (Action.bind_of_ok hm), Action.answer_congr (Action.bind_of_ok hn)]
        exact hrest.answer
      · rw [Action.after_congr (Action.bind_of_ok hm), Action.after_congr (Action.bind_of_ok hn)]
        exact hrest.cells
    | error e u =>
      rw [hm, hn] at hanswer
      cases hanswer
  | error e t =>
    cases hn : x n with
    | ok c u =>
      rw [hm, hn] at hanswer
      cases hanswer
    | error e' u =>
      rw [hm, hn] at hanswer hcells
      obtain rfl := Except.error.inj hanswer
      exact .of_error (Action.bind_of_error hm) (Action.bind_of_error hn) hcells

end EndsAlike

/-! ## Rules that make no difference -/

/-- The written cells of a memory pass the rules of another one. -/
def Obeys (t m : Memory) : Prop :=
  ∀ a, (t.get? a).isSome → ∀ r ∈ m.rulesOf a.segment, t.Passes r a

/-- The action ends alike on memories with the same cells, if the cells that it leaves are cells of
a given memory, which obeys the rules of both. -/
def Indifferent (t : Memory) (x : Action Memory α) : Prop :=
  ∀ m n, m.Alike n → t.Obeys m → t.Obeys n → (x.after m).Extends t → EndsAlike x m n

/-- The rules are the same. -/
def SameRules (m t : Memory) : Prop := t.rules = m.rules

instance : IsPreorder Memory SameRules where
  refl _ := rfl
  trans _ _ _ h h' := Eq.trans h' h

/-- What obeys the rules of a memory obeys the same rules later. -/
theorem Obeys.of_sameRules (h : t.Obeys m) (hrules : m.SameRules u) : t.Obeys u := by
  intro a ha r hr
  unfold rulesOf at hr
  rw [hrules] at hr
  exact h a ha r hr

/-- Inserting a value leaves the rules alone. -/
theorem sameRules_insert (a : Address) (v : Value) : Action.Respects SameRules (insert a v) :=
  respects_insert_of (fun m _ _ _ => (sameChecks_modifySegment m a.segment _).1)
    ((respects_validateCell a).mono fun _ _ ⟨_, h⟩ => h ▸ rfl)

namespace Indifferent

/-- A change that does not look at the rules is indifferent to them. -/
theorem of_alike {x : Action Memory α} (h : ∀ m n, m.Alike n → EndsAlike x m n) :
    Indifferent t x :=
  fun m n hcells _ _ _ => h m n hcells

/-- A lifted answer does not look at the memory. -/
protected theorem lift (x : Except Fault α) : Indifferent t (liftM x : Action Memory α) := by
  refine of_alike fun m n hcells => ?_
  cases x with
  | ok b => exact .of_ok (b := b) rfl rfl hcells
  | error e => exact .of_error (e := e) rfl rfl hcells

/-- A plain answer does not look at the memory. -/
protected theorem pure (b : α) : Indifferent t (pure b : Action Memory α) :=
  of_alike fun _ _ hcells => .of_ok (b := b) rfl rfl hcells

/-- A sequence is indifferent to rules if both of its halves are, the first one leaves the rules
alone, and the second one rewrites no cells. -/
protected theorem bind {x : Action Memory α} {f : α → Action Memory β} (hx : Indifferent t x)
    (hf : ∀ b, Indifferent t (f b)) (hrules : Action.Respects SameRules x)
    (hkeeps : ∀ b, Action.Respects Extends (f b)) : Indifferent t (x >>= f) := by
  intro m n hcells hm hn hext
  have hfirst : (x.after m).Extends t := by
    refine IsTrans.trans _ _ _ ?_ hext
    have hrest : (x.after m).Extends ((x >>= f).after m) := by
      cases h : x m with
      | ok b u =>
        rw [Action.after_of_ok h, Action.after_congr (Action.bind_of_ok h)]
        exact hkeeps b u
      | error e u =>
        rw [Action.after_of_error h, Action.after_of_error (Action.bind_of_error h)]
        exact refl u
    exact hrest
  refine (hx m n hcells hm hn hfirst).bind fun b u w hu hw hcells' => ?_
  refine hf b u w hcells' (hm.of_sameRules (hrules.of_ok hu)) (hn.of_sameRules (hrules.of_ok hw)) ?_
  rwa [Action.after_congr (Action.bind_of_ok hu)] at hext

end Indifferent

/-- A value that a written cell of a memory holds is admitted by the rules that the memory
obeys. -/
theorem Obeys.admits (h : t.Obeys m) (hv : t.get? a = some v) :
    ∀ r ∈ m.rulesOf a.segment, r.Admits v :=
  fun r hr => (passes_iff_of_get? hv).mp (h a (Option.isSome_of_eq_some hv) r hr)

/-- A value that is admitted by all rules is not rejected. -/
theorem not_rejects_of_admits {e : Fault} (h : ∀ r ∈ m.rulesOf a.segment, r.Admits v) :
    ¬ m.Rejects a v e := by
  rintro ⟨-, before, r, after, hrules, -, hrejects⟩
  have hr : r ∈ m.rulesOf a.segment := by
    rw [hrules]
    exact List.mem_append_right _ List.mem_cons_self
  exact (h r hr).not_rejects a e hrejects

/-- An insertion is indifferent to rules that its value obeys: what else it is refused for is seen
in the cells. -/
theorem indifferent_insert (a : Address) (v : Value) : Indifferent t (insert a v) := by
  intro m n hcells hm hn hext
  cases h : insert a v m with
  | ok w u =>
    rw [Action.after_of_ok h] at hext
    obtain ⟨haccepts, rfl⟩ := insert_eq_ok_iff.mp h
    have hv : t.get? a = some v := hext a v (get?_inserted_self haccepts.allocated)
    have haccepts' : n.Accepts a v := by
      refine ⟨?_, ?_, fun _ => hn.admits hv⟩
      · rw [hcells.segment?_eq]
        exact haccepts.allocated
      · rw [hcells.get?_eq]
        exact haccepts.consistent
    obtain ⟨hsegments, htemporaries⟩ := hcells.put a v
    exact .of_ok h (insert_eq_ok_iff.mpr ⟨haccepts', rfl⟩) ⟨hsegments, htemporaries⟩
  | error e u =>
    rw [Action.after_of_error h] at hext
    cases insert_eq_error_iff.mp h with
    | unallocated hs =>
      have hfault : insert a v n = .error (.unallocatedSegment a.segment m.segments.size) n := by
        rw [← hcells.segments]
        exact insert_eq_error_iff.mpr (.unallocated ((hcells.segment?_eq _).trans hs))
      exact .of_error h hfault hcells
    | inconsistent hold hne =>
      have hold' : n.get? a = some _ := (hcells.get?_eq a).trans hold
      exact .of_error h (insert_eq_error_iff.mpr (.inconsistent hold' hne)) hcells
    | held hold he => exact absurd he (not_rejects_of_admits (hm.admits (hext a v hold)))
    | left hs hnew he =>
      have hput : (m.put a v).get? a = some v := by rw [get?_put hs, if_pos rfl]
      exact absurd he (not_rejects_of_admits (hm.admits (hext a v hput)))

/-- Inserting a datum is indifferent to rules that the value obeys. -/
theorem indifferent_insertDatum (a : Address) (d : Datum) : Indifferent t (insertDatum a d) :=
  .bind (.lift _) (fun v => indifferent_insert a v) (.lift _) fun v => respects_insert a v

/-- Loading data is indifferent to rules that the values obey. -/
theorem indifferent_load (a : Address) (data : List Datum) : Indifferent t (load a data) := by
  have hfrom : ∀ i, Indifferent t (loadFrom a i data) := by
    induction data with
    | nil => exact fun _ => .pure _
    | cons d rest ih =>
      intro i
      have hrest : ∀ b, Indifferent t (insertDatum b d >>= fun _ => loadFrom a (i + 1) rest) :=
        fun b => .bind (indifferent_insertDatum b d) (fun _ => ih (i + 1))
          (respects_insertDatum_of (sameRules_insert b) d) fun _ => respects_loadFrom a (i + 1) rest
      exact .bind (.lift _) hrest (.lift _) fun b =>
        .bind (respects_insertDatum b d) fun _ => respects_loadFrom a (i + 1) rest
  exact .bind (hfrom 0) (fun _ => .lift _)
    (respects_loadFrom_of (fun _ b v _ => sameRules_insert b v) 0 data) fun _ => .lift _

/-- Cells that obey all rules pass the check of the cells that are there. -/
theorem exists_validateExisting (h : m.Obeys m) : ∃ u, validateExisting m = .ok () u := by
  have hcell : ∀ a v, m.get? a = some v → ∀ s, m.Rechecked s →
      ∃ s', validateCell a s = .ok () s' ∧ m.Rechecked s' := by
    intro a v hv s hs
    have hadmits : ∀ r ∈ s.rulesOf a.segment, r.Admits v := by
      obtain ⟨_, rfl⟩ := hs
      exact h.admits hv
    have hcheck : validateCell a s = .ok () (s.counted a) :=
      (validateCell_eq_ok_iff ((hs.get?_eq a).trans hv)).mpr ⟨fun _ => hadmits, rfl⟩
    exact ⟨_, hcheck, IsTrans.trans _ _ _ hs ((respects_validateCell a).of_ok hcheck)⟩
  have hround : ∀ entry ∈ m.rules, ∀ s, m.Rechecked s →
      ∃ s', (if 0 ≤ entry.1 then (m.itemsOf entry.1).forM fun x => validateCell x.1
        else pure ()) s = .ok .unit s' ∧ m.Rechecked s' := by
    rintro ⟨i, _⟩ - s hs
    dsimp only
    split
    · exact Action.exists_forM_ok m.Rechecked hs fun x hitem =>
        hcell x.1 x.2 (mem_itemsOf_iff.mp hitem).2
    · exact ⟨s, rfl, hs⟩
  obtain ⟨u, hu, -⟩ := Action.exists_forM_ok m.Rechecked (refl m) hround
  exact ⟨u, hu⟩

/-- Cells that another memory has, which obeys all rules, obey them. -/
theorem Obeys.of_extends (h : t.Obeys m) (hext : u.Extends t) : u.Obeys m := by
  intro a ha r hr
  obtain ⟨v, hv⟩ := Option.isSome_iff_exists.mp ha
  exact (passes_iff_of_get? hv).mpr (h.admits (hext a v hv) r hr)

/-- Checking the cells that are there is indifferent to rules that they obey. -/
theorem indifferent_validateExisting : Indifferent t validateExisting := by
  intro m n hcells hm hn hext
  have hmt : m.Extends t := by
    intro a v hv
    exact hext a v (((respects_validateExisting m).get?_eq a).trans hv)
  have hnt : n.Extends t := by
    intro a v hv
    exact hmt a v ((hcells.get?_eq a).symm.trans hv)
  obtain ⟨u, hu⟩ := exists_validateExisting (hm.of_extends hmt)
  obtain ⟨w, hw⟩ := exists_validateExisting (hn.of_extends hnt)
  have hmu : u.Alike m := (respects_validateExisting.of_ok hu).alike.symm
  have hnw : n.Alike w := (respects_validateExisting.of_ok hw).alike
  exact .of_ok hu hw (IsTrans.trans _ _ _ hmu (IsTrans.trans _ _ _ hcells hnw))

/-- The call adds a rule. -/
def Call.isRule : Call → Bool
  | addRule _ _ => true
  | _ => false

/-- A call is indifferent to rules that the cells obey in the end, unless it adds one. -/
theorem indifferent_act {c : Call} (hc : c.isRule = false) : Indifferent t c.act := by
  cases c with
  | addSegment =>
    refine .of_alike fun m n h => .of_ok (b := ()) rfl rfl ⟨?_, h.temporaries⟩
    exact congrArg (Array.push · #[]) h.segments
  | addTemporary =>
    refine .of_alike fun m n h => .of_ok (b := ()) rfl rfl ⟨h.segments, ?_⟩
    exact congrArg (Array.push · #[]) h.temporaries
  | insert a d => exact indifferent_insertDatum a d
  | load a data =>
    exact .bind (indifferent_load a data) (fun _ => .pure _)
      (respects_load_of (fun _ b v _ => sameRules_insert b v) data) fun _ => .pure _
  | addRule i r => cases hc
  | validateExisting => exact indifferent_validateExisting
  | markAccessed a => exact .of_alike fun m n h => .of_ok (b := ()) rfl rfl ⟨h.1, h.2⟩

/-- A call leaves the rules alone, unless it adds one. -/
theorem sameRules_act {c : Call} (hc : c.isRule = false) : Action.Respects SameRules c.act := by
  cases c with
  | addSegment => exact fun _ => rfl
  | addTemporary => exact fun _ => rfl
  | insert a d => exact respects_insertDatum_of (sameRules_insert a) d
  | load a data =>
    exact .bind (respects_load_of (fun _ b v _ => sameRules_insert b v) data) fun _ => .pure _
  | addRule i r => cases hc
  | validateExisting => exact respects_validateExisting.mono fun _ _ ⟨_, h⟩ => h ▸ rfl
  | markAccessed a => exact fun _ => rfl

/-! ## Adding the rules first -/

/-- Calls with their answers, when they are made one after the other, whether they succeed or
fail. -/
def outcomes (m : Memory) : List Call → List (Call × Except Fault Unit)
  | [] => []
  | c :: rest => (c, c.act.answer m) :: outcomes (c.act.after m) rest

/-- The calls with those that add rules first, and otherwise in the order that they have. -/
def rulesFirst (calls : List Call) : List Call :=
  calls.filter (·.isRule) ++ calls.filter (!·.isRule)

/-- The answers to a list of calls are those to its first part, and those to the rest after it. -/
theorem outcomes_append (m : Memory) (first second : List Call) :
    m.outcomes (first ++ second) =
      m.outcomes first ++ (m.afterCalls first).outcomes second := by
  induction first generalizing m with
  | nil => rfl
  | cons c rest ih => exact congrArg _ (ih (c.act.after m))

/-- Adding rules succeeds, whatever else is done. -/
theorem outcomes_filter_isRule (m n : Memory) (calls : List Call) :
    n.outcomes (calls.filter (·.isRule)) = (m.outcomes calls).filter (·.1.isRule) := by
  induction calls generalizing m n with
  | nil => rfl
  | cons c rest ih =>
    cases c with
    | addRule i r => exact congrArg _ (ih (m.addRule i r) (n.addRule i r))
    | _ => exact ih _ n

/-- The rules after a list of calls are those from before and those that were added. -/
theorem mem_rulesOf_afterCalls {calls : List Call} {i : Int} :
    r ∈ (m.afterCalls calls).rulesOf i ↔ r ∈ m.rulesOf i ∨ .addRule i r ∈ calls := by
  induction calls generalizing m with
  | nil => simp [afterCalls]
  | cons c rest ih =>
    show r ∈ ((c.act.after m).afterCalls rest).rulesOf i ↔ _
    rw [ih, List.mem_cons, ← or_assoc]
    refine or_congr_left ?_
    cases hc : c.isRule with
    | true =>
      cases c with
      | addRule j r' =>
        show r ∈ (m.addRule j r').rulesOf i ↔ _
        rw [mem_rulesOf_addRule, Call.addRule.injEq]
      | _ => cases hc
    | false =>
      have hsame : (c.act.after m).rulesOf i = m.rulesOf i := by
        unfold rulesOf
        rw [sameRules_act hc m]
      rw [hsame]
      refine (or_iff_left ?_).symm
      rintro rfl
      cases hc

/-- Adding rules writes and checks no cells. -/
theorem afterCalls_filter_isRule (m : Memory) (calls : List Call) :
    m.Alike (m.afterCalls (calls.filter (·.isRule))) ∧
      (m.afterCalls (calls.filter (·.isRule))).validated = m.validated := by
  induction calls generalizing m with
  | nil => exact ⟨refl m, rfl⟩
  | cons c rest ih =>
    cases c with
    | addRule i r =>
      obtain ⟨hcells, hchecked⟩ := ih (m.addRule i r)
      exact ⟨⟨hcells.segments, hcells.temporaries⟩, hchecked⟩
    | _ => exact ih m

/-- If the cells that there are in the end obey all rules, the calls that add none have the same
answers on a memory with the same cells and other such rules, and lead to the same cells. -/
theorem outcomes_filter_not_isRule {calls : List Call} (hcells : m.Alike n)
    (hm : t.Obeys (m.afterCalls calls)) (hn : t.Obeys n) (hext : (m.afterCalls calls).Extends t) :
    n.outcomes (calls.filter (!·.isRule)) = (m.outcomes calls).filter (!·.1.isRule) ∧
      (m.afterCalls calls).Alike (n.afterCalls (calls.filter (!·.isRule))) := by
  induction calls generalizing m n with
  | nil => exact ⟨rfl, hcells⟩
  | cons c rest ih =>
    cases hc : c.isRule with
    | true =>
      have hdrop : (c :: rest).filter (!·.isRule) = rest.filter (!·.isRule) :=
        List.filter_cons_of_neg (by simp [hc])
      have hadded : (c.act.after m).Alike n := by
        cases c with
        | addRule i r => exact ⟨hcells.segments, hcells.temporaries⟩
        | _ => cases hc
      rw [hdrop, outcomes, List.filter_cons_of_neg (by simp [hc])]
      exact ih hadded hm hn hext
    | false =>
      have hkeep : (c :: rest).filter (!·.isRule) = c :: rest.filter (!·.isRule) :=
        List.filter_cons_of_pos (by simp [hc])
      have hold : t.Obeys m :=
        fun a ha r hr => hm a ha r (mem_rulesOf_afterCalls.mpr (.inl hr))
      have hfirst : (c.act.after m).Extends t :=
        IsTrans.trans _ _ _ (extends_afterCalls (c.act.after m) rest) hext
      obtain ⟨hanswer, hcells'⟩ := indifferent_act hc m n hcells hold hn hfirst
      obtain ⟨houtcomes, hend⟩ := ih hcells' hm (hn.of_sameRules (sameRules_act hc n)) hext
      rw [hkeep, outcomes, outcomes, List.filter_cons_of_pos (by simp [hc]), hanswer, houtcomes]
      exact ⟨rfl, hend⟩

/-- Made with all rules first, the calls have the answers that they had, and lead to the same cells,
which pass the check of the cells that are there. -/
structure RepeatsRulesFirst (calls : List Call) (t : Memory) : Prop where
  answers : outcomes empty (rulesFirst calls) =
    (outcomes empty calls).filter (·.1.isRule) ++ (outcomes empty calls).filter (!·.1.isRule)
  checked : ∃ u, validateExisting (empty.afterCalls (rulesFirst calls)) = .ok () u ∧ t.Alike u

/-- The written cells pass every rule that is added for their segment. -/
def PassesAll (calls : List Call) (t : Memory) : Prop :=
  ∀ a r, .addRule a.segment r ∈ calls → (t.get? a).isSome → t.Passes r a

/-- Rules come in time when none is added for a segment of which a cell counts as checked. -/
def InTime (calls : List Call) : Prop :=
  ∀ before i r after, calls = before ++ .addRule i r :: after →
    ∀ a ∈ (empty.afterCalls before).validated, a.segment ≠ i

variable {calls : List Call}

/-- Cells that pass all rules are the same, with the same answers, when the rules come first. -/
theorem repeatsRulesFirst_of_passesAll (h : validateExisting (empty.afterCalls calls) = .ok () t)
    (hall : PassesAll calls t) : RepeatsRulesFirst calls t := by
  have hrules : ∀ n : Memory, (∀ i r, r ∈ n.rulesOf i → .addRule i r ∈ calls) → t.Obeys n :=
    fun n hn a ha r hr => hall a r (hn _ r hr) ha
  have hadded : ∀ l i r, r ∈ (empty.afterCalls l).rulesOf i → .addRule i r ∈ l :=
    fun l i r hr => (mem_rulesOf_afterCalls.mp hr).resolve_left nofun
  have hsame : (empty.afterCalls calls).Alike t := (respects_validateExisting.of_ok h).alike
  have hext : (empty.afterCalls calls).Extends t := (respects_validateExisting.of_ok h).extends
  obtain ⟨hanswers, hcells⟩ := outcomes_filter_not_isRule
    (afterCalls_filter_isRule empty calls).1 (hrules _ (hadded calls))
    (hrules _ fun i r hr => (List.mem_filter.mp (hadded _ i r hr)).1) hext
  refine ⟨?_, ?_⟩
  · rw [rulesFirst, outcomes_append, outcomes_filter_isRule empty, hanswers]
  · have hcells' : t.Alike (empty.afterCalls (rulesFirst calls)) := by
      rw [rulesFirst, afterCalls_append]
      exact IsTrans.trans _ _ _ hsame.symm hcells
    have hobeys : t.Obeys (empty.afterCalls (rulesFirst calls)) := by
      refine hrules _ fun i r hr => ?_
      rcases List.mem_append.mp (hadded _ i r hr) with hr | hr
      · exact (List.mem_filter.mp hr).1
      · exact (List.mem_filter.mp hr).1
    obtain ⟨u, hu⟩ := exists_validateExisting
      (hobeys.of_extends fun a v hv => (hcells'.get?_eq a).symm.trans hv)
    exact ⟨u, hu, IsTrans.trans _ _ _ hcells' (respects_validateExisting.of_ok hu).alike⟩

/-- Cells that are there, and pass their check, when the rules come first pass all rules. -/
theorem passesAll_of_repeatsRulesFirst (hreal : ∀ i r, .addRule i r ∈ calls → 0 ≤ i)
    (h : RepeatsRulesFirst calls t) : PassesAll calls t := by
  intro a r hr hv
  obtain ⟨u, hu, hcells⟩ := h.checked
  have hfirst : .addRule a.segment r ∈ calls.filter (·.isRule) := List.mem_filter.mpr ⟨hr, rfl⟩
  obtain ⟨before, after, hsplit⟩ := List.append_of_mem hfirst
  -- None of the calls before the rule checks cells: they all add rules.
  have hbefore : before = before.filter (·.isRule) := by
    refine (List.filter_eq_self.mpr fun c hc => ?_).symm
    refine (List.mem_filter.mp (?_ : c ∈ calls.filter (·.isRule))).2
    rw [hsplit]
    exact List.mem_append_left _ hc
  have hfresh : a ∉ (empty.afterCalls before).validated := by
    rw [hbefore, (afterCalls_filter_isRule empty before).2]
    exact Std.ExtTreeSet.not_mem_empty
  rw [rulesFirst, hsplit, List.append_assoc, List.cons_append] at hu
  refine hcells.symm.passes (passes_of_registered hu (hreal _ r hr) hfresh ?_)
  rwa [hcells.get?_eq]

/-- Whatever calls are made, once the cells that are there were checked, every written cell passes
the rules that were added for its segment while the cell did not count as checked.  Made with all
rules first, the calls have the same answers and lead to the same cells, with no complaint from the
check, exactly when the cells pass all rules, and in particular when the rules come in time. -/
theorem rulesFirst_of_validateExisting (calls : List Call)
    (hreal : ∀ i r, .addRule i r ∈ calls → 0 ≤ i)
    (h : validateExisting (empty.afterCalls calls) = .ok () t) :
    (∀ before a r after, calls = before ++ .addRule a.segment r :: after →
      a ∉ (empty.afterCalls before).validated → (t.get? a).isSome → t.Passes r a) ∧
    (PassesAll calls t ↔ RepeatsRulesFirst calls t) ∧
    (InTime calls → RepeatsRulesFirst calls t) := by
  have hpasses : ∀ before a r after, calls = before ++ .addRule a.segment r :: after →
      a ∉ (empty.afterCalls before).validated → (t.get? a).isSome → t.Passes r a := by
    rintro before a r after rfl hfresh hv
    exact passes_of_registered h (hreal _ r (by simp)) hfresh hv
  refine ⟨hpasses, ⟨repeatsRulesFirst_of_passesAll h, passesAll_of_repeatsRulesFirst hreal⟩, ?_⟩
  intro htime
  refine repeatsRulesFirst_of_passesAll h fun a r hr hv => ?_
  obtain ⟨before, after, hsplit⟩ := List.append_of_mem hr
  exact hpasses before a r after hsplit (fun ha => htime before _ r after hsplit a ha rfl) hv

/-- Two rules for a segment that has a small number in it. -/
def early : List Call :=
  [.addSegment, .insert (.base 0) (.integer 65535), .addRule 0 ⟨1⟩, .addRule 0 ⟨2⟩]

/-- The number passes both rules, and may as well be written after them. -/
theorem rulesFirst_of_validateExisting_early :
    (∀ i r, .addRule i r ∈ early → 0 ≤ i) ∧
      ∃ t, validateExisting (empty.afterCalls early) = .ok () t ∧ t.Passes ⟨1⟩ (.base 0) ∧
        RepeatsRulesFirst early t := by
  have hreal : ∀ i r, .addRule i r ∈ early → 0 ≤ i := by
    intro i r hr
    have hi : i = 0 := by
      simp only [early, List.mem_cons, List.not_mem_nil, reduceCtorEq, Call.addRule.injEq,
        false_or, or_false] at hr
      exact hr.elim And.left And.left
    exact hi.ge
  have hok : validateExisting (empty.afterCalls early) = .ok () _ :=
    Action.eq_ok_of_isOk (by decide +kernel)
  obtain ⟨hpasses, -, hrepeats⟩ := rulesFirst_of_validateExisting early hreal hok
  have hnone : ∀ k < 5, ∀ a, a ∉ (empty.afterCalls (early.take k)).validated := by
    have hempty : ∀ k < 5, (empty.afterCalls (early.take k)).validated.isEmpty := by
      decide +kernel
    intro k hk a
    rw [Std.ExtTreeSet.isEmpty_iff.mp (hempty k hk)]
    exact Std.ExtTreeSet.not_mem_empty
  have htime : InTime early := by
    intro before i r after hsplit a ha
    have hbefore : early.take before.length = before := by rw [hsplit, List.take_left]
    have hlength : early.length = before.length + (after.length + 1) := by
      rw [hsplit, List.length_append, List.length_cons]
    have hshort : before.length < 5 := by
      have : early.length = 4 := rfl
      omega
    have hnotin := hnone before.length hshort a
    rw [hbefore] at hnotin
    exact absurd ha hnotin
  refine ⟨hreal, _, hok, ?_, hrepeats htime⟩
  exact hpasses (early.take 2) (.base 0) ⟨1⟩ (early.drop 3) rfl (hnone 2 (by decide) _)
    (by decide +kernel)

/-- A number that is written and checked between two rules, of which the second one is stricter. -/
def late : List Call :=
  [.addSegment, .addRule 0 ⟨2⟩, .insert (.base 0) (.integer 65536), .addRule 0 ⟨1⟩]

/-- All of these calls succeed and the check of the cells that are there finds nothing to complain
of, but the number does not pass the second rule, and is refused when the rules come first. -/
theorem not_passesAll_late :
    (∀ outcome ∈ outcomes empty late, outcome.2.isOk) ∧
      (∃ t, validateExisting (empty.afterCalls late) = .ok () t ∧ ¬ PassesAll late t) ∧
      ∃ outcome ∈ outcomes empty (rulesFirst late), ¬ outcome.2.isOk := by
  refine ⟨by decide +kernel, ?_, by decide +kernel⟩
  have hok : validateExisting (empty.afterCalls late) = .ok () _ :=
    Action.eq_ok_of_isOk (by decide +kernel)
  have hcell : (validateExisting.after (empty.afterCalls late)).get? (.base 0) =
      some (.felt 65536) := by
    decide +kernel
  refine ⟨_, hok, fun hall => ?_⟩
  have hrule : .addRule (Address.base 0).segment ⟨1⟩ ∈ late := by simp [late]
  obtain ⟨x, hx, hbound⟩ := hall (.base 0) ⟨1⟩ hrule (Option.isSome_of_eq_some hcell)
  obtain rfl : 65536 = x := Value.felt.inj (Option.some.inj (hcell.symm.trans hx))
  revert hbound
  decide +kernel

end Cairo.Memory
