import Cairo.Proofs.Machine.Hints
import Cairo.Proofs.Scopes

/-!
# What hints leave of the scopes

The names by which a hint sees the machine are taken out of the scope in which it starts, whether
the hint then succeeds or fails (`scopes_runHint`).  No other variable is touched in any scope, and
the stack of scopes is as it was unless the hint enters a scope, which is empty, or leaves one.  So
a variable of the current scope is lost if it has one of those names (`exists_variable_taken_out`).
-/

namespace Cairo

/-- The list of all scopes, the main scope first, after a hint that succeeds or does not. -/
def HintAction.scopesAfter : HintAction → Bool → List Scope → List Scope
  | enterScope, true, all => all ++ [∅]
  | exitScope, true, all => all.dropLast
  | _, _, all => all

namespace Machine

variable {α : Type} {p : HintProcessor} {h : Hint} {a : HintAction} {m : Machine} {s : Scopes}

/-- The machines have the same scopes. -/
def SameScopes (m t : Machine) : Prop := t.scopes = m.scopes

instance : IsPreorder Machine SameScopes where
  refl _ := rfl
  trans _ _ _ h h' := h'.trans h

/-- An action on the segments leaves the scopes alone. -/
theorem sameScopes_onSegments (x : Action Segments α) :
    Action.Respects SameScopes (onSegments x) := by
  intro m
  unfold onSegments
  rw [Action.after_within]
  rfl

/-- A hint that is not about scopes leaves them alone. -/
theorem sameScopes_perform (p : HintProcessor) (henter : a ≠ .enterScope) (hexit : a ≠ .exitScope) :
    Action.Respects SameScopes (perform p a) := by
  cases a with
  | allocateSegment | allocateTemporary =>
    exact respects_hintAllocate_of p (sameScopes_onSegments _) fun _ _ => sameScopes_onSegments _
  | relocateTemporary => exact respects_hintRelocate_of p fun _ _ => sameScopes_onSegments _
  | enterScope => exact absurd rfl henter
  | exitScope => exact absurd rfl hexit
  | skipInstruction => exact .bind (.lift _) fun _ => .modify fun _ => rfl

/-- An action on the scopes succeeds where it does on those that there are. -/
theorem onScopes_of_ok {x : Action Scopes α} {r : α} {t : Scopes} (hs : m.scopes = some s)
    (hx : x s = .ok r t) : onScopes x m = .ok r { m with scopes := some t } := by
  unfold onScopes
  simp only [hs, hx]

/-- An action on the scopes fails where it does on those that there are. -/
theorem onScopes_of_error {x : Action Scopes α} {e : Fault} {t : Scopes} (hs : m.scopes = some s)
    (hx : x s = .error e t) : onScopes x m = .error e { m with scopes := some t } := by
  unfold onScopes
  simp only [hs, hx]

/-- What a hint does leaves the scopes as they were, or with one more that is empty, or with one
less. -/
theorem scopes_perform (p : HintProcessor) (a : HintAction) (hs : m.scopes = some s) :
    ∃ t, ((perform p a).after m).scopes = some t ∧
      t.toList = a.scopesAfter ((perform p a).answer m).isOk s.toList := by
  -- A hint that fails with the scopes as they were leaves them as they were.
  have hfails : ∀ e u, u.scopes = some s → perform p a m = .error e u →
      ∃ t, ((perform p a).after m).scopes = some t ∧
        t.toList = a.scopesAfter ((perform p a).answer m).isOk s.toList := by
    intro e u hu hrun
    refine ⟨s, (congrArg _ (Action.after_of_error hrun)).trans hu, ?_⟩
    rw [Action.answer_of_error hrun]
    cases a <;> rfl
  by_cases henter : a = .enterScope
  · subst henter
    cases hseen : seen p "vm_enter_scope" .unsupportedOperand with
    | error e => exact hfails e m hs (Action.lift_bind_of_error hseen _ m)
    | ok u =>
      have hrun : perform p .enterScope m = .ok () { m with scopes := some (s.enter ∅) } :=
        (Action.lift_bind_of_ok hseen _ m).trans (onScopes_of_ok hs rfl)
      refine ⟨s.enter ∅, congrArg _ (Action.after_of_ok hrun), ?_⟩
      rw [Action.answer_of_ok hrun]
      exact Scopes.toList_enter s ∅
  by_cases hexit : a = .exitScope
  · subst hexit
    cases hseen : seen p "vm_exit_scope" .unsupportedOperand with
    | error e => exact hfails e m hs (Action.lift_bind_of_error hseen _ m)
    | ok u =>
      have hrun : perform p .exitScope m = onScopes Scopes.exit m :=
        Action.lift_bind_of_ok hseen _ m
      obtain ⟨current, outer⟩ := s
      cases outer with
      | nil => exact hfails _ _ rfl (hrun.trans (onScopes_of_error hs rfl))
      | cons below rest =>
        have hleft := hrun.trans (onScopes_of_ok hs rfl)
        refine ⟨⟨below, rest⟩, congrArg _ (Action.after_of_ok hleft), ?_⟩
        rw [Action.answer_of_ok hleft]
        show _ = (Scopes.toList ⟨current, below :: rest⟩).dropLast
        rw [Scopes.toList_eq ⟨current, below :: rest⟩, List.dropLast_concat]
        rfl
  have hsame : ((perform p a).after m).scopes = some s :=
    (sameScopes_perform p henter hexit m).trans hs
  refine ⟨s, hsame, ?_⟩
  cases a <;> first | rfl | contradiction

/-- A hint takes the names that it sees out of the current scope, and then does what it does. -/
theorem exists_runHint_eq (p : HintProcessor) (ha : h.action? = some a) (hs : m.scopes = some s) :
    ∃ t, t.scopes = some (s.deleteAll p.hiddenNames) ∧ runHint p h m = perform p a t := by
  obtain ⟨u, hu, htaken⟩ : ∃ u, u.scopes = some (s.deleteAll p.hiddenNames) ∧
      onScopes (modify (·.deleteAll p.hiddenNames)) m = .ok () u :=
    ⟨_, rfl, onScopes_of_ok hs rfl⟩
  have hreport : ∀ e, report e u = .ok () { u with events := u.events.map (·.push e) } :=
    fun _ => rfl
  have haction : Action.orThrow h.action? .noSuchName = .ok a := Answer.orThrow_eq_ok.mpr ha
  refine ⟨{ u with events := u.events.map (·.push (.hintStarted u.registers.pc h.code)) }, hu, ?_⟩
  unfold runHint
  rw [Action.bind_of_ok htaken, Action.get_bind, Action.bind_of_ok (hreport _),
    Action.lift_bind_of_ok haction]

/-- A hint, whether it succeeds or fails, takes the names by which it sees the machine out of the
scope in which it starts, and changes no other variable of any scope.  The scopes are the same ones
as before, but for an empty one that is entered by a hint that enters a scope and succeeds, and the
last one, which is left by a hint that leaves a scope and succeeds.  If no variable of the scope in
which the hint starts has such a name, then this scope, too, is as it was. -/
theorem scopes_runHint {below : List Scope} {top : Scope} (ha : h.action? = some a)
    (hs : m.scopes = some s) (htop : s.toList = below ++ [top]) :
    ∃ kept t, ((runHint p h).after m).scopes = some t ∧
      t.toList = a.scopesAfter ((runHint p h).answer m).isOk (below ++ [kept]) ∧
      (∀ name, kept[name]? = if name ∈ p.hiddenNames then none else top[name]?) ∧
      ((∀ name ∈ p.hiddenNames, top[name]? = none) → kept = top) := by
  obtain ⟨u, hu, hrun⟩ := exists_runHint_eq p ha hs
  obtain ⟨t, ht, hlist⟩ := scopes_perform p a hu
  obtain ⟨houter, hkept⟩ := s.deleteAll_eq p.hiddenNames
  rw [Scopes.toList_eq] at htop
  obtain ⟨rfl, hcurrent⟩ := List.append_inj' htop rfl
  obtain rfl : s.current = top := List.cons.inj hcurrent |>.1
  refine ⟨(s.deleteAll p.hiddenNames).current, t, ?_, ?_, hkept, fun hnone => ?_⟩
  · rw [Action.after_congr hrun, ht]
  · rw [Action.answer_congr hrun, hlist, Scopes.toList_eq, houter]
  · refine Std.ExtTreeMap.ext_getElem? fun name => ?_
    rw [hkept]
    split
    next hname => exact (hnone name hname).symm
    next => rfl

/-- A main scope with a variable that has the name of the allocation pointer. -/
def mainVariable : Scope := (∅ : Scope).insert "ap" (.integer 5)

/-- A scope with such a variable and two others. -/
def threeVariables : Scope :=
  (((∅ : Scope).insert "ap" (.integer 2)).insert "offset" (.integer 4)).insert "x" (.integer 1)

/-- A machine in the second of these scopes, which was entered from the first. -/
def withScopes : Machine :=
  { fresh true false with scopes := some ⟨threeVariables, [mainVariable]⟩ }

/-- The hint that enters a scope takes two variables out of the scope in which it starts, one with
the name of a part of the machine and one with the name of a datum of the processor, and no other
one. -/
theorem scopes_runHint_entering :
    Hint.action? ⟨" enter_scope\n"⟩ = some .enterScope ∧
    withScopes.scopes = some ⟨threeVariables, [mainVariable]⟩ ∧
    Scopes.toList ⟨threeVariables, [mainVariable]⟩ = [mainVariable] ++ [threeVariables] ∧
    ∃ (kept : Scope) (t : Scopes),
      ((runHint ⟨(∅ : Scope).insert "offset" (.integer 3)⟩ ⟨" enter_scope\n"⟩).after
        withScopes).scopes = some t ∧ t.toList = [mainVariable, kept, ∅] ∧
      kept["ap"]? = none ∧ kept["offset"]? = none ∧ kept["x"]? = some (.integer 1) := by
  have haction : Hint.action? ⟨" enter_scope\n"⟩ = some .enterScope := rfl
  have hlist : Scopes.toList ⟨threeVariables, [mainVariable]⟩ =
      [mainVariable] ++ [threeVariables] := rfl
  obtain ⟨kept, t, ht, hafter, hkept, -⟩ := scopes_runHint
    (p := ⟨(∅ : Scope).insert "offset" (.integer 3)⟩) haction (rfl : withScopes.scopes = _) hlist
  exact ⟨haction, rfl, hlist, kept, t, ht, hafter, hkept "ap", hkept "offset",
    (hkept "x").trans (Scopes.getElem?_insert _ _ _ _)⟩

/-- Scopes with a variable that has the name of the allocation pointer. -/
def withVariable : Scopes := Scopes.main.assign "ap" (.integer 1)

/-- A variable with the name of the allocation pointer is gone after a hint that asks for the next
instruction to be passed over. -/
theorem exists_variable_taken_out :
    ∃ (u : Machine) (t : Scopes),
      runHint .standard ⟨"skip_next_instruction"⟩
        { fresh true false with scopes := some withVariable } = .ok () u ∧ u.scopes = some t ∧
      withVariable.toList.length = 1 ∧ t.toList.length = 1 ∧
      withVariable.current["ap"]? = some (.integer 1) ∧ t.current["ap"]? = none :=
  ⟨_, _, rfl, rfl, rfl, rfl, Scopes.getElem?_insert ∅ "ap" "ap" (.integer 1),
    (Scopes.deleteAll_eq _ _).2 "ap"⟩

end Machine

end Cairo
