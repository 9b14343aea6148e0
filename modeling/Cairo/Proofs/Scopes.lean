import Mathlib.Algebra.Ring.Int.Defs
import Mathlib.Data.List.Infix
import Cairo.Proofs.Action
import Cairo.Scope

/-!
# Scopes are a stack

`Effect` says what each operation does to the list of all scopes, the main scope first: entering
puts a scope behind the others, leaving takes the last one away unless it is the only one, and the
other operations read or change the last one alone.  Calls that never leave more scopes than they
have entered (`StaysInside`) therefore keep the scopes that were there before, and if they leave as
many (`Balanced`), the scope that they began in can be left for the scopes as they were before it
was entered.
-/

namespace Cairo.Scopes

/-! ## Calls -/

/-- What a call answers. -/
inductive Answer
  | done
  | variables (s : Scope)
  | found (d : Datum)

/-- An operation on scopes. -/
inductive Call
  | enter (scope : Scope)
  | exit
  | locals
  | get (name : String)
  | assign (name : String) (d : Datum)
  | delete (name : String)

/-- What a call does to scopes. -/
def Call.act : Call → Action Scopes Answer
  | .enter scope => do
    modify (·.enter scope)
    return .done
  | .exit => do
    Scopes.exit
    return .done
  | .locals => do return .variables (← getThe Scopes).current
  | .get name => do return .found (← (← getThe Scopes).get name)
  | .assign name d => do
    modify (·.assign name d)
    return .done
  | .delete name => do
    modify (·.delete name)
    return .done

/-- The scopes after a list of calls, each of which may have failed. -/
def afterCalls (s : Scopes) (calls : List Call) : Scopes :=
  calls.foldl (fun s c => c.act.after s) s

/-- What a call does to the list of all scopes, the main scope first. -/
inductive Effect : Call → List Scope → Except Fault Answer → List Scope → Prop
  | enter {all : List Scope} {scope : Scope} :
      Effect (.enter scope) all (.ok .done) (all ++ [scope])
  | exit {below : List Scope} {top : Scope} (h : below ≠ []) :
      Effect .exit (below ++ [top]) (.ok .done) below
  | exitMain {main : Scope} : Effect .exit [main] (.error .exitMainScope) [main]
  | locals {below : List Scope} {top : Scope} :
      Effect .locals (below ++ [top]) (.ok (.variables top)) (below ++ [top])
  | found {below : List Scope} {top : Scope} {name : String} {d : Datum} (h : top[name]? = some d) :
      Effect (.get name) (below ++ [top]) (.ok (.found d)) (below ++ [top])
  | missing {below : List Scope} {top : Scope} {name : String} (h : top[name]? = none) :
      Effect (.get name) (below ++ [top]) (.error (.variableNotInScope name)) (below ++ [top])
  | assign {below : List Scope} {top top' : Scope} {name : String} {d : Datum}
      (h : ∀ k, top'[k]? = if k = name then some d else top[k]?) :
      Effect (.assign name d) (below ++ [top]) (.ok .done) (below ++ [top'])
  | delete {below : List Scope} {top top' : Scope} {name : String}
      (h : ∀ k, top'[k]? = if k = name then none else top[k]?) :
      Effect (.delete name) (below ++ [top]) (.ok .done) (below ++ [top'])

/-! ## The list of all scopes -/

/-- The current scope stands behind the others. -/
theorem toList_eq (s : Scopes) : s.toList = s.outer.reverse ++ [s.current] := List.reverse_cons

/-- Scopes are known from their list. -/
theorem toList_injective : Function.Injective toList := by
  rintro ⟨current, outer⟩ ⟨current', outer'⟩ h
  obtain ⟨rfl, rfl⟩ := List.cons.inj (List.reverse_injective h)
  rfl

/-- A value that was given to a name is found under it, and the others are found as before. -/
theorem getElem?_insert (scope : Scope) (name k : String) (d : Datum) :
    (scope.insert name d)[k]? = if k = name then some d else scope[k]? := by
  rw [Std.ExtTreeMap.getElem?_insert]
  exact if_congr (Std.LawfulEqCmp.compare_eq_iff_eq.trans eq_comm) rfl rfl

/-- A name that was taken out is not found, and the others are found as before. -/
theorem getElem?_erase (scope : Scope) (name k : String) :
    (scope.erase name)[k]? = if k = name then none else scope[k]? := by
  rw [Std.ExtTreeMap.getElem?_erase]
  exact if_congr (Std.LawfulEqCmp.compare_eq_iff_eq.trans eq_comm) rfl rfl

/-- Names are taken out of the current scope alone, each of them and no others. -/
theorem deleteAll_eq (s : Scopes) (names : List String) :
    (s.deleteAll names).outer = s.outer ∧
      ∀ k, (s.deleteAll names).current[k]? = if k ∈ names then none else s.current[k]? := by
  unfold deleteAll
  induction names generalizing s with
  | nil => exact ⟨rfl, fun k => (if_neg List.not_mem_nil).symm⟩
  | cons name rest ih =>
    refine ⟨(ih (s.delete name)).1, fun k => ?_⟩
    rw [List.foldl_cons, (ih (s.delete name)).2]
    unfold delete
    rw [getElem?_erase]
    grind

/-- Asking for a name answers what is found under it in the current scope, if anything is. -/
theorem act_get (s : Scopes) (name : String) :
    (Call.get name).act s =
      match s.current[name]? with
      | some d => .ok (.found d) s
      | none => .error (.variableNotInScope name) s := by
  show EStateM.bind (Action.ofExcept (Action.orThrow s.current[name]? _)) _ s = _
  cases s.current[name]? <;> rfl

/-- Each call does to the list of all scopes what it is said to do. -/
theorem effect_act (c : Call) (s : Scopes) :
    Effect c s.toList (c.act.answer s) (c.act.after s).toList := by
  cases c with
  | enter scope =>
    show Effect _ _ (.ok .done) (s.enter scope).toList
    rw [toList_enter]
    exact .enter
  | exit =>
    obtain ⟨current, outer⟩ := s
    cases outer with
    | nil => exact .exitMain
    | cons below rest =>
      show Effect _ _ (.ok .done) (toList ⟨below, rest⟩)
      have hbelow : toList ⟨current, below :: rest⟩ = toList ⟨below, rest⟩ ++ [current] :=
        List.reverse_cons
      rw [hbelow]
      exact .exit (toList_ne_nil _)
  | locals =>
    show Effect _ _ (.ok (.variables s.current)) s.toList
    rw [toList_eq]
    exact .locals
  | get name =>
    unfold Action.answer Action.after
    rw [act_get]
    cases hd : s.current[name]? with
    | none =>
      show Effect _ _ (.error (.variableNotInScope name)) s.toList
      rw [toList_eq]
      exact .missing hd
    | some d =>
      show Effect _ _ (.ok (.found d)) s.toList
      rw [toList_eq]
      exact .found hd
  | assign name d =>
    show Effect _ _ (.ok .done) (s.assign name d).toList
    rw [toList_eq, toList_eq]
    exact .assign fun k => getElem?_insert s.current name k d
  | delete name =>
    show Effect _ _ (.ok .done) (s.delete name).toList
    rw [toList_eq, toList_eq]
    exact .delete fun k => getElem?_erase s.current name k

/-! ## Nested calls -/

/-- How many scopes a call enters, less those that it leaves, as long as there are any to leave. -/
def Call.level : Call → Int
  | .enter _ => 1
  | .exit => -1
  | _ => 0

/-- The calls never leave more scopes than they have entered. -/
def StaysInside (calls : List Call) : Prop := ∀ l, l <+: calls → 0 ≤ (l.map Call.level).sum

instance : DecidablePred StaysInside := fun calls =>
  decidable_of_iff (∀ l ∈ calls.inits, 0 ≤ (l.map Call.level).sum) (by simp [StaysInside])

/-- The calls leave as many scopes as they enter, and never more than they have entered. -/
def Balanced (calls : List Call) : Prop := StaysInside calls ∧ (calls.map Call.level).sum = 0

instance : DecidablePred Balanced := fun _ => inferInstanceAs (Decidable (_ ∧ _))

/-- The last of some scopes is the last of those behind the first ones, if there are any. -/
theorem exists_of_append_eq {base inner below : List Scope} {top : Scope}
    (h : below ++ [top] = base ++ inner) (hne : inner ≠ []) :
    ∃ init, inner = init ++ [top] ∧ below = base ++ init := by
  obtain ⟨init, last, rfl⟩ := (List.eq_nil_or_concat' inner).resolve_left hne
  rw [← List.append_assoc] at h
  obtain ⟨hbelow, htop⟩ := List.append_inj' h rfl
  exact ⟨init, by rw [htop], hbelow⟩

/-- A call after which there are scopes left behind the first ones does not touch these. -/
theorem Effect.exists_append {c : Call} {base inner all all' : List Scope} {a : Except Fault Answer}
    (h : Effect c all a all') (hall : all = base ++ inner) (hinner : inner ≠ [])
    (hlevel : 0 < inner.length + c.level) :
    ∃ inner', all' = base ++ inner' ∧ (inner'.length : Int) = inner.length + c.level := by
  cases h with
  | @enter _ scope =>
    subst hall
    exact ⟨inner ++ [scope], List.append_assoc _ _ _, by simp [Call.level]⟩
  | exit hbelow =>
    obtain ⟨init, rfl, rfl⟩ := exists_of_append_eq hall hinner
    refine ⟨init, rfl, ?_⟩
    rw [List.length_append, Call.level, List.length_singleton]
    omega
  | @exitMain main =>
    have hmain : [] ++ [main] = base ++ inner := hall
    obtain ⟨init, rfl, hinit⟩ := exists_of_append_eq hmain hinner
    obtain ⟨-, rfl⟩ := List.nil_eq_append_iff.mp hinit
    exact absurd hlevel (by simp [Call.level])
  | locals | found _ | missing _ => exact ⟨inner, hall, (Int.add_zero _).symm⟩
  | @assign _ _ top' | @delete _ _ top' =>
    obtain ⟨init, rfl, rfl⟩ := exists_of_append_eq hall hinner
    exact ⟨init ++ [top'], List.append_assoc _ _ _, by simp [Call.level]⟩

/-- Calls after each of which there are scopes left behind the first ones do not touch these. -/
theorem exists_toList_afterCalls {s : Scopes} {calls : List Call} {base inner : List Scope}
    (hs : s.toList = base ++ inner)
    (hinside : ∀ l, l <+: calls → 0 < inner.length + (l.map Call.level).sum) :
    ∃ inner', (s.afterCalls calls).toList = base ++ inner' ∧
      (inner'.length : Int) = inner.length + (calls.map Call.level).sum := by
  induction calls generalizing s inner with
  | nil => exact ⟨inner, hs, (Int.add_zero _).symm⟩
  | cons c rest ih =>
    have hinner : inner ≠ [] := by
      rintro rfl
      exact absurd (hinside [] List.nil_prefix) (by simp)
    have hlevel : 0 < (inner.length : Int) + c.level := by
      simpa using hinside [c] (List.prefix_append [c] rest)
    obtain ⟨inner', hc, hlength⟩ := (effect_act c s).exists_append hs hinner hlevel
    have hrest : ∀ l, l <+: rest → 0 < (inner'.length : Int) + (l.map Call.level).sum := by
      intro l hl
      have h := hinside (c :: l) (List.cons_prefix_cons.mpr ⟨rfl, hl⟩)
      rw [List.map_cons, List.sum_cons, ← Int.add_assoc, ← hlength] at h
      exact h
    obtain ⟨inner'', hafter, hlength'⟩ := ih hc hrest
    refine ⟨inner'', hafter, ?_⟩
    rw [hlength', hlength, List.map_cons, List.sum_cons, Int.add_assoc]

/-! ## Laws -/

/-- The laws of scopes as a stack. -/
structure IsStack (s : Scopes) : Prop where
  /-- There is always a scope. -/
  toList_ne_nil : s.toList ≠ []
  /-- Each call does to the list of all scopes what it is said to do. -/
  effect : ∀ c : Call, Effect c s.toList (c.act.answer s) (c.act.after s).toList
  /-- The main scope is not left, which changes nothing, and nothing else is refused. -/
  exit_eq_error_iff : ∀ e t, exit s = .error e t ↔ e = .exitMainScope ∧ t = s ∧ s.toList.length = 1
  /-- Calls inside of a scope that is entered keep the others. -/
  exists_inner : ∀ scope calls, StaysInside calls → ∃ inner, inner ≠ [] ∧
    (s.afterCalls (.enter scope :: calls)).toList = s.toList ++ inner
  /-- A scope that is entered is left for the scopes as they were. -/
  exit_restores : ∀ scope calls, Balanced calls →
    exit (s.afterCalls (.enter scope :: calls)) = .ok () s

/-- Calls inside of a scope that is entered keep the others, and the scopes behind these are as many
as were entered and not left. -/
theorem exists_inner_afterCalls (s : Scopes) (scope : Scope) {calls : List Call}
    (h : StaysInside calls) :
    ∃ inner, (s.afterCalls (.enter scope :: calls)).toList = s.toList ++ inner ∧
      (inner.length : Int) = 1 + (calls.map Call.level).sum := by
  refine exists_toList_afterCalls (toList_enter s scope) fun l hl => ?_
  have hl := h l hl
  simp only [List.length_singleton, Int.natCast_one]
  omega

/-- All scopes obey the laws of a stack. -/
theorem isStack (s : Scopes) : IsStack s where
  toList_ne_nil := toList_ne_nil s
  effect c := effect_act c s
  exit_eq_error_iff e t := by
    obtain ⟨current, outer⟩ := s
    cases outer with
    | nil =>
      constructor
      · rintro ⟨⟩
        exact ⟨rfl, rfl, rfl⟩
      · rintro ⟨rfl, rfl, -⟩
        rfl
    | cons below rest =>
      refine ⟨nofun, ?_⟩
      rintro ⟨-, -, hlength⟩
      simp [toList] at hlength
  exists_inner scope calls h := by
    obtain ⟨inner, hinner, hlength⟩ := exists_inner_afterCalls s scope h
    refine ⟨inner, ?_, hinner⟩
    rintro rfl
    have hlevel := h calls List.prefix_rfl
    simp only [List.length_nil, Int.natCast_zero] at hlength
    omega
  exit_restores scope calls h := by
    obtain ⟨inner, hinner, hlength⟩ := exists_inner_afterCalls s scope h.1
    rw [h.2, Int.add_zero] at hlength
    obtain ⟨last, rfl⟩ := List.length_eq_one_iff.mp (Int.ofNat.inj hlength)
    rw [← toList_enter] at hinner
    rw [toList_injective hinner, exit_enter]

/-- Whatever calls are made on scopes, and whether they succeed or fail, the scopes that they lead
to are a stack. -/
theorem afterCalls_isStack (s : Scopes) (calls : List Call) : IsStack (s.afterCalls calls) :=
  isStack _

/-- Calls that enter two scopes, one inside of the other, and leave both of them. -/
example : Balanced [.delete "n", .enter ∅, .assign "n" (.integer 1), .enter ∅, .get "n", .exit,
    .exit, .locals] := by
  decide

end Cairo.Scopes
