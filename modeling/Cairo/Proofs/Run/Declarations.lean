import Mathlib.Data.List.Forall2
import Cairo.Proofs.Action
import Cairo.Run.Basic

/-!
# Declarations of builtins

A program declares its builtins by name.  The declaration is legal (`Layout.Legal`) if the names
stand in the order of all declarations, each at most once, if machines can run them all, and if the
layout has them all.  Exactly then the builtins are created; otherwise the first thing that is wrong
is reported, with the order before the single names, and nothing is created
(`initializeBuiltins_creates_all_or_nothing`).
-/

namespace Cairo

/-! ## Answers for the items of a list -/

namespace Answer

variable {α β : Type} {f : α → Except Fault β} {l : List α}

/-- There are answers for the items of a list if each item has its answer. -/
theorem mapM_eq_ok_iff_forall₂ {l' : List β} :
    l.mapM f = .ok l' ↔ List.Forall₂ (fun a b => f a = .ok b) l l' := by
  induction l generalizing l' with
  | nil =>
    rw [List.mapM_nil, pure_eq_ok, List.forall₂_nil_left_iff, eq_comm]
  | cons a rest ih =>
    rw [List.mapM_cons, List.forall₂_cons_left_iff]
    simp only [bind_eq_ok, pure_eq_ok, ih]
    constructor
    · rintro ⟨b, hb, rest', hrest, rfl⟩
      exact ⟨b, rest', hb, hrest, rfl⟩
    · rintro ⟨b, rest', hb, hrest, rfl⟩
      exact ⟨b, hb, rest', hrest, rfl⟩

/-- A sequence of two answers fails when the first does, or the second after it. -/
theorem bind_eq_error {x : Except Fault α} {g : α → Except Fault β} {e : Fault} :
    (x >>= g) = .error e ↔ x = .error e ∨ ∃ a, x = .ok a ∧ g a = .error e := by
  show Except.bind x g = .error e ↔ _
  cases x with
  | ok a => simp [Except.bind]
  | error e' => simp [Except.bind]

/-- Answers for the items of a list fail with the first item that has none. -/
theorem mapM_eq_error_iff {e : Fault} :
    l.mapM f = .error e ↔ ∃ before a after, l = before ++ a :: after ∧
      (∀ b ∈ before, ∃ c, f b = .ok c) ∧ f a = .error e := by
  induction l with
  | nil => simp [pure, Except.pure]
  | cons a rest ih =>
    have hlast : ∀ (bs : List β) (b : β), (pure (b :: bs) : Except Fault (List β)) ≠ .error e :=
      fun _ _ => nofun
    rw [List.mapM_cons, bind_eq_error]
    simp only [bind_eq_error, hlast, and_false, exists_false, or_false, ih]
    constructor
    · rintro (ha | ⟨b, hb, before, c, after, rfl, hbefore, hc⟩)
      · exact ⟨[], a, rest, rfl, nofun, ha⟩
      · exact ⟨a :: before, c, after, rfl, List.forall_mem_cons.mpr ⟨⟨b, hb⟩, hbefore⟩, hc⟩
    · rintro ⟨before, c, after, hl, hbefore, hc⟩
      cases before with
      | nil =>
        obtain ⟨rfl, -⟩ := List.cons.inj hl
        exact .inl hc
      | cons d before =>
        obtain ⟨rfl, rfl⟩ := List.cons.inj hl
        obtain ⟨⟨b, hb⟩, hbefore⟩ := List.forall_mem_cons.mp hbefore
        exact .inr ⟨b, hb, before, c, after, rfl, hbefore, hc⟩

end Answer

/-- Kinds of builtins are told apart by their names. -/
theorem BuiltinKind.name_injective : Function.Injective name := by
  intro k k' h
  cases k <;> cases k' <;> first | rfl | exact absurd h (by decide)

/-! ## Legal declarations -/

namespace Layout

variable {layout : Layout} {names : List String} {name : String}

/-- The greedy search for the items of a list, one after another, decides whether the list is a
sublist. -/
theorem isSubsequence_iff {order : List String} :
    isSubsequence names order = true ↔ names.Sublist order := by
  fun_induction isSubsequence names order with
  | case1 order => simp
  | case2 name rest => simp
  | case3 name rest more ih => rw [ih, List.cons_sublist_cons]
  | case4 name rest other more hne ih =>
    rw [ih, List.sublist_cons_iff]
    refine ⟨.inl, fun h => h.resolve_right ?_⟩
    rintro ⟨rest', heq, -⟩
    exact hne (List.cons.inj heq).1

/-- A layout has a builtin of a kind under its name, with a ratio. -/
def Offers (layout : Layout) (name : String) (kind : BuiltinKind) (ratio : Option Int) : Prop :=
  kind.name = name ∧ layout.ratios.lookup kind = some ratio

/-- A declaration of builtins is legal. -/
structure Legal (layout : Layout) (names : List String) : Prop where
  ordered : names.Sublist declarationOrder
  supported : ∀ name ∈ names, name ∉ unsupportedNames
  offered : ∀ name ∈ names, ∃ kind ratio, layout.Offers name kind ratio

/-- A name is at fault in a declaration: no machine can run the builtin, or the layout does not have
it. -/
inductive Offends (layout : Layout) (name : String) : Fault → Prop
  | unsupported (h : name ∈ unsupportedNames) : Offends layout name (.unsupportedBuiltin name)
  | missing (hsupported : name ∉ unsupportedNames)
      (hmissing : ∀ kind ratio, ¬ layout.Offers name kind ratio) :
      Offends layout name (.builtinNotInLayout name layout.name)

/-- The entry of a name is that of the kind with this name. -/
theorem find?_ratios_eq_some {kind : BuiltinKind} {ratio : Option Int} :
    layout.ratios.find? (fun entry => entry.1.name = name) = some (kind, ratio) ↔
      layout.Offers name kind ratio := by
  unfold Offers
  induction layout.ratios with
  | nil => simp
  | cons entry rest ih =>
    obtain ⟨k, n⟩ := entry
    rw [List.find?_cons, List.lookup_cons]
    by_cases hk : k.name = name
    · subst hk
      by_cases hkind : kind = k
      · simp [hkind]
      · have hname : kind.name ≠ k.name := fun h => hkind (BuiltinKind.name_injective h)
        simp [hname, Ne.symm hkind]
    · have hkind : kind.name = name → (kind == k) = false := by
        rintro rfl
        exact beq_false_of_ne fun h => hk (congrArg _ h.symm)
      rw [decide_eq_false hk, ih]
      refine and_congr_right fun hname => ?_
      rw [hkind hname]

/-- A name has an entry if machines can run the builtin and the layout has it. -/
theorem entry_eq_ok {kind : BuiltinKind} {ratio : Option Int} :
    layout.entry name = .ok (kind, ratio) ↔
      name ∉ unsupportedNames ∧ layout.Offers name kind ratio := by
  unfold entry
  rw [← find?_ratios_eq_some, ← Answer.orThrow_eq_ok (e := .builtinNotInLayout name layout.name)]
  split
  · rename_i h
    exact ⟨nofun, fun h' => absurd (List.contains_iff_mem.mp h) h'.1⟩
  · rename_i h
    exact (and_iff_right fun hmem => h (List.contains_iff_mem.mpr hmem)).symm

/-- A name without an entry is at fault. -/
theorem entry_eq_error {e : Fault} : layout.entry name = .error e ↔ layout.Offends name e := by
  unfold entry
  split
  · rename_i h
    have hmem := List.contains_iff_mem.mp h
    constructor
    · rintro ⟨⟩
      exact .unsupported hmem
    · rintro (_ | ⟨hsupported, -⟩)
      · rfl
      · exact absurd hmem hsupported
  · rename_i h
    have hsupported : name ∉ unsupportedNames := fun hmem => h (List.contains_iff_mem.mpr hmem)
    cases hfind : layout.ratios.find? (fun entry => entry.1.name = name) with
    | some entry =>
      refine ⟨nofun, ?_⟩
      rintro (hmem | ⟨-, hmissing⟩)
      · exact absurd hmem hsupported
      · exact absurd (find?_ratios_eq_some.mp hfind) (hmissing entry.1 entry.2)
    | none =>
      constructor
      · rintro ⟨⟩
        refine .missing hsupported fun kind ratio hoffers => ?_
        rw [find?_ratios_eq_some.mpr hoffers] at hfind
        cases hfind
      · rintro (hmem | _)
        · exact absurd hmem hsupported
        · rfl

/-- A declaration has entries if it is in order and each name has an entry. -/
theorem entries_eq_ok {entries : List (BuiltinKind × Option Int)} :
    layout.entries names = .ok entries ↔ names.Sublist declarationOrder ∧
      List.Forall₂ (fun name entry => layout.entry name = .ok entry) names entries := by
  unfold Layout.entries
  rw [← isSubsequence_iff, ← Answer.mapM_eq_ok_iff_forall₂]
  split
  · rename_i h
    exact (and_iff_right h).symm
  · rename_i h
    exact ⟨nofun, fun h' => absurd h'.1 h⟩

/-- Exactly the legal declarations have entries. -/
theorem legal_iff : layout.Legal names ↔ ∃ entries, layout.entries names = .ok entries := by
  simp only [entries_eq_ok]
  constructor
  · intro h
    have hentry : ∀ name ∈ names, ∃ entry, layout.entry name = .ok entry := by
      intro name hname
      obtain ⟨kind, ratio, hoffers⟩ := h.offered name hname
      exact ⟨(kind, ratio), entry_eq_ok.mpr ⟨h.supported name hname, hoffers⟩⟩
    obtain ⟨entries, hentries⟩ := Answer.exists_mapM_ok hentry
    exact ⟨entries, h.ordered, Answer.mapM_eq_ok_iff_forall₂.mp hentries⟩
  · rintro ⟨entries, hordered, hentries⟩
    have hentry : ∀ name ∈ names, name ∉ unsupportedNames ∧
        ∃ kind ratio, layout.Offers name kind ratio := by
      intro name hname
      obtain ⟨⟨kind, ratio⟩, hentry, -⟩ :=
        Answer.mem_of_mapM (Answer.mapM_eq_ok_iff_forall₂.mpr hentries) hname
      obtain ⟨hsupported, hoffers⟩ := entry_eq_ok.mp hentry
      exact ⟨hsupported, kind, ratio, hoffers⟩
    exact ⟨hordered, fun name hname => (hentry name hname).1, fun name hname =>
      (hentry name hname).2⟩

/-- What is wrong with a declaration: its order, or else the first name that is at fault. -/
inductive Illegal (layout : Layout) (names : List String) : Fault → Prop
  | disordered (h : ¬ names.Sublist declarationOrder) :
      Illegal layout names (.disorderedBuiltins names)
  | offending {before after : List String} {name : String} {e : Fault}
      (hordered : names.Sublist declarationOrder) (hnames : names = before ++ name :: after)
      (hbefore : ∀ other ∈ before, ∀ e, ¬ layout.Offends other e) (hname : layout.Offends name e) :
      Illegal layout names e

/-- A declaration without entries fails with what is wrong with it. -/
theorem entries_eq_error {e : Fault} :
    layout.entries names = .error e ↔ layout.Illegal names e := by
  have hfine : ∀ name, (∃ entry, layout.entry name = .ok entry) ↔ ∀ e, ¬ layout.Offends name e := by
    intro name
    simp only [← entry_eq_error]
    cases layout.entry name <;> simp
  unfold Layout.entries
  split
  · rename_i h
    have hordered := isSubsequence_iff.mp h
    rw [Answer.mapM_eq_error_iff]
    simp only [hfine, entry_eq_error]
    constructor
    · rintro ⟨before, name, after, hnames, hbefore, hname⟩
      exact .offending hordered hnames hbefore hname
    · rintro (hdisordered | ⟨-, hnames, hbefore, hname⟩)
      · exact absurd hordered hdisordered
      · exact ⟨_, _, _, hnames, hbefore, hname⟩
  · rename_i h
    have hdisordered : ¬ names.Sublist declarationOrder := fun h' => h (isSubsequence_iff.mpr h')
    constructor
    · rintro ⟨⟩
      exact .disordered hdisordered
    · rintro (_ | ⟨hordered, -, -, -⟩)
      · rfl
      · exact absurd hordered hdisordered

end Layout

/-! ## Creating the builtins -/

namespace Run

variable {r t : Run}

/-- The builtin that is created for a name has the ratio that the layout gives to its kind, and is
new for the rest. -/
def Creates (layout : Layout) (name : String) (b : Builtin) : Prop :=
  ∃ ratio, layout.Offers name b.kind ratio ∧ b = { Builtin.ofKind b.kind with ratio := ratio }

/-- The run with new builtins, which it reports as ready. -/
def withBuiltins (r : Run) (builtins : List Builtin) : Run :=
  { r with machine := { r.machine with
      builtins := builtins
      events := r.machine.events.map (·.push (.builtinsReady (builtins.map (·.kind.name)))) } }

/-- Creating the builtins succeeds if there are entries for them, and fails as these do. -/
theorem initializeBuiltins_eq (r : Run) :
    initializeBuiltins r =
      match r.layout.entries r.program.builtins with
      | .ok entries => .ok () (r.withBuiltins
          (entries.map fun entry => { Builtin.ofKind entry.1 with ratio := entry.2 }))
      | .error e => .error e r := by
  unfold initializeBuiltins
  rw [Action.get_bind]
  cases hentries : r.layout.entries r.program.builtins with
  | ok entries => exact Action.lift_bind_of_ok rfl _ r
  | error e => exact Action.lift_bind_of_error rfl _ r

/-- Builtins are created for exactly the legal declarations, one for each name in the order of the
names, with the ratio that the layout gives to it, and nothing else changes.  Whatever else is
declared fails with what is wrong with it, the order before the first name that is at fault, and
leaves the run as it was. -/
theorem initializeBuiltins_creates_all_or_nothing (r : Run) :
    ((∃ t, initializeBuiltins r = .ok () t) ↔ r.layout.Legal r.program.builtins) ∧
    (∀ t, initializeBuiltins r = .ok () t → ∃ builtins,
      List.Forall₂ (Creates r.layout) r.program.builtins builtins ∧ t = r.withBuiltins builtins) ∧
    ∀ e t, initializeBuiltins r = .error e t ↔
      r.layout.Illegal r.program.builtins e ∧ t = r := by
  rw [initializeBuiltins_eq, Layout.legal_iff]
  simp only [← Layout.entries_eq_error]
  cases hentries : r.layout.entries r.program.builtins with
  | error e => simp [eq_comm]
  | ok entries =>
    refine ⟨⟨fun _ => ⟨entries, rfl⟩, fun _ => ⟨_, rfl⟩⟩, ?_, fun e t => ⟨nofun, nofun⟩⟩
    rintro _ ⟨⟩
    refine ⟨_, ?_, rfl⟩
    rw [List.forall₂_map_right_iff]
    refine (Layout.entries_eq_ok.mp hentries).2.imp fun name entry hentry => ?_
    exact ⟨entry.2, (Layout.entry_eq_ok.mp hentry).2, rfl⟩

end Run

end Cairo
