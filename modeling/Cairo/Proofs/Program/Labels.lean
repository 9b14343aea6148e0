import Mathlib.Data.List.Nodup
import Cairo.Proofs.Action
import Cairo.Program.Compiled

/-!
# Labels

The labels of a program stand in one table under two sorts of texts, their full names and the last
parts of these.  The table is filled in the order of the identifiers: the full name of a label takes
its place whatever stands there, the last part only if nothing does (`exists_addLabel`).  So a full
name is never shadowed by a last part, whichever of them comes first, and of several labels with the
same last part the first one keeps it (`exists_foldlM_addLabel`).  This is what a text stands for in
a loaded program (`getLabel_prefers_full_names`).
-/

namespace Cairo

namespace Identifiers

variable {ids : Identifiers} {name : DottedName} {d : Definition} {s : String} {pc : Int}

/-! ## What a text stands for -/

/-- The labels among some identifiers, with the places that they mark, in order. -/
def labels (ids : Identifiers) : List (DottedName × Int) :=
  ids.filterMap fun entry => entry.2.pc?.map fun pc => (entry.1, pc)

/-- A text stands for the place of the label that has it as its full name, or, if there is none, for
that of the first label that has it as the last part of its name. -/
inductive StandsFor (ids : Identifiers) (s : String) : Int → Prop
  | fullName {name : DottedName} {pc : Int} (hlabel : (name, pc) ∈ ids.labels)
      (htext : name.text = s) : StandsFor ids s pc
  | lastPart {before after : List (DottedName × Int)} {name : DottedName} {pc : Int}
      (hnone : ∀ l ∈ ids.labels, l.1.text ≠ s)
      (hlabels : ids.labels = before ++ (name, pc) :: after) (hlast : name.getLast? = some s)
      (hfirst : ∀ l ∈ before, l.1.getLast? ≠ some s) : StandsFor ids s pc

/-- What marks no place is no label. -/
theorem labels_cons_of_none (h : d.pc? = none) : labels ((name, d) :: ids) = ids.labels := by
  simp [labels, h]

/-- What marks a place is a label. -/
theorem labels_cons_of_some (h : d.pc? = some pc) :
    labels ((name, d) :: ids) = (name, pc) :: ids.labels := by
  simp [labels, h]

/-- The names of the labels are some of those of the identifiers. -/
theorem sublist_labels (ids : Identifiers) :
    (ids.labels.map (·.1)).Sublist (ids.map (·.1)) := by
  induction ids with
  | nil => exact .slnil
  | cons entry rest ih =>
    cases hpc : entry.2.pc? with
    | none =>
      rw [labels_cons_of_none hpc]
      exact ih.cons _
    | some pc =>
      rw [labels_cons_of_some hpc]
      exact ih.cons_cons _

/-- The place of the first label whose name meets a condition. -/
def firstPlace? (p : DottedName → Bool) (ls : List (DottedName × Int)) : Option Int :=
  (ls.find? fun l => p l.1).map (·.2)

/-- The first label is passed over if its name does not meet the condition. -/
theorem firstPlace?_cons (p : DottedName → Bool) (name : DottedName) (pc : Int)
    (ls : List (DottedName × Int)) :
    firstPlace? p ((name, pc) :: ls) = if p name then some pc else firstPlace? p ls := by
  unfold firstPlace?
  rw [List.find?_cons]
  cases p name <;> rfl

/-- No label is found if no name meets the condition. -/
theorem firstPlace?_eq_none {p : DottedName → Bool} {ls : List (DottedName × Int)} :
    firstPlace? p ls = none ↔ ∀ l ∈ ls, p l.1 = false := by
  unfold firstPlace?
  rw [Option.map_eq_none_iff, List.find?_eq_none]
  simp only [Bool.not_eq_true]

/-- The label that is found has the first name that meets the condition. -/
theorem firstPlace?_eq_some {p : DottedName → Bool} {ls : List (DottedName × Int)} :
    firstPlace? p ls = some pc ↔ ∃ before name after, ls = before ++ (name, pc) :: after ∧
      p name = true ∧ ∀ l ∈ before, p l.1 = false := by
  unfold firstPlace?
  simp only [Option.map_eq_some_iff, List.find?_eq_some_iff_append, Bool.not_eq_true']
  constructor
  · rintro ⟨⟨name, _⟩, ⟨hname, before, after, hls, hbefore⟩, rfl⟩
    exact ⟨before, name, after, hls, hname, hbefore⟩
  · rintro ⟨before, name, after, hls, hname, hbefore⟩
    exact ⟨(name, pc), ⟨hname, before, after, hls, hbefore⟩, rfl⟩

/-- The place that a text stands for: that of the first label with this full name, or else that of
the first one with this last part. -/
def placeOf? (ids : Identifiers) (s : String) : Option Int :=
  (firstPlace? (·.text = s) ids.labels).or (firstPlace? (·.getLast? = some s) ids.labels)

/-- The search finds what a text stands for, if the full names are distinct. -/
theorem placeOf?_eq_some_iff (hnames : (ids.labels.map (·.1.text)).Nodup) :
    ids.placeOf? s = some pc ↔ ids.StandsFor s pc := by
  unfold placeOf?
  cases hfull : firstPlace? (·.text = s) ids.labels with
  | some found =>
    obtain ⟨before, name, after, hlabels, hname, -⟩ := firstPlace?_eq_some.mp hfull
    have hmem : (name, found) ∈ ids.labels := by simp [hlabels]
    have hname : name.text = s := of_decide_eq_true hname
    rw [Option.some_or, Option.some.injEq]
    constructor
    · rintro rfl
      exact .fullName hmem hname
    · rintro (⟨hlabel, htext⟩ | ⟨hnone, -, -, -⟩)
      · exact congrArg Prod.snd
          (List.inj_on_of_nodup_map hnames hmem hlabel (hname.trans htext.symm))
      · exact absurd hname (hnone _ hmem)
  | none =>
    have hnone : ∀ l ∈ ids.labels, l.1.text ≠ s := fun l hl =>
      of_decide_eq_false (firstPlace?_eq_none.mp hfull l hl)
    rw [Option.none_or, firstPlace?_eq_some]
    simp only [decide_eq_true_eq, decide_eq_false_iff_not]
    constructor
    · rintro ⟨before, name, after, hlabels, hlast, hfirst⟩
      exact .lastPart hnone hlabels hlast hfirst
    · rintro (⟨hlabel, htext⟩ | ⟨-, hlabels, hlast, hfirst⟩)
      · exact absurd htext (hnone _ hlabel)
      · exact ⟨_, _, _, hlabels, hlast, hfirst⟩

end Identifiers

namespace CompiledProgram

open Identifiers

/-! ## The table of labels -/

/-- A label is entered if its name has parts.  Its full name stands for its place from then on, and
so does the last part of its name if it stood for nothing. -/
theorem exists_addLabel (table : Std.ExtTreeMap String Int) {name : DottedName} (hname : name ≠ [])
    (pc : Int) :
    ∃ table', addLabel table name pc = .ok table' ∧ ∀ s : String, table'[s]? =
      if name.text = s then some pc
      else table[s]?.or (if name.getLast? = some s then some pc else none) := by
  obtain ⟨last, hlast⟩ := Option.isSome_iff_exists.mp (List.getLast?_isSome.mpr hname)
  refine ⟨(table.insert name.text pc).insertIfNew last pc, ?_, fun s => ?_⟩
  · unfold addLabel
    rw [hlast]
    rfl
  · simp only [Std.ExtTreeMap.getElem?_insertIfNew, Std.ExtTreeMap.mem_insert,
      Std.ExtTreeMap.getElem?_insert, hlast, Std.LawfulEqCmp.compare_eq_iff_eq, Option.some.injEq]
    by_cases htext : name.text = s
    · subst htext
      by_cases h : last = name.text <;> simp [h]
    · by_cases h : last = s
      · subst h
        cases hs : table[last]? <;> simp [htext, hs, ← Std.ExtTreeMap.isSome_getElem?_iff_mem]
      · simp [htext, h]

/-- Labels can be entered if their names have parts, and if their full names are distinct, these
stand for them afterwards.  Any other text stands for what it stood for before, or else for the
first label of which it is the last part. -/
theorem exists_foldlM_addLabel {ls : List (DottedName × Int)} (hnames : (ls.map (·.1.text)).Nodup)
    (hparts : ∀ l ∈ ls, l.1 ≠ []) (table : Std.ExtTreeMap String Int) :
    ∃ table', ls.foldlM (fun found l => addLabel found l.1 l.2) table = .ok table' ∧
      ∀ s : String, table'[s]? = (firstPlace? (·.text = s) ls).or
        (table[s]?.or (firstPlace? (·.getLast? = some s) ls)) := by
  induction ls generalizing table with
  | nil => exact ⟨table, rfl, fun s => (Option.or_none).symm⟩
  | cons l rest ih =>
    obtain ⟨name, pc⟩ := l
    obtain ⟨hname, hrest⟩ := List.forall_mem_cons.mp hparts
    rw [List.map_cons, List.nodup_cons] at hnames
    obtain ⟨entered, hentered, hfirst⟩ := exists_addLabel table hname pc
    obtain ⟨table', htable', hlater⟩ := ih hnames.2 hrest entered
    refine ⟨table', (congrArg (· >>= _) hentered).trans htable', fun s => ?_⟩
    rw [hlater, hfirst, firstPlace?_cons, firstPlace?_cons]
    by_cases htext : name.text = s
    · -- No later label has this full name.
      have hnone : firstPlace? (·.text = s) rest = none := by
        refine firstPlace?_eq_none.mpr fun l hl => decide_eq_false fun heq => hnames.1 ?_
        exact List.mem_map.mpr ⟨l, hl, heq.trans htext.symm⟩
      simp [htext, hnone]
    · by_cases hlast : name.getLast? = some s <;> simp [htext, hlast]

/-- Entering the identifiers is entering the labels among them. -/
theorem labelsOf_eq (ids : Identifiers) :
    labelsOf ids = ids.labels.foldlM (fun found l => addLabel found l.1 l.2) ∅ := by
  unfold labelsOf
  generalize (∅ : Std.ExtTreeMap String Int) = table
  induction ids generalizing table with
  | nil => rfl
  | cons entry rest ih =>
    rw [List.foldlM_cons]
    cases hpc : entry.2.pc? with
    | none =>
      rw [labels_cons_of_none hpc, ← ih]
      dsimp only
      rw [hpc]
      rfl
    | some pc =>
      rw [labels_cons_of_some hpc, List.foldlM_cons]
      dsimp only
      rw [hpc]
      simp only [ih]

/-- The labels are entered if their names have parts, and the table holds what each text stands for
if their full names are distinct. -/
theorem exists_labelsOf {ids : Identifiers} (hnames : (ids.labels.map (·.1.text)).Nodup)
    (hparts : ∀ l ∈ ids.labels, l.1 ≠ []) :
    ∃ table, labelsOf ids = .ok table ∧ ∀ s : String, table[s]? = ids.placeOf? s := by
  obtain ⟨table, htable, hplaces⟩ := exists_foldlM_addLabel hnames hparts ∅
  refine ⟨table, (labelsOf_eq ids).trans htable, fun s => ?_⟩
  rw [hplaces, Std.ExtTreeMap.getElem?_empty, Option.none_or]
  rfl

/-- A program is loaded with the labels among its identifiers. -/
theorem toProgram_eq_ok {p : CompiledProgram} {entrypoint : Option String} {program : Program}
    (h : p.toProgram entrypoint = .ok program) :
    p.prime = Cairo.prime ∧ (∃ main, entrypoint.mapM p.mainOf = .ok main) ∧
      labelsOf (p.identifiers.getD []) = .ok program.labels := by
  unfold toProgram at h
  split at h
  · cases h
  · rename_i hprime
    obtain ⟨-, -, h⟩ := Answer.bind_eq_ok.mp h
    obtain ⟨main, hmain, h⟩ := Answer.bind_eq_ok.mp h
    obtain ⟨labels, hlabels, h⟩ := Answer.bind_eq_ok.mp h
    obtain rfl := Answer.pure_eq_ok.mp h
    exact ⟨not_not.mp hprime, ⟨main, hmain⟩, hlabels⟩

/-- A program over the right field is loaded if its start is found and its labels can be
entered. -/
theorem exists_toProgram {p : CompiledProgram} {entrypoint : Option String} {main : Option Int}
    {labels : Std.ExtTreeMap String Int} (hprime : p.prime = Cairo.prime)
    (hmain : entrypoint.mapM p.mainOf = .ok main)
    (hlabels : labelsOf (p.identifiers.getD []) = .ok labels) :
    ∃ program, p.toProgram entrypoint = .ok program := by
  unfold toProgram
  rw [if_neg (not_not.mpr hprime), hmain]
  dsimp only
  rw [Answer.ok_bind, hlabels]
  exact ⟨_, rfl⟩

/-- The start of a program is found if there is none, or if its name marks a place. -/
theorem exists_mapM_mainOf (p : CompiledProgram) (entrypoint : Option String) :
    (∃ main, entrypoint.mapM p.mainOf = .ok main) ↔
      ∀ name ∈ entrypoint, ∃ pc, p.mainOf name = .ok pc := by
  cases entrypoint with
  | none => exact ⟨fun _ => nofun, fun _ => ⟨none, rfl⟩⟩
  | some name =>
    simp only [Option.mem_some_iff, forall_eq', Option.mapM_some]
    cases p.mainOf name with
    | ok pc => exact ⟨fun _ => ⟨pc, rfl⟩, fun _ => ⟨some pc, rfl⟩⟩
    | error e => exact ⟨nofun, nofun⟩

/-- Labels resolve to the right places, if the names of all identifiers have parts and are distinct.
A program over the right field is then loaded if its start is found, if one is given at all.  In a
loaded program each text is the label of what it stands for: the place of the label that has it as
its full name, or else of the first label that has it as the last part of its name.  A text that
stands for nothing is reported as missing. -/
theorem getLabel_prefers_full_names {p : CompiledProgram} {ids : Identifiers}
    (hids : p.identifiers = some ids) (hnames : (ids.map (·.1.text)).Nodup)
    (hparts : ∀ entry ∈ ids, entry.1 ≠ []) (entrypoint : Option String) :
    ((∃ program, p.toProgram entrypoint = .ok program) ↔
      p.prime = Cairo.prime ∧ ∀ name ∈ entrypoint, ∃ pc, p.mainOf name = .ok pc) ∧
    ∀ program, p.toProgram entrypoint = .ok program → ∀ s,
      (∀ pc, program.getLabel s = .ok pc ↔ ids.StandsFor s pc) ∧
      ∀ e, program.getLabel s = .error e ↔
        e = .entrypointNotFound s ∧ ∀ pc, ¬ ids.StandsFor s pc := by
  have hsublist := sublist_labels ids
  have hdistinct : (ids.labels.map (·.1.text)).Nodup := by
    have := hsublist.map DottedName.text
    rw [List.map_map, List.map_map] at this
    exact this.nodup hnames
  have hnonempty : ∀ l ∈ ids.labels, l.1 ≠ [] := by
    intro l hl
    obtain ⟨entry, hentry, heq⟩ := List.mem_map.mp (hsublist.subset (List.mem_map_of_mem hl))
    exact heq ▸ hparts entry hentry
  obtain ⟨table, htable, hplaces⟩ := exists_labelsOf hdistinct hnonempty
  have hlabels : labelsOf (p.identifiers.getD []) = .ok table := by
    rw [hids, Option.getD_some, htable]
  refine ⟨?_, fun program hprogram s => ?_⟩
  · rw [← exists_mapM_mainOf]
    constructor
    · rintro ⟨program, h⟩
      obtain ⟨hprime, hmain, -⟩ := toProgram_eq_ok h
      exact ⟨hprime, hmain⟩
    · rintro ⟨hprime, main, hmain⟩
      exact exists_toProgram hprime hmain hlabels
  · obtain ⟨-, -, hloaded⟩ := toProgram_eq_ok hprogram
    obtain rfl := Except.ok.inj (hlabels.symm.trans hloaded)
    have hget : program.getLabel s = Action.orThrow (ids.placeOf? s) (.entrypointNotFound s) := by
      unfold Program.getLabel
      rw [hplaces]
    simp only [← placeOf?_eq_some_iff hdistinct]
    rw [hget]
    cases ids.placeOf? s with
    | some pc => simp [Action.orThrow]
    | none => simp [Action.orThrow, eq_comm]

/-- A program in which the last part of a name comes before the full name that it equals, and two
labels have the same last part. -/
def shadowing : CompiledProgram where
  prime := Cairo.prime
  data := []
  hints := []
  builtins := []
  mainScope := some []
  identifiers := some [(["b", "main"], .function 7), (["main"], .label 5),
    (["a", "loop"], .label 2), (["c", "loop"], .function 3), (["c", "size"], .const 9)]

/-- The full name is found although it came second, and of the labels with the same last part the
first one.  A constant is no label. -/
theorem getLabel_prefers_full_names_shadowing :
    ∃ ids program, shadowing.identifiers = some ids ∧ (ids.map (·.1.text)).Nodup ∧
      (∀ entry ∈ ids, entry.1 ≠ []) ∧ shadowing.toProgram none = .ok program ∧
        program.getLabel "main" = .ok 5 ∧ program.getLabel "loop" = .ok 2 ∧
          program.getLabel "c.loop" = .ok 3 ∧
            program.getLabel "size" = .error (.entrypointNotFound "size") := by
  obtain ⟨ids, hids⟩ : ∃ ids, shadowing.identifiers = some ids := ⟨_, rfl⟩
  have hids' := Option.some.inj hids
  have hnames : (ids.map (·.1.text)).Nodup := by
    rw [← hids']
    decide +kernel
  have hparts : ∀ entry ∈ ids, entry.1 ≠ [] := by
    rw [← hids']
    decide
  have hlabels : ids.labels =
      [(["b", "main"], 7), (["main"], 5), (["a", "loop"], 2), (["c", "loop"], 3)] := by
    rw [← hids']
    rfl
  obtain ⟨hloads, hgets⟩ := getLabel_prefers_full_names hids hnames hparts none
  obtain ⟨program, hprogram⟩ := hloads.mpr ⟨rfl, nofun⟩
  have hget := hgets program hprogram
  refine ⟨ids, program, hids, hnames, hparts, hprogram, ((hget "main").1 5).mpr ?_,
    ((hget "loop").1 2).mpr ?_, ((hget "c.loop").1 3).mpr ?_, ((hget "size").2 _).mpr ⟨rfl, ?_⟩⟩
  · have hmain : (["main"], 5) ∈ ids.labels := by simp [hlabels]
    exact .fullName hmain (by decide +kernel)
  · have hsplit : ids.labels =
        [(["b", "main"], 7), (["main"], 5)] ++ (["a", "loop"], 2) :: [(["c", "loop"], 3)] := hlabels
    refine .lastPart ?_ hsplit rfl (by decide)
    rw [hlabels]
    decide +kernel
  · have hloop : (["c", "loop"], 3) ∈ ids.labels := by simp [hlabels]
    exact .fullName hloop (by decide +kernel)
  · rintro pc (⟨hlabel, htext⟩ | ⟨-, hlabels', hlast, -⟩)
    · have hno : ∀ l ∈ ids.labels, l.1.text ≠ "size" := by
        rw [hlabels]
        decide +kernel
      exact hno _ hlabel htext
    · have hno : ∀ l ∈ ids.labels, l.1.getLast? ≠ some "size" := by
        rw [hlabels]
        decide
      exact hno _ (hlabels' ▸ List.mem_append_right _ List.mem_cons_self) hlast

end CompiledProgram

end Cairo
