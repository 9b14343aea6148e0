import Cairo.Proofs.Memory.Insertions
import Cairo.Proofs.Memory.Trees
import Cairo.Proofs.Segments

/-!
# Arguments can be read back

A nested list that is written as an argument becomes a tree in memory, with a segment for each
list.  The segment of a list is allocated before those of the lists in it, and filled after them, so
that the lists are numbered from the outside in.  What writing an argument does to the memory can
then be said at once: there is one new segment for each list, with the values of its items, and no
other change (`argument_of_isArgument`).  From such a memory the argument is read back
(`readBack_argument`).
-/

namespace Cairo

namespace Memory

variable {m : Memory}

/-- Loading data changes the segment that it is loaded to and no other one. -/
theorem touches_load (a : Address) (data : List Datum) :
    Action.Respects (Touches (· = a.segment)) (load a data) := by
  refine respects_load_of (fun k b v hb => ?_) data
  rw [← (Address.shift_eq_ok.mp hb).1]
  exact touches_insert b v

/-! ## New segments with values -/

/-- The memory with a new segment for each list of values. -/
def grown (m : Memory) (nodes : List (Address × List Value)) : Memory :=
  { m with segments := m.segments ++ (nodes.map fun x => (x.2.map some).toArray).toArray }

/-- The number of segments of a memory with new ones. -/
theorem size_grown (nodes : List (Address × List Value)) :
    (m.grown nodes).segments.size = m.segments.size + nodes.length := by
  simp [grown]

/-- Without new segments a memory is as it was. -/
theorem grown_nil : m.grown [] = m := by
  simp [grown]

/-- Segments may be added one after another. -/
theorem grown_grown (xs ys : List (Address × List Value)) :
    (m.grown xs).grown ys = m.grown (xs ++ ys) := by
  simp [grown]

/-- New segments hold the values of the lists that stand in them. -/
theorem holds_grown {nodes : List (Address × List Value)}
    (h : Consecutive m.segments.size nodes) : ∀ x ∈ nodes, (m.grown nodes).Holds x.1 0 x.2 := by
  intro x hx j v hv
  obtain ⟨k, hk⟩ := List.mem_iff_getElem?.mp hx
  have hj : j < offsetBound := (List.getElem?_eq_some_iff.mp hv).1.trans (h.fits x hx)
  refine ⟨⟨((m.segments.size + k : Nat) : Int), j, hj⟩, ?_, ?_⟩
  · rw [h.fst_eq hk, Address.shift_eq_ok]
    simp
  · have hseg : (m.grown nodes).segments[m.segments.size + k]? = some (x.2.map some).toArray := by
      rw [grown, Array.getElem?_append_right (Nat.le_add_right _ k), Nat.add_sub_cancel_left]
      simp [hk]
    rw [get?_eq]
    show (((m.grown nodes).segments[m.segments.size + k]?).bind fun s => s[j]?.join) = some v
    rw [hseg]
    simp [hv]

/-- The rules for real segments are rules for allocated ones. -/
def RulesAllocated (m : Memory) : Prop := ∀ i : Nat, m.segments.size ≤ i → m.rulesOf i = []

/-- The rules stay rules for allocated segments when further ones are allocated. -/
theorem RulesAllocated.grown (h : m.RulesAllocated) (nodes : List (Address × List Value)) :
    (m.grown nodes).RulesAllocated := by
  intro i hi
  rw [size_grown] at hi
  exact h i (Nat.le_of_add_right_le hi)

/-- A value is written behind the end of a segment that has no rules. -/
theorem insert_end {n : Nat} {s : Segment} (hs : m.segments[n]? = some s)
    (hrules : m.rulesOf n = []) (hoffset : s.size < offsetBound) (v : Value) :
    insert ⟨n, s.size, hoffset⟩ v m =
      .ok () { m with segments := m.segments.setIfInBounds n (s.push (some v)) } := by
  have hseg : m.segment? (n : Int) = some s := hs
  have hcell : m.get? ⟨n, s.size, hoffset⟩ = none := by
    rw [get?_eq]
    dsimp only
    rw [hseg, Option.bind_some, Array.getElem?_eq_none (Nat.le_refl _)]
    rfl
  refine insert_eq_ok_iff.mpr ⟨⟨Option.isSome_of_eq_some hseg, ?_, ?_⟩, ?_⟩
  · rw [hcell]
    exact nofun
  · dsimp only
    rw [hrules]
    exact fun _ _ hr => absurd hr List.not_mem_nil
  · have hsegments : m.segments.modify n (·.write s.size v) =
        m.segments.setIfInBounds n (s.push (some v)) := by
      refine Array.ext_getElem? fun i => ?_
      rw [Array.getElem?_modify, Array.getElem?_setIfInBounds]
      split
      · rename_i hi
        subst hi
        rw [hs, if_pos (Array.getElem?_eq_some_iff.mp hs).1, Option.map_some, Segment.write_size]
      · rfl
    have hput : m.put ⟨n, s.size, hoffset⟩ v =
        { m with segments := m.segments.setIfInBounds n (s.push (some v)) } := by
      rw [← hsegments]
      rfl
    have hrules' : (m.put ⟨n, s.size, hoffset⟩ v).rulesOf n = [] :=
      ((sameChecks_modifySegment m n _).rulesOf_eq n).trans hrules
    rw [inserted, counted, if_pos hrules', hput]

/-- Values are written one after another behind the end of a segment that has no rules. -/
theorem loadFrom_end {n : Nat} {s : Segment} (hs : m.segments[n]? = some s)
    (hrules : m.rulesOf n = []) {values : List Value}
    (hfits : s.size + values.length ≤ offsetBound) :
    loadFrom (.base n) s.size (values.map .value) m =
      .ok ()
        { m with segments := m.segments.setIfInBounds n (s ++ (values.map some).toArray) } := by
  induction values generalizing m s with
  | nil =>
    have hsame : m.segments.setIfInBounds n s = m.segments := by
      refine Array.ext_getElem? fun i => ?_
      rw [Array.getElem?_setIfInBounds]
      split
      · rename_i hi
        subst hi
        rw [hs, if_pos (Array.getElem?_eq_some_iff.mp hs).1]
      · rfl
    simp only [List.map_nil, Array.append_empty, hsame]
    rfl
  | cons v rest ih =>
    rw [List.length_cons] at hfits
    have hoffset : s.size < offsetBound := by omega
    have hshift : (Address.base n).shift s.size = .ok ⟨n, s.size, hoffset⟩ :=
      Address.shift_base n hoffset
    have hinsert : insertDatum ⟨n, s.size, hoffset⟩ (.value v) m =
        .ok () { m with segments := m.segments.setIfInBounds n (s.push (some v)) } :=
      insertDatum_eq_ok_iff.mpr ⟨v, rfl, insert_end hs hrules hoffset v⟩
    have hnext : (m.segments.setIfInBounds n (s.push (some v)))[n]? = some (s.push (some v)) := by
      rw [Array.getElem?_setIfInBounds_self, if_pos (Array.getElem?_eq_some_iff.mp hs).1]
    have hrest := ih (m := { m with segments := m.segments.setIfInBounds n (s.push (some v)) })
      hnext hrules (by rw [Array.size_push]; omega)
    rw [Array.size_push] at hrest
    rw [List.map_cons, loadFrom, Action.lift_bind_of_ok hshift, Action.bind_of_ok hinsert, hrest]
    simp

/-- An empty segment that has no rules is filled with values. -/
theorem load_empty {n : Nat} (hs : m.segments[n]? = some #[]) (hrules : m.rulesOf n = [])
    {values : List Value} (hfits : values.length < offsetBound) :
    load (.base n) (values.map .value) m = .ok ⟨n, values.length, hfits⟩
      { m with segments := m.segments.setIfInBounds n (values.map some).toArray } := by
  have hlength : (#[] : Segment).size + values.length ≤ offsetBound := by simpa using hfits.le
  have hfrom := loadFrom_end hs hrules hlength
  rw [Array.empty_append] at hfrom
  have hend : (Address.base n).shift (values.map Datum.value).length =
      .ok ⟨n, values.length, hfits⟩ := by
    rw [List.length_map]
    exact Address.shift_base n hfits
  exact (Action.bind_of_ok hfrom).trans (Action.lift_eq_ok.mpr ⟨hend, rfl⟩)

/-- The first of several new segments is filled with values. -/
theorem load_grown (hm : m.RulesAllocated) {values : List Value}
    (hfits : values.length < offsetBound) (a : Address) (nodes : List (Address × List Value)) :
    load (.base m.segments.size) (values.map .value) (m.grown ((a, []) :: nodes)) =
      .ok ⟨m.segments.size, values.length, hfits⟩ (m.grown ((a, values) :: nodes)) := by
  have hempty : (m.grown ((a, []) :: nodes)).segments[m.segments.size]? = some #[] := by
    rw [grown, Array.getElem?_append_right (Nat.le_refl _), Nat.sub_self]
    rfl
  have hrules : (m.grown ((a, []) :: nodes)).rulesOf m.segments.size = [] := hm _ (Nat.le_refl _)
  have hload := load_empty hempty hrules hfits
  have hfilled : (m.grown ((a, []) :: nodes)).segments.setIfInBounds m.segments.size
      (values.map some).toArray = (m.grown ((a, values) :: nodes)).segments := by
    rw [grown, grown]
    simp [Array.setIfInBounds_append_right]
  rw [hfilled] at hload
  exact hload

end Memory

/-! ## Writing arguments -/

namespace Segments

variable {s t : Segments}

/-- A segment that is allocated stands behind the others. -/
theorem add_eq_grown (s : Segments) :
    add none s = .ok (.base s.memory.segments.size)
      { s with memory := s.memory.grown [(.base s.memory.segments.size, [])] } := by
  have hpush : s.memory.segments ++ #[#[]] = s.memory.segments.push #[] := Array.append_singleton
  unfold Memory.grown
  rw [List.map_cons, List.map_nil, List.map_nil, hpush]
  rfl

mutual

/-- What is written as an argument is one. -/
theorem isArgument_of_argument {d : Datum} {v : Value} {s t : Segments}
    (h : argument d s = .ok v t) : d.IsArgument := by
  cases d with
  | value w => exact .value w
  | truth b => exact .truth b
  | integer n => exact .integer n
  | list items =>
    rw [argument] at h
    obtain ⟨base, s₁, hadd, h⟩ := Action.bind_eq_ok.mp h
    obtain ⟨values, s₂, harguments, h⟩ := Action.bind_eq_ok.mp h
    obtain ⟨b, s₃, hload, -⟩ := Action.bind_eq_ok.mp h
    obtain ⟨hlength, hitems⟩ := areArguments_of_arguments harguments
    obtain ⟨m, hmemory, -⟩ := onMemory_eq_ok.mp hload
    -- The address after the items has an offset.
    obtain ⟨-, hoffset⟩ := Address.shift_eq_ok.mp (Memory.shift_of_load hmemory)
    rw [List.length_map, hlength] at hoffset
    refine .list ?_ hitems
    have hb := b.offset_lt
    omega
  | nothing =>
    rw [argument] at h
    cases h
  | text w =>
    rw [argument] at h
    cases h

/-- What is written as arguments are such, each with a value. -/
theorem areArguments_of_arguments {items : List Datum} {values : List Value} {s t : Segments}
    (h : arguments items s = .ok values t) :
    values.length = items.length ∧ ∀ d ∈ items, d.IsArgument := by
  cases items with
  | nil =>
    rw [arguments] at h
    obtain ⟨rfl, -⟩ := Action.pure_eq_ok.mp h
    exact ⟨rfl, nofun⟩
  | cons d rest =>
    rw [arguments] at h
    obtain ⟨v, s₁, hfirst, h⟩ := Action.bind_eq_ok.mp h
    obtain ⟨others, s₂, hrest, h⟩ := Action.bind_eq_ok.mp h
    obtain ⟨rfl, -⟩ := Action.pure_eq_ok.mp h
    obtain ⟨hlength, hothers⟩ := areArguments_of_arguments hrest
    refine ⟨?_, List.forall_mem_cons.mpr ⟨isArgument_of_argument hfirst, hothers⟩⟩
    rw [List.length_cons, List.length_cons, hlength]

end

mutual

/-- An argument is written to new segments, and nothing else changes. -/
theorem argument_of_isArgument {d : Datum} (hd : d.IsArgument) (s : Segments)
    (hs : s.memory.RulesAllocated) :
    argument d s =
      .ok (d.placed s.memory.segments.size).value
        { s with memory := s.memory.grown (d.placed s.memory.segments.size).nodes } := by
  cases d with
  | list items =>
    obtain ⟨hfits, hitems⟩ := Datum.isArgument_list_iff.mp hd
    have hnext := arguments_of_areArguments items hitems
      { s with memory := s.memory.grown [(.base s.memory.segments.size, [])] } (hs.grown _)
    have hsize : (s.memory.grown [(.base s.memory.segments.size, [])]).segments.size =
        s.memory.segments.size + 1 := Memory.size_grown _
    dsimp only at hnext
    rw [hsize, Memory.grown_grown] at hnext
    set trees := Datum.placedAll items (s.memory.segments.size + 1) with htrees
    have hlength : (trees.map Tree.value).length < offsetBound := by
      rwa [List.length_map, htrees, Datum.length_placedAll]
    have hload : load (.base s.memory.segments.size) ((trees.map Tree.value).map .value)
        { s with memory := s.memory.grown ((.base s.memory.segments.size, []) ::
          Tree.nodesAll trees) } =
        .ok ⟨s.memory.segments.size, (trees.map Tree.value).length, hlength⟩
          { s with memory := s.memory.grown ((.base s.memory.segments.size, trees.map Tree.value) ::
            Tree.nodesAll trees) } :=
      onMemory_eq_ok.mpr ⟨_, Memory.load_grown hs hlength _ _, rfl⟩
    rw [argument, Action.bind_of_ok (add_eq_grown s), Action.bind_of_ok hnext,
      List.singleton_append, Action.bind_of_ok hload, Datum.placed, Tree.nodes, ← htrees]
    rfl
  | value v | truth b | integer n =>
    rw [argument, Datum.placed, Tree.nodes, Memory.grown_nil]
    rfl
  | nothing | text w => cases hd

/-- Several arguments are written to new segments, and nothing else changes. -/
theorem arguments_of_areArguments (items : List Datum) (hitems : ∀ d ∈ items, d.IsArgument)
    (s : Segments) (hs : s.memory.RulesAllocated) :
    arguments items s =
      .ok ((Datum.placedAll items s.memory.segments.size).map Tree.value)
        { s with memory :=
            s.memory.grown (Tree.nodesAll (Datum.placedAll items s.memory.segments.size)) } := by
  cases items with
  | nil =>
    rw [arguments, Datum.placedAll, Tree.nodesAll, Memory.grown_nil]
    rfl
  | cons d rest =>
    obtain ⟨hd, hrest⟩ := List.forall_mem_cons.mp hitems
    have hfirst := argument_of_isArgument hd s hs
    have hothers := arguments_of_areArguments rest hrest
      { s with memory := s.memory.grown (d.placed s.memory.segments.size).nodes } (hs.grown _)
    dsimp only at hothers
    rw [Memory.size_grown, Memory.grown_grown] at hothers
    rw [arguments, Action.bind_of_ok hfirst, Action.bind_of_ok hothers, Datum.placedAll,
      Tree.nodesAll]
    rfl

end

/-- An argument is written to new segments if it is one, and to nothing else. -/
theorem argument_eq_ok (hs : s.memory.RulesAllocated) {d : Datum} {v : Value}
    (h : argument d s = .ok v t) :
    d.IsArgument ∧ v = (d.placed s.memory.segments.size).value ∧
      t = { s with memory := s.memory.grown (d.placed s.memory.segments.size).nodes } := by
  have hd := isArgument_of_argument h
  rw [argument_of_isArgument hd s hs] at h
  cases h
  exact ⟨hd, rfl, rfl⟩

/-- Arguments can be read back.  As long as no rule is registered for a real segment that is not
allocated, exactly the nested lists of values and numbers are written as arguments.  From the value
that is answered one reads the same nested lists back, with the numbers reduced; each list has a new
segment to itself, which holds its items and nothing else, and the rest of the memory is as before.
If a list of arguments is written from an address on, it is read back from there, and besides the
new segments only the segment of the address changes, where no written cell does. -/
theorem readBack_argument (s : Segments) (hs : s.memory.RulesAllocated) :
    (∀ d, (∃ v t, argument d s = .ok v t) ↔ d.IsArgument) ∧
    (∀ d v t, argument d s = .ok v t → ∃ tree,
      t.memory.readBack d.outline v = some tree ∧ tree.datum = d.reduced ∧
      Consecutive s.memory.segments.size tree.nodes ∧
      t = { s with memory := s.memory.grown tree.nodes }) ∧
    ∀ a items b t, writeArguments a items s = .ok b t → a.shift items.length = .ok b ∧ ∃ trees,
      t.memory.readBackFrom (Datum.outlines items) a 0 = some trees ∧
      Tree.datumAll trees = Datum.reducedAll items ∧
      Consecutive s.memory.segments.size (Tree.nodesAll trees) ∧
      (s.memory.grown (Tree.nodesAll trees)).Extends t.memory ∧
      (s.memory.grown (Tree.nodesAll trees)).Touches (· = a.segment) t.memory := by
  refine ⟨fun d => ⟨?_, fun hd => ⟨_, _, argument_of_isArgument hd s hs⟩⟩, ?_, ?_⟩
  · rintro ⟨v, t, h⟩
    exact isArgument_of_argument h
  · intro d v t h
    obtain ⟨hd, rfl, rfl⟩ := argument_eq_ok hs h
    have hnodes := Datum.consecutive_placed hd s.memory.segments.size
    have hread := Memory.readBack_placed d _ (Memory.holds_grown hnodes)
    exact ⟨_, hread, Datum.datum_placed hd _, hnodes, rfl⟩
  · intro a items b t h
    obtain ⟨values, s₁, harguments, h⟩ := Action.bind_eq_ok.mp h
    obtain ⟨hlength, hitems⟩ := areArguments_of_arguments harguments
    rw [arguments_of_areArguments items hitems s hs] at harguments
    cases harguments
    obtain ⟨m, hload, rfl⟩ := onMemory_eq_ok.mp h
    have hend := Memory.shift_of_load hload
    rw [List.length_map, hlength] at hend
    have hnodes := Datum.consecutive_placedAll items hitems s.memory.segments.size
    have hext := (Memory.respects_load a _).of_ok hload
    -- The lists of the items were written before the items, and stay.
    have hread := Memory.readBackFrom_placedAll items _ 0 (Memory.holds_of_load hload)
      fun x hx => (Memory.holds_grown hnodes x hx).mono hext
    exact ⟨hend, _, hread, Datum.datumAll_placedAll items hitems _, hnodes, hext,
      (Memory.touches_load a _).of_ok hload⟩

/-- Numbers, a pointer, and a list with an empty list in it. -/
def nested : List Datum :=
  [.integer (-1), .list [.truth true, .list []], .value (.address (.base 7))]

/-- Two segments, of which the second one has a rule. -/
def beforeNested : Segments := { Segments.empty with memory := .ruled }

/-- The nested lists are written to the segments behind the two that are there, or, without the
outermost list, to the first of these, and are read back. -/
theorem readBack_argument_nested :
    beforeNested.memory.RulesAllocated ∧
      (∃ v t tree, argument (.list nested) beforeNested = .ok v t ∧
        t.memory.readBack (Datum.list nested).outline v = some tree ∧
        tree.datum = (Datum.list nested).reduced) ∧
      ∃ b t trees, writeArguments (.base 0) nested beforeNested = .ok b t ∧
        t.memory.readBackFrom (Datum.outlines nested) (.base 0) 0 = some trees ∧
        Tree.datumAll trees = Datum.reducedAll nested := by
  have hs : beforeNested.memory.RulesAllocated := by
    intro i hi
    have hi' : 2 ≤ i := hi
    have hne : ((i : Int) == 1) = false := by
      rw [beq_eq_false_iff_ne]
      omega
    unfold Memory.rulesOf
    show (List.lookup (i : Int) [(1, [RangeRule.mk 1])]).getD [] = []
    rw [List.lookup_cons, hne]
    rfl
  have hempty : (Datum.list []).IsArgument := .list (by decide) nofun
  have hinner : (Datum.list [.truth true, .list []]).IsArgument :=
    .list (by decide) (by simp [hempty, Datum.IsArgument.truth])
  have hnested : (Datum.list nested).IsArgument :=
    .list (by decide) (by simp [nested, hinner, Datum.IsArgument.integer, Datum.IsArgument.value])
  obtain ⟨hwritten, hread, hload⟩ := readBack_argument beforeNested hs
  obtain ⟨v, t, h⟩ := (hwritten _).mpr hnested
  obtain ⟨tree, htree, hdatum, -⟩ := hread _ v t h
  obtain ⟨b, h'⟩ := Action.exists_eq_ok_of_isOk (x := writeArguments (.base 0) nested)
    (s := beforeNested) (by decide)
  obtain ⟨-, trees, htrees, hdata, -⟩ := hload _ _ b _ h'
  exact ⟨hs, ⟨v, t, tree, h, htree, hdatum⟩, b, _, trees, h', htrees, hdata⟩

end Segments

end Cairo
