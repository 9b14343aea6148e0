import Cairo.Proofs.Builtin.Soundness
import Cairo.Run.Execution

/-!
# What the checks of a builtin establish

Three checks are made on a builtin at the end of a run: its cells end before the stop pointer, every
instance with a written cell has all its inputs, and every written cell is what is deduced for it.
`IsHonest` is what they say together about the memory.  The second check rules out the case that the
third one lets pass, an output cell of an instance without all inputs, for which nothing is deduced.
-/

namespace Cairo.Builtin

variable {b b' : Builtin} {m : Memory}

/-- The cells of a builtin are what its function makes of its inputs, and lie before its stop
pointer. -/
structure IsHonest (b : Builtin) (m : Memory) : Prop where
  /-- The builtin has a segment. -/
  segment : ∃ i, b.segment = some i
  /-- An instance with a written cell has all its inputs. -/
  inputs : ∀ a v, b.segment = some a.segment → m.get? a = some v →
    ∀ i < b.kind.inputCells, ∃ c w, (b.instanceStart a).shift i = .ok c ∧ m.get? c = some w
  /-- A written output is the one for the inputs of its instance. -/
  outputs : ∀ a v, b.segment = some a.segment → m.get? a = some v →
    b.kind.inputCells ≤ b.placeInInstance a → ∃ xs values x, xs.length = b.kind.inputCells ∧
      m.HoldsFrom (b.instanceStart a) (xs.map .felt) ∧ feltOutputs b.kind xs = .ok values ∧
        b.outputAt a values = some x ∧ v = .felt x
  /-- Unless the builtin is not included, its cells lie before its stop pointer. -/
  stop : b.included = true → ∃ stop, b.stopOffset = some stop ∧
    ∀ a v, b.segment = some a.segment → m.get? a = some v → a.offset < stop

/-! ## Written cells are deduced -/

/-- Checking a cell succeeds when it is deduced as it is written, or not at all. -/
theorem verifyCell_ok {a : Address} {v : Value} (hb : b.IsSound m) (ha : 0 ≤ a.segment)
    (h : verifyCell m a v b = .ok () b') :
    (b'.IsSound m ∧ ∃ cache, b' = { b with cache := cache }) ∧
      ∃ found, b.deduceFresh m a = .ok found ∧ ∀ x, found = some x → v = .felt x := by
  obtain ⟨found, u, hdeduce, h⟩ := Action.bind_eq_ok.mp h
  have hu : b' = u ∧ ∀ x, found = some x → v = .felt x := by
    cases found with
    | none =>
      obtain ⟨-, rfl⟩ := Action.pure_eq_ok.mp h
      exact ⟨rfl, nofun⟩
    | some x =>
      dsimp only at h
      split at h
      · obtain ⟨_, _, -, h⟩ := Action.bind_eq_ok.mp h
        cases h
      · rename_i hx
        obtain ⟨-, rfl⟩ := Action.pure_eq_ok.mp h
        refine ⟨rfl, ?_⟩
        rintro _ ⟨⟩
        exact (not_not.mp hx).symm
  obtain ⟨rfl, hfound⟩ := hu
  have hafter : (deduce m a).after b = b' := by
    unfold Action.after
    rw [hdeduce]
  obtain ⟨cache, hcache, -⟩ := b.recalls_deduce m ha
  rw [hafter] at hcache
  exact ⟨⟨(staysSound_deduce m ha).of_ok hdeduce hb, cache, hcache⟩, found,
    hb.remembers.deduce_ok hdeduce, hfound⟩

/-- Checking a builtin succeeds when every written cell of its segment is deduced as it is written,
or not at all. -/
theorem verify_ok (hb : b.IsSound m) (h : verify m b = .ok () b') :
    (∃ cache, b' = { b with cache := cache }) ∧ (∃ i, b.segment = some i) ∧
      ∀ a v, b.segment = some a.segment → m.get? a = some v →
        ∃ found, b.deduceFresh m a = .ok found ∧ ∀ x, found = some x → v = .felt x := by
  obtain ⟨_, _, hget, h⟩ := Action.bind_eq_ok.mp h
  obtain ⟨rfl, rfl⟩ := Action.get_eq_ok.mp hget
  obtain ⟨i, _, hlift, h⟩ := Action.bind_eq_ok.mp h
  obtain ⟨hi, rfl⟩ := Action.lift_eq_ok.mp hlift
  obtain ⟨s, _, hlift, h⟩ := Action.bind_eq_ok.mp h
  obtain ⟨hs, rfl⟩ := Action.lift_eq_ok.mp hlift
  have hsegment := requireSegment_eq_ok.mp hi
  have hs' := Answer.orThrow_eq_ok.mp hs
  have hreal := hb.segment_nonneg i hsegment
  obtain ⟨⟨-, hcache⟩, hcells⟩ := Action.forM_ok
    (fun u => u.IsSound m ∧ ∃ cache, u = { b with cache := cache })
    (fun cell => ∃ found, b.deduceFresh m cell.1 = .ok found ∧
      ∀ x, found = some x → cell.2 = .felt x) h ⟨hb, b.cache, rfl⟩ (by
    rintro ⟨a, v⟩ hmem u t ⟨hu, cache, rfl⟩ hround
    obtain ⟨hseg, -⟩ := Segment.mem_items_iff.mp hmem
    obtain ⟨⟨ht, cache', rfl⟩, found, hfound, hv⟩ := verifyCell_ok hu (hseg ▸ hreal) hround
    rw [deduceFresh_cache] at hfound
    exact ⟨⟨ht, cache', rfl⟩, found, hfound, hv⟩)
  refine ⟨hcache, ⟨i, hsegment⟩, fun a v ha hv => ?_⟩
  have hseg : a.segment = i := Option.some.inj (ha.symm.trans hsegment)
  obtain ⟨s', hs'', hcell⟩ := Memory.segment?_of_get? hv
  rw [hseg, hs'] at hs''
  obtain rfl := Option.some.inj hs''
  exact hcells (a, v) (Segment.mem_items_iff.mpr ⟨hseg, hcell⟩)

/-! ## Instances have their inputs -/

/-- The instances with a written cell have all their inputs if no input is found to be missing. -/
theorem securityChecks_ok (h : b.securityChecks m = .ok ()) {a : Address} {v : Value}
    (ha : b.segment = some a.segment) (hv : m.get? a = some v) :
    ∀ i < b.kind.inputCells, ∃ c w, (b.instanceStart a).shift i = .ok c ∧ m.get? c = some w := by
  have hoff := b.offset_eq a
  have hplace := b.placeInInstance_lt a
  unfold securityChecks at h
  split at h
  · -- An instance of inputs only is a single cell.
    rename_i hall
    have hone : b.kind.cellsPerInstance = 1 := by
      revert hall
      cases b.kind <;> decide
    intro i hi
    refine ⟨a, v, Address.shift_eq_ok.mpr ⟨rfl, ?_⟩, hv⟩
    omega
  · obtain ⟨s, hs, hcell⟩ := Memory.segment?_of_get? hv
    obtain ⟨i₀, hi₀, h⟩ := Answer.bind_eq_ok.mp h
    obtain rfl := Option.some.inj (ha.symm.trans (requireSegment_eq_ok.mp hi₀))
    obtain ⟨s', hs', h⟩ := Answer.bind_eq_ok.mp h
    obtain rfl := Option.some.inj (hs.symm.trans (Answer.orThrow_eq_ok.mp hs'))
    obtain ⟨missing, hmissing, h⟩ := Answer.bind_eq_ok.mp h
    have hnone : missing.flatten = [] := by
      by_contra hne
      rw [if_neg (mt List.isEmpty_iff.mp hne)] at h
      cases h
    have hstart := b.offset_instanceStart a
    -- The instance of the cell is among those with a written cell.
    have htouched : a.offset / b.kind.cellsPerInstance ∈ b.touchedInstances s := by
      refine List.mem_filter.mpr ⟨List.mem_range.mpr ?_, List.any_eq_true.mpr ?_⟩
      · refine Nat.lt_of_le_of_lt (Nat.div_le_self _ _) ?_
        by_contra hge
        rw [Array.getElem?_eq_none (Nat.not_lt.mp hge)] at hcell
        cases hcell
      · refine ⟨b.placeInInstance a, List.mem_range.mpr hplace, ?_⟩
        rw [← hstart, ← hoff, hcell]
        rfl
    obtain ⟨absent, habsent, hmem⟩ := Answer.mem_of_mapM hmissing htouched
    obtain rfl := List.flatten_eq_nil_iff.mp hnone absent hmem
    obtain ⟨inputs, hinputs, hfilter⟩ := Answer.bind_eq_ok.mp habsent
    intro i hi
    obtain ⟨c, hc, hcmem⟩ := Answer.mem_of_mapM hinputs (List.mem_range.mpr hi)
    obtain ⟨hseg, hcoff⟩ := Address.make_eq_ok.mp hc
    have hwritten := List.filter_eq_nil_iff.mp (Answer.pure_eq_ok.mp hfilter) c hcmem
    obtain ⟨w, hw⟩ := Option.ne_none_iff_exists'.mp (mt Option.isNone_iff_eq_none.mpr hwritten)
    refine ⟨c, w, Address.shift_eq_ok.mpr ⟨hseg, ?_⟩, hw⟩
    rw [hstart, hcoff, Int.natCast_add]

/-! ## Cells end before the stop pointer -/

/-- The cells of an included builtin lie before its stop pointer if none is found behind it. -/
theorem checkStop_ok (h : Run.checkStop b m = .ok ()) (hincluded : b.included = true) {stop : Nat}
    (hstop : b.stopOffset = some stop) {a : Address} {v : Value} (ha : b.segment = some a.segment)
    (hv : m.get? a = some v) : a.offset < stop := by
  obtain ⟨i, hi, h⟩ := Answer.bind_eq_ok.mp h
  obtain rfl := Option.some.inj (ha.symm.trans (requireSegment_eq_ok.mp hi))
  rw [hstop] at h
  dsimp only at h
  rw [if_pos hincluded] at h
  obtain ⟨s, hs, h⟩ := Answer.bind_eq_ok.mp h
  obtain ⟨s', hs', hcell⟩ := Memory.segment?_of_get? hv
  obtain rfl := Option.some.inj (hs'.symm.trans (Answer.orThrow_eq_ok.mp hs))
  by_contra hge
  split at h
  · cases h
  · rename_i hfind
    have hnone := List.find?_eq_none.mp hfind (a, v) (Segment.mem_items_iff.mpr ⟨rfl, hcell⟩)
    exact hnone (decide_eq_true (Nat.not_lt.mp hge))

/-! ## All checks together -/

/-- A builtin that passes all checks, and of which the stop pointer was read, is honest. -/
theorem isHonest_of_checks (hstop : ∃ stop, b.stopOffset = some stop)
    (hcheck : Run.checkStop b m = .ok ()) (hsecure : b.securityChecks m = .ok ())
    (hsegment : ∃ i, b.segment = some i)
    (hverified : ∀ a v, b.segment = some a.segment → m.get? a = some v →
      ∃ found, b.deduceFresh m a = .ok found ∧ ∀ x, found = some x → v = .felt x) :
    b.IsHonest m := by
  refine ⟨hsegment, fun a v ha hv => securityChecks_ok hsecure ha hv, fun a v ha hv hplace => ?_,
    fun hincluded => ?_⟩
  · obtain ⟨found, hfound, hwritten⟩ := hverified a v ha hv
    rcases b.inputs_cases m hplace with ⟨i, c, hi, hc, hnone, -⟩ | ⟨inputs, hlength, hinputs⟩
    · obtain ⟨c', w, hc', hw⟩ := securityChecks_ok hsecure ha hv i hi
      obtain rfl := Except.ok.inj (hc.symm.trans hc')
      rw [hnone] at hw
      cases hw
    · rw [deduceFresh_eq, instanceOutputs_of_holdsFrom hplace hlength hinputs] at hfound
      obtain ⟨outputs, houtputs, hat⟩ := Answer.map_eq_ok.mp hfound
      obtain ⟨values, hvalues, rfl⟩ := Answer.map_eq_ok.mp houtputs
      obtain ⟨xs, rfl, hfelts⟩ := outputs_ok hvalues
      rw [List.length_map] at hlength
      -- There is an output for every place behind the inputs.
      have hcount := length_of_feltOutputs hlength hfelts
      have hlt := b.placeInInstance_lt a
      have hx : b.outputAt a values = some _ :=
        List.getElem?_eq_getElem (show b.placeInInstance a - b.kind.inputCells < values.length by
          omega)
      exact ⟨xs, values, _, hlength, hinputs, hfelts, hx, hwritten _ (hat.symm.trans hx)⟩
  · obtain ⟨stop, hstop⟩ := hstop
    exact ⟨stop, hstop, fun a v ha hv => checkStop_ok hcheck hincluded hstop ha hv⟩

/-- Remembered values have no part in honesty. -/
theorem IsHonest.cache (h : b.IsHonest m) (cache : Std.ExtTreeMap Address Felt) :
    { b with cache := cache }.IsHonest m :=
  ⟨h.segment, h.inputs, h.outputs, h.stop⟩

end Cairo.Builtin
