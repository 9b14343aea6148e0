import Cairo.Proofs.Memory.Extents
import Cairo.Proofs.Memory.Refusals
import Cairo.Proofs.Relocation.Renaming

/-!
# When relocating reports a conflict

Two cells are in conflict if they have one new address and different new values.  Relocating
compares the new value of a cell that is moved with what it finds at the new address.  In a segment
that comes later in the order of moving, this is the old value: the addresses in that segment are
not renamed yet.  So a cell clashes there also with a cell that will have the same value
(`ClashesEarly`), and relocating fails exactly when there is a conflict or such a clash
(`relocate_ok_or_reportsConflict`).  Both directions follow from the invariant `Relocating` of the
loop: if a round fails, it names the cells that meet, and if no round does, their values agree.
-/

namespace Cairo.Memory

variable {rules : Relocations}

/-! ## Relocating keeps a memory fitting -/

/-- Renaming the real segments keeps a memory fitting. -/
theorem keepsFit_renameReal : Action.Respects KeepsFit (renameReal rules) :=
  keepsAll_renameReal persists_fits

/-- Renaming a segment keeps a memory fitting. -/
theorem keepsFit_renameSegment (i : Int) : Action.Respects KeepsFit (renameSegment rules i) :=
  keepsAll_renameSegment persists_fits i

/-- Moving a cell keeps a memory fitting. -/
theorem keepsFit_moveCell (dst : Address) (marked : Bool) (offset : Nat) (v : Value) :
    Action.Respects KeepsFit (moveCell rules dst marked offset v) :=
  respects_moveCell (R := KeepsAll _) (fun b w _ _ => keepsAll_insert persists_fits b w)
    (fun _ _ => Marked.keepsAll) marked offset v

/-- Moving a segment keeps a memory fitting. -/
theorem keepsFit_moveSegment (i : Int) (dst : Address) :
    Action.Respects KeepsFit (moveSegment rules i dst) :=
  keepsAll_moveSegment persists_fits i dst

/-! ## Renaming does not fail -/

/-- All values in the cells can be relocated. -/
def Relocatable (rules : Relocations) (m : Memory) : Prop :=
  ∀ a v, m.get? a = some v → ∃ w, relocateValue rules v = .ok w

/-- Renaming leaves values that can be relocated. -/
theorem RenamedAt.relocatable (hrules : Resolved rules) {P : Address → Prop} {m t : Memory}
    (h : RenamedAt rules P m t) (hm : m.Relocatable rules) : t.Relocatable rules := by
  intro a w hw
  by_cases ha : P a
  · obtain ⟨v, -, hv⟩ := h.exists_origin ha hw
    exact ⟨w, relocateValue_idem hrules hv⟩
  · rw [(h a).2 ha] at hw
    exact hm a w hw

/-- A cell whose value can be relocated is renamed. -/
theorem exists_renameCell_ok {m : Memory} {a : Address} (hm : m.Relocatable rules) :
    ∃ t, renameCell rules a.segment a.offset m = .ok () t := by
  unfold renameCell
  rw [Action.get_bind]
  cases hv : m.get? a with
  | none =>
    rw [get?_eq] at hv
    rw [hv]
    exact ⟨m, rfl⟩
  | some v =>
    obtain ⟨w, hw⟩ := hm a v hv
    rw [get?_eq] at hv
    rw [hv]
    dsimp only
    rw [hw]
    exact ⟨_, rfl⟩

/-- The real segments are renamed if all values can be relocated. -/
theorem exists_renameReal_ok (hrules : Resolved rules) {m : Memory} (hfits : m.Fits)
    (hm : m.Relocatable rules) : ∃ t, renameReal rules m = .ok () t := by
  have hcell : ∀ (n offset : Nat) (u : Memory), offset < (m.segments.getD n #[]).size →
      u.Relocatable rules → ∃ t, renameCell rules n offset u = .ok () t ∧ t.Relocatable rules := by
    intro n offset u hoffset hu
    have hlt : offset < offsetBound := by
      rw [Array.getD_eq_getD_getElem?] at hoffset
      cases hs : m.segments[n]? with
      | none => simp [hs] at hoffset
      | some s =>
        rw [hs, Option.getD_some] at hoffset
        exact Nat.lt_of_lt_of_le hoffset (hfits n s hs)
    obtain ⟨t, ht⟩ := exists_renameCell_ok (a := ⟨n, offset, hlt⟩) hu
    exact ⟨t, ht, (renamedAt_renameCell ht).relocatable hrules hu⟩
  have hall : ∃ t, renameReal rules m = .ok () t ∧ t.Relocatable rules :=
    Action.exists_forM_ok (Relocatable rules) hm fun n _ u hu =>
      Action.exists_forM_ok (Relocatable rules) hu fun offset hoffset v hv =>
        hcell n offset v (List.mem_range.mp hoffset) hv
  exact ⟨hall.choose, hall.choose_spec.1⟩

/-- A segment is renamed if all values can be relocated. -/
theorem exists_renameSegment_ok {m : Memory} (hfits : m.Fits) (hm : m.Relocatable rules)
    (i : Int) : ∃ t, renameSegment rules i m = .ok () t := by
  unfold renameSegment
  rw [Action.get_bind]
  cases hs : m.segment? i with
  | none => exact ⟨m, rfl⟩
  | some s =>
    have hcell : ∀ c ∈ s.toList, ∃ c', relocateCell rules c = .ok c' := by
      intro c hc
      cases c with
      | none => exact ⟨none, rfl⟩
      | some v =>
        obtain ⟨offset, hoffset⟩ := List.mem_iff_getElem?.mp hc
        rw [Array.getElem?_toList] at hoffset
        obtain ⟨hlt, -⟩ := Array.getElem?_eq_some_iff.mp hoffset
        let a : Address := ⟨i, offset, Nat.lt_of_lt_of_le hlt (hfits i s hs)⟩
        have hv : m.get? a = some v := by
          rw [get?_eq, hs, Option.bind_some, hoffset]
          rfl
        obtain ⟨w, hw⟩ := hm a v hv
        exact ⟨some w, relocateCell_some.mpr ⟨w, hw, rfl⟩⟩
    obtain ⟨cells, hcells⟩ := Answer.exists_mapM_ok hcell
    have hmap : s.mapM (relocateCell rules) = .ok cells.toArray := by
      rw [Array.mapM_eq_mapM_toList]
      exact Answer.map_eq_ok.mpr ⟨cells, hcells, rfl⟩
    exact ⟨_, Action.bind_eq_ok.mpr ⟨cells.toArray, m, Action.lift_eq_ok.mpr ⟨hmap, rfl⟩, rfl⟩⟩

/-! ## Moving fails where cells meet -/

/-- Without rules for the cells, inserting into an allocated segment fails only if the cell holds
another value. -/
theorem insert_error_of_rules_nil {m t : Memory} {a : Address} {v : Value} {e : Fault}
    (hrules : m.rules = []) (hs : (m.segment? a.segment).isSome)
    (h : insert a v m = .error e t) :
    ∃ old, m.get? a = some old ∧ old ≠ v ∧ e = .inconsistentMemory a old v := by
  have hnone : ¬ m.Rejects a v e := by
    rintro ⟨-, before, r, after, hof, -⟩
    rw [rulesOf_eq_nil hrules] at hof
    simp at hof
  cases insert_eq_error_iff.mp h with
  | unallocated hsegment =>
    rw [hsegment] at hs
    cases hs
  | inconsistent hold hne => exact ⟨_, hold, hne, rfl⟩
  | held _ he => exact absurd he hnone
  | left _ _ he => exact absurd he hnone

/-- Moving a cell that can be moved fails as its insertion does. -/
theorem moveCell_error {dst b : Address} {marked : Bool} {offset : Nat} {v w : Value}
    {m t : Memory} {e : Fault} (hb : dst.shift offset = .ok b) (hw : relocateValue rules v = .ok w)
    (h : moveCell rules dst marked offset v m = .error e t) : insert b w m = .error e t := by
  unfold moveCell at h
  rw [hb, hw] at h
  have hinsert : (insert b w >>= fun _ =>
      if marked then modify (·.markAccessed b) else pure ()) m = .error e t := h
  rcases Action.bind_eq_error.mp hinsert with hfails | ⟨_, u, -, hmark⟩
  · exact hfails
  · split at hmark <;> cases hmark

/-- Moving the cells of a segment elsewhere fails at one of its cells, after those before it are
moved. -/
theorem moveCells_error {i : Int} {dst : Address} {marks : AddressSet} {rounds offset : Nat}
    {m t : Memory} {e : Fault} (hdst : dst.segment ≠ i) (hfits : m.Fits)
    (h : moveCells rules i dst marks rounds offset m = .error e t) :
    ∃ a v marked u, a.segment = i ∧ m.get? a = some v ∧
      MovesCells rules i dst offset a.offset m u ∧ m.Develops u ∧
        moveCell rules dst marked a.offset v u = .error e t := by
  induction rounds generalizing offset m with
  | zero => cases h
  | succ rounds ih =>
    unfold moveCells at h
    rw [Action.get_bind] at h
    cases hcell : (m.segment? i).bind (·[offset]?) with
    | none =>
      rw [hcell] at h
      cases h
    | some found =>
      rw [hcell] at h
      obtain ⟨s, hs, hsv⟩ := Option.bind_eq_some_iff.mp hcell
      obtain ⟨hlt, -⟩ := Array.getElem?_eq_some_iff.mp hsv
      obtain ⟨a, rfl, rfl⟩ : ∃ a : Address, a.segment = i ∧ a.offset = offset :=
        ⟨⟨i, offset, Nat.lt_of_lt_of_le hlt (hfits i s hs)⟩, rfl, rfl⟩
      have hview : m.get? a = found := by
        rw [get?_eq, hs, Option.bind_some, hsv]
        rfl
      have hempty : MovesCells rules a.segment dst a.offset a.offset m m :=
        .none fun _ _ hstart hstop => by omega
      cases found with
      | none =>
        obtain ⟨b, v, marked, u, hb, hv, hmoves, hdevelops, herror⟩ := ih hfits h
        refine ⟨b, v, marked, u, hb, hv, .cons (.none fun c hseg hstart hstop => ?_) hmoves,
          hdevelops, herror⟩
        rwa [Address.ext hseg (by omega : c.offset = a.offset)]
      | some v =>
        rcases Action.bind_eq_error.mp h with hfirst | ⟨⟨⟩, t', hfirst, hrest⟩
        · exact ⟨a, v, _, m, rfl, hview, hempty, refl m, hfirst⟩
        · have hfits' : t'.Fits :=
            (keepsFit_moveCell dst _ _ v).of_ok hfirst hfits
          obtain ⟨b, v', marked, u, hb, hv, hmoves, hdevelops, herror⟩ := ih hfits' hrest
          have hcells := movesCells_moveCell hdst rfl hview hfirst
          rw [hcells.source b hb] at hv
          exact ⟨b, v', marked, u, hb, hv, hcells.cons hmoves,
            .trans (develops_moveCell rules _ _ _ _ _ _ _ hfirst) hdevelops, herror⟩

/-- Moving a segment fails as moving its cells does. -/
theorem moveSegment_error {i : Int} {dst : Address} {m t : Memory} {e : Fault}
    (h : moveSegment rules i dst m = .error e t) :
    ∃ rounds, moveCells rules i dst m.accessed rounds 0
      { m with accessed := m.accessed.filter (·.segment ≠ i) } = .error e t := by
  unfold moveSegment at h
  rw [Action.get_bind] at h
  rcases Action.bind_eq_error.mp h with hmodify | ⟨_, u, hmodify, h⟩
  · cases hmodify
  · obtain rfl := Action.modify_eq_ok.mp hmodify
    rcases Action.bind_eq_error.mp h with hcells | ⟨_, _, -, hlast⟩
    · exact ⟨_, hcells⟩
    · cases hlast

/-- Relocating by rules fails in a round of the loop over the temporary segments, if renaming the
real ones does not fail. -/
theorem relocateBy_error {m t : Memory} {e : Fault} {I : Nat → Memory → Prop}
    (hreal : ∃ u, renameReal rules m = .ok () u)
    (start : ∀ {u}, renameReal rules m = .ok () u → I 0 u)
    (rename : ∀ {n u v}, ¬ IsMoved rules (Int.negSucc n) → I n u →
      renameSegment rules (Int.negSucc n) u = .ok () v → I (n + 1) v)
    (move : ∀ {n dst u v}, rules.lookup (Int.negSucc n) = some dst → I n u →
      moveSegment rules (Int.negSucc n) dst u = .ok () v → I (n + 1) v)
    (h : relocateBy rules m = .error e t) :
    ∃ n u, I n u ∧ (renameSegment rules (Int.negSucc n) u = .error e t ∨
      ∃ dst, rules.lookup (Int.negSucc n) = some dst ∧
        moveSegment rules (Int.negSucc n) dst u = .error e t) := by
  obtain ⟨m₁, hreal⟩ := hreal
  have hloop : relocateTemporaries rules m₁ = .error e t := by
    rcases Action.bind_eq_error.mp h with hfails | ⟨_, u, hok, h⟩
    · rw [hreal] at hfails
      cases hfails
    · rw [hreal] at hok
      cases hok
      rcases Action.bind_eq_error.mp h with hloop | ⟨_, _, -, hlast⟩
      · exact hloop
      · cases hlast
  unfold relocateTemporaries at hloop
  rw [Action.get_bind] at hloop
  obtain ⟨n, u, -, hu, hround⟩ := Action.forM_range_error I hloop (start hreal) (by
    intro n u v _ hu hround
    rcases round_cases hround with ⟨hstays, hround⟩ | ⟨dst, hdst, hround⟩
    · exact rename hstays hu hround
    · exact move hdst hu hround)
  rcases round_cases hround with ⟨-, hround⟩ | hround
  · exact ⟨n, u, hu, .inl hround⟩
  · exact ⟨n, u, hu, .inr hround⟩

/-! ## What meets at a new address -/

/-- In the loop all values can be relocated, if they could be at its start. -/
theorem Relocating.relocatable (hrules : Resolved rules) {m₀ m : Memory} {n : Nat}
    (hm : Relocating rules m₀ n m) (hm₀ : m₀.Relocatable rules) : m.Relocatable rules := by
  intro b w hw
  rcases hm.origin b w hw with ⟨-, hw₀⟩ | ⟨a, v, -, -, -, hv⟩
  · exact hm₀ b w hw₀
  · exact ⟨w, relocateValue_idem hrules hv⟩

/-- Moving a segment fails if its cells meet other values at their new addresses: the old values of
cells that are not renamed yet, or new values. -/
theorem Relocating.meets (hrules : Resolved rules) {m₀ m t : Memory} {n : Nat} {dst : Address}
    {e : Fault} (hnone : m₀.rules = [])
    (hends : ∀ a v, m₀.get? a = some v → ∃ b, relocateAddress rules a = .ok b ∧
      (m₀.segment? b.segment).isSome)
    (hvalues : m₀.Relocatable rules) (hdst : rules.lookup (Int.negSucc n) = some dst)
    (hm : Relocating rules m₀ n m) (hdevelops : m₀.Develops m) (hfits : m.Fits)
    (h : moveSegment rules (Int.negSucc n) dst m = .error e t) :
    ∃ a v b w old, e = .inconsistentMemory b old w ∧ m₀.get? a = some v ∧
      relocateAddress rules a = .ok b ∧ relocateValue rules v = .ok w ∧ old ≠ w ∧
        (b.segment < a.segment ∧ m₀.get? b = some old ∨
          ∃ a' v', m₀.get? a' = some v' ∧ relocateAddress rules a' = .ok b ∧
            relocateValue rules v' = .ok old) := by
  have hmoved : IsMoved rules (Int.negSucc n) := ⟨Int.negSucc_lt_zero n, dst, hdst⟩
  have hsource : ∀ {a : Address} {v : Value}, a.segment = Int.negSucc n → m.get? a = some v →
      m₀.get? a = some v ∧ relocateAddress rules a = dst.shift a.offset := by
    intro a v ha hv
    refine ⟨?_, relocateAddress_of_segment_eq hmoved.1 hdst ha⟩
    rw [← ha] at hmoved
    exact (hm.get?_eq_some_iff hrules hmoved (by omega) v).mp hv
  -- Taking the marks away first changes no cell.
  obtain ⟨rounds, hcells⟩ := moveSegment_error h
  obtain ⟨a, v, marked, u, ha, hv, hmoves, hu, herror⟩ :=
    moveCells_error (hrules.segment_ne hmoved.1 hdst)
      ((Marked.keepsAll ⟨_, rfl⟩ : KeepsFit _ _) hfits) hcells
  obtain ⟨hv₀, haddress⟩ := hsource ha hv
  obtain ⟨b, hb, hsome⟩ := hends a v hv₀
  obtain ⟨w, hw⟩ := hvalues a v hv₀
  have hall : m₀.Develops u := hdevelops.trans (.trans (Marked.develops ⟨_, rfl⟩) hu)
  obtain ⟨old, hold, hne, rfl⟩ := insert_error_of_rules_nil (hall.rules_eq.trans hnone)
    (hall.isSome_segment? hsome) (moveCell_error (haddress ▸ hb) hw herror)
  refine ⟨a, v, b, w, old, rfl, hv₀, hb, hw, hne, ?_⟩
  rcases hmoves.origin b old hold with hold | ⟨a', v', ha', hv', hb', hw'⟩
  · rcases hm.origin b old hold with ⟨hlt, hold₀⟩ | ⟨a', v', hv', -, hb', hw'⟩
    · have hbseg : b.segment ≠ Int.negSucc n := by
        intro heq
        apply not_isMoved_of_relocateAddress hrules hb
        rwa [heq]
      exact .inl ⟨by omega, hold₀⟩
    · exact .inr ⟨a', v', hv', hb', hw'⟩
  · obtain ⟨hv'₀, haddress'⟩ := hsource ha' hv'
    exact .inr ⟨a', v', hv'₀, haddress'.trans hb', hw'⟩

/-- If moving a segment succeeds, a cell that goes to a later temporary segment has met its own new
value there. -/
theorem Relocating.eq_of_moveSegment {m₀ m t : Memory} {n : Nat} {dst a b : Address}
    {v v' w : Value} (hm : Relocating rules m₀ n m) (ha : a.segment = Int.negSucc n)
    (hv : m₀.get? a = some v) (hv' : m₀.get? b = some v') (hlt : b.segment < a.segment)
    (hb : dst.shift a.offset = .ok b) (hw : relocateValue rules v = .ok w)
    (h : moveSegment rules (Int.negSucc n) dst m = .ok () t) : v' = w := by
  have hdst : dst.segment ≠ Int.negSucc n := by
    have := (Address.shift_eq_ok.mp hb).1
    omega
  obtain ⟨u, stop, hmoves, hstop, -⟩ := moveSegment_ok hdst h
  obtain ⟨b', w', ⟨hb', hw'⟩, hget⟩ := hmoves.arrives a v ha (Nat.zero_le _)
    (Nat.lt_of_lt_of_le a.offset_lt hstop) (hm.waiting a v hv (by omega))
  obtain rfl := Except.ok.inj (hb.symm.trans hb')
  obtain rfl := Except.ok.inj (hw.symm.trans hw')
  have hkept := hmoves.keeps b v' (hm.waiting b v' hv' (by omega))
  exact Option.some.inj (hkept.symm.trans hget)

/-- If relocating succeeds, a cell that is moved to a later temporary segment has met its own new
value there. -/
theorem eq_of_relocateBy (hrules : Resolved rules) {m t : Memory} {a b : Address} {v v' w : Value}
    (hv : m.get? a = some v) (hv' : m.get? b = some v') (hb : relocateAddress rules a = .ok b)
    (hlt : b.segment < a.segment) (hw : relocateValue rules v = .ok w)
    (h : relocateBy rules m = .ok () t) : v' = w := by
  have hmoved : IsMoved rules a.segment := by
    by_contra hstays
    rw [relocateAddress_of_not_isMoved hstays] at hb
    obtain rfl := Except.ok.inj hb
    exact absurd hlt (Int.lt_irrefl _)
  obtain ⟨u, ⟨-, hend⟩, -⟩ := relocateBy_induction
    (I := fun n u => Relocating rules m n u ∧ (-(n : Int) ≤ a.segment → v' = w))
    (fun hreal => ⟨relocating_renameReal hrules hreal, fun ha => absurd hmoved.1 (by omega)⟩)
    (fun {n _ _} hstays hu hround => by
      refine ⟨hu.1.rename hrules hstays hround, fun ha => ?_⟩
      have hne : a.segment ≠ Int.negSucc n := by
        intro heq
        rw [heq] at hmoved
        exact hstays hmoved
      exact hu.2 (by omega))
    (fun {n dst _ _} _ hdst hu hround => by
      refine ⟨hu.1.move hrules hdst hround, fun ha => ?_⟩
      by_cases hseg : a.segment = Int.negSucc n
      · rw [relocateAddress_of_segment_eq (Int.negSucc_lt_zero n) hdst hseg] at hb
        exact hu.1.eq_of_moveSegment hseg hv hv' hlt hb hw hround
      · exact hu.2 (by omega)) h
  exact hend (le_segment_of_get? hv)

/-! ## Conflicts -/

/-- Two cells have one new address and different new values. -/
def Conflicts (m : Memory) : Prop :=
  ∃ a v a' v' b w w', m.get? a = some v ∧ m.get? a' = some v' ∧ EndsAt m.relocations a b ∧
    EndsAt m.relocations a' b ∧ RenamesTo m.relocations v w ∧ RenamesTo m.relocations v' w' ∧ w ≠ w'

/-- A cell is moved to a later temporary segment, and the cell at its new address holds a value
other than its new one. -/
def ClashesEarly (m : Memory) : Prop :=
  ∃ a v b v' w, m.get? a = some v ∧ m.get? b = some v' ∧ EndsAt m.relocations a b ∧
    b.segment < a.segment ∧ RenamesTo m.relocations v w ∧ v' ≠ w

/-- The rules of a memory have no cycles, and take all that is written to allocated segments and
offsets in range. -/
structure IsMovable (m : Memory) : Prop where
  acyclic : Acyclic m.relocations
  resolves : ∃ rules, resolve m.relocations = .ok rules
  ends : ∀ a v, m.get? a = some v → ∃ b, EndsAt m.relocations a b ∧ (m.segment? b.segment).isSome
  values : ∀ a v, m.get? a = some v → ∃ w, RenamesTo m.relocations v w

/-- Relocating a memory reports a conflict. -/
def ReportsConflict (m : Memory) : Prop :=
  ∃ b old new t, relocate m = .error (.inconsistentMemory b old new) t

/-- If relocating succeeds, no cells are in conflict and none clashed. -/
theorem not_conflicts_of_relocate {m t : Memory} (hacyclic : Acyclic m.relocations)
    (h : relocate m = .ok () t) : ¬ (Conflicts m ∨ ClashesEarly m) := by
  obtain ⟨rules, hresolve, hrules, hrelocated⟩ := isRelocated_of_relocate hacyclic h
  rintro (⟨a, v, a', v', b, w, w', hv, hv', hb, hb', hw, hw', hne⟩ |
    ⟨a, v, b, v', w, hv, hv', hb, hlt, hw, hne⟩)
  · have hget : ∀ {a v w}, m.get? a = some v → EndsAt m.relocations a b →
        RenamesTo m.relocations v w → t.get? b = some w := by
      intro a v w hv hb hw
      obtain ⟨b₁, w₁, hb₁, hw₁, ht⟩ := hrelocated.settled a v hv
      rw [← endsAt_iff hacyclic hresolve] at hb₁
      rw [← renamesTo_iff hacyclic hresolve] at hw₁
      rwa [hb.unique hb₁, hw.unique hw₁]
    exact hne (Option.some.inj ((hget hv hb hw).symm.trans (hget hv' hb' hw')))
  · rw [endsAt_iff hacyclic hresolve] at hb
    rw [renamesTo_iff hacyclic hresolve] at hw
    rcases relocate_inv h with ⟨hempty, rfl⟩ | ⟨rules', hresolve', hrun⟩
    · rw [hempty] at hresolve
      obtain rfl : [] = rules := Except.ok.inj hresolve
      have hstays : ¬ IsMoved [] a.segment := fun hmoved => nomatch hmoved.2
      rw [relocateAddress_of_not_isMoved hstays] at hb
      obtain rfl := Except.ok.inj hb
      exact absurd hlt (Int.lt_irrefl _)
    · obtain rfl := Except.ok.inj (hresolve.symm.trans hresolve')
      exact hne (eq_of_relocateBy hrules hv hv' hb hlt hw hrun)

/-- If relocating fails, cells are in conflict or clashed, and this is what is reported. -/
theorem conflicts_of_relocate_error {m t : Memory} {e : Fault} (hfits : m.Fits)
    (hnone : m.rules = []) (hm : m.IsMovable) (h : relocate m = .error e t) :
    (∃ b old new, e = .inconsistentMemory b old new) ∧ (Conflicts m ∨ ClashesEarly m) := by
  obtain ⟨hacyclic, ⟨rules, hresolve⟩, hends, hvalues⟩ := hm
  have hrules := resolved_of_resolve hacyclic hresolve
  have haddress : ∀ {a b}, EndsAt m.relocations a b ↔ relocateAddress rules a = .ok b :=
    endsAt_iff hacyclic hresolve
  have hvalue : ∀ {v w}, RenamesTo m.relocations v w ↔ relocateValue rules v = .ok w :=
    renamesTo_iff hacyclic hresolve
  simp only [haddress] at hends
  simp only [hvalue] at hvalues
  have hrun : relocateBy rules m = .error e t := by
    unfold relocate at h
    rw [Action.get_bind] at h
    split at h
    · cases h
    · rw [hresolve] at h
      exact h
  obtain ⟨n, u, ⟨hu, hdevelops, hufits⟩, hround⟩ := relocateBy_error
    (I := fun n u => Relocating rules m n u ∧ m.Develops u ∧ u.Fits)
    (exists_renameReal_ok hrules hfits hvalues)
    (fun hreal => ⟨relocating_renameReal hrules hreal,
      .settle (settles_renameReal rules _ _ _ hreal), keepsFit_renameReal.of_ok hreal hfits⟩)
    (fun {n _ _} hstays hu hround => ⟨hu.1.rename hrules hstays hround,
      hu.2.1.trans (.settle (settles_renameSegment rules (Int.negSucc_lt_zero n) _ _ _ hround)),
      (keepsFit_renameSegment _).of_ok hround hu.2.2⟩)
    (fun {n dst _ _} hdst hu hround => ⟨hu.1.move hrules hdst hround,
      hu.2.1.trans (develops_moveSegment rules (Int.negSucc_lt_zero n) dst _ _ _ hround),
      (keepsFit_moveSegment _ dst).of_ok hround hu.2.2⟩) hrun
  rcases hround with hround | ⟨dst, hdst, hround⟩
  · have hrelocatable := hu.relocatable hrules hvalues
    obtain ⟨u', hu'⟩ := exists_renameSegment_ok hufits hrelocatable (Int.negSucc n)
    rw [hu'] at hround
    cases hround
  · obtain ⟨a, v, b, w, old, rfl, hv, hb, hw, hne, hold⟩ :=
      hu.meets hrules hnone hends hvalues hdst hdevelops hufits hround
    refine ⟨⟨b, old, w, rfl⟩, ?_⟩
    rcases hold with ⟨hlt, hold⟩ | ⟨a', v', hv', hb', hw'⟩
    · exact .inr ⟨a, v, b, old, w, hv, hold, haddress.mpr hb, hlt, hvalue.mpr hw, hne⟩
    · exact .inl ⟨a, v, a', v', b, w, old, hv, hv', haddress.mpr hb, haddress.mpr hb',
        hvalue.mpr hw, hvalue.mpr hw', hne.symm⟩

/-- Relocating a memory, if its rules have no cycles and nothing leaves the range of offsets or the
allocated segments, succeeds or reports a conflict; and it reports one exactly when two cells are in
conflict or a cell clashes with one that is not renamed yet. -/
theorem relocate_ok_or_reportsConflict {m : Memory} (hfits : m.Fits) (hnone : m.rules = [])
    (hm : m.IsMovable) :
    ((∃ t, relocate m = .ok () t) ∨ ReportsConflict m) ∧
      (ReportsConflict m ↔ Conflicts m ∨ ClashesEarly m) := by
  cases h : relocate m with
  | ok u t =>
    refine ⟨.inl ⟨t, rfl⟩, ?_, fun hconflict => ?_⟩
    · rintro ⟨b, old, new, t', herror⟩
      rw [h] at herror
      cases herror
    · exact absurd hconflict (not_conflicts_of_relocate hm.acyclic h)
  | error e t =>
    obtain ⟨⟨b, old, new, rfl⟩, hconflict⟩ := conflicts_of_relocate_error hfits hnone hm h
    exact ⟨.inr ⟨b, old, new, t, h⟩, fun _ => hconflict, fun _ => ⟨b, old, new, t, h⟩⟩

/-- A memory with two temporary segments that both hold the address of one of them, which is to be
moved into the other one. -/
def twins (i j : Int) : Memory :=
  { empty with
    temporaries := #[#[some (.address (.base i))], #[some (.address (.base i))]]
    relocations := [(i, .base j)] }

/-- Both segments have one cell. -/
theorem fits_twins (i j : Int) : (twins i j).Fits := by
  rintro (n | n) s hs
  · exact absurd hs (by simp [segment?, twins, empty])
  · have hs' : #[#[some (Value.address (.base i))], #[some (Value.address (.base i))]][n]? =
      some s := hs
    have hmem := Array.mem_of_getElem? hs'
    simp only [Array.mem_def, List.mem_cons, List.not_mem_nil, or_false, or_self] at hmem
    subst hmem
    show 1 ≤ offsetBound
    decide

/-- The first segment can be moved into the second one. -/
theorem isMovable_twins : (twins (-1) (-2)).IsMovable := by
  have hlookup : ∀ {i dst}, (twins (-1) (-2)).relocations.lookup i = some dst →
      i = -1 ∧ dst = .base (-2) := by
    intro i dst h
    obtain ⟨l₁, l₂, hl, -⟩ := List.lookup_eq_some_iff.mp h
    have hmem : (i, dst) ∈ (twins (-1) (-2)).relocations := by simp [hl]
    simpa [twins] using hmem
  have hends : ∀ a, ∃ b, EndsAt (twins (-1) (-2)).relocations a b ∧
      (b.segment = -2 ∨ b.segment = a.segment) := by
    intro a
    by_cases ha : IsMoved (twins (-1) (-2)).relocations a.segment
    · obtain ⟨hneg, dst, hdst⟩ := ha
      obtain ⟨-, rfl⟩ := hlookup hdst
      refine ⟨⟨-2, a.offset, a.offset_lt⟩, .moves hneg hdst ?_ (.stays ?_), .inl rfl⟩
      · exact Address.shift_eq_ok.mpr ⟨rfl, (Int.zero_add _).symm⟩
      · rintro ⟨-, dst, hdst⟩
        exact absurd (show (-2 : Int) = -1 from (hlookup hdst).1) (by decide)
    · exact ⟨a, .stays ha, .inr rfl⟩
  refine ⟨acyclic_of_rank (fun i => if i = -1 then 1 else 0) ?_, ⟨_, rfl⟩, fun a v hv => ?_,
    fun _ v _ => ?_⟩
  · rintro i _ ⟨-, dst, hdst, rfl⟩
    obtain ⟨rfl, rfl⟩ := hlookup hdst
    decide
  · obtain ⟨b, hb, hseg | hseg⟩ := hends a
    · exact ⟨b, hb, by rw [hseg]; rfl⟩
    · obtain ⟨s, hs, -⟩ := segment?_of_get? hv
      exact ⟨b, hb, by rw [hseg, hs]; rfl⟩
  · cases v with
    | felt x => exact ⟨_, .felt x⟩
    | address a =>
      obtain ⟨b, hb, -⟩ := hends a
      exact ⟨_, .address hb⟩

/-- Relocating this memory succeeds or reports a conflict, for one of the two reasons. -/
theorem relocate_ok_or_reportsConflict_twins :
    ((twins (-1) (-2)).Fits ∧ (twins (-1) (-2)).rules = [] ∧ (twins (-1) (-2)).IsMovable) ∧
      ((∃ t, relocate (twins (-1) (-2)) = .ok () t) ∨ ReportsConflict (twins (-1) (-2))) ∧
        (ReportsConflict (twins (-1) (-2)) ↔
          Conflicts (twins (-1) (-2)) ∨ ClashesEarly (twins (-1) (-2))) :=
  ⟨⟨fits_twins _ _, rfl, isMovable_twins⟩,
    relocate_ok_or_reportsConflict (fits_twins _ _) rfl isMovable_twins⟩

/-- All cells of this memory hold the same value, so that none are in conflict; but relocating
reports a conflict, and does not if the segments stand in the other order. -/
theorem exists_reportsConflict_twins :
    (twins (-1) (-2)).Fits ∧ (twins (-1) (-2)).rules = [] ∧ (twins (-1) (-2)).IsMovable ∧
      ¬ Conflicts (twins (-1) (-2)) ∧ ReportsConflict (twins (-1) (-2)) ∧
        ¬ ReportsConflict (twins (-2) (-1)) := by
  refine ⟨fits_twins _ _, rfl, isMovable_twins, ?_, ⟨_, _, _, _, rfl⟩, ?_⟩
  · rintro ⟨a, v, a', v', b, w, w', hv, hv', -, -, hw, hw', hne⟩
    have hall : ∀ cell ∈ (twins (-1) (-2)).items, cell.2 = .address (.base (-1)) := by
      decide +kernel
    obtain rfl : v = v' :=
      (hall _ (mem_items_iff.mpr hv)).trans (hall _ (mem_items_iff.mpr hv')).symm
    exact hne (hw.unique hw')
  · rintro ⟨b, old, new, t, h⟩
    have hrun : relocate (twins (-2) (-1)) = .ok () (relocate.after (twins (-2) (-1))) :=
      Action.eq_ok_of_isOk (by decide +kernel)
    rw [hrun] at h
    cases h

end Cairo.Memory
