import Cairo.Proofs.Relocation.Cycles

/-!
# Resolving rules of any shape

The loop that follows a chain of rules ends by itself: `Rounds` says what it does, round after
round, with no bound on their number.  Each round but the last one passes a segment that was not
passed before and has a rule, so there are no more rounds than rules (`exists_rounds`), and the
bound with which `follow` is given cuts no chain off (`follow_of_rounds`).

`Trail` adds up the offsets along a chain, however large the sums become.  The loop fails exactly
when a sum leaves the range of offsets; where it succeeds and the chain runs into no cycle, the
resolved rule has the last place of the trail (`resolve_flattens_chains`).
-/

namespace Cairo.Memory

variable {rules : Relocations}

/-! ## Rounds of the loop -/

/-- From the segments passed so far and an address, the loop ends with an answer after a number of
rounds.  No round begins in a segment that is not moved, and a round ends the loop in a segment that
was passed, or with a fault if the offsets cannot be added. -/
inductive Rounds (rules : Relocations) : Nat → List Int → Address → Except Fault Address → Prop
  | leaves {passed : List Int} {dst : Address} (hstays : ¬ IsMoved rules dst.segment) :
    Rounds rules 0 passed dst (.ok dst)
  | breaks {passed : List Int} {dst : Address} (hmoved : IsMoved rules dst.segment)
    (hseen : dst.segment ∈ passed) : Rounds rules 1 passed dst (.ok dst)
  | fails {passed : List Int} {dst next : Address} {e : Fault} (hneg : dst.segment < 0)
    (hnext : rules.lookup dst.segment = some next) (hfresh : dst.segment ∉ passed)
    (hshift : next.shift dst.offset = .error e) : Rounds rules 1 passed dst (.error e)
  | goesOn {n : Nat} {passed : List Int} {dst next dst' : Address} {r : Except Fault Address}
    (hneg : dst.segment < 0) (hnext : rules.lookup dst.segment = some next)
    (hfresh : dst.segment ∉ passed) (hshift : next.shift dst.offset = .ok dst')
    (h : Rounds rules n (dst.segment :: passed) dst' r) : Rounds rules (n + 1) passed dst r

/-- Following the rules answers what the loop does, if the steps suffice for its rounds. -/
theorem follow_of_rounds {n steps : Nat} {passed : List Int} {dst : Address}
    {r : Except Fault Address} (h : Rounds rules n passed dst r) (hn : n ≤ steps) :
    follow rules steps passed dst = r := by
  induction h generalizing steps with
  | leaves hstays => exact follow_of_stops fun hmoved => absurd hmoved hstays
  | breaks _ hseen => exact follow_of_stops fun _ => hseen
  | fails hneg hnext hfresh hshift =>
    obtain ⟨steps, rfl⟩ := Nat.exists_eq_add_of_le' hn
    rw [follow_of_lookup hneg hnext hfresh, hshift]
    rfl
  | goesOn hneg hnext hfresh hshift _ ih =>
    obtain ⟨steps, rfl⟩ := Nat.exists_eq_add_of_le' (Nat.le_of_add_left_le hn)
    rw [follow_of_lookup hneg hnext hfresh, hshift, Answer.ok_bind]
    exact ih (Nat.le_of_succ_le_succ hn)

/-- The loop has one number of rounds. -/
theorem Rounds.unique {n k : Nat} {passed : List Int} {dst : Address}
    {r r' : Except Fault Address} (h : Rounds rules n passed dst r)
    (h' : Rounds rules k passed dst r') : k = n := by
  induction h generalizing k with
  | leaves hstays =>
    cases h' with
    | leaves => rfl
    | breaks hmoved => exact absurd hmoved hstays
    | fails hneg hnext => exact absurd ⟨hneg, _, hnext⟩ hstays
    | goesOn hneg hnext => exact absurd ⟨hneg, _, hnext⟩ hstays
  | breaks hmoved hseen =>
    cases h' with
    | leaves hstays => exact absurd hmoved hstays
    | breaks => rfl
    | fails _ _ hfresh => exact absurd hseen hfresh
    | goesOn _ _ hfresh => exact absurd hseen hfresh
  | fails hneg hnext hfresh hshift =>
    cases h' with
    | leaves hstays => exact absurd ⟨hneg, _, hnext⟩ hstays
    | breaks _ hseen => exact absurd hseen hfresh
    | fails => rfl
    | goesOn _ hnext' _ hshift' =>
      obtain rfl := Option.some.inj (hnext.symm.trans hnext')
      cases hshift.symm.trans hshift'
  | goesOn hneg hnext hfresh hshift _ ih =>
    cases h' with
    | leaves hstays => exact absurd ⟨hneg, _, hnext⟩ hstays
    | breaks _ hseen => exact absurd hseen hfresh
    | fails _ hnext' _ hshift' =>
      obtain rfl := Option.some.inj (hnext.symm.trans hnext')
      cases hshift.symm.trans hshift'
    | goesOn _ hnext' _ hshift' h' =>
      obtain rfl := Option.some.inj (hnext.symm.trans hnext')
      obtain rfl := Except.ok.inj (hshift.symm.trans hshift')
      rw [ih h']

/-- The loop ends; the segments passed before and its rounds together are not many more than there
are rules. -/
theorem exists_rounds {passed : List Int} (hnodup : passed.Nodup)
    (hkeys : ∀ i ∈ passed, i ∈ rules.map Prod.fst) (dst : Address) :
    ∃ n r, Rounds rules n passed dst r ∧ n + passed.length ≤ rules.length + 1 := by
  have hlength : passed.length ≤ rules.length := by
    simpa using hnodup.length_le_of_subset hkeys
  -- Every round leaves fewer rules whose segments were not passed.
  induction hleft : rules.length - passed.length using Nat.strong_induction_on
    generalizing passed dst with
  | _ left ih =>
    by_cases hmoved : IsMoved rules dst.segment
    · by_cases hseen : dst.segment ∈ passed
      · exact ⟨1, _, .breaks hmoved hseen, by omega⟩
      · obtain ⟨hneg, next, hnext⟩ := hmoved
        cases hshift : next.shift dst.offset with
        | error e => exact ⟨1, _, .fails hneg hnext hseen hshift, by omega⟩
        | ok dst' =>
          have hnodup' : (dst.segment :: passed).Nodup := List.nodup_cons.mpr ⟨hseen, hnodup⟩
          have hkeys' : ∀ i ∈ dst.segment :: passed, i ∈ rules.map Prod.fst :=
            List.forall_mem_cons.mpr ⟨mem_keys_of_lookup hnext, hkeys⟩
          have hlength' : (dst.segment :: passed).length ≤ rules.length := by
            simpa using hnodup'.length_le_of_subset hkeys'
          have hcons : (dst.segment :: passed).length = passed.length + 1 := List.length_cons
          obtain ⟨n, r, hrounds, hn⟩ := ih _ (by omega) hnodup' hkeys' dst' hlength' rfl
          exact ⟨n + 1, r, .goesOn hneg hnext hseen hshift hrounds, by omega⟩
    · exact ⟨0, _, .leaves hmoved, by omega⟩

/-- For a source of the rules the loop has no more rounds than there are rules, and following the
rules for so many steps answers what it does. -/
theorem exists_rounds_follow {src : Int} (hsrc : src ∈ rules.map Prod.fst) (dst : Address) :
    ∃ n ≤ rules.length,
      Rounds rules n [src] dst (follow rules rules.length [src] dst) := by
  obtain ⟨n, r, hrounds, hn⟩ := exists_rounds (List.nodup_singleton src)
    (List.forall_mem_singleton.mpr hsrc) dst
  have hn : n ≤ rules.length := Nat.le_of_succ_le_succ hn
  exact ⟨n, hn, (follow_of_rounds hrounds hn).symm ▸ hrounds⟩

/-! ## Trails -/

/-- The chain of rules leads from a segment and a sum of offsets to another segment and sum, through
segments that were not passed before. -/
inductive Trail (rules : Relocations) : List Int → Int → Nat → Int → Nat → Prop
  | here {passed : List Int} {i : Int} {k : Nat} : Trail rules passed i k i k
  | onward {passed : List Int} {i j : Int} {k l : Nat} {next : Address} (hneg : i < 0)
    (hnext : rules.lookup i = some next) (hfresh : i ∉ passed)
    (h : Trail rules (i :: passed) next.segment (next.offset + k) j l) :
    Trail rules passed i k j l

/-- The loop goes on along the trail. -/
theorem Trail.goesOn {passed : List Int} {dst next dst' : Address} {j : Int} {l : Nat}
    (hneg : dst.segment < 0) (hnext : rules.lookup dst.segment = some next)
    (hfresh : dst.segment ∉ passed) (hshift : next.shift dst.offset = .ok dst')
    (h : Trail rules (dst.segment :: passed) dst'.segment dst'.offset j l) :
    Trail rules passed dst.segment dst.offset j l := by
  obtain ⟨hsegment, hoffset⟩ := Address.shift_eq_ok.mp hshift
  have hsum : dst'.offset = next.offset + dst.offset := by omega
  rw [hsegment, hsum] at h
  exact .onward hneg hnext hfresh h

/-- Where the loop ends is on the trail. -/
theorem Rounds.trail {n : Nat} {passed : List Int} {dst last : Address}
    (h : Rounds rules n passed dst (.ok last)) :
    Trail rules passed dst.segment dst.offset last.segment last.offset := by
  induction n generalizing passed dst with
  | zero =>
    cases h
    exact .here
  | succ n ih =>
    cases h with
    | breaks => exact .here
    | goesOn hneg hnext hfresh hshift h => exact .goesOn hneg hnext hfresh hshift (ih h)

/-- The loop fails only where a sum on the trail leaves the range of offsets. -/
theorem Rounds.exceeds {n : Nat} {passed : List Int} {dst : Address} {e : Fault}
    (h : Rounds rules n passed dst (.error e)) :
    (∃ a k, e = .offsetExceeded a k) ∧
      ∃ j l, Trail rules passed dst.segment dst.offset j l ∧ offsetBound ≤ l := by
  induction n generalizing passed dst with
  | zero => cases h
  | succ n ih =>
    cases h with
    | @fails _ _ next _ hneg hnext hfresh hshift =>
      refine ⟨⟨_, _, Address.eq_offsetExceeded_of_shift hshift⟩, next.segment,
        next.offset + dst.offset, .onward hneg hnext hfresh .here, ?_⟩
      by_contra hlt
      have hok : next.shift dst.offset =
          .ok ⟨next.segment, next.offset + dst.offset, Nat.lt_of_not_le hlt⟩ :=
        Address.shift_eq_ok.mpr ⟨rfl, Int.natCast_add _ _⟩
      rw [hshift] at hok
      cases hok
    | goesOn hneg hnext hfresh hshift h =>
      obtain ⟨he, j, l, htrail, hl⟩ := ih h
      exact ⟨he, j, l, .goesOn hneg hnext hfresh hshift htrail, hl⟩

/-- The loop fails wherever a sum on the trail leaves the range of offsets. -/
theorem Trail.exists_error {passed : List Int} {i j : Int} {k l : Nat}
    (h : Trail rules passed i k j l) (hl : offsetBound ≤ l) {n : Nat} {dst : Address}
    {r : Except Fault Address} (hi : dst.segment = i) (hk : dst.offset = k)
    (hrounds : Rounds rules n passed dst r) : ∃ e, r = .error e := by
  induction h generalizing n dst with
  | here =>
    subst hk
    exact absurd dst.offset_lt (Nat.not_lt.mpr hl)
  | onward hneg hnext hfresh _ ih =>
    subst hi hk
    cases hrounds with
    | leaves hstays => exact absurd ⟨hneg, _, hnext⟩ hstays
    | breaks _ hseen => exact absurd hseen hfresh
    | fails => exact ⟨_, rfl⟩
    | goesOn _ hnext' _ hshift hrounds =>
      obtain rfl := Option.some.inj (hnext.symm.trans hnext')
      obtain ⟨hsegment, hoffset⟩ := Address.shift_eq_ok.mp hshift
      exact ih hl hsegment (by omega) hrounds

/-- If the chain of an address has no cycle, the loop ends in a segment that is not moved. -/
theorem Rounds.not_isMoved {n : Nat} {passed : List Int} {dst last : Address}
    (h : Rounds rules n passed dst (.ok last))
    (hpassed : ∀ i ∈ passed, i < 0 → Relation.TransGen (Leads rules) i dst.segment)
    (hchain : ∀ j, Relation.ReflTransGen (Leads rules) dst.segment j →
      ¬ Relation.TransGen (Leads rules) j j) : ¬ IsMoved rules last.segment := by
  induction n generalizing passed dst with
  | zero =>
    cases h with
    | leaves hstays => exact hstays
  | succ n ih =>
    cases h with
    | breaks hmoved hseen => exact absurd (hpassed _ hseen hmoved.1) (hchain _ .refl)
    | goesOn hneg hnext hfresh hshift h =>
      have hstep : Leads rules dst.segment _ :=
        ⟨hneg, _, hnext, (Address.shift_eq_ok.mp hshift).1.symm⟩
      refine ih h (List.forall_mem_cons.mpr ⟨fun _ => .single hstep, fun i hi hlt => ?_⟩)
        fun j hj => hchain j (.head hstep hj)
      exact (hpassed i hi hlt).tail hstep

/-! ## Resolved rules -/

/-- Resolving keeps the sources, in their order. -/
theorem map_fst_resolve {resolved : Relocations} (h : resolve rules = .ok resolved) :
    resolved.map Prod.fst = rules.map Prod.fst := by
  refine List.ext_getElem? fun k => ?_
  obtain ⟨hnone, hsome⟩ := Answer.getElem?_of_mapM h k
  rw [List.getElem?_map, List.getElem?_map]
  cases hk : rules[k]? with
  | none => rw [hnone hk]
  | some rule =>
    obtain ⟨rule', hrule, hk'⟩ := hsome rule hk
    obtain ⟨last, -, hlast⟩ := Answer.bind_eq_ok.mp hrule
    obtain rfl := Answer.pure_eq_ok.mp hlast
    rw [hk']
    rfl

/-- Resolving fails in the loop for one of the rules. -/
theorem exists_rounds_of_resolve_error {e : Fault} (h : resolve rules = .error e) :
    ∃ src dst n, (src, dst) ∈ rules ∧ Rounds rules n [src] dst (.error e) := by
  obtain ⟨⟨src, dst⟩, hmem, hrule⟩ := Answer.exists_of_mapM_error h
  obtain ⟨n, -, hn⟩ := exists_rounds_follow (List.mem_map_of_mem hmem) dst
  dsimp only at hrule
  cases hfollow : follow rules rules.length [src] dst with
  | ok last =>
    rw [hfollow] at hrule
    cases hrule
  | error e' =>
    rw [hfollow] at hrule hn
    obtain rfl := Except.error.inj hrule
    exact ⟨src, dst, n, hmem, hn⟩

/-- Resolving fails only where an offset leaves its range. -/
theorem eq_offsetExceeded_of_resolve {e : Fault} (h : resolve rules = .error e) :
    ∃ a k, e = .offsetExceeded a k := by
  obtain ⟨src, dst, n, -, hn⟩ := exists_rounds_of_resolve_error h
  exact hn.exceeds.1

/-- Resolving rules of any shape takes at most as many rounds for each source as there are rules.
It fails exactly when the offsets along some chain add up to more than an offset can be.  Where it
succeeds, the sources stay; and a source whose chain has no cycle is sent to the end of its chain,
with the offsets added up, in a segment that has no rule itself. -/
theorem resolve_flattens_chains (rules : Relocations) :
    (∀ src dst, (src, dst) ∈ rules → ∃ n ≤ rules.length, ∀ k r,
      Rounds rules k [src] dst r ↔ k = n ∧ r = follow rules rules.length [src] dst) ∧
    ((∃ e, resolve rules = .error e) ↔ ∃ src dst j l, (src, dst) ∈ rules ∧
      Trail rules [src] dst.segment dst.offset j l ∧ offsetBound ≤ l) ∧
    (∀ e, resolve rules = .error e → ∃ a k, e = .offsetExceeded a k) ∧
    ∀ resolved, resolve rules = .ok resolved → resolved.map Prod.fst = rules.map Prod.fst ∧
      ∀ src dst, rules.lookup src = some dst →
        (∀ j, Relation.ReflTransGen (Leads rules) dst.segment j →
          ¬ Relation.TransGen (Leads rules) j j) →
        ∃ last, resolved.lookup src = some last ∧
          Trail rules [src] dst.segment dst.offset last.segment last.offset ∧
          ¬ IsMoved rules last.segment ∧
          ((∀ rule ∈ rules, rule.1 < 0) → rules.lookup last.segment = none) := by
  have hrounds : ∀ {src dst}, (src, dst) ∈ rules → ∃ n ≤ rules.length,
      Rounds rules n [src] dst (follow rules rules.length [src] dst) := fun hmem =>
    exists_rounds_follow (List.mem_map_of_mem hmem) _
  refine ⟨fun src dst hmem => ?_, ⟨?_, ?_⟩, fun e => eq_offsetExceeded_of_resolve,
    fun resolved h => ?_⟩
  · obtain ⟨n, hn, hfollow⟩ := hrounds hmem
    refine ⟨n, hn, fun k r => ⟨fun hk => ?_, ?_⟩⟩
    · obtain rfl := hfollow.unique hk
      exact ⟨rfl, (follow_of_rounds hk hn).symm⟩
    · rintro ⟨rfl, rfl⟩
      exact hfollow
  · rintro ⟨e, he⟩
    obtain ⟨src, dst, n, hmem, hn⟩ := exists_rounds_of_resolve_error he
    obtain ⟨-, j, l, htrail, hl⟩ := hn.exceeds
    exact ⟨src, dst, j, l, hmem, htrail, hl⟩
  · rintro ⟨src, dst, j, l, hmem, htrail, hl⟩
    obtain ⟨n, -, hn⟩ := hrounds hmem
    obtain ⟨e, he⟩ := htrail.exists_error hl rfl rfl hn
    cases hresolved : resolve rules with
    | error e' => exact ⟨e', rfl⟩
    | ok resolved =>
      obtain ⟨rule, hrule, -⟩ := Answer.mem_of_mapM hresolved hmem
      dsimp only at hrule
      rw [he] at hrule
      cases hrule
  · refine ⟨map_fst_resolve h, fun src dst hdst hchain => ?_⟩
    obtain ⟨last, hfollow, hlast⟩ := (lookup_of_resolve h src).2 dst hdst
    obtain ⟨n, -, hn⟩ := exists_rounds_follow (mem_keys_of_lookup hdst) dst
    rw [hfollow] at hn
    have hsrc : src < 0 → Relation.TransGen (Leads rules) src dst.segment := fun hneg =>
      .single ⟨hneg, dst, hdst, rfl⟩
    have hend := hn.not_isMoved (List.forall_mem_singleton.mpr hsrc) hchain
    refine ⟨last, hlast, hn.trail, hend, fun hkeys => ?_⟩
    by_contra hrule
    obtain ⟨next, hnext⟩ := Option.ne_none_iff_exists'.mp hrule
    obtain ⟨rule, hmem, hfst⟩ := List.mem_map.mp (mem_keys_of_lookup hnext)
    exact hend ⟨hfst ▸ hkeys rule hmem, next, hnext⟩

/-- Rules of two chains: one leads out of the temporary segments, the other one in a circle. -/
def branching : Relocations :=
  [(-1, ⟨-2, 31, by decide⟩), (-2, ⟨0, 41, by decide⟩), (-3, ⟨-4, 17, by decide⟩),
    (-4, ⟨-3, 17, by decide⟩)]

/-- The loop leaves the circle, the other chain is flattened all the same, and offsets that add up
to more than an offset can be make resolving fail. -/
theorem resolve_flattens_chains_branching :
    (∃ n ≤ 4, ∀ k r, Rounds branching k [-3] ⟨-4, 17, by decide⟩ r ↔
      k = n ∧ r = .ok ⟨-3, 34, by decide⟩) ∧
    (∃ resolved last, resolve branching = .ok resolved ∧ resolved.lookup (-1) = some last ∧
      Trail branching [-1] (-2) 31 last.segment last.offset ∧
      branching.lookup last.segment = none) ∧
    ∃ e, resolve [(-1, ⟨-2, 2 ^ 64 - 1, by decide⟩), (-2, ⟨0, 1, by decide⟩)] = .error e := by
  obtain ⟨hrounds, -, -, hresolved⟩ := resolve_flattens_chains branching
  have hlast : ∀ j, ¬ Leads branching 0 j := fun j hj => absurd hj.1 (by decide)
  have hnext : ∀ {j}, Leads branching (-2) j → j = 0 := by
    rintro j ⟨-, dst, hdst, rfl⟩
    obtain rfl : _ = dst := Option.some.inj hdst
    rfl
  have hend : ∀ {j}, Relation.ReflTransGen (Leads branching) 0 j → j = 0 := by
    intro j hj
    rcases Relation.ReflTransGen.cases_head hj with rfl | ⟨k, hk, -⟩
    · rfl
    · exact absurd hk (hlast k)
  have hchain : ∀ j, Relation.ReflTransGen (Leads branching) (-2) j →
      ¬ Relation.TransGen (Leads branching) j j := by
    intro j hj hcycle
    obtain ⟨k, hk, hback⟩ := Relation.TransGen.head'_iff.mp hcycle
    rcases Relation.ReflTransGen.cases_head hj with rfl | ⟨i, hi, hreach⟩
    · obtain rfl := hnext hk
      cases hend hback
    · obtain rfl := hnext hi
      obtain rfl := hend hreach
      exact hlast k hk
  obtain ⟨-, hends⟩ := hresolved _ rfl
  obtain ⟨last, hlookup, htrail, -, hrule⟩ := hends (-1) ⟨-2, 31, by decide⟩ rfl hchain
  have hexceeds : Trail [(-1, ⟨-2, 2 ^ 64 - 1, by decide⟩), (-2, ⟨0, 1, by decide⟩)] [-1] (-2)
      (2 ^ 64 - 1) 0 offsetBound :=
    .onward (by decide) rfl (by decide) .here
  exact ⟨hrounds (-3) _ (by decide), ⟨_, last, rfl, hlookup, htrail, hrule (by decide)⟩,
    (resolve_flattens_chains _).2.1.mpr ⟨-1, _, 0, offsetBound, List.mem_cons_self, hexceeds,
      Nat.le_refl _⟩⟩

end Cairo.Memory
