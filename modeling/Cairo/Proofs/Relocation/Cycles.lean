import Mathlib.Data.List.Chain
import Cairo.Proofs.Relocation.Rules

/-!
# Rules with cycles

Following a chain of rules that runs in a circle stops at the first segment that it passes twice.
This segment lies on the circle, and a chain that starts on the circle goes once around before it
stops, where it started.  So if a resolved rule leads to a segment that is moved, then the resolved
rule of that segment leads back to it (`returns_of_resolve`): resolved rules have no cycles except
of segments that are sent to themselves.
-/

namespace Cairo.Memory

variable {rules resolved : Relocations}

/-! ## Where chains come back -/

/-- Following the rules stops in a segment that is not moved, and in one that was passed before. -/
theorem follow_of_stops {steps : Nat} {passed : List Int} {dst : Address}
    (h : IsMoved rules dst.segment → dst.segment ∈ passed) :
    follow rules steps passed dst = .ok dst := by
  cases steps with
  | zero => rfl
  | succ steps =>
    unfold follow
    cases hnext : rules.lookup dst.segment with
    | none => rfl
    | some next =>
      dsimp only
      refine if_pos ?_
      by_cases hreal : 0 ≤ dst.segment
      · exact .inl hreal
      · exact .inr (h ⟨Int.not_le.mp hreal, next, hnext⟩)

/-- Following the rules goes on in a segment that is moved and was not passed before. -/
theorem follow_of_lookup {steps : Nat} {passed : List Int} {dst next : Address}
    (hneg : dst.segment < 0) (hnext : rules.lookup dst.segment = some next)
    (hfresh : dst.segment ∉ passed) :
    follow rules (steps + 1) passed dst =
      next.shift dst.offset >>= follow rules steps (dst.segment :: passed) := by
  rw [follow, hnext]
  dsimp only
  rw [if_neg (not_or.mpr ⟨Int.not_le.mpr hneg, hfresh⟩)]

/-- A chain of rules that ends in a segment that is moved has come back to it: the segments that it
passed since then are a path from there to there. -/
theorem exists_cycle_of_follow {steps : Nat} {passed : List Int} {dst last : Address}
    (h : follow rules steps passed dst = .ok last) (hnodup : passed.Nodup)
    (hkeys : ∀ i ∈ passed, i ∈ rules.map Prod.fst)
    (hchain : List.IsChain (flip (Leads rules)) (dst.segment :: passed))
    (hsteps : rules.length < steps + passed.length) (hmoved : IsMoved rules last.segment) :
    ∃ path, path.Nodup ∧ last.segment ∉ path ∧ path.length ≤ rules.length ∧
      List.IsChain (Leads rules) (last.segment :: (path ++ [last.segment])) := by
  have hlength : ∀ {l : List Int}, l.Nodup → (∀ i ∈ l, i ∈ rules.map Prod.fst) →
      l.length ≤ rules.length := by
    intro l hl hsubset
    simpa using hl.length_le_of_subset hsubset
  induction steps generalizing passed dst with
  | zero =>
    -- The chain cannot have passed more segments than there are rules.
    have := hlength hnodup hkeys
    omega
  | succ steps ih =>
    by_cases hstop : IsMoved rules dst.segment → dst.segment ∈ passed
    · rw [follow_of_stops hstop] at h
      obtain rfl : dst = last := Except.ok.inj h
      obtain ⟨back, before, rfl, hfresh⟩ := List.eq_append_cons_of_mem (hstop hmoved)
      have hback : back.Nodup := hnodup.of_append_left
      refine ⟨back.reverse, List.nodup_reverse.mpr hback, by simpa using hfresh, ?_, ?_⟩
      · rw [List.length_reverse]
        exact hlength hback fun i hi => hkeys i (List.mem_append_left _ hi)
      -- What was passed is listed from the last segment back.
      · rw [List.append_cons, ← List.cons_append] at hchain
        have hreverse : List.IsChain (Leads rules)
            (dst.segment :: (back ++ [dst.segment])).reverse :=
          List.isChain_reverse.mpr hchain.left_of_append
        simpa using hreverse
    · obtain ⟨⟨hneg, next, hnext⟩, hfresh⟩ := Classical.not_imp.mp hstop
      rw [follow_of_lookup hneg hnext hfresh] at h
      obtain ⟨dst', hshift, h⟩ := Answer.bind_eq_ok.mp h
      have hstep : Leads rules dst.segment dst'.segment :=
        ⟨hneg, next, hnext, (Address.shift_eq_ok.mp hshift).1.symm⟩
      refine ih h (List.nodup_cons.mpr ⟨hfresh, hnodup⟩) ?_ (hchain.cons_cons hstep) ?_
      · exact List.forall_mem_cons.mpr ⟨mem_keys_of_lookup hnext, hkeys⟩
      · rw [List.length_cons]
        omega

/-- Following the rules along a path of new segments that leads to a segment passed before ends
there. -/
theorem segment_eq_of_follow {i : Int} {path : List Int} {steps : Nat} {passed : List Int}
    {dst last : Address} (h : follow rules steps passed dst = .ok last) (hi : i ∈ passed)
    (hchain : List.IsChain (Leads rules) (path ++ [i]))
    (hhead : (path ++ [i]).head? = some dst.segment) (hnodup : path.Nodup)
    (hfresh : ∀ j ∈ path, j ∉ passed) (hsteps : path.length ≤ steps) : last.segment = i := by
  induction path generalizing steps passed dst with
  | nil =>
    obtain rfl : i = dst.segment := Option.some.inj hhead
    rw [follow_of_stops fun _ => hi] at h
    rw [Except.ok.inj h]
  | cons j path ih =>
    obtain rfl : j = dst.segment := Option.some.inj hhead
    obtain ⟨hnew, hnodup⟩ := List.nodup_cons.mp hnodup
    obtain ⟨hdst, hfresh⟩ := List.forall_mem_cons.mp hfresh
    rw [List.cons_append, List.isChain_cons] at hchain
    obtain ⟨hleads, hchain⟩ := hchain
    obtain ⟨k, hk⟩ : ∃ k, (path ++ [i]).head? = some k := by
      cases path <;> exact ⟨_, rfl⟩
    obtain ⟨hneg, next, hnext, rfl⟩ := hleads k hk
    cases steps with
    | zero => cases hsteps
    | succ steps =>
      rw [follow_of_lookup hneg hnext hdst] at h
      obtain ⟨dst', hshift, h⟩ := Answer.bind_eq_ok.mp h
      rw [← (Address.shift_eq_ok.mp hshift).1] at hk
      refine ih h (List.mem_cons_of_mem _ hi) hchain hk hnodup (fun l hl => ?_)
        (Nat.le_of_succ_le_succ hsteps)
      rw [List.mem_cons, not_or]
      exact ⟨fun heq => hnew (heq ▸ hl), hfresh l hl⟩

/-- Resolved rules that lead to a segment that is moved lead from there to the same segment. -/
theorem returns_of_resolve (h : resolve rules = .ok resolved) {i : Int} {last : Address}
    (hi : i < 0) (hlast : resolved.lookup i = some last) (hmoved : IsMoved resolved last.segment) :
    ∃ dst, resolved.lookup last.segment = some dst ∧ dst.segment = last.segment := by
  rw [isMoved_resolve_iff h] at hmoved
  obtain ⟨hnone, hsome⟩ := lookup_of_resolve h i
  cases hdst : rules.lookup i with
  | none =>
    rw [hnone hdst] at hlast
    cases hlast
  | some dst =>
    obtain ⟨last', hfollow, hlast'⟩ := hsome dst hdst
    obtain rfl : last' = last := Option.some.inj (hlast'.symm.trans hlast)
    have hleads : Leads rules i dst.segment := ⟨hi, dst, hdst, rfl⟩
    obtain ⟨path, hnodup, hnew, hlength, hcycle⟩ := exists_cycle_of_follow hfollow
      (List.nodup_singleton i) (List.forall_mem_singleton.mpr (mem_keys_of_lookup hdst))
      (List.isChain_pair.mpr hleads) (Nat.lt_succ_self _) hmoved
    obtain ⟨hfirst, hpath⟩ := List.isChain_cons.mp hcycle
    obtain ⟨k, hk⟩ : ∃ k, (path ++ [last'.segment]).head? = some k := by
      cases path <;> exact ⟨_, rfl⟩
    obtain ⟨-, next, hnext, rfl⟩ := hfirst k hk
    obtain ⟨again, hagain, hresolved⟩ := (lookup_of_resolve h last'.segment).2 next hnext
    refine ⟨again, hresolved, segment_eq_of_follow hagain (List.mem_singleton_self _) hpath hk
      hnodup (fun j hj => ?_) hlength⟩
    rw [List.mem_singleton]
    rintro rfl
    exact hnew hj

end Cairo.Memory
