import Mathlib.Logic.Relation
import Cairo.Memory.Relocation
import Cairo.Proofs.Value.Arithmetic

/-!
# Rules without cycles

A rule leads from a temporary segment to the segment of its destination.  If no segment leads back
to itself, following a chain of rules passes every segment at most once, so it ends before the
steps run out, and it ends in a segment that is not moved (`not_isMoved_of_follow`).  Resolved
rules therefore move everything in one step: what they give is not moved by them again.
-/

namespace Cairo.Memory

/-- The rules move a segment: it is temporary and has a rule. -/
def IsMoved (rules : Relocations) (i : Int) : Prop := i < 0 ∧ ∃ dst, rules.lookup i = some dst

/-- A rule leads from a temporary segment to another segment. -/
def Leads (rules : Relocations) (i j : Int) : Prop :=
  i < 0 ∧ ∃ dst, rules.lookup i = some dst ∧ dst.segment = j

/-- No chain of rules comes back to the segment that it starts from. -/
def Acyclic (rules : Relocations) : Prop := ∀ i, ¬ Relation.TransGen (Leads rules) i i

/-- No rule has its destination in a segment that is moved. -/
def Resolved (rules : Relocations) : Prop :=
  ∀ i dst, i < 0 → rules.lookup i = some dst → ¬ IsMoved rules dst.segment

/-- Rules that lead to smaller and smaller ranks have no cycle. -/
theorem acyclic_of_rank {rules : Relocations} (rank : Int → Nat)
    (h : ∀ i j, Leads rules i j → rank j < rank i) : Acyclic rules := by
  have hrank : ∀ {i j}, Relation.TransGen (Leads rules) i j → rank j < rank i := by
    intro i j hchain
    induction hchain with
    | single hstep => exact h _ _ hstep
    | tail _ hstep ih => exact (h _ _ hstep).trans ih
  exact fun i hcycle => Nat.lt_irrefl _ (hrank hcycle)

/-- Rules whose destinations all lie in real segments have no cycle. -/
theorem acyclic_of_forall_real {rules : Relocations} (h : ∀ rule ∈ rules, 0 ≤ rule.2.segment) :
    Acyclic rules := by
  refine acyclic_of_rank (fun i => if i < 0 then 1 else 0) ?_
  rintro i _ ⟨hi, dst, hdst, rfl⟩
  obtain ⟨l₁, l₂, rfl, -⟩ := List.lookup_eq_some_iff.mp hdst
  have hreal : 0 ≤ dst.segment := h (i, dst) (by simp)
  rw [if_pos hi, if_neg (Int.not_lt.mpr hreal)]
  exact Nat.zero_lt_one

/-! ## Following chains -/

/-- A segment that has a rule is among those that the rules name. -/
theorem mem_keys_of_lookup {rules : Relocations} {i : Int} {dst : Address}
    (h : rules.lookup i = some dst) : i ∈ rules.map Prod.fst := by
  obtain ⟨l₁, l₂, rfl, -⟩ := List.lookup_eq_some_iff.mp h
  simp

/-- Following a chain ends in a segment that is not moved, if the steps suffice for all segments
that were not passed yet. -/
theorem not_isMoved_of_follow {rules : Relocations} (hacyclic : Acyclic rules) {steps : Nat}
    {passed : List Int} {dst last : Address} (h : follow rules steps passed dst = .ok last)
    (hnodup : passed.Nodup) (hkeys : ∀ i ∈ passed, i ∈ rules.map Prod.fst)
    (hleads : ∀ i ∈ passed, Relation.TransGen (Leads rules) i dst.segment)
    (hsteps : rules.length ≤ steps + passed.length) : ¬ IsMoved rules last.segment := by
  -- A segment that is moved was not passed, since the segments passed lead to it.
  have hfresh : ∀ {dst : Address}, (∀ i ∈ passed, Relation.TransGen (Leads rules) i dst.segment) →
      dst.segment ∉ passed := fun hleads hmem => hacyclic _ (hleads _ hmem)
  induction steps generalizing passed dst with
  | zero =>
    obtain rfl : dst = last := Except.ok.inj h
    rintro ⟨-, next, hnext⟩
    have hall : (dst.segment :: passed).length ≤ (rules.map Prod.fst).length := by
      refine (List.nodup_cons.mpr ⟨hfresh hleads, hnodup⟩).length_le_of_subset ?_
      exact List.cons_subset.mpr ⟨mem_keys_of_lookup hnext, hkeys⟩
    rw [List.length_cons, List.length_map] at hall
    omega
  | succ steps ih =>
    unfold follow at h
    cases hnext : rules.lookup dst.segment with
    | none =>
      rw [hnext] at h
      obtain rfl : dst = last := Except.ok.inj h
      rintro ⟨-, next, hmoved⟩
      rw [hnext] at hmoved
      cases hmoved
    | some next =>
      rw [hnext] at h
      dsimp only at h
      by_cases hreal : 0 ≤ dst.segment
      · rw [if_pos (.inl hreal)] at h
        obtain rfl : dst = last := Except.ok.inj h
        exact fun hmoved => absurd hmoved.1 (Int.not_lt.mpr hreal)
      · rw [if_neg (by simp [hreal, hfresh hleads])] at h
        obtain ⟨dst', hshift, h⟩ := Answer.bind_eq_ok.mp h
        have hstep : Leads rules dst.segment dst'.segment :=
          ⟨by omega, next, hnext, (Address.shift_eq_ok.mp hshift).1.symm⟩
        refine ih h (List.nodup_cons.mpr ⟨hfresh hleads, hnodup⟩) ?_ ?_ ?_ ?_
        · exact List.forall_mem_cons.mpr ⟨mem_keys_of_lookup hnext, hkeys⟩
        · exact List.forall_mem_cons.mpr ⟨.single hstep, fun i hi => (hleads i hi).tail hstep⟩
        · rw [List.length_cons]
          omega
        · exact fun hleads' hmem => hacyclic _ (hleads' _ hmem)

/-! ## Resolving rules -/

/-- Answers for the entries of a list of pairs, with their keys, are found under these keys. -/
theorem lookup_of_mapM {α β : Type} {f : Int → α → Except Fault β} {l : List (Int × α)}
    {l' : List (Int × β)} (h : l.mapM (fun p => do return (p.1, ← f p.1 p.2)) = .ok l') (i : Int) :
    (l.lookup i = none → l'.lookup i = none) ∧
      ∀ x, l.lookup i = some x → ∃ y, f i x = .ok y ∧ l'.lookup i = some y := by
  induction l generalizing l' with
  | nil =>
    rw [List.mapM_nil] at h
    obtain rfl := Answer.pure_eq_ok.mp h
    exact ⟨fun _ => rfl, nofun⟩
  | cons p rest ih =>
    rw [List.mapM_cons] at h
    simp only [Answer.bind_eq_ok, Answer.pure_eq_ok] at h
    obtain ⟨_, ⟨y, hy, rfl⟩, rest', hrest, rfl⟩ := h
    rw [List.lookup_cons, List.lookup_cons]
    by_cases hi : i = p.1
    · subst hi
      simpa using hy
    · have hbeq : (i == p.1) = false := beq_eq_false_iff_ne.mpr hi
      rw [hbeq]
      exact ih hrest

/-- What resolved rules have for a segment: nothing if there was nothing, and otherwise the end of
the chain. -/
theorem lookup_of_resolve {rules resolved : Relocations} (h : resolve rules = .ok resolved)
    (i : Int) :
    (rules.lookup i = none → resolved.lookup i = none) ∧
      ∀ dst, rules.lookup i = some dst →
        ∃ last, follow rules rules.length [i] dst = .ok last ∧ resolved.lookup i = some last :=
  lookup_of_mapM (f := fun src dst => follow rules rules.length [src] dst) h i

/-- Resolved rules move the same segments. -/
theorem isMoved_resolve_iff {rules resolved : Relocations} (h : resolve rules = .ok resolved)
    (i : Int) : IsMoved resolved i ↔ IsMoved rules i := by
  obtain ⟨hnone, hsome⟩ := lookup_of_resolve h i
  refine and_congr_right fun _ => ⟨?_, ?_⟩
  · rintro ⟨last, hlast⟩
    cases hdst : rules.lookup i with
    | none =>
      rw [hnone hdst] at hlast
      cases hlast
    | some dst => exact ⟨dst, rfl⟩
  · rintro ⟨dst, hdst⟩
    obtain ⟨last, -, hlast⟩ := hsome dst hdst
    exact ⟨last, hlast⟩

/-- Rules without cycles are resolved to rules with no destination in a segment that is moved. -/
theorem resolved_of_resolve {rules resolved : Relocations} (hacyclic : Acyclic rules)
    (h : resolve rules = .ok resolved) : Resolved resolved := by
  intro i last hi hlast
  rw [isMoved_resolve_iff h]
  obtain ⟨hnone, hsome⟩ := lookup_of_resolve h i
  cases hdst : rules.lookup i with
  | none =>
    rw [hnone hdst] at hlast
    cases hlast
  | some dst =>
    obtain ⟨last', hfollow, hlast'⟩ := hsome dst hdst
    obtain rfl : last' = last := by
      rw [hlast'] at hlast
      exact Option.some.inj hlast
    refine not_isMoved_of_follow hacyclic hfollow (List.nodup_singleton i) ?_ ?_
      (Nat.le_add_right _ _)
    · intro j hj
      obtain rfl := List.mem_singleton.mp hj
      exact mem_keys_of_lookup hdst
    · intro j hj
      obtain rfl := List.mem_singleton.mp hj
      exact .single ⟨hi, dst, hdst, rfl⟩

/-! ## Relocated addresses and values -/

variable {rules : Relocations}

/-- An address in a segment that is not moved stays where it is. -/
theorem relocateAddress_of_not_isMoved {a : Address} (h : ¬ IsMoved rules a.segment) :
    relocateAddress rules a = .ok a := by
  unfold relocateAddress
  split
  · rfl
  · cases hdst : rules.lookup a.segment with
    | none => rfl
    | some dst => exact absurd ⟨by omega, dst, hdst⟩ h

/-- An address in a segment that is moved moves with it. -/
theorem relocateAddress_of_lookup {a dst : Address} (ha : a.segment < 0)
    (h : rules.lookup a.segment = some dst) : relocateAddress rules a = dst.shift a.offset := by
  unfold relocateAddress
  rw [if_neg (Int.not_le.mpr ha), h]

/-- The addresses of a segment that is moved move with it. -/
theorem relocateAddress_of_segment_eq {i : Int} {a dst : Address} (hi : i < 0)
    (h : rules.lookup i = some dst) (ha : a.segment = i) :
    relocateAddress rules a = dst.shift a.offset := by
  subst ha
  exact relocateAddress_of_lookup hi h

/-- Resolved rules send no segment to itself. -/
theorem Resolved.segment_ne (hrules : Resolved rules) {i : Int} {dst : Address} (hi : i < 0)
    (h : rules.lookup i = some dst) : dst.segment ≠ i := by
  intro heq
  apply hrules i dst hi h
  rw [heq]
  exact ⟨hi, dst, h⟩

/-- What resolved rules give lies in a segment that is not moved. -/
theorem not_isMoved_of_relocateAddress (hrules : Resolved rules) {a b : Address}
    (h : relocateAddress rules a = .ok b) : ¬ IsMoved rules b.segment := by
  by_cases hmoved : IsMoved rules a.segment
  · obtain ⟨ha, dst, hdst⟩ := hmoved
    rw [relocateAddress_of_lookup ha hdst] at h
    rw [(Address.shift_eq_ok.mp h).1]
    exact hrules _ dst ha hdst
  · rw [relocateAddress_of_not_isMoved hmoved] at h
    obtain rfl := Except.ok.inj h
    exact hmoved

/-- Resolved rules change a value once. -/
theorem relocateValue_idem (hrules : Resolved rules) {v w : Value}
    (h : relocateValue rules v = .ok w) : relocateValue rules w = .ok w := by
  cases v with
  | felt x =>
    obtain rfl := Except.ok.inj h
    rfl
  | address a =>
    obtain ⟨b, hb, rfl⟩ := Answer.map_eq_ok.mp h
    have hfixed := relocateAddress_of_not_isMoved (not_isMoved_of_relocateAddress hrules hb)
    exact Answer.map_eq_ok.mpr ⟨b, hfixed, rfl⟩

end Cairo.Memory
