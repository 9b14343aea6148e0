import Mathlib.Algebra.BigOperators.Group.Finset.Basic
import Mathlib.Order.Bounds.Basic
import Cairo.Builtin.Usage
import Cairo.Proofs.Builtin.Soundness
import Cairo.Proofs.Memory.Ranges

/-!
# Parts of checked values

A range check counts the 16-bit parts of the values in its segment, as many of each as its rule
admits.  A value that passes the rule has no further parts: it is the sum of these at their places
(`sum_part_of_checkRule`).
-/

namespace Cairo

/-- The least and the greatest element of a list that is not empty are found by a walk through
it. -/
theorem foldl_min_max_iff {α : Type} [LinearOrder α] {n lo hi : α} {rest : List α} :
    rest.foldl min n = lo ∧ rest.foldl max n = hi ↔
      IsLeast {x | x ∈ n :: rest} lo ∧ IsGreatest {x | x ∈ n :: rest} hi := by
  have hmin : IsLeast {x | x ∈ n :: rest} lo ↔ (n :: rest).min? = some lo :=
    List.min?_eq_some_iff.symm
  have hmax : IsGreatest {x | x ∈ n :: rest} hi ↔ (n :: rest).max? = some hi :=
    List.max?_eq_some_iff.symm
  rw [hmin, hmax, List.min?_cons', List.max?_cons', Option.some.injEq, Option.some.injEq]

namespace Builtin

variable {b : Builtin} {m : Memory} {n : Nat} {x : Felt}

/-! ## The parts of a value -/

/-- The 16-bit part of a field element at a place. -/
def part (x : Felt) (k : Nat) : Nat := x.val / 2 ^ (16 * k) % 2 ^ 16

/-- Parts have 16 bits. -/
theorem part_lt (x : Felt) (k : Nat) : part x k < 2 ^ 16 := Nat.mod_lt _ (by decide)

/-- The parts of a field element are those at the first places. -/
theorem mem_partsOf {count : Nat} : n ∈ partsOf x count ↔ ∃ k < count, n = part x k := by
  unfold partsOf
  simp only [List.mem_map, List.mem_range, eq_comm (a := n)]
  rfl

/-- The first parts of a field element, at their places, make up its remainder. -/
theorem sum_part (x : Felt) (count : Nat) :
    ∑ k ∈ Finset.range count, part x k * 2 ^ (16 * k) = x.val % 2 ^ (16 * count) := by
  induction count with
  | zero => rw [Finset.sum_range_zero, Nat.mul_zero, Nat.pow_zero, Nat.mod_one]
  | succ count ih =>
    rw [Finset.sum_range_succ, ih, Nat.mul_succ, Nat.pow_add, Nat.mod_mul, part,
      Nat.mul_comm (2 ^ (16 * count))]

/-- A value that passes the rule of a range check is made up of as many parts as the rule admits. -/
theorem sum_part_of_checkRule {a : Address} (h : Memory.checkRule b.rangeRule m a = .ok ()) :
    ∃ x, m.get? a = some (.felt x) ∧
      ∑ k ∈ Finset.range b.parts, part x k * 2 ^ (16 * k) = x.val := by
  obtain ⟨x, hx, hlt⟩ := Memory.checkRule_eq_ok.mp h
  exact ⟨x, hx, (sum_part x b.parts).trans (Nat.mod_eq_of_lt hlt)⟩

/-! ## The parts of all values -/

/-- The number is a part of a field element in the segment of the builtin. -/
def HasPart (b : Builtin) (m : Memory) (n : Nat) : Prop :=
  ∃ i s x k, b.segment = some i ∧ m.segment? i = some s ∧ some (.felt x) ∈ s ∧ k < b.parts ∧
    n = part x k

/-- The parts of a field element in a cell of the builtin are parts of the builtin. -/
theorem hasPart_of_get? {a : Address} (ha : b.segment = some a.segment)
    (hx : m.get? a = some (.felt x)) {k : Nat} (hk : k < b.parts) : b.HasPart m (part x k) := by
  obtain ⟨s, hs, hcell⟩ := Memory.segment?_of_get? hx
  have hmem : some (.felt x) ∈ s := Array.mem_of_getElem? (Option.join_eq_some_iff.mp hcell)
  exact ⟨a.segment, s, x, k, ha, hs, hmem, hk, rfl⟩

/-- The parts are found if the builtin has a segment, and are then those of the field elements in
it. -/
theorem checkedParts_ok {parts : List Nat} (h : b.checkedParts m = .ok parts) :
    (∃ i s, b.segment = some i ∧ m.segment? i = some s) ∧ ∀ n, n ∈ parts ↔ b.HasPart m n := by
  obtain ⟨i, hi, h⟩ := Answer.bind_eq_ok.mp h
  obtain ⟨s, hs, h⟩ := Answer.bind_eq_ok.mp h
  obtain rfl := Answer.pure_eq_ok.mp h
  have hi' := requireSegment_eq_ok.mp hi
  have hs' : m.segment? i = some s := Answer.orThrow_eq_ok.mp hs
  refine ⟨⟨i, s, hi', hs'⟩, fun n => ?_⟩
  rw [List.mem_flatMap]
  constructor
  · rintro ⟨cell, hcell, hn⟩
    match cell, hn with
    | some (.felt x), hn =>
      obtain ⟨k, hk, rfl⟩ := mem_partsOf.mp hn
      exact ⟨i, s, x, k, hi', hs', Array.mem_toList_iff.mp hcell, hk, rfl⟩
  · rintro ⟨j, t, x, k, hj, ht, hx, hk, rfl⟩
    obtain rfl := Option.some.inj (hi'.symm.trans hj)
    obtain rfl := Option.some.inj (hs'.symm.trans ht)
    exact ⟨_, Array.mem_toList_iff.mpr hx, mem_partsOf.mpr ⟨k, hk, rfl⟩⟩

/-- The parts are found if the builtin has a segment. -/
theorem exists_checkedParts {i : Int} {s : Segment} (hi : b.segment = some i)
    (hs : m.segment? i = some s) : ∃ parts, b.checkedParts m = .ok parts :=
  ⟨_, Answer.bind_eq_ok.mpr ⟨i, requireSegment_eq_ok.mpr hi,
    Answer.bind_eq_ok.mpr ⟨s, Answer.orThrow_eq_ok.mpr hs, rfl⟩⟩⟩

/-- The extremes of numbers are the least and the greatest of them. -/
theorem extremes_eq_some {l : List Nat} {lo hi : Nat} :
    extremes l = some (lo, hi) ↔ IsLeast {n | n ∈ l} lo ∧ IsGreatest {n | n ∈ l} hi := by
  cases l with
  | nil => exact iff_of_false nofun fun h => List.not_mem_nil h.1.1
  | cons n rest => rw [extremes, Option.some.injEq, Prod.mk.injEq, foldl_min_max_iff]

end Builtin

end Cairo
