import Std.Data.ExtTreeSet

/-!
# Addresses

An address is a segment and an offset into it.  Negative segments are temporary.  Offsets are
below `2 ^ 64`, and the bound is part of the type.  Addresses are ordered by segment first, and
`AddressSet` is a set of them listed in that order.
-/

namespace Cairo

/-- The bound of the offsets of addresses. -/
def offsetBound : Nat := Nat.pow 2 64

/-- A place in segmented memory. -/
structure Address where
  segment : Int
  offset : Nat
  offset_lt : offset < offsetBound
deriving DecidableEq

namespace Address

@[ext] theorem ext {a b : Address} (hs : a.segment = b.segment) (ho : a.offset = b.offset) :
    a = b := by
  cases a
  cases b
  cases hs
  cases ho
  rfl

/-- The first cell of a segment. -/
def base (segment : Int) : Address := ⟨segment, 0, by decide⟩

instance : Inhabited Address := ⟨base 0⟩

@[simp] theorem segment_base (s : Int) : (base s).segment = s := rfl

@[simp] theorem offset_base (s : Int) : (base s).offset = 0 := rfl

/-- The address with the given coordinates, if the offset is in range. -/
def mk? (segment offset : Int) : Option Address :=
  -- The bound is tested on the natural number, which the kernel can compare without counting.
  if h : 0 ≤ offset ∧ offset.toNat < offsetBound then some ⟨segment, offset.toNat, h.2⟩
  else none

theorem mk?_eq_some_iff {s o : Int} {a : Address} :
    mk? s o = some a ↔ a.segment = s ∧ (a.offset : Int) = o := by
  unfold mk?
  constructor
  · intro h
    split at h
    · cases h
      exact ⟨rfl, by simp only; omega⟩
    · cases h
  · rintro ⟨rfl, rfl⟩
    rw [dif_pos ⟨Int.natCast_nonneg _, a.offset_lt⟩]
    rfl

/-- The address lies in a segment that has still to be moved to its place. -/
def isTemporary (a : Address) : Bool := decide (a.segment < 0)

/-- Addresses are compared by segment, then by offset. -/
instance : Ord Address :=
  ⟨compareLex (compareOn (·.segment)) (compareOn (·.offset))⟩

instance : Std.TransOrd Address :=
  inferInstanceAs (Std.TransCmp (compareLex _ _))

theorem compare_eq_iff {a b : Address} : compare a b = .eq ↔ a = b := by
  constructor
  · intro h
    have h' : (compare a.segment b.segment).then (compare a.offset b.offset) = .eq := h
    rw [Ordering.then_eq_eq] at h'
    exact ext (Std.LawfulEqOrd.eq_of_compare h'.1) (Std.LawfulEqOrd.eq_of_compare h'.2)
  · rintro rfl
    exact Std.ReflCmp.compare_self

instance : Std.LawfulEqOrd Address where
  eq_of_compare := compare_eq_iff.mp

/-- The address in the form `segment:offset`. -/
def text (a : Address) : String := toString a.segment ++ ":" ++ toString a.offset

end Address

/-- A set of addresses, listed in their order. -/
abbrev AddressSet := Std.ExtTreeSet Address

end Cairo
