import Cairo.Proofs.Memory.Registration

/-!
# The memory of a frame

Before the first step of a program the memory has four segments more than the program has builtins.
The first one is the program, whose cells are the accessed ones, and the second one holds the stack
(`frameStack`): the bases of the builtins, in their order, and the pointers to the last two
segments.  All others are empty (`IsFrame`).
-/

namespace Cairo.Memory

variable {m : Memory} {k n : Nat}

/-- The memory with new empty segments. -/
def widened (m : Memory) (n : Nat) : Memory :=
  { m with segments := m.segments ++ Array.replicate n #[] }

/-- The number of segments of a memory with new ones. -/
@[simp] theorem size_widened : (m.widened n).segments.size = m.segments.size + n := by
  simp [widened]

/-- A new segment stands behind the others. -/
theorem widened_one : m.widened 1 = { m with segments := m.segments.push #[] } := by
  simp [widened]

/-- New segments may be added in two goes. -/
theorem widened_widened : (m.widened k).widened n = m.widened (k + n) := by
  simp [widened, Array.append_assoc]

/-- Without new segments a memory is as it was. -/
@[simp] theorem widened_zero : m.widened 0 = m := by
  simp [widened]

/-- The memory with a segment that is full of values. -/
def fill (m : Memory) (n : Nat) (values : List Value) : Memory :=
  { m with segments := m.segments.setIfInBounds n (values.map some).toArray }

/-- The memory with other rules. -/
def withRules (m : Memory) (rules : List (Int × List RangeRule)) : Memory :=
  { m with rules := rules }

/-- The values on the stack before the first step: the bases of the segments of the builtins, and
the pointers to the two segments behind them. -/
def frameStack (k : Nat) : List Value :=
  (List.range' 2 k).map (fun i : Nat => .address (.base i)) ++
    [.address (.base (k + 2 : Nat)), .address (.base (k + 3 : Nat))]

/-- The memory before the first step of a program with a number of builtins. -/
structure IsFrame (data : List Value) (k : Nat) (m : Memory) : Prop where
  size : m.segments.size = k + 4
  program : m.segments[0]? = some (data.map some).toArray
  execution : m.segments[1]? = some ((frameStack k).map some).toArray
  others : ∀ i, 2 ≤ i → i < k + 4 → m.segments[i]? = some #[]
  temporaries : m.temporaries = #[]
  accessed : ∀ a, a ∈ m.accessed ↔ a.segment = 0 ∧ a.offset < data.length

/-- New segments, of which the first two are filled with a program and its stack, make a frame if
the cells of the program are marked. -/
theorem isFrame_fill {data : List Value} (marks : AddressSet)
    (hmarks : ∀ a, a ∈ marks ↔ a.segment = 0 ∧ a.offset < data.length) :
    IsFrame data k { ((empty.widened (k + 4)).fill 0 data).fill 1 (frameStack k) with
      accessed := marks } where
  size := by simp [fill, widened, empty]
  program := by simp [fill, widened, empty]
  execution := by simp [fill, widened, empty]
  others i hfirst hlast := by
    have h0 : ¬ 0 = i := by omega
    have h1 : ¬ 1 = i := by omega
    simp [fill, widened, empty, h0, h1, hlast]
  temporaries := rfl
  accessed := hmarks

variable {data : List Value}

/-- A frame is one whatever rules there are and whatever counts as checked. -/
theorem IsFrame.of_alike {t : Memory} (h : m.IsFrame data k) (hcells : m.Alike t)
    (hmarks : m.SameMarks t) : t.IsFrame data k := by
  obtain ⟨hsegments, htemporaries⟩ := hcells
  have hmarks' : t.accessed = m.accessed := hmarks
  constructor
  · rw [hsegments, h.size]
  · rw [hsegments, h.program]
  · rw [hsegments, h.execution]
  · rw [hsegments]
    exact h.others
  · rw [htemporaries, h.temporaries]
  · rw [hmarks']
    exact h.accessed

/-- Only cells of the program and of the stack are written. -/
theorem IsFrame.segment_lt (h : m.IsFrame data k) {a : Address} (ha : (m.get? a).isSome) :
    a.segment < 2 := by
  by_contra hlt
  obtain ⟨n, hn⟩ := Int.eq_ofNat_of_zero_le (show 0 ≤ a.segment by omega)
  have hcell : m.get? a = none := by
    rw [get?_eq, hn]
    show (m.segments[n]?.bind fun s => s[a.offset]?.join) = none
    by_cases hlast : n < k + 4
    · rw [h.others n (by omega) hlast]
      rfl
    · rw [Array.getElem?_eq_none (by rw [h.size]; omega)]
      rfl
  rw [hcell] at ha
  cases ha

end Cairo.Memory
