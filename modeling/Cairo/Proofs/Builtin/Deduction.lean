import Cairo.Builtin.Basic
import Cairo.Proofs.Relocation.Felts

/-!
# What builtins deduce

A cell is deduced from the inputs of its own instance.  `IsDeduced` lists the three ways in which
that ends: an input is never deduced, an output not before all inputs are written, and then it is
what the function of the builtin gives for them.  Deducing fresh ends in one of these ways
(`isDeduced_deduceFresh`).  A value comes from inputs that are field elements, so it stays deduced
in every memory that keeps these (`deduceFresh_of_keepsFelts`).
-/

namespace Cairo

namespace Memory

variable {m t : Memory} {a : Address}

/-- Consecutive cells from an address on hold some values. -/
def HoldsFrom (m : Memory) (a : Address) (values : List Value) : Prop :=
  ∀ (i : Nat) (v : Value), values[i]? = some v → ∃ c, a.shift i = .ok c ∧ m.get? c = some v

/-- Reading consecutive cells answers what stands in each of them. -/
theorem getRange_eq_ok {n : Int} {cells : List (Option Value)} :
    m.getRange a n = .ok cells ↔ cells.length = n.toNat ∧
      ∀ (i : Nat) (cell : Option Value), cells[i]? = some cell →
        ∃ c, a.shift i = .ok c ∧ m.get? c = cell := by
  have hread : ∀ (i : Nat) (cell : Option Value),
      (do .ok (m.get? (← a.shift i)) : Except Fault (Option Value)) = .ok cell ↔
        ∃ c, a.shift i = .ok c ∧ m.get? c = cell := by
    intro i cell
    rw [Answer.bind_eq_ok]
    simp only [Except.ok.injEq]
  have hrange : ∀ {i : Nat}, i < n.toNat → (List.range n.toNat)[i]? = some i :=
    fun hi => List.getElem?_range hi
  unfold getRange readEach
  constructor
  · intro h
    have hlength := Answer.length_of_mapM h
    rw [List.length_range] at hlength
    refine ⟨hlength, fun i cell hcell => ?_⟩
    obtain ⟨hlt, -⟩ := List.getElem?_eq_some_iff.mp hcell
    obtain ⟨cell', hcell', hfound⟩ :=
      (Answer.getElem?_of_mapM h i).2 i (hrange (hlength ▸ hlt))
    obtain rfl := Option.some.inj (hcell.symm.trans hfound)
    exact (hread i cell).mp hcell'
  · rintro ⟨hlength, hcells⟩
    obtain ⟨cells', hok⟩ : ∃ cells', (List.range n.toNat).mapM (fun i : Nat =>
        (do .ok (m.get? (← a.shift i)) : Except Fault (Option Value))) = .ok cells' := by
      refine Answer.exists_mapM_ok fun i hi => ?_
      have hlt : i < cells.length := hlength ▸ List.mem_range.mp hi
      exact ⟨_, (hread i _).mpr (hcells i _ (List.getElem?_eq_getElem hlt))⟩
    refine hok.trans (congrArg _ (List.ext_getElem? fun i => ?_))
    rcases Nat.lt_or_ge i n.toNat with hlt | hge
    · have hcell := List.getElem?_eq_getElem (l := cells) (hlength ▸ hlt)
      obtain ⟨cell', hcell', hfound⟩ := (Answer.getElem?_of_mapM hok i).2 i (hrange hlt)
      obtain ⟨c, hc, hget⟩ := hcells i _ hcell
      obtain ⟨c', hc', hget'⟩ := (hread i cell').mp hcell'
      obtain rfl := Except.ok.inj (hc.symm.trans hc')
      rw [hfound, hcell, ← hget, ← hget']
    · have hlength' := Answer.length_of_mapM hok
      rw [List.length_range] at hlength'
      rw [List.getElem?_eq_none (by omega), List.getElem?_eq_none (by omega)]

/-- Reading consecutive cells that hold values answers these. -/
theorem HoldsFrom.getRange {values : List Value} (h : m.HoldsFrom a values) :
    m.getRange a values.length = .ok (values.map some) := by
  refine getRange_eq_ok.mpr ⟨by simp, fun i cell hcell => ?_⟩
  rw [List.getElem?_map, Option.map_eq_some_iff] at hcell
  obtain ⟨v, hv, rfl⟩ := hcell
  exact h i v hv

/-- Cells of a real segment that hold field elements do so in every memory that keeps these. -/
theorem HoldsFrom.of_keepsFelts {xs : List Felt} (h : m.HoldsFrom a (xs.map .felt))
    (hkeeps : m.KeepsFelts t) (ha : 0 ≤ a.segment) : t.HoldsFrom a (xs.map .felt) := by
  intro i v hv
  obtain ⟨c, hc, hget⟩ := h i v hv
  rw [List.getElem?_map, Option.map_eq_some_iff] at hv
  obtain ⟨x, -, rfl⟩ := hv
  refine ⟨c, hc, hkeeps c x ?_ hget⟩
  rwa [(Address.shift_eq_ok.mp hc).1]

end Memory

/-- All cells of a list are written, or one of them is not. -/
theorem exists_of_mapM_id {α : Type} (cells : List (Option α)) :
    cells.mapM id = none ∧ none ∈ cells ∨ ∃ values, cells.mapM id = some values ∧
      cells = values.map some := by
  induction cells with
  | nil => exact .inr ⟨[], rfl, rfl⟩
  | cons cell rest ih =>
    rw [List.mapM_cons]
    cases cell with
    | none => exact .inl ⟨rfl, List.mem_cons_self⟩
    | some x =>
      rcases ih with ⟨hnone, hmem⟩ | ⟨values, hsome, rfl⟩
      · rw [hnone]
        exact .inl ⟨rfl, List.mem_cons_of_mem _ hmem⟩
      · rw [hsome]
        exact .inr ⟨x :: values, rfl, rfl⟩

namespace Builtin

variable {b b' : Builtin} {m t : Memory} {a c : Address}

/-! ## Instances -/

/-- The place of a cell lies in its instance. -/
theorem placeInInstance_lt (b : Builtin) (a : Address) :
    b.placeInInstance a < b.kind.cellsPerInstance :=
  Nat.mod_lt _ b.kind.cellsPerInstance_pos

/-- A cell stands at its place from the start of its instance on. -/
theorem offset_eq (b : Builtin) (a : Address) :
    a.offset = (b.instanceStart a).offset + b.placeInInstance a :=
  (Nat.sub_add_cancel (Nat.mod_le a.offset b.kind.cellsPerInstance)).symm

/-- Instances follow one another. -/
theorem offset_instanceStart (b : Builtin) (a : Address) :
    (b.instanceStart a).offset =
      a.offset / b.kind.cellsPerInstance * b.kind.cellsPerInstance := by
  have hmod := Nat.div_add_mod' a.offset b.kind.cellsPerInstance
  have hoff := b.offset_eq a
  unfold placeInInstance at hoff
  omega

/-- A cell at a distance from the start of an instance that is less than its length has this
place in it. -/
theorem instanceStart_of_shift {j : Nat} (hj : j < b.kind.cellsPerInstance)
    (hc : (b.instanceStart a).shift j = .ok c) :
    b.placeInInstance c = j ∧ b.instanceStart c = b.instanceStart a := by
  obtain ⟨hseg, hoff⟩ := Address.shift_eq_ok.mp hc
  have hplace : b.placeInInstance c = j := by
    have hsum : c.offset =
        a.offset / b.kind.cellsPerInstance * b.kind.cellsPerInstance + j := by
      rw [← offset_instanceStart]
      omega
    unfold placeInInstance
    rw [hsum, Nat.mul_add_mod_self_right, Nat.mod_eq_of_lt hj]
  refine ⟨hplace, Address.ext hseg ?_⟩
  have heq := b.offset_eq c
  omega

/-- The cells of an instance up to one of its cells are addresses. -/
theorem exists_shift_instanceStart {i : Nat} (hi : i ≤ b.placeInInstance a) :
    ∃ c, (b.instanceStart a).shift i = .ok c := by
  have hoff := b.offset_eq a
  have hlt := a.offset_lt
  refine ⟨⟨a.segment, (b.instanceStart a).offset + i, by omega⟩, ?_⟩
  exact Address.shift_eq_ok.mpr ⟨rfl, Int.natCast_add _ _⟩

/-! ## Inputs and outputs -/

/-- Inputs that are all field elements are these elements. -/
theorem feltInputs_ok {first : Address} {check : Address → Felt → Except Fault Unit} {i : Nat}
    {inputs : List Value} {xs : List Felt} (h : b.feltInputs first check i inputs = .ok xs) :
    inputs = xs.map .felt := by
  induction inputs generalizing i xs with
  | nil =>
    obtain rfl := Except.ok.inj h
    rfl
  | cons v rest ih =>
    obtain ⟨c, -, h⟩ := Answer.bind_eq_ok.mp h
    cases v with
    | address d => cases h
    | felt x =>
      obtain ⟨-, -, h⟩ := Answer.bind_eq_ok.mp h
      obtain ⟨ys, hys, h⟩ := Answer.bind_eq_ok.mp h
      obtain rfl := Answer.pure_eq_ok.mp h
      rw [ih hys]
      rfl

/-- The outputs of an instance come from inputs that are field elements. -/
theorem outputs_ok {first : Address} {inputs : List Value} {values : List Felt}
    (h : b.outputs first inputs = .ok values) :
    ∃ xs, inputs = xs.map .felt ∧ feltOutputs b.kind xs = .ok values := by
  obtain ⟨xs, hxs, hvalues⟩ := Answer.bind_eq_ok.mp h
  exact ⟨xs, feltInputs_ok hxs, hvalues⟩

/-- The outputs of an instance whose inputs are given as field elements. -/
theorem feltOutputs_of_outputs {first : Address} {xs values : List Felt}
    (h : b.outputs first (xs.map .felt) = .ok values) : feltOutputs b.kind xs = .ok values := by
  obtain ⟨ys, hys, hvalues⟩ := outputs_ok h
  rwa [List.map_injective_iff.mpr (fun _ _ => Value.felt.inj) hys]

/-- An instance with all its inputs has a value for every output cell. -/
theorem length_of_feltOutputs {kind : BuiltinKind} {xs values : List Felt}
    (hlength : xs.length = kind.inputCells) (h : feltOutputs kind xs = .ok values) :
    values.length = kind.cellsPerInstance - kind.inputCells := by
  cases kind with
  | output | rangeCheck =>
    obtain rfl := Except.ok.inj h
    rfl
  | pedersen | bitwise =>
    match xs, hlength with
    | [x, y], _ =>
      obtain rfl := Except.ok.inj h
      rfl
  | poseidon =>
    match xs, hlength with
    | [x, y, z], _ =>
      obtain rfl := Except.ok.inj h
      rfl
  | ecOp =>
    match xs, hlength with
    | [px, py, qx, qy, k], _ =>
      obtain ⟨-, -, h⟩ := Answer.bind_eq_ok.mp h
      obtain ⟨-, -, h⟩ := Answer.bind_eq_ok.mp h
      obtain ⟨r, -, h⟩ := Answer.bind_eq_ok.mp h
      obtain rfl := Answer.pure_eq_ok.mp h
      rfl

/-! ## Deduction -/

/-- What is deduced for a cell: nothing for an input, and nothing while an input of its instance is
missing.  Otherwise it is the output at its place, for the inputs of its instance. -/
inductive IsDeduced (b : Builtin) (m : Memory) (a : Address) : Except Fault (Option Felt) → Prop
  | input (hplace : b.placeInInstance a < b.kind.inputCells) : IsDeduced b m a (.ok none)
  | missing {i : Nat} {c : Address} (hplace : b.kind.inputCells ≤ b.placeInInstance a)
      (hi : i < b.kind.inputCells) (hc : (b.instanceStart a).shift i = .ok c)
      (hnone : m.get? c = none) : IsDeduced b m a (.ok none)
  | computed {inputs : List Value} (hplace : b.kind.inputCells ≤ b.placeInInstance a)
      (hlength : inputs.length = b.kind.inputCells)
      (hinputs : m.HoldsFrom (b.instanceStart a) inputs) :
      IsDeduced b m a ((b.outputs (b.instanceStart a) inputs).map (b.outputAt a))

/-- The outputs of the instance of a cell are there when the cell is an output and all inputs are
written. -/
theorem instanceOutputs_of_holdsFrom {inputs : List Value}
    (hplace : b.kind.inputCells ≤ b.placeInInstance a)
    (hlength : inputs.length = b.kind.inputCells)
    (hinputs : m.HoldsFrom (b.instanceStart a) inputs) :
    b.instanceOutputs m a = (b.outputs (b.instanceStart a) inputs).map some := by
  have hrange := hinputs.getRange
  rw [hlength] at hrange
  have hsome : (inputs.map some).mapM id = some inputs := by
    rcases exists_of_mapM_id (inputs.map some) with ⟨-, hmem⟩ | ⟨values, hvalues, heq⟩
    · simp at hmem
    · rw [hvalues, List.map_injective_iff.mpr (Option.some_injective _) heq]
  unfold instanceOutputs
  rw [if_neg (Nat.not_lt.mpr hplace)]
  dsimp only
  rw [hrange, Answer.ok_bind, hsome]
  dsimp only
  cases b.outputs (b.instanceStart a) inputs with
  | ok values => rfl
  | error e => rfl

/-- There are no outputs for an input cell. -/
theorem instanceOutputs_of_input (hplace : b.placeInInstance a < b.kind.inputCells) :
    b.instanceOutputs m a = .ok none := by
  unfold instanceOutputs
  rw [if_pos hplace]
  rfl

/-- The inputs of an instance are all written, or one of them is missing and there are no
outputs. -/
theorem inputs_cases (m : Memory) (hplace : b.kind.inputCells ≤ b.placeInInstance a) :
    (∃ i c, i < b.kind.inputCells ∧ (b.instanceStart a).shift i = .ok c ∧ m.get? c = none ∧
        b.instanceOutputs m a = .ok none) ∨
      ∃ inputs, inputs.length = b.kind.inputCells ∧ m.HoldsFrom (b.instanceStart a) inputs := by
  obtain ⟨cells, hcells⟩ :
      ∃ cells, m.getRange (b.instanceStart a) b.kind.inputCells = .ok cells := by
    refine Answer.exists_mapM_ok fun i hi => ?_
    rw [List.mem_range, Int.toNat_natCast] at hi
    obtain ⟨c, hc⟩ := b.exists_shift_instanceStart (a := a) (hi.le.trans hplace)
    exact ⟨_, Answer.bind_eq_ok.mpr ⟨c, hc, rfl⟩⟩
  obtain ⟨hlength, hget⟩ := Memory.getRange_eq_ok.mp hcells
  rw [Int.toNat_natCast] at hlength
  rcases exists_of_mapM_id cells with ⟨hnone, hmem⟩ | ⟨inputs, -, rfl⟩
  · obtain ⟨i, hi⟩ := List.mem_iff_getElem?.mp hmem
    obtain ⟨hlt, -⟩ := List.getElem?_eq_some_iff.mp hi
    obtain ⟨c, hc, hmissing⟩ := hget i none hi
    refine .inl ⟨i, c, hlength ▸ hlt, hc, hmissing, ?_⟩
    unfold instanceOutputs
    rw [if_neg (Nat.not_lt.mpr hplace)]
    dsimp only
    rw [hcells, Answer.ok_bind, hnone]
    rfl
  · rw [List.length_map] at hlength
    refine .inr ⟨inputs, hlength, fun i v hv => hget i (some v) ?_⟩
    rw [List.getElem?_map, hv]
    rfl

/-- Deducing fresh picks the output at the place of the cell from the outputs of its instance. -/
theorem deduceFresh_eq (b : Builtin) (m : Memory) (a : Address) :
    b.deduceFresh m a = (b.instanceOutputs m a).map (·.bind (b.outputAt a)) := rfl

/-- Deducing fresh ends in one of the three ways. -/
theorem isDeduced_deduceFresh (b : Builtin) (m : Memory) (a : Address) :
    IsDeduced b m a (b.deduceFresh m a) := by
  rw [deduceFresh_eq]
  rcases Nat.lt_or_ge (b.placeInInstance a) b.kind.inputCells with hinput | hplace
  · rw [instanceOutputs_of_input hinput]
    exact .input hinput
  · rcases b.inputs_cases m hplace with ⟨i, c, hi, hc, hnone, hoff⟩ | ⟨inputs, hlength, hinputs⟩
    · rw [hoff]
      exact .missing hplace hi hc hnone
    · rw [instanceOutputs_of_holdsFrom hplace hlength hinputs]
      have hcomputed := IsDeduced.computed hplace hlength hinputs
      cases hvalues : b.outputs (b.instanceStart a) inputs with
      | ok values =>
        rw [hvalues] at hcomputed
        exact hcomputed
      | error e =>
        rw [hvalues] at hcomputed
        exact hcomputed

/-- The outputs of an instance are known exactly when the cell is an output cell and the inputs are
field elements for which the builtin has outputs. -/
theorem instanceOutputs_eq_some_iff {values : List Felt} :
    b.instanceOutputs m a = .ok (some values) ↔ b.kind.inputCells ≤ b.placeInInstance a ∧
      ∃ xs : List Felt, xs.length = b.kind.inputCells ∧
        m.HoldsFrom (b.instanceStart a) (xs.map .felt) ∧
          b.outputs (b.instanceStart a) (xs.map .felt) = .ok values := by
  constructor
  · intro h
    rcases Nat.lt_or_ge (b.placeInInstance a) b.kind.inputCells with hinput | hplace
    · rw [instanceOutputs_of_input hinput] at h
      cases h
    · rcases b.inputs_cases m hplace with ⟨i, c, -, -, -, hoff⟩ | ⟨inputs, hlength, hinputs⟩
      · rw [hoff] at h
        cases h
      · rw [instanceOutputs_of_holdsFrom hplace hlength hinputs] at h
        obtain ⟨values', hvalues, heq⟩ := Answer.map_eq_ok.mp h
        obtain rfl := Option.some.inj heq
        obtain ⟨xs, rfl, -⟩ := outputs_ok hvalues
        rw [List.length_map] at hlength
        exact ⟨hplace, xs, hlength, hinputs, hvalues⟩
  · rintro ⟨hplace, xs, hlength, hinputs, hvalues⟩
    rw [instanceOutputs_of_holdsFrom hplace (by rwa [List.length_map]) hinputs, hvalues]
    rfl

/-- What the outputs of an instance are stays in every memory that keeps field elements. -/
theorem instanceOutputs_of_keepsFelts {values : List Felt} (hkeeps : m.KeepsFelts t)
    (ha : 0 ≤ a.segment) (h : b.instanceOutputs m a = .ok (some values)) :
    b.instanceOutputs t a = .ok (some values) := by
  obtain ⟨hplace, xs, hlength, hinputs, hvalues⟩ := instanceOutputs_eq_some_iff.mp h
  exact instanceOutputs_eq_some_iff.mpr
    ⟨hplace, xs, hlength, hinputs.of_keepsFelts hkeeps ha, hvalues⟩

/-- Inputs are read alike by builtins of one kind. -/
theorem feltInputs_congr (hkind : b'.kind = b.kind) (first : Address)
    (check : Address → Felt → Except Fault Unit) (i : Nat) (inputs : List Value) :
    b'.feltInputs first check i inputs = b.feltInputs first check i inputs := by
  induction inputs generalizing i with
  | nil => rfl
  | cons v rest ih =>
    unfold feltInputs
    rw [hkind]
    simp only [ih]

/-- Deducing fresh depends on the kind of a builtin and on the bits that it works on. -/
theorem deduceFresh_congr (hkind : b'.kind = b.kind) (hbits : b'.totalBits = b.totalBits)
    (m : Memory) (a : Address) : b'.deduceFresh m a = b.deduceFresh m a := by
  have hcheck : b'.checkBits = b.checkBits := by
    funext c x
    unfold checkBits
    rw [hbits]
  have houtputs : ∀ first inputs, b'.outputs first inputs = b.outputs first inputs := by
    intro first inputs
    unfold outputs
    simp only [hkind, hcheck, feltInputs_congr hkind]
  unfold deduceFresh instanceOutputs instanceStart outputAt placeInInstance
  simp only [houtputs, hkind]

/-- A value is deduced fresh when it stands among the outputs of the instance. -/
theorem deduceFresh_eq_some_iff {x : Felt} :
    b.deduceFresh m a = .ok (some x) ↔
      ∃ values, b.instanceOutputs m a = .ok (some values) ∧ b.outputAt a values = some x := by
  rw [deduceFresh_eq, Answer.map_eq_ok]
  constructor
  · rintro ⟨found, hfound, hx⟩
    obtain ⟨values, rfl, hx⟩ := Option.bind_eq_some_iff.mp hx
    exact ⟨values, hfound, hx⟩
  · rintro ⟨values, hvalues, hx⟩
    exact ⟨some values, hvalues, hx⟩

/-- A value that is deduced stays so in every memory that keeps field elements. -/
theorem deduceFresh_of_keepsFelts {x : Felt} (hkeeps : m.KeepsFelts t) (ha : 0 ≤ a.segment)
    (h : b.deduceFresh m a = .ok (some x)) : b.deduceFresh t a = .ok (some x) := by
  obtain ⟨values, hvalues, hx⟩ := deduceFresh_eq_some_iff.mp h
  exact deduceFresh_eq_some_iff.mpr
    ⟨values, instanceOutputs_of_keepsFelts hkeeps ha hvalues, hx⟩

end Builtin

end Cairo
