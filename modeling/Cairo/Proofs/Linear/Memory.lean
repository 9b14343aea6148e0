import Mathlib.Algebra.Ring.Nat
import Cairo.Proofs.Memory.WriteOnce
import Cairo.Segments
import Cairo.Trace.Linear

/-!
# Linear memory

The relocation table starts every segment behind the one before it, by the size of that
(`isTable_relocationTable`).  When no size is less than that of the array, the table lays the
segments out side by side (`LaysOut`), so that two written cells never have one linear address
(`linear_injective`).  Linear memory then has the written cells of the real segments
at their linear addresses, and no others (`cell?_ofMemory`).
-/

namespace Cairo

/-! ## The relocation table -/

/-- The linear address of the first cell of a segment, where segments of the given sizes lie one
behind another from address 1 on. -/
def linearStart (sizes : List Nat) (k : Nat) : Nat := 1 + (sizes.take k).sum

/-- A segment starts behind the one before it. -/
theorem linearStart_succ {sizes : List Nat} {k n : Nat} (h : sizes[k]? = some n) :
    linearStart sizes (k + 1) = linearStart sizes k + n := by
  unfold linearStart
  rw [List.take_add_one, h, Option.toList_some, List.sum_append, List.sum_singleton]
  omega

/-- Segments start in their order. -/
theorem linearStart_mono (sizes : List Nat) {k l : Nat} (h : k ≤ l) :
    linearStart sizes k ≤ linearStart sizes l := by
  induction l, h using Nat.le_induction with
  | base => exact Nat.le_refl _
  | succ l _ ih =>
    cases hl : sizes[l]? with
    | none =>
      unfold linearStart at ih ⊢
      rw [List.take_add_one, hl, Option.toList_none, List.append_nil]
      exact ih
    | some n =>
      rw [linearStart_succ hl]
      omega

/-- No segment starts behind the end of all of them. -/
theorem linearStart_le (sizes : List Nat) (k : Nat) : linearStart sizes k ≤ 1 + sizes.sum := by
  unfold linearStart
  have hsum : (sizes.take k).sum + (sizes.drop k).sum = sizes.sum := by
    rw [← List.sum_append, List.take_append_drop]
  omega

namespace Segments

variable {s : Segments} {sizes : List Nat}

/-- The required size of a segment is the one that was set, or else the one in use. -/
theorem requireSize_cases {k : Nat} {n : Int} (h : s.requireSize k = .ok n) :
    s.fixedSizes[(k : Int)]? = some n ∨ s.fixedSizes[(k : Int)]? = none ∧
      ∃ (sizes : List Nat) (size : Nat), s.usedSizes = some sizes ∧ sizes[k]? = some size ∧
        n = size := by
  have hneg : ¬ (k : Int) < 0 := Int.not_lt.mpr (Int.natCast_nonneg k)
  unfold requireSize size usedSize at h
  obtain ⟨size?, hsize, h⟩ := Answer.bind_eq_ok.mp h
  obtain rfl := Answer.orThrow_eq_ok.mp h
  cases hset : s.fixedSizes[(k : Int)]? with
  | some fixed =>
    rw [hset] at hsize
    exact .inl (Except.ok.inj hsize)
  | none =>
    rw [hset] at hsize
    obtain ⟨used, hused, hsize⟩ := Answer.bind_eq_ok.mp hsize
    cases hsizes : s.usedSizes with
    | none =>
      rw [hsizes] at hused
      cases hused
    | some sizes =>
      rw [hsizes] at hused
      obtain rfl := Except.ok.inj hused
      rw [if_neg hneg, Int.toNat_natCast] at hsize
      obtain ⟨size, hsome, rfl⟩ := Option.map_eq_some_iff.mp (Answer.pure_eq_ok.mp hsize)
      exact .inr ⟨rfl, sizes, size, rfl, hsome, rfl⟩

/-- The required size of a segment is its size in use, where no size was set. -/
theorem requireSize_ok (hused : s.usedSizes = some sizes) (hfixed : s.fixedSizes = ∅) {k : Nat}
    {n : Int} (h : s.requireSize k = .ok n) : ∃ size : Nat, sizes[k]? = some size ∧ n = size := by
  rcases requireSize_cases h with hset | ⟨-, sizes', size, hused', hsize, hn⟩
  · rw [hfixed, Std.ExtTreeMap.getElem?_empty] at hset
    cases hset
  · obtain rfl := Option.some.inj (hused.symm.trans hused')
    exact ⟨size, hsize, hn⟩

/-- A table begins at its start and goes on, from each segment to the next one, by the size of the
segment. -/
structure IsTable (s : Segments) (start : Int) (i count : Nat) (table : List Int) : Prop where
  length_eq : table.length = count
  first : ∀ n, table[0]? = some n → n = start
  next : ∀ k n n', table[k]? = some n → table[k + 1]? = some n' →
    ∃ size, s.requireSize (i + k : Nat) = .ok size ∧ n' = n + size

/-- The table from a segment on has this segment and those behind it. -/
theorem isTable_tableFrom {i count : Nat} {start : Int} {table : List Int}
    (h : s.tableFrom start i count = .ok table) : s.IsTable start i count table := by
  induction count generalizing i start table with
  | zero =>
    obtain rfl := Except.ok.inj h
    exact ⟨rfl, nofun, nofun⟩
  | succ count ih =>
    obtain ⟨size, hsize, h⟩ := Answer.bind_eq_ok.mp h
    obtain ⟨rest, hrest, h⟩ := Answer.bind_eq_ok.mp h
    obtain rfl := Answer.pure_eq_ok.mp h
    have htable := ih hrest
    refine ⟨congrArg (· + 1) htable.length_eq, fun n hn => (Option.some.inj hn).symm, ?_⟩
    intro k n n' hk hk'
    cases k with
    | zero =>
      obtain rfl := Option.some.inj hk
      exact ⟨size, hsize, htable.first n' hk'⟩
    | succ k =>
      obtain ⟨size', hsize', hn'⟩ := htable.next k n n' hk hk'
      rw [Nat.add_assoc, Nat.add_comm 1 k] at hsize'
      exact ⟨size', hsize', hn'⟩

/-- Every segment of a table has a size. -/
theorem exists_requireSize_of_tableFrom {i count : Nat} {start : Int} {table : List Int}
    (h : s.tableFrom start i count = .ok table) {k : Nat} (hk : k < count) :
    ∃ size, s.requireSize (i + k : Nat) = .ok size := by
  induction count generalizing i start table k with
  | zero => exact absurd hk (Nat.not_lt_zero k)
  | succ count ih =>
    obtain ⟨size, hsize, h⟩ := Answer.bind_eq_ok.mp h
    obtain ⟨rest, hrest, -⟩ := Answer.bind_eq_ok.mp h
    cases k with
    | zero => exact ⟨size, hsize⟩
    | succ k =>
      obtain ⟨size', hsize'⟩ := ih hrest (Nat.lt_of_succ_lt_succ hk)
      rw [Nat.add_assoc, Nat.add_comm 1 k] at hsize'
      exact ⟨size', hsize'⟩

/-- The relocation table begins at address 1 with the first of all real segments. -/
theorem isTable_relocationTable {table : List Int} (h : s.relocationTable = .ok table) :
    s.IsTable 1 0 s.memory.segments.size table := by
  unfold relocationTable at h
  split at h
  · cases h
  · exact isTable_tableFrom h

/-- The relocation table has the starts of the segments. -/
theorem getElem?_relocationTable (hused : s.usedSizes = some sizes) (hfixed : s.fixedSizes = ∅)
    {table : List Int} (h : s.relocationTable = .ok table) {k : Nat} {n : Int}
    (hk : table[k]? = some n) : n = linearStart sizes k := by
  have htable := isTable_relocationTable h
  induction k generalizing n with
  | zero => exact htable.first n hk
  | succ k ih =>
    obtain ⟨hlt, -⟩ := List.getElem?_eq_some_iff.mp hk
    have hprevious : table[k]? = some table[k] := List.getElem?_eq_getElem (by omega)
    obtain ⟨m, hm, rfl⟩ := htable.next k _ n hprevious hk
    rw [Nat.zero_add] at hm
    obtain ⟨size, hsize, rfl⟩ := requireSize_ok hused hfixed hm
    rw [ih hprevious, linearStart_succ hsize, Int.natCast_add]

/-- There is a relocation table only if all segments were there when the sizes were computed. -/
theorem size_le_of_relocationTable (hused : s.usedSizes = some sizes) (hfixed : s.fixedSizes = ∅)
    {table : List Int} (h : s.relocationTable = .ok table) :
    s.memory.segments.size ≤ sizes.length := by
  unfold relocationTable at h
  split at h
  · cases h
  · by_contra hlt
    obtain ⟨n, hn⟩ := exists_requireSize_of_tableFrom h (Nat.lt_of_not_le hlt)
    obtain ⟨size, hsize, -⟩ := requireSize_ok hused hfixed hn
    rw [Nat.zero_add, List.getElem?_eq_none (Nat.le_refl _)] at hsize
    cases hsize

end Segments

/-! ## Linear addresses -/

/-- The linear address of an address counts from the start of its segment, which is real. -/
theorem Address.linear_eq_ok {table : List Int} {a : Address} {n : Int} :
    a.linear table = .ok n ↔
      0 ≤ a.segment ∧ ∃ start, table[a.segment.toNat]? = some start ∧ n = start + a.offset := by
  unfold linear
  by_cases hreal : a.segment < 0
  · rw [if_pos hreal]
    exact ⟨nofun, fun h => absurd h.1 (Int.not_le.mpr hreal)⟩
  · rw [if_neg hreal]
    cases hstart : table[a.segment.toNat]? with
    | none => simp
    | some start =>
      simp only [Except.ok.injEq, Option.some.injEq]
      constructor
      · rintro rfl
        exact ⟨Int.not_lt.mp hreal, start, rfl, rfl⟩
      · rintro ⟨-, _, rfl, rfl⟩
        rfl

/-- A relocation table that has the starts of segments of the given sizes. -/
def StartsAt (sizes : List Nat) (table : List Int) : Prop :=
  ∀ (k : Nat) (n : Int), table[k]? = some n → n = linearStart sizes k

/-- A relocation table has no segment at address 0 or before, and none before the end of the cells
of an earlier one. -/
structure LaysOut (table : List Int) (m : Memory) : Prop where
  pos : ∀ (k : Nat) (n : Int), table[k]? = some n → 0 < n
  behind : ∀ (k l : Nat) (n n' : Int) (s : Segment), k < l → table[k]? = some n →
    table[l]? = some n' → m.segments[k]? = some s → n + s.size ≤ n'

/-- A table that has the starts of segments of the sizes of their arrays lays these out. -/
theorem StartsAt.laysOut {table : List Int} {m : Memory}
    (h : StartsAt (m.segments.toList.map Array.size) table) : LaysOut table m := by
  constructor
  · intro k n hn
    rw [h k n hn]
    unfold linearStart
    omega
  · intro k l n n' s hkl hn hn' hs
    have hsize : (m.segments.toList.map Array.size)[k]? = some s.size := by
      rw [List.getElem?_map, Array.getElem?_toList, hs]
      rfl
    have hmono := linearStart_mono (m.segments.toList.map Array.size) hkl
    rw [Nat.succ_eq_add_one, linearStart_succ hsize] at hmono
    rw [h k n hn, h l n' hn']
    omega

/-- A cell of a real segment that is written lies before the end of its segment. -/
theorem Memory.offset_lt_size {m : Memory} {a : Address} {v : Value} (hv : m.get? a = some v)
    (hreal : 0 ≤ a.segment) : ∃ s, m.segments[a.segment.toNat]? = some s ∧ a.offset < s.size := by
  obtain ⟨s, hs, hsv⟩ := segment?_of_get? hv
  refine ⟨s, ?_, ?_⟩
  · obtain ⟨k, hk⟩ := Int.eq_ofNat_of_zero_le hreal
    rw [hk] at hs ⊢
    exact hs
  · by_contra hge
    rw [Array.getElem?_eq_none (Nat.not_lt.mp hge)] at hsv
    cases hsv

/-- Two written cells of real segments have different linear addresses. -/
theorem linear_injective {m : Memory} {table : List Int} (htable : LaysOut table m)
    {a b : Address} {v w : Value} (ha : m.get? a = some v) (hb : m.get? b = some w) {n : Int}
    (han : a.linear table = .ok n) (hbn : b.linear table = .ok n) : a = b := by
  obtain ⟨hareal, start, hstart, rfl⟩ := Address.linear_eq_ok.mp han
  obtain ⟨hbreal, start', hstart', heq⟩ := Address.linear_eq_ok.mp hbn
  obtain ⟨s, hs, hoffset⟩ := Memory.offset_lt_size ha hareal
  obtain ⟨s', hs', hoffset'⟩ := Memory.offset_lt_size hb hbreal
  rcases Int.lt_trichotomy a.segment b.segment with hlt | hseg | hlt
  · have hbehind := htable.behind _ _ start start' s (by omega) hstart hstart' hs
    omega
  · rw [hseg, hstart'] at hstart
    obtain rfl := Option.some.inj hstart
    exact Address.ext hseg (by omega)
  · have hbehind := htable.behind _ _ start' start s' (by omega) hstart' hstart hs'
    omega

/-! ## Placing cells -/

/-- The written cells of the real segments, in order. -/
def Memory.realItems (m : Memory) : List (Address × Value) :=
  (List.range m.segments.size).flatMap fun i : Nat => m.itemsOf i

/-- The items of the real segments are the written cells in them. -/
theorem Memory.mem_realItems_iff {m : Memory} {a : Address} {v : Value} :
    (a, v) ∈ m.realItems ↔ m.get? a = some v ∧ 0 ≤ a.segment := by
  simp only [realItems, List.mem_flatMap, List.mem_range, mem_itemsOf_iff]
  constructor
  · rintro ⟨i, -, hseg, hv⟩
    exact ⟨hv, by omega⟩
  · rintro ⟨hv, hreal⟩
    obtain ⟨i, hi⟩ := Int.eq_ofNat_of_zero_le hreal
    obtain ⟨s, hs, -⟩ := segment?_of_get? hv
    rw [hi] at hs
    exact ⟨i, (Array.getElem?_eq_some_iff.mp hs).1, hi, hv⟩

namespace LinearMemory

/-- The cell at a linear address. -/
def cell? (m : LinearMemory) : Int → Option Felt
  | .ofNat n => m[n]?.join
  | .negSucc _ => none

/-- Placing a cell at an address that is not negative changes the cell there alone. -/
theorem cell?_place {m t : LinearMemory} {n : Int} {x : Felt} (hn : 0 ≤ n)
    (h : m.place n x = .ok t) (k : Int) : t.cell? k = if k = n then some x else m.cell? k := by
  obtain ⟨n, rfl⟩ := Int.eq_ofNat_of_zero_le hn
  obtain rfl := Except.ok.inj h
  cases k with
  | ofNat k =>
    show Option.join _ = _
    rw [join_getElem?_grow]
    simp only [Int.ofNat_eq_natCast, Int.natCast_inj]
    rfl
  | negSucc k => rfl

/-- A cell of the segments has its linear address and its linear value. -/
def Places (table : List Int) (p : Address × Value) (n : Int) (x : Felt) : Prop :=
  p.1.linear table = .ok n ∧ p.2.linear table = .ok x

/-- Placing a list of cells with different linear addresses, none of which is negative, puts every
cell there and keeps the cells elsewhere. -/
theorem cell?_placeCells {table : List Int} {l : List (Address × Value)} {m t : LinearMemory}
    (h : l.foldlM (fun m p => placeCell table m p.1 p.2) m = .ok t)
    (hdistinct : l.Pairwise fun p q => ∀ n, p.1.linear table = .ok n → q.1.linear table ≠ .ok n)
    (hpos : ∀ p ∈ l, ∀ n, p.1.linear table = .ok n → 0 ≤ n) :
    (∀ p ∈ l, ∃ n x, Places table p n x) ∧
      ∀ n x, t.cell? n = some x ↔ (∃ p ∈ l, Places table p n x) ∨
        m.cell? n = some x ∧ ∀ p ∈ l, p.1.linear table ≠ .ok n := by
  induction l generalizing m with
  | nil =>
    obtain rfl := Answer.pure_eq_ok.mp h
    simp
  | cons p rest ih =>
    rw [List.foldlM_cons] at h
    obtain ⟨m', hplace, hrest⟩ := Answer.bind_eq_ok.mp h
    obtain ⟨hfirst, hothers⟩ := List.pairwise_cons.mp hdistinct
    obtain ⟨hall, hcells⟩ := ih hrest hothers fun q hq => hpos q (List.mem_cons_of_mem p hq)
    obtain ⟨n, hn, h⟩ := Answer.bind_eq_ok.mp hplace
    obtain ⟨x, hx, h⟩ := Answer.bind_eq_ok.mp h
    have hp : Places table p n x := ⟨hn, hx⟩
    have hcell := cell?_place (hpos p List.mem_cons_self n hn) h
    refine ⟨List.forall_mem_cons.mpr ⟨⟨n, x, hp⟩, hall⟩, fun k y => ?_⟩
    rw [hcells, hcell]
    by_cases hk : k = n
    -- At the new address stands the new cell, which none of the later ones replaces.
    · subst hk
      rw [if_pos rfl]
      constructor
      · rintro (⟨q, hq, hqy⟩ | ⟨hy, -⟩)
        · exact .inl ⟨q, List.mem_cons_of_mem p hq, hqy⟩
        · obtain rfl := Option.some.inj hy
          exact .inl ⟨p, List.mem_cons_self, hp⟩
      · rintro (⟨q, hq, hqy⟩ | ⟨-, hno⟩)
        · rcases List.mem_cons.mp hq with rfl | hq
          · obtain rfl := Except.ok.inj (hqy.2.symm.trans hx)
            exact .inr ⟨rfl, fun q hq => hfirst q hq k hn⟩
          · exact .inl ⟨q, hq, hqy⟩
        · exact absurd hn (hno p List.mem_cons_self)
    · have hpk : p.1.linear table ≠ .ok k := fun hlinear =>
        hk (Except.ok.inj (hlinear.symm.trans hn))
      rw [if_neg hk, List.forall_mem_cons]
      constructor
      · rintro (⟨q, hq, hqy⟩ | ⟨hy, hno⟩)
        · exact .inl ⟨q, List.mem_cons_of_mem p hq, hqy⟩
        · exact .inr ⟨hy, hpk, hno⟩
      · rintro (⟨q, hq, hqy⟩ | ⟨hy, -, hno⟩)
        · rcases List.mem_cons.mp hq with rfl | hq
          · exact absurd hqy.1 hpk
          · exact .inl ⟨q, hq, hqy⟩
        · exact .inr ⟨hy, hno⟩

/-- Going through lists one by one is going through all of them at once. -/
theorem foldlM_flatMap {α β : Type} (f : LinearMemory → β → Except Fault LinearMemory)
    (g : α → List β) (l : List α) (m : LinearMemory) :
    l.foldlM (fun m a => (g a).foldlM f m) m = (l.flatMap g).foldlM f m := by
  induction l generalizing m with
  | nil => rfl
  | cons a rest ih =>
    rw [List.foldlM_cons, List.flatMap_cons, List.foldlM_append]
    exact bind_congr fun m' => ih m'

/-- Linear memory has the written cells of the real segments at their linear addresses, with their
linear values, and no other cells. -/
theorem cell?_ofMemory {table : List Int} {memory : Memory} {m : LinearMemory}
    (htable : LaysOut table memory) (h : ofMemory table memory = .ok m) :
    (∀ a v, memory.get? a = some v → 0 ≤ a.segment → ∃ n x, Places table (a, v) n x) ∧
      ∀ n x, m.cell? n = some x ↔
        ∃ a v, memory.get? a = some v ∧ 0 ≤ a.segment ∧ Places table (a, v) n x := by
  have hmem : ∀ a v, (a, v) ∈ memory.realItems ↔ memory.get? a = some v ∧ 0 ≤ a.segment :=
    fun _ _ => Memory.mem_realItems_iff
  unfold ofMemory at h
  rw [foldlM_flatMap] at h
  have hdistinct := (memory.pairwise_flatMap_itemsOf memory.segments.size
    fun _ _ => Int.ofNat.inj).imp_of_mem (S := fun p q =>
      ∀ n, p.1.linear table = .ok n → q.1.linear table ≠ .ok n) (by
    rintro ⟨a, v⟩ ⟨b, w⟩ ha hb hne n han hbn
    exact hne (linear_injective htable ((hmem a v).mp ha).1 ((hmem b w).mp hb).1 han hbn))
  obtain ⟨hall, hcells⟩ := cell?_placeCells h hdistinct fun p _ n hn => by
    obtain ⟨-, start, hstart, rfl⟩ := Address.linear_eq_ok.mp hn
    have := htable.pos _ _ hstart
    omega
  refine ⟨fun a v hv hreal => hall (a, v) ((hmem a v).mpr ⟨hv, hreal⟩), fun n x => ?_⟩
  rw [hcells]
  constructor
  · rintro (⟨⟨a, v⟩, hp, hplaces⟩ | ⟨hstart, -⟩)
    · obtain ⟨hv, hreal⟩ := (hmem a v).mp hp
      exact ⟨a, v, hv, hreal, hplaces⟩
    · -- The memory that the cells are placed in has none.
      cases n with
      | ofNat n => cases n <;> cases hstart
      | negSucc n => cases hstart
  · rintro ⟨a, v, hv, hreal, hplaces⟩
    exact .inl ⟨(a, v), (hmem a v).mpr ⟨hv, hreal⟩, hplaces⟩

end LinearMemory

end Cairo
