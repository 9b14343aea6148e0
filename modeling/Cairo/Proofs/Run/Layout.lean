import Cairo.Proofs.Run.Linear

/-!
# The layout of a relocated run

A run lays its real segments out by a table of sizes that were computed, or set, beforehand.  If no
segment has more cells than its size says (`SizesCover`), relocating it loses nothing: every cell is
in linear memory at the place that the table gives it, no two cells share a place, and nothing else
is there (`IsLayout`).  Ending a run computes the sizes after its last write, so that they cover the
segments.
-/

namespace Cairo

/-! ## Sizes that cover the segments -/

namespace Segments

/-- No segment has more cells than its size says, be it computed or set. -/
structure SizesCover (s : Segments) : Prop where
  used : ∀ (sizes : List Nat) (k n : Nat) (cells : Segment), s.usedSizes = some sizes →
    sizes[k]? = some n → s.memory.segments[k]? = some cells → cells.size ≤ n
  fixed : ∀ (k : Nat) (n : Int) (cells : Segment), s.fixedSizes[(k : Int)]? = some n →
    s.memory.segments[k]? = some cells → cells.size ≤ n

variable {s : Segments} {table : List Int}

/-- The required size of a segment is no less than that of its array. -/
theorem SizesCover.size_le (h : s.SizesCover) {k : Nat} {n : Int} {cells : Segment}
    (hn : s.requireSize k = .ok n) (hcells : s.memory.segments[k]? = some cells) :
    cells.size ≤ n := by
  rcases requireSize_cases hn with hfixed | ⟨-, sizes, size, hused, hsize, rfl⟩
  · exact h.fixed k n cells hfixed hcells
  · exact Int.ofNat_le.mpr (h.used sizes k size cells hused hsize hcells)

/-- Sizes that are computed now, unless they were before, cover the segments as well. -/
theorem SizesCover.compute (h : s.SizesCover) :
    SizesCover { s with
      usedSizes := some (s.usedSizes.getD (s.memory.segments.toList.map Array.size)) } := by
  refine ⟨fun sizes k n cells hsizes hn hcells => ?_, h.fixed⟩
  obtain rfl := Option.some.inj hsizes
  cases hused : s.usedSizes with
  | some known =>
    rw [hused, Option.getD_some] at hn
    exact h.used known k n cells hused hn hcells
  | none =>
    rw [hused, Option.getD_none, List.getElem?_map, Array.getElem?_toList] at hn
    have hcells' : s.memory.segments[k]? = some cells := hcells
    rw [hcells'] at hn
    exact Nat.le_of_eq (Option.some.inj hn)

/-- A segment of the table is followed by the next one behind its last cell. -/
theorem IsTable.next_cells (htable : s.IsTable 1 0 s.memory.segments.size table)
    (hcover : s.SizesCover) {k : Nat} {n n' : Int} (hn : table[k]? = some n)
    (hn' : table[k + 1]? = some n') :
    ∃ cells, s.memory.segments[k]? = some cells ∧ n + cells.size ≤ n' := by
  obtain ⟨hlt, -⟩ := List.getElem?_eq_some_iff.mp hn
  rw [htable.length_eq] at hlt
  have hcells := Array.getElem?_eq_getElem hlt
  obtain ⟨size, hsize, rfl⟩ := htable.next k n n' hn hn'
  rw [Nat.zero_add] at hsize
  exact ⟨_, hcells, Int.add_le_add_left (hcover.size_le hsize hcells) n⟩

/-- A table of sizes that cover the segments lays them out. -/
theorem IsTable.laysOut (htable : s.IsTable 1 0 s.memory.segments.size table)
    (hcover : s.SizesCover) : LaysOut table s.memory := by
  have hprevious : ∀ {k : Nat} {n : Int}, table[k + 1]? = some n → ∃ n', table[k]? = some n' := by
    intro k n hn
    obtain ⟨hlt, -⟩ := List.getElem?_eq_some_iff.mp hn
    exact ⟨_, List.getElem?_eq_getElem (by omega)⟩
  constructor
  · intro k
    induction k with
    | zero =>
      intro n hn
      rw [htable.first n hn]
      exact Int.one_pos
    | succ k ih =>
      intro n' hn'
      obtain ⟨n, hn⟩ := hprevious hn'
      obtain ⟨cells, -, hle⟩ := htable.next_cells hcover hn hn'
      have hpos := ih n hn
      omega
  · intro k l n n' cells hkl hn hn' hcells
    induction l, hkl using Nat.le_induction generalizing n' with
    | base =>
      obtain ⟨cells', hcells', hle⟩ := htable.next_cells hcover hn hn'
      obtain rfl := Option.some.inj (hcells.symm.trans hcells')
      exact hle
    | succ l _ ih =>
      obtain ⟨n'', hn''⟩ := hprevious hn'
      obtain ⟨cells', -, hle⟩ := htable.next_cells hcover hn'' hn'
      have hbefore := ih n'' hn''
      omega

end Segments

/-- Linear memory is never without its cell at address 0. -/
theorem LinearMemory.size_pos_ofMemory {table : List Int} {memory : Memory} {l : LinearMemory}
    (h : ofMemory table memory = .ok l) : 0 < l.size := by
  refine Answer.foldlM_ok (fun m : LinearMemory => 0 < m.size) h Nat.one_pos ?_
  intro i _ m m' hm hsegment
  refine Answer.foldlM_ok (fun m : LinearMemory => 0 < m.size) hsegment hm ?_
  intro p _ m m' hm hcell
  obtain ⟨n, -, hcell⟩ := Answer.bind_eq_ok.mp hcell
  obtain ⟨x, -, hplace⟩ := Answer.bind_eq_ok.mp hcell
  unfold place at hplace
  split at hplace
  · obtain rfl := Except.ok.inj hplace
    rw [Array.size_setIfInBounds, Array.size_append]
    exact Nat.add_pos_left hm _
  · split at hplace
    · obtain rfl := Except.ok.inj hplace
      rwa [Array.size_setIfInBounds]
    · cases hplace

/-! ## The layout -/

/-- Linear memory is what the real segments are, laid out by a table. -/
structure IsLayout (s : Segments) (table : List Int) (memory : LinearMemory) : Prop where
  /-- There is an entry for every real segment. -/
  length_eq : table.length = s.memory.segments.size
  /-- The first segment begins at address 1. -/
  first : ∀ n, table[0]? = some n → n = 1
  /-- Every other segment begins where the one before it ends. -/
  next : ∀ (k : Nat) (n n' : Int), table[k]? = some n → table[k + 1]? = some n' →
    ∃ size, s.size k = .ok (some size) ∧ n' = n + size
  /-- Every written cell is found, with its linear value, as far from the beginning of its segment
  as before. -/
  cells : ∀ a v, s.memory.get? a = some v → 0 ≤ a.segment → ∃ start x, ∃ k : Nat,
    table[a.segment.toNat]? = some start ∧ (k : Int) = start + a.offset ∧
      v.linear table = .ok x ∧ memory[k]? = some (some x)
  /-- No two written cells have one linear address. -/
  injective : ∀ a b v w n, s.memory.get? a = some v → s.memory.get? b = some w →
    a.linear table = .ok n → b.linear table = .ok n → a = b
  /-- Only written cells are found. -/
  origin : ∀ (k : Nat) x, memory[k]? = some (some x) → ∃ a v, s.memory.get? a = some v ∧
    a.linear table = .ok k ∧ v.linear table = .ok x
  /-- Address 0 is not used. -/
  zero : memory[0]? = some none

/-- A memory that is placed by the relocation table of sizes that cover it is laid out. -/
theorem isLayout_ofMemory {s : Segments} {table : List Int} {memory : LinearMemory}
    (hcover : s.SizesCover) (htable : s.relocationTable = .ok table)
    (hmemory : LinearMemory.ofMemory table s.memory = .ok memory) : IsLayout s table memory := by
  have hisTable := Segments.isTable_relocationTable htable
  have hlays := hisTable.laysOut hcover
  obtain ⟨hplaces, hcells⟩ := LinearMemory.cell?_ofMemory hlays hmemory
  have horigin : ∀ (k : Nat) x, memory[k]? = some (some x) → ∃ a v, s.memory.get? a = some v ∧
      a.linear table = .ok k ∧ v.linear table = .ok x := by
    intro k x hk
    obtain ⟨a, v, hv, -, hplace⟩ := (hcells k x).mp (Option.join_eq_some_iff.mpr hk)
    exact ⟨a, v, hv, hplace⟩
  refine ⟨hisTable.length_eq, hisTable.first, fun k n n' hn hn' => ?_, fun a v hv hreal => ?_,
    fun a b v w n hv hw => linear_injective hlays hv hw, horigin, ?_⟩
  · obtain ⟨size, hsize, hsum⟩ := hisTable.next k n n' hn hn'
    rw [Nat.zero_add] at hsize
    obtain ⟨size?, hsome, hrequired⟩ := Answer.bind_eq_ok.mp hsize
    obtain rfl := Answer.orThrow_eq_ok.mp hrequired
    exact ⟨size, hsome, hsum⟩
  · obtain ⟨n, x, hplace⟩ := hplaces a v hv hreal
    obtain ⟨-, start, hstart, hn⟩ := Address.linear_eq_ok.mp hplace.1
    have hpos := hlays.pos _ start hstart
    obtain ⟨k, rfl⟩ := Int.eq_ofNat_of_zero_le (show 0 ≤ n by omega)
    have hcell := (hcells k x).mpr ⟨a, v, hv, hreal, hplace⟩
    exact ⟨start, x, k, hstart, hn, hplace.2, Option.join_eq_some_iff.mp hcell⟩
  · have hsize := LinearMemory.size_pos_ofMemory hmemory
    rw [Array.getElem?_eq_getElem hsize]
    cases hzero : memory[0] with
    | none => rfl
    | some x =>
      -- A cell at address 0 would lie before the beginning of its segment.
      rw [Array.getElem_eq_iff] at hzero
      obtain ⟨a, v, -, ha, -⟩ := horigin 0 x hzero
      obtain ⟨-, start, hstart, hsum⟩ := Address.linear_eq_ok.mp ha
      have hpos := hlays.pos _ start hstart
      omega

namespace Run

variable {r t : Run}

/-- Ending a run computes sizes that cover its segments. -/
theorem sizesCover_of_endRun (hused : r.machine.segments.usedSizes = none)
    (hfixed : r.machine.segments.fixedSizes = ∅) (h : endRun r = .ok () t) :
    t.machine.segments.SizesCover := by
  obtain ⟨-, hused', hfixed', -⟩ := endRun_ok hused h
  refine ⟨fun sizes k n cells hsizes hn hcells => ?_, fun k n cells hn => ?_⟩
  · obtain rfl := Option.some.inj (hused'.symm.trans hsizes)
    have hcells' : t.memory.segments[k]? = some cells := hcells
    rw [List.getElem?_map, Array.getElem?_toList, hcells'] at hn
    exact Nat.le_of_eq (Option.some.inj hn)
  · rw [hfixed', hfixed, Std.ExtTreeMap.getElem?_empty] at hn
    cases hn

/-- Relocating a run whose sizes cover its segments lays these out in linear memory. -/
theorem isLayout_of_relocate (hcover : r.machine.segments.SizesCover)
    (h : relocate r = .ok () t) :
    t.memory = r.memory ∧ ∃ table memory, t.machine.segments.relocationTable = .ok table ∧
      t.linearMemory = some memory ∧ IsLayout t.machine.segments table memory := by
  obtain ⟨table, memory, hsegments, htable, hmemory, hkeep, -⟩ := relocate_inv h
  have hsame : t.memory = r.memory := by
    show t.machine.segments.memory = _
    rw [hsegments]
    rfl
  have hcover' : t.machine.segments.SizesCover := by
    rw [hsegments]
    exact hcover.compute
  rw [← hsame] at hmemory
  exact ⟨hsame, table, memory, htable, hkeep, isLayout_ofMemory hcover' htable hmemory⟩

/-- The run of the program that moves a temporary segment is laid out. -/
theorem isLayout_of_relocate_relocating :
    ∃ (final : Address) (r₀ r₁ r₂ r₃ : Run) (table : List Int) (memory : LinearMemory),
      setUp .main (.new relocating ⟨"plain", []⟩ true false) = .ok final r₀ ∧
        [Advance.toAddress (some (.base 3)) ⟨some 10⟩].forM advance r₀ = .ok () r₁ ∧
          endRun r₁ = .ok () r₂ ∧ r₂.machine.segments.SizesCover ∧ relocate r₂ = .ok () r₃ ∧
            r₃.linearMemory = some memory ∧ IsLayout r₃.machine.segments table memory := by
  obtain ⟨final, r₀, r₁, r₂, r₃, hsetUp, hadvance, hused, hfixed, hend, hrelocate⟩ :
      ∃ (final : Address) (r₀ r₁ r₂ r₃ : Run),
        setUp .main (.new relocating ⟨"plain", []⟩ true false) = .ok final r₀ ∧
          [Advance.toAddress (some (.base 3)) ⟨some 10⟩].forM advance r₀ = .ok () r₁ ∧
            r₁.machine.segments.usedSizes = none ∧
              r₁.machine.segments.fixedSizes.isEmpty = true ∧
                endRun r₁ = .ok () r₂ ∧ relocate r₂ = .ok () r₃ := by
    obtain ⟨final, hsetUp⟩ : ∃ final, setUp .main (.new relocating ⟨"plain", []⟩ true false) =
        .ok final _ := Action.exists_eq_ok_of_isOk (by decide +kernel)
    exact ⟨final, _, _, _, _, hsetUp, Action.eq_ok_of_isOk (by decide +kernel),
      by decide +kernel, by decide +kernel, Action.eq_ok_of_isOk (by decide +kernel),
      Action.eq_ok_of_isOk (by decide +kernel)⟩
  have hcover := sizesCover_of_endRun hused (Std.ExtTreeMap.isEmpty_iff.mp hfixed) hend
  obtain ⟨-, table, memory, -, hkeep, hlayout⟩ := isLayout_of_relocate hcover hrelocate
  exact ⟨final, r₀, r₁, r₂, r₃, table, memory, hsetUp, hadvance, hend, hcover, hrelocate, hkeep,
    hlayout⟩

end Run

end Cairo
