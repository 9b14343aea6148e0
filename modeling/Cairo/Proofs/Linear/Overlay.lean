import Cairo.Proofs.Linear.Memory

/-!
# Segments that outgrow their sizes

A relocation table starts the segments one behind another by sizes that may be out of date.  A cell
within the size of its segment then lies before the start of every later segment, so it is found in
linear memory; but a cell beyond it may lie at the address of a cell of a later segment, which is
placed after it and takes its place (`isOverlay_ofMemory`).
-/

namespace Cairo

/-- The address lies before the end of its segment, by a list of sizes. -/
def Within (sizes : List Nat) (a : Address) : Prop :=
  ∃ size, sizes[a.segment.toNat]? = some size ∧ a.offset < size

variable {sizes : List Nat} {table : List Int} {memory : Memory} {l : LinearMemory}

/-- An address within the size of its segment lies before every later segment. -/
theorem linear_lt_of_within (hstarts : StartsAt sizes table) {a b : Address} {n k : Int}
    (ha : Within sizes a) (hlt : a.segment < b.segment) (han : a.linear table = .ok n)
    (hbk : b.linear table = .ok k) : n < k := by
  obtain ⟨hareal, start, hstart, rfl⟩ := Address.linear_eq_ok.mp han
  obtain ⟨-, start', hstart', rfl⟩ := Address.linear_eq_ok.mp hbk
  obtain ⟨size, hsize, hoffset⟩ := ha
  have hmono : linearStart sizes (a.segment.toNat + 1) ≤ linearStart sizes b.segment.toNat :=
    linearStart_mono sizes (by omega)
  rw [linearStart_succ hsize] at hmono
  rw [hstarts _ _ hstart, hstarts _ _ hstart']
  omega

/-- Two addresses of one segment with one linear address are the same. -/
theorem eq_of_linear_of_segment {a b : Address} {n : Int} (hseg : a.segment = b.segment)
    (han : a.linear table = .ok n) (hbn : b.linear table = .ok n) : a = b := by
  obtain ⟨-, start, hstart, rfl⟩ := Address.linear_eq_ok.mp han
  obtain ⟨-, start', hstart', heq⟩ := Address.linear_eq_ok.mp hbn
  rw [hseg, hstart'] at hstart
  obtain rfl := Option.some.inj hstart
  exact Address.ext hseg (by omega)

/-- The linear addresses of a table of starts are positive. -/
theorem StartsAt.linear_pos (hstarts : StartsAt sizes table) {a : Address} {n : Int}
    (han : a.linear table = .ok n) : 0 < n := by
  obtain ⟨-, start, hstart, rfl⟩ := Address.linear_eq_ok.mp han
  rw [hstarts _ _ hstart]
  unfold linearStart
  omega

namespace LinearMemory

/-- A cell that is placed is found at its linear address, unless another one is placed there after
it. -/
theorem cell?_placeCells_of_last (hstarts : StartsAt sizes table)
    {before after : List (Address × Value)} {p : Address × Value} {m t : LinearMemory}
    (h : (before ++ p :: after).foldlM (fun m p => placeCell table m p.1 p.2) m = .ok t) :
    ∃ n x, Places table p n x ∧
      ((∀ q ∈ after, q.1.linear table ≠ .ok n) → t.cell? n = some x) := by
  rw [List.foldlM_append] at h
  obtain ⟨m₁, -, h⟩ := Answer.bind_eq_ok.mp h
  rw [List.foldlM_cons] at h
  obtain ⟨m₂, hplace, hrest⟩ := Answer.bind_eq_ok.mp h
  obtain ⟨n, hn, hplace⟩ := Answer.bind_eq_ok.mp hplace
  obtain ⟨x, hx, hplace⟩ := Answer.bind_eq_ok.mp hplace
  have hcell : m₂.cell? n = some x := by
    rw [cell?_place (Int.le_of_lt (hstarts.linear_pos hn)) hplace, if_pos rfl]
  refine ⟨n, x, ⟨hn, hx⟩, fun hlast => ?_⟩
  refine Answer.foldlM_ok (fun m : LinearMemory => m.cell? n = some x) hrest hcell ?_
  intro q hq m m' hm hround
  obtain ⟨k, hk, hround⟩ := Answer.bind_eq_ok.mp hround
  obtain ⟨y, -, hround⟩ := Answer.bind_eq_ok.mp hround
  have hne : n ≠ k := by
    rintro rfl
    exact hlast q hq hk
  rw [cell?_place (Int.le_of_lt (hstarts.linear_pos hk)) hround, if_neg hne]
  exact hm

end LinearMemory

/-- The items of the real segments are listed in the order of the segments. -/
theorem Memory.pairwise_realItems (m : Memory) :
    m.realItems.Pairwise fun p q => p.1.segment ≤ q.1.segment := by
  have hindex : ∀ {i : Nat} {p : Address × Value}, p ∈ m.itemsOf i → p.1.segment = i :=
    fun h => (mem_itemsOf_iff.mp h).1
  unfold realItems
  rw [List.pairwise_flatMap]
  constructor
  · refine fun i _ => List.pairwise_of_forall_mem_list fun p hp q hq => ?_
    exact Int.le_of_eq ((hindex hp).trans (hindex hq).symm)
  · refine List.pairwise_lt_range.imp fun {i j} hij p hp q hq => ?_
    rw [hindex hp, hindex hq]
    omega

/-- Linear memory has the cells of the real segments, where later segments may lie over the ends of
earlier ones that have outgrown their sizes. -/
structure IsOverlay (sizes : List Nat) (table : List Int) (memory : Memory) (l : LinearMemory) :
    Prop where
  /-- There is an entry for every real segment. -/
  length_eq : table.length = memory.segments.size
  /-- Every real segment has a size. -/
  sized : memory.segments.size ≤ sizes.length
  /-- The segments start one behind another, by their sizes. -/
  starts : StartsAt sizes table
  /-- Every written cell is found at its linear address, with its linear value, unless it lies
  beyond the size of its segment and a cell of a later segment has the same address. -/
  found : ∀ a v, memory.get? a = some v → 0 ≤ a.segment → ∃ n x,
    LinearMemory.Places table (a, v) n x ∧ (l.cell? n = some x ∨ ¬ Within sizes a ∧
      ∃ b w, memory.get? b = some w ∧ a.segment < b.segment ∧ b.linear table = .ok n)
  /-- Of two cells with one linear address, the one in the earlier segment lies beyond the size of
  this segment. -/
  apart : ∀ a b v w n, memory.get? a = some v → memory.get? b = some w → a ≠ b →
    a.linear table = .ok n → b.linear table = .ok n → a.segment ≤ b.segment →
      a.segment < b.segment ∧ ¬ Within sizes a

/-- The cells of a memory that are placed by the table of the sizes in use, however old these are,
are an overlay. -/
theorem isOverlay_ofMemory {s : Segments} (hused : s.usedSizes = some sizes)
    (hfixed : s.fixedSizes = ∅) (htable : s.relocationTable = .ok table)
    (h : LinearMemory.ofMemory table s.memory = .ok l) : IsOverlay sizes table s.memory l := by
  have hstarts : StartsAt sizes table := fun k n hk =>
    Segments.getElem?_relocationTable hused hfixed htable hk
  have hbeyond : ∀ a b n, a ≠ b → a.linear table = .ok n → b.linear table = .ok n →
      a.segment ≤ b.segment → a.segment < b.segment ∧ ¬ Within sizes a := by
    intro a b n hne han hbn hle
    have hseg : a.segment ≠ b.segment := fun hseg => hne (eq_of_linear_of_segment hseg han hbn)
    have hlt : a.segment < b.segment := by omega
    exact ⟨hlt, fun hwithin => Int.lt_irrefl n (linear_lt_of_within hstarts hwithin hlt han hbn)⟩
  refine ⟨(Segments.isTable_relocationTable htable).length_eq,
    Segments.size_le_of_relocationTable hused hfixed htable, hstarts, fun a v hv hreal => ?_,
    fun a b _ _ n _ _ => hbeyond a b n⟩
  have hitems : s.memory.realItems.foldlM (fun m p => LinearMemory.placeCell table m p.1 p.2)
      LinearMemory.start = .ok l := by
    unfold LinearMemory.ofMemory at h
    rwa [LinearMemory.foldlM_flatMap] at h
  -- Behind a cell are placed the others of its segment and those of later ones.
  obtain ⟨before, after, hsplit⟩ := List.append_of_mem (Memory.mem_realItems_iff.mpr ⟨hv, hreal⟩)
  have hmem : ∀ q ∈ after, s.memory.get? q.1 = some q.2 ∧ a ≠ q.1 ∧ a.segment ≤ q.1.segment := by
    intro q hq
    have hq' : q ∈ s.memory.realItems := by
      rw [hsplit]
      exact List.mem_append_right before (List.mem_cons_of_mem _ hq)
    have hdistinct : s.memory.realItems.Pairwise fun p q => p.1 ≠ q.1 :=
      s.memory.pairwise_flatMap_itemsOf _ fun _ _ => Int.ofNat.inj
    have hsorted := s.memory.pairwise_realItems
    rw [hsplit, List.pairwise_append, List.pairwise_cons] at hdistinct hsorted
    exact ⟨(Memory.mem_realItems_iff.mp hq').1, hdistinct.2.1.1 q hq, hsorted.2.1.1 q hq⟩
  rw [hsplit] at hitems
  obtain ⟨n, x, hplaces, hlast⟩ := LinearMemory.cell?_placeCells_of_last hstarts hitems
  refine ⟨n, x, hplaces, ?_⟩
  by_cases hover : ∃ q ∈ after, q.1.linear table = .ok n
  · obtain ⟨q, hq, hqn⟩ := hover
    obtain ⟨hget, hne, hle⟩ := hmem q hq
    obtain ⟨hlt, hwithin⟩ := hbeyond a q.1 n hne hplaces.1 hqn hle
    exact .inr ⟨hwithin, q.1, q.2, hget, hlt, hqn⟩
  · exact .inl (hlast fun q hq hqn => hover ⟨q, hq, hqn⟩)

end Cairo
