import Cairo.Proofs.Memory.Bounds
import Cairo.Proofs.Memory.Refusals

/-!
# Insertions in any order

Whether a value is accepted for a cell depends on this cell alone: its segment is allocated, it
holds no other value, and the rules of the segment admit the value unless the cell counts as checked
(`Accepts`).  What an accepted value changes is the cell, the length of its segment, and whether it
counts as checked (`inserted`).  So two insertions may change places (`insert_swap`), and a list of
insertions, with repetitions and contradictions as they may be, leads to the same memory in every
order, down to the lengths and holes of the segments and the checked addresses, or fails in every
order (`insertAll_perm`).
-/

namespace Cairo

/-! ## Writing to a segment -/

namespace Segment

/-- Segments of the same length with the same written cells are the same. -/
theorem ext_cells {s t : Segment} (hsize : s.size = t.size)
    (hcells : ∀ p : Nat, s[p]?.join = t[p]?.join) : s = t := by
  refine Array.ext hsize fun p hs ht => ?_
  have hp := hcells p
  rwa [Array.getElem?_eq_getElem hs, Array.getElem?_eq_getElem ht] at hp

/-- Writes at different offsets of a segment may change places. -/
theorem write_comm (s : Segment) {i j : Nat} (h : i ≠ j) (v w : Value) :
    (s.write i v).write j w = (s.write j w).write i v := by
  apply ext_cells
  · simp only [size_write]
    omega
  · intro p
    simp only [cell_write]
    by_cases hi : p = i
    · have hj : p ≠ j := fun hj => h (hi.symm.trans hj)
      simp only [if_pos hi, if_neg hj]
    · simp only [if_neg hi]

/-- Writing a cell behind the end of a segment makes it longer by one. -/
theorem write_size (s : Segment) (v : Value) : s.write s.size v = s.push (some v) := by
  apply ext_cells
  · rw [size_write, Array.size_push]
    omega
  · intro p
    rw [cell_write, Array.getElem?_push]
    split
    · rfl
    · rfl

/-- Writing the value that a cell holds leaves the segment as it is. -/
theorem write_of_cell {s : Segment} {offset : Nat} {v : Value} (h : s[offset]?.join = some v) :
    s.write offset v = s := by
  have hlt : offset < s.size := (Array.getElem?_eq_some_iff.mp (Option.join_eq_some_iff.mp h)).1
  apply ext_cells
  · rw [size_write]
    omega
  · intro p
    rw [cell_write]
    split
    · rename_i hp
      rw [hp, h]
    · rfl

end Segment

/-! ## Insertions that succeed -/

/-- A rule admits the field elements below its bound. -/
def RangeRule.Admits (r : RangeRule) (v : Value) : Prop := ∃ x, v = .felt x ∧ x.val < r.bound

/-- What a rule admits it does not reject. -/
theorem RangeRule.Admits.not_rejects {r : RangeRule} {v : Value} (h : r.Admits v) (a : Address)
    (e : Fault) : ¬ r.Rejects a v e := by
  obtain ⟨x, rfl, hx⟩ := h
  rintro ⟨⟩
  omega

namespace Memory

variable {m t : Memory} {a b : Address} {v w : Value}

/-- A cell passes a rule when it holds a value that the rule admits. -/
theorem passes_iff_of_get? {r : RangeRule} (hv : m.get? a = some v) :
    m.Passes r a ↔ r.Admits v := by
  unfold Passes RangeRule.Admits
  rw [hv]
  simp only [Option.some.injEq]

/-- A memory is determined by its segments and what else is known of it. -/
theorem ext_segment? (hsegments : ∀ i, m.segment? i = t.segment? i) (hrules : m.rules = t.rules)
    (hvalidated : m.validated = t.validated) (hrelocations : m.relocations = t.relocations)
    (haccessed : m.accessed = t.accessed) : m = t := by
  have hreal : m.segments = t.segments := Array.ext_getElem? fun n => hsegments n
  have htemporary : m.temporaries = t.temporaries :=
    Array.ext_getElem? fun n => hsegments (Int.negSucc n)
  cases m
  cases t
  simp_all

/-- Changing a segment into itself changes nothing. -/
theorem modifySegment_of_eq {i : Int} {f : Segment → Segment}
    (hf : ∀ s, m.segment? i = some s → f s = s) : m.modifySegment i f = m := by
  have hsame : m.SameChecks (m.modifySegment i f) := sameChecks_modifySegment m i f
  refine ext_segment? (fun j => ?_) hsame.1 hsame.2 ?_ (sameMarks_modifySegment m i f)
  · rw [segment?_modifySegment]
    split
    · rename_i hj
      rw [hj]
      cases hs : m.segment? i with
      | none => rfl
      | some s => rw [Option.map_some, hf s hs]
    · rfl
  · cases i <;> rfl

/-- The memory with a cell that counts as checked, if its segment has rules. -/
def counted (m : Memory) (a : Address) : Memory :=
  { m with validated := if m.rulesOf a.segment = [] then m.validated else m.validated.insert a }

/-- The check of a written cell succeeds if the rules of its segment admit the value or the cell
counts as checked, and the cell counts as checked then. -/
theorem validateCell_eq_ok_iff (hv : m.get? a = some v) :
    validateCell a m = .ok () t ↔
      (a ∉ m.validated → ∀ r ∈ m.rulesOf a.segment, r.Admits v) ∧ t = m.counted a := by
  have hcounted : a ∈ m.validated → m.counted a = m := by
    intro hchecked
    have hsame : m.validated.insert a = m.validated := by
      apply Std.ExtTreeSet.ext_mem
      intro b
      rw [Std.ExtTreeSet.mem_insert, Address.compare_eq_iff]
      exact ⟨fun h => h.elim (fun heq => heq ▸ hchecked) id, .inr⟩
    unfold counted
    rw [hsame, ite_self]
  have hforward : ∀ t, validateCell a m = .ok () t →
      (a ∉ m.validated → ∀ r ∈ m.rulesOf a.segment, r.Admits v) ∧ t = m.counted a := by
    intro t h
    rcases validateCell_ok h with ⟨rfl, hnone | hchecked⟩ | ⟨rfl, hrules, hpasses⟩
    · refine ⟨fun _ r hr => ?_, ?_⟩
      · rw [hnone] at hr
        cases hr
      · unfold counted
        rw [if_pos hnone]
    · exact ⟨fun hfresh => absurd hchecked hfresh, (hcounted hchecked).symm⟩
    · refine ⟨fun _ r hr => (passes_iff_of_get? hv).mp (hpasses r hr), ?_⟩
      unfold counted
      rw [if_neg hrules]
  refine ⟨hforward t, ?_⟩
  rintro ⟨hadmits, rfl⟩
  cases hcheck : validateCell a m with
  | ok u t => rw [(hforward t hcheck).2]
  | error e t =>
    obtain ⟨-, hfresh, before, r, after, hrules, -, hrejects⟩ :=
      (validateCell_eq_error_iff hv).mp hcheck
    have hr : r ∈ m.rulesOf a.segment := by
      rw [hrules]
      exact List.mem_append_right _ List.mem_cons_self
    exact absurd hrejects ((hadmits hfresh r hr).not_rejects a e)

/-- A value is accepted for a cell. -/
structure Accepts (m : Memory) (a : Address) (v : Value) : Prop where
  allocated : (m.segment? a.segment).isSome
  consistent : ∀ old, m.get? a = some old → old = v
  admitted : a ∉ m.validated → ∀ r ∈ m.rulesOf a.segment, r.Admits v

/-- The memory after a value was accepted for a cell. -/
def inserted (m : Memory) (a : Address) (v : Value) : Memory := (m.put a v).counted a

/-- Writing the value that a cell holds leaves the memory as it is. -/
theorem put_of_get? (hv : m.get? a = some v) : m.put a v = m := by
  obtain ⟨s, hs, hcell⟩ := segment?_of_get? hv
  refine modifySegment_of_eq fun s' hs' => ?_
  obtain rfl := Option.some.inj (hs.symm.trans hs')
  exact Segment.write_of_cell hcell

/-- An insertion succeeds if the value is accepted, and leads to one memory then. -/
theorem insert_eq_ok_iff : insert a v m = .ok () t ↔ m.Accepts a v ∧ t = m.inserted a v := by
  have hsame : m.SameChecks (m.put a v) := sameChecks_modifySegment m a.segment _
  rw [insert_eq]
  cases hs : m.segment? a.segment with
  | none =>
    refine ⟨nofun, fun h => ?_⟩
    have halloc := h.1.allocated
    rw [hs] at halloc
    cases halloc
  | some s =>
    rw [if_neg (by simp)]
    have halloc : (m.segment? a.segment).isSome := Option.isSome_of_eq_some hs
    cases hold : m.get? a with
    | none =>
      have hput : (m.put a v).get? a = some v := by rw [get?_put hs, if_pos rfl]
      have hnone : ∀ old, m.get? a = some old → old = v := by simp [hold]
      dsimp only
      rw [validateCell_eq_ok_iff hput, hsame.rulesOf_eq, hsame.2]
      exact and_congr_left fun _ => ⟨fun h => ⟨halloc, hnone, h⟩, fun h => h.admitted⟩
    | some old =>
      dsimp only
      by_cases hv : old = v
      · subst hv
        have hsingle : ∀ new, m.get? a = some new → new = old := by simp [hold]
        rw [if_pos rfl, validateCell_eq_ok_iff hold, inserted, put_of_get? hold]
        exact and_congr_left fun _ => ⟨fun h => ⟨halloc, hsingle, h⟩, fun h => h.admitted⟩
      · rw [if_neg hv]
        exact ⟨nofun, fun h => absurd (h.1.consistent old hold) hv⟩

/-! ## Insertions that change places -/

/-- What is accepted for a cell keeps the rules. -/
theorem rulesOf_inserted (m : Memory) (a : Address) (v : Value) (i : Int) :
    (m.inserted a v).rulesOf i = m.rulesOf i :=
  SameChecks.rulesOf_eq (sameChecks_modifySegment m a.segment _) i

/-- The cells that count as checked after a value was accepted. -/
theorem mem_validated_inserted {c : Address} :
    c ∈ (m.inserted a v).validated ↔
      c ∈ m.validated ∨ m.rulesOf a.segment ≠ [] ∧ c = a := by
  have hsame : m.SameChecks (m.put a v) := sameChecks_modifySegment m a.segment _
  unfold inserted counted
  dsimp only
  rw [hsame.rulesOf_eq, hsame.2]
  split
  · rename_i hrules
    simp [hrules]
  · rename_i hrules
    rw [Std.ExtTreeSet.mem_insert, Address.compare_eq_iff]
    simp [hrules, or_comm, eq_comm]

/-- The segments after a value was accepted. -/
theorem segment?_inserted (m : Memory) (a : Address) (v : Value) (i : Int) :
    (m.inserted a v).segment? i =
      if i = a.segment then (m.segment? i).map (·.write a.offset v) else m.segment? i := by
  show (m.put a v).segment? i = _
  rw [put, segment?_modifySegment]
  split
  · rename_i hi
    rw [hi]
  · rfl

/-- Values that are accepted for different cells lead to the same memory in either order. -/
theorem inserted_comm (hab : a ≠ b) (v w : Value) :
    (m.inserted a v).inserted b w = (m.inserted b w).inserted a v := by
  have hoffset : a.segment = b.segment → a.offset ≠ b.offset :=
    fun hseg hoff => hab (Address.ext hseg hoff)
  have hrest : ∀ (m : Memory) (a : Address) (v : Value), (m.inserted a v).rules = m.rules ∧
      (m.inserted a v).relocations = m.relocations ∧ (m.inserted a v).accessed = m.accessed := by
    intro m a v
    unfold inserted counted put modifySegment
    split <;> exact ⟨rfl, rfl, rfl⟩
  apply ext_segment?
  · intro i
    simp only [segment?_inserted]
    by_cases ha : i = a.segment
    · by_cases hb : i = b.segment
      · simp only [if_pos ha, if_pos hb]
        cases m.segment? i with
        | none => rfl
        | some s => simp only [Option.map_some, s.write_comm (hoffset (ha.symm.trans hb)) v w]
      · simp only [if_pos ha, if_neg hb]
    · simp only [if_neg ha]
  · simp only [hrest]
  · apply Std.ExtTreeSet.ext_mem
    intro c
    simp only [mem_validated_inserted, rulesOf_inserted]
    tauto
  · simp only [hrest]
  · simp only [hrest]

/-- Whether a value is accepted for a cell does not depend on the values of other cells. -/
theorem accepts_inserted_iff (ha : (m.segment? a.segment).isSome) (hab : a ≠ b) :
    (m.inserted a v).Accepts b w ↔ m.Accepts b w := by
  obtain ⟨s, hs⟩ := Option.isSome_iff_exists.mp ha
  have hallocated : ((m.inserted a v).segment? b.segment).isSome =
      (m.segment? b.segment).isSome := by
    rw [segment?_inserted]
    split
    · exact Option.isSome_map
    · rfl
  have hcell : (m.inserted a v).get? b = m.get? b := by
    show (m.put a v).get? b = _
    rw [get?_put hs, if_neg (Ne.symm hab)]
  have hfresh : b ∉ (m.inserted a v).validated ↔ b ∉ m.validated := by
    rw [mem_validated_inserted]
    simp [Ne.symm hab]
  constructor
  · rintro ⟨h₁, h₂, h₃⟩
    rw [hallocated] at h₁
    rw [hcell] at h₂
    rw [hfresh, rulesOf_inserted] at h₃
    exact ⟨h₁, h₂, h₃⟩
  · rintro ⟨h₁, h₂, h₃⟩
    rw [← hallocated] at h₁
    rw [← hcell] at h₂
    rw [← hfresh, ← rulesOf_inserted m a v] at h₃
    exact ⟨h₁, h₂, h₃⟩

/-- The cell of an accepted value holds it. -/
theorem get?_inserted_self (ha : (m.segment? a.segment).isSome) :
    (m.inserted a v).get? a = some v := by
  obtain ⟨s, hs⟩ := Option.isSome_iff_exists.mp ha
  show (m.put a v).get? a = _
  rw [get?_put hs, if_pos rfl]

/-- Two insertions that succeed do so in the other order as well, with the same result. -/
theorem insert_swap {u : Memory} (hfirst : insert a v m = .ok () t)
    (hsecond : insert b w t = .ok () u) :
    ∃ t', insert b w m = .ok () t' ∧ insert a v t' = .ok () u := by
  obtain ⟨ha, rfl⟩ := insert_eq_ok_iff.mp hfirst
  obtain ⟨hb, rfl⟩ := insert_eq_ok_iff.mp hsecond
  by_cases hab : a = b
  · -- The second value is the one that the cell holds after the first insertion.
    subst hab
    obtain rfl : v = w := hb.consistent v (get?_inserted_self ha.allocated)
    exact ⟨_, hfirst, hsecond⟩
  · have hb' : m.Accepts b w := (accepts_inserted_iff ha.allocated hab).mp hb
    have ha' : (m.inserted b w).Accepts a v :=
      (accepts_inserted_iff hb'.allocated (Ne.symm hab)).mpr ha
    exact ⟨_, insert_eq_ok_iff.mpr ⟨hb', rfl⟩,
      insert_eq_ok_iff.mpr ⟨ha', inserted_comm hab v w⟩⟩

/-! ## Lists of insertions -/

/-- Inserting a datum succeeds if it stands for a value whose insertion does. -/
theorem insertDatum_eq_ok_iff {d : Datum} :
    insertDatum a d m = .ok () t ↔ ∃ v, d.toValue = .ok v ∧ insert a v m = .ok () t := by
  rw [insertDatum_eq]
  cases d.toValue with
  | ok v => simp
  | error e => simp

/-- Writes data into cells, one after the other. -/
def insertAll (data : List (Address × Datum)) : Action Memory Unit :=
  data.forM fun (a, d) => insertDatum a d

/-- A list of insertions that succeeds does so in every order, with the same result. -/
theorem insertAll_eq_ok_of_perm {l l' : List (Address × Datum)} (h : l.Perm l')
    (hl : insertAll l m = .ok () t) : insertAll l' m = .ok () t := by
  induction h generalizing m t with
  | nil => exact hl
  | cons x _ ih =>
    obtain ⟨⟨⟩, u, hfirst, hrest⟩ := Action.bind_eq_ok.mp hl
    exact (Action.bind_of_ok hfirst).trans (ih hrest)
  | swap x y l =>
    obtain ⟨⟨⟩, u, hfirst, hl⟩ := Action.bind_eq_ok.mp hl
    obtain ⟨⟨⟩, u', hsecond, hrest⟩ := Action.bind_eq_ok.mp hl
    obtain ⟨v, hv, hfirst⟩ := insertDatum_eq_ok_iff.mp hfirst
    obtain ⟨w, hw, hsecond⟩ := insertDatum_eq_ok_iff.mp hsecond
    obtain ⟨m', hfirst', hsecond'⟩ := insert_swap hfirst hsecond
    have hx : insertDatum x.1 x.2 m = .ok () m' := insertDatum_eq_ok_iff.mpr ⟨w, hw, hfirst'⟩
    have hy : insertDatum y.1 y.2 m' = .ok () u' := insertDatum_eq_ok_iff.mpr ⟨v, hv, hsecond'⟩
    exact (Action.bind_of_ok hx).trans ((Action.bind_of_ok hy).trans hrest)
  | trans _ _ ih ih' => exact ih' (ih hl)

/-- In whatever order a list of insertions is made, it leads to the same memory, or it fails in each
of the orders. -/
theorem insertAll_perm (m : Memory) {l l' : List (Address × Datum)} (h : l.Perm l') :
    (∃ t, insertAll l m = .ok () t ∧ insertAll l' m = .ok () t) ∨
      ∃ e t e' t', insertAll l m = .error e t ∧ insertAll l' m = .error e' t' := by
  cases hl : insertAll l m with
  | ok u t => exact .inl ⟨t, rfl, insertAll_eq_ok_of_perm h hl⟩
  | error e t =>
    cases hl' : insertAll l' m with
    | ok u t' =>
      have hback := insertAll_eq_ok_of_perm h.symm hl'
      rw [hl] at hback
      cases hback
    | error e' t' => exact .inr ⟨e, t, e', t', rfl, rfl⟩

/-- Two segments, of which the second one is for numbers of 16 bits. -/
def ruled : Memory := { empty with segments := #[#[], #[]], rules := [(1, [⟨1⟩])] }

/-- A pointer behind holes, one of which is then filled, and a small number that is written
twice. -/
def scattered : List (Address × Datum) :=
  [(⟨0, 6, by decide⟩, .value (.address (.base 1))), (.base 1, .integer 65535),
    (.base 0, .integer (-1)), (.base 1, .value (.felt 65535))]

/-- The list in the order given and in the reverse order leads to the same memory. -/
theorem insertAll_perm_scattered :
    scattered.Perm scattered.reverse ∧
      ∃ t, insertAll scattered ruled = .ok () t ∧ insertAll scattered.reverse ruled = .ok () t := by
  refine ⟨(List.reverse_perm scattered).symm, ?_⟩
  have hok : insertAll scattered ruled = .ok () _ := Action.eq_ok_of_isOk (by decide +kernel)
  rcases insertAll_perm ruled (List.reverse_perm scattered).symm with h | ⟨e, t, e', t', he, -⟩
  · exact h
  · rw [hok] at he
    cases he

end Memory

end Cairo
