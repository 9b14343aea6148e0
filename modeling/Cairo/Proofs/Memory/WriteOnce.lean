import Mathlib.Data.List.Sigma
import Cairo.Proofs.Memory.Cells

/-!
# Memory is written once

A `Call` allocates a segment, writes cells, adds a rule, checks cells or marks one.  Whatever
calls are made, and whether they succeed or fail, a cell that can be read keeps its value
(`extends_afterCalls`).  `WriteOnce` collects the laws of a single memory: what an insertion
writes and when it is refused, that new segments are empty, and that `items` lists the written
cells (`mem_items_iff`), each once (`nodup_items`).
-/

namespace Cairo

namespace Segment

/-- A cell is an item when it is written and its place is an address. -/
theorem item_eq_some_iff {cell : Option Value} {place : Option Address} {a : Address}
    {v : Value} :
    (match cell, place with
      | some v, some a => some (a, v)
      | _, _ => none) = some (a, v) ↔ cell = some v ∧ place = some a := by
  cases cell with
  | none => simp
  | some w =>
    cases place with
    | none => simp
    | some b => simp [and_comm]

/-- The items of a segment are its written cells, at their addresses. -/
theorem mem_items_iff {i : Int} {s : Segment} {a : Address} {v : Value} :
    (a, v) ∈ s.items i ↔ a.segment = i ∧ s[a.offset]?.join = some v := by
  unfold items
  rw [List.mem_filterMap]
  constructor
  · rintro ⟨⟨cell, offset⟩, hmem, hcell⟩
    obtain ⟨rfl, ha⟩ := item_eq_some_iff.mp hcell
    obtain ⟨hseg, hoff⟩ := Address.mk?_eq_some_iff.mp ha
    obtain rfl : a.offset = offset := by omega
    rw [List.mem_zipIdx_iff_getElem?, Array.getElem?_toList] at hmem
    exact ⟨hseg, Option.join_eq_some_iff.mpr hmem⟩
  · rintro ⟨hseg, hv⟩
    have ha : Address.mk? i a.offset = some a := Address.mk?_eq_some_iff.mpr ⟨hseg, rfl⟩
    refine ⟨(some v, a.offset), ?_, item_eq_some_iff.mpr ⟨rfl, ha⟩⟩
    rw [List.mem_zipIdx_iff_getElem?, Array.getElem?_toList]
    exact Option.join_eq_some_iff.mp hv

/-- The items of a segment stand at different addresses. -/
theorem pairwise_items (i : Int) (s : Segment) :
    (s.items i).Pairwise fun x y => x.1 ≠ y.1 := by
  have hindex : s.toList.zipIdx.Pairwise fun x y => x.2 ≠ y.2 :=
    List.pairwise_map.mp (List.nodup_zipIdx_map_snd _)
  refine hindex.filterMap _ ?_
  rintro ⟨c, o⟩ ⟨c', o'⟩ hne ⟨a, v⟩ ha ⟨a', v'⟩ ha' rfl
  have ho := (Address.mk?_eq_some_iff.mp (item_eq_some_iff.mp ha).2).2
  have ho' := (Address.mk?_eq_some_iff.mp (item_eq_some_iff.mp ha').2).2
  exact hne (Int.ofNat.inj (ho.symm.trans ho'))

end Segment

namespace Memory

/-! ## The list of written cells -/

/-- The items of the segment of an index are the written cells in it. -/
theorem mem_itemsOf_iff {m : Memory} {i : Int} {a : Address} {v : Value} :
    (a, v) ∈ m.itemsOf i ↔ a.segment = i ∧ m.get? a = some v := by
  unfold itemsOf
  cases hs : m.segment? i with
  | none =>
    refine ⟨nofun, ?_⟩
    rintro ⟨rfl, h⟩
    rw [get?_of_segment?_eq_none hs] at h
    cases h
  | some s =>
    rw [Segment.mem_items_iff]
    refine and_congr_right ?_
    rintro rfl
    rw [get?_eq, hs]
    rfl

/-- The items of a memory are its written cells. -/
theorem mem_items_iff {m : Memory} {a : Address} {v : Value} :
    (a, v) ∈ m.items ↔ m.get? a = some v := by
  unfold items
  simp only [List.mem_append, List.mem_flatMap, mem_itemsOf_iff, List.mem_range]
  constructor
  · rintro (⟨n, -, -, h⟩ | ⟨n, -, -, h⟩)
    · exact h
    · exact h
  · intro h
    obtain ⟨s, hs, -⟩ := segment?_of_get? h
    cases hi : a.segment with
    | ofNat n =>
      rw [hi] at hs
      exact .inl ⟨n, (Array.getElem?_eq_some_iff.mp hs).1, rfl, h⟩
    | negSucc n =>
      rw [hi] at hs
      exact .inr ⟨n, (Array.getElem?_eq_some_iff.mp hs).1, rfl, h⟩

/-- The items of several segments stand at different addresses: those of one segment differ in
their offsets, those of two segments in the segment. -/
theorem pairwise_flatMap_itemsOf (m : Memory) (n : Nat) {index : Nat → Int}
    (hindex : index.Injective) :
    ((List.range n).flatMap fun k => m.itemsOf (index k)).Pairwise fun x y => x.1 ≠ y.1 := by
  rw [List.pairwise_flatMap]
  constructor
  · intro k _
    unfold itemsOf
    cases m.segment? (index k) with
    | none => exact .nil
    | some s => exact s.pairwise_items _
  · refine List.nodup_range.imp ?_
    rintro k l hkl ⟨a, v⟩ hx ⟨b, w⟩ hy rfl
    exact hkl (hindex ((mem_itemsOf_iff.mp hx).1.symm.trans (mem_itemsOf_iff.mp hy).1))

/-- Allocating a segment always succeeds. -/
theorem addSegment_eq (m : Memory) :
    addSegment m = .ok m.segments.size { m with segments := m.segments.push #[] } := rfl

/-- Allocating a temporary segment always succeeds. -/
theorem addTemporary_eq (m : Memory) :
    addTemporary m =
      .ok (Int.negSucc m.temporaries.size) { m with temporaries := m.temporaries.push #[] } := rfl

/-- The cells of an array of segments do not change when an empty segment is put behind it. -/
theorem bind_getElem?_push (segments : Array Segment) (n offset : Nat) :
    ((segments.push #[])[n]?.bind fun s => s[offset]?.join) =
      segments[n]?.bind fun s => s[offset]?.join := by
  rw [Array.getElem?_push]
  by_cases hn : n = segments.size
  · rw [if_pos hn, Array.getElem?_eq_none (Nat.le_of_eq hn.symm)]
    rfl
  · rw [if_neg hn]

/-- A new segment changes no cell. -/
theorem get?_addSegment (m : Memory) (a : Address) : (addSegment.after m).get? a = m.get? a := by
  rw [Action.after, addSegment_eq, get?_eq, get?_eq]
  cases a.segment with
  | ofNat n => exact bind_getElem?_push m.segments n a.offset
  | negSucc n => rfl

/-- A new temporary segment changes no cell. -/
theorem get?_addTemporary (m : Memory) (a : Address) :
    (addTemporary.after m).get? a = m.get? a := by
  rw [Action.after, addTemporary_eq, get?_eq, get?_eq]
  cases a.segment with
  | ofNat n => rfl
  | negSucc n => exact bind_getElem?_push m.temporaries n a.offset

/-- Allocating a segment keeps what is written. -/
theorem respects_addSegment : Action.Respects Extends addSegment := by
  intro m a v hv
  rwa [get?_addSegment]

/-- Allocating a temporary segment keeps what is written. -/
theorem respects_addTemporary : Action.Respects Extends addTemporary := by
  intro m a v hv
  rwa [get?_addTemporary]

/-! ## Inserting data -/

/-- Inserting a datum inserts the value that it stands for, if it stands for one. -/
theorem insertDatum_eq (a : Address) (d : Datum) (m : Memory) :
    insertDatum a d m =
      match d.toValue with
      | .ok v => insert a v m
      | .error e => .error e m := by
  show EStateM.bind (Action.ofExcept d.toValue) (insert a) m = _
  unfold EStateM.bind Action.ofExcept
  cases d.toValue with
  | ok v => rfl
  | error e => rfl

section Walks

variable {R : Memory → Memory → Prop} [IsPreorder Memory R] {a : Address}

/-- Inserting a datum respects what inserting a value does. -/
theorem respects_insertDatum_of (hinsert : ∀ v, Action.Respects R (insert a v)) (d : Datum) :
    Action.Respects R (insertDatum a d) :=
  .bind (.lift _) fun v => hinsert v

/-- Writing data into consecutive cells respects what insertions into these cells do. -/
theorem respects_loadFrom_of (hinsert : ∀ k b v, a.shift k = .ok b → Action.Respects R (insert b v))
    (i : Nat) (data : List Datum) : Action.Respects R (loadFrom a i data) := by
  induction data generalizing i with
  | nil => exact .pure _
  | cons d rest ih =>
    exact .lift_bind fun b hb =>
      .bind (respects_insertDatum_of (fun v => hinsert i b v hb) d) fun _ => ih (i + 1)

/-- Loading data respects what insertions into its cells do. -/
theorem respects_load_of (hinsert : ∀ k b v, a.shift k = .ok b → Action.Respects R (insert b v))
    (data : List Datum) : Action.Respects R (load a data) :=
  .bind (respects_loadFrom_of hinsert 0 data) fun _ => .lift _

end Walks

/-- Inserting a datum keeps what is written. -/
theorem respects_insertDatum (a : Address) (d : Datum) :
    Action.Respects Extends (insertDatum a d) :=
  respects_insertDatum_of (respects_insert a) d

/-- Writing data into consecutive cells keeps what is written. -/
theorem respects_loadFrom (a : Address) (i : Nat) (data : List Datum) :
    Action.Respects Extends (loadFrom a i data) :=
  respects_loadFrom_of (fun _ b v _ => respects_insert b v) i data

/-- Loading data keeps what is written. -/
theorem respects_load (a : Address) (data : List Datum) : Action.Respects Extends (load a data) :=
  respects_load_of (fun _ b v _ => respects_insert b v) data

/-- A datum that was inserted is found in its cell, as the value that it stands for. -/
theorem get?_of_insertDatum {a : Address} {d : Datum} {m t : Memory}
    (h : insertDatum a d m = .ok () t) : ∃ v, d.toValue = .ok v ∧ t.get? a = some v := by
  rw [insertDatum_eq] at h
  cases hd : d.toValue with
  | ok v =>
    rw [hd] at h
    exact ⟨v, rfl, by rw [get?_of_insert_ok h, if_pos rfl]⟩
  | error e =>
    rw [hd] at h
    cases h

/-- Loading data answers the address after it. -/
theorem shift_of_load {data : List Datum} {a b : Address} {m t : Memory}
    (h : load a data m = .ok b t) : a.shift data.length = .ok b := by
  obtain ⟨_, _, -, hend⟩ := Action.bind_eq_ok.mp h
  exact (Action.lift_eq_ok.mp hend).1

/-- Data that was loaded is found in its cells, as the values that it stands for. -/
theorem get?_of_load {data : List Datum} {a b c : Address} {m t : Memory}
    (h : load a data m = .ok b t) {i : Nat} {d : Datum} (hi : data[i]? = some d)
    (hc : a.shift i = .ok c) : ∃ v, d.toValue = .ok v ∧ t.get? c = some v := by
  -- The induction is on the data that is left, of which the first is item `k`.
  have hfrom : ∀ (data : List Datum) (k j : Nat) (m t : Memory), loadFrom a k data m = .ok () t →
      data[j]? = some d → a.shift ((k + j : Nat) : Int) = .ok c →
      ∃ v, d.toValue = .ok v ∧ t.get? c = some v := by
    intro data
    induction data with
    | nil => exact nofun
    | cons d' rest ih =>
      intro k j m t h hj hc
      obtain ⟨b, _, hlift, h⟩ := Action.bind_eq_ok.mp h
      obtain ⟨hb, rfl⟩ := Action.lift_eq_ok.mp hlift
      obtain ⟨_, u, hinsert, hrest⟩ := Action.bind_eq_ok.mp h
      cases j with
      | zero =>
        obtain rfl : d' = d := Option.some.inj hj
        obtain rfl : b = c := Except.ok.inj (hb.symm.trans hc)
        obtain ⟨v, hd, hv⟩ := get?_of_insertDatum hinsert
        exact ⟨v, hd, (respects_loadFrom a (k + 1) rest).of_ok hrest b v hv⟩
      | succ j =>
        rw [Nat.add_comm j 1, ← Nat.add_assoc] at hc
        exact ih (k + 1) j u t hrest hj hc
  obtain ⟨_, u, hload, hend⟩ := Action.bind_eq_ok.mp h
  obtain ⟨-, rfl⟩ := Action.lift_eq_ok.mp hend
  exact hfrom data 0 i m u hload hi (by rwa [Nat.zero_add])

/-- A datum that stands for no value is refused as such. -/
theorem eq_notStorable_of_toValue {d : Datum} {e : Fault} (h : d.toValue = .error e) :
    e = .notStorable d := by
  unfold Datum.toValue at h
  split at h
  · cases h
  · split at h
    · cases h
    · cases h
      rfl

/-- A call that prepares a memory for cells, writes some, or checks or marks them. -/
inductive Call
  | addSegment
  | addTemporary
  | insert (a : Address) (d : Datum)
  | load (a : Address) (data : List Datum)
  | addRule (i : Int) (r : RangeRule)
  | validateExisting
  | markAccessed (a : Address)

/-- What a call does to a memory. -/
def Call.act : Call → Action Memory Unit
  | addSegment => do let _ ← Memory.addSegment
  | addTemporary => do let _ ← Memory.addTemporary
  | insert a d => insertDatum a d
  | load a data => do let _ ← Memory.load a data
  | addRule i r => modify (·.addRule i r)
  | validateExisting => Memory.validateExisting
  | markAccessed a => modify (·.markAccessed a)

/-- The memory after a list of calls, each of which may have failed. -/
def afterCalls (m : Memory) (calls : List Call) : Memory :=
  calls.foldl (fun m c => c.act.after m) m

/-- What calls are made of respects a relation. -/
structure CallsRespect (R : Memory → Memory → Prop) : Prop where
  addSegment : Action.Respects R Memory.addSegment
  addTemporary : Action.Respects R Memory.addTemporary
  insert : ∀ a v, Action.Respects R (Memory.insert a v)
  check : ∀ a, Action.Respects R (validateCell a)
  addRule : ∀ m i r, R m (Memory.addRule m i r)
  mark : ∀ m a, R m (Memory.markAccessed m a)

section Calls

variable {R : Memory → Memory → Prop} [IsPreorder Memory R]

/-- Checking the cells that are there respects what checking single cells does. -/
theorem respects_validateExisting_of (hcheck : ∀ a, Action.Respects R (validateCell a)) :
    Action.Respects R validateExisting := by
  unfold validateExisting
  refine .bind .get fun m => .forM fun ⟨i, _⟩ _ => ?_
  dsimp only
  split
  · exact .forM fun ⟨a, _⟩ _ => hcheck a
  · exact .pure _

/-- A call respects what its parts do. -/
theorem CallsRespect.act (h : CallsRespect R) (c : Call) : Action.Respects R c.act := by
  cases c with
  | addSegment => exact .bind h.addSegment fun _ => .pure _
  | addTemporary => exact .bind h.addTemporary fun _ => .pure _
  | insert a d => exact respects_insertDatum_of (h.insert a) d
  | load a data =>
    exact .bind (respects_load_of (fun _ b v _ => h.insert b v) data) fun _ => .pure _
  | addRule i r => exact .modify fun m => h.addRule m i r
  | validateExisting => exact respects_validateExisting_of h.check
  | markAccessed a => exact .modify fun m => h.mark m a

end Calls

/-- A call keeps what is written, whether it succeeds or fails. -/
theorem respects_act : ∀ c : Call, Action.Respects Extends c.act :=
  CallsRespect.act
    { addSegment := respects_addSegment
      addTemporary := respects_addTemporary
      insert := respects_insert
      check := fun a => (respects_validateCell a).mono fun _ _ => Rechecked.extends
      addRule := fun _ _ _ _ _ hv => hv
      mark := fun _ _ _ _ hv => hv }

/-- What every call respects holds between the memories before and after a run of calls. -/
theorem rel_afterCalls {R : Memory → Memory → Prop} [IsPreorder Memory R]
    (hR : ∀ c : Call, Action.Respects R c.act) (m : Memory) (calls : List Call) :
    R m (m.afterCalls calls) := by
  induction calls generalizing m with
  | nil => exact refl m
  | cons c rest ih => exact IsTrans.trans _ _ _ (hR c m) (ih (c.act.after m))

/-- A run of calls keeps what is written. -/
theorem extends_afterCalls (m : Memory) (calls : List Call) : m.Extends (m.afterCalls calls) :=
  rel_afterCalls respects_act m calls

end Memory

end Cairo
