import Cairo.Memory.Basic
import Cairo.Proofs.Action

/-!
# Memory as a partial map

What the operations on a memory do to its view `get?`.  `put` is the write that `insert` makes;
`insert_eq` says when it is made, and `get?_of_insert_ok` what it changes.  Checking a cell only
adds to the set of checked addresses, so it is invisible in the view.
-/

namespace Cairo

/-- An array of cells that is made long enough and then written at a place changes there alone. -/
theorem join_getElem?_grow {α : Type} (s : Array (Option α)) (offset : Nat) (x : α) (p : Nat) :
    ((s ++ Array.replicate (offset + 1 - s.size) none).setIfInBounds offset (some x))[p]?.join =
      if p = offset then some x else s[p]?.join := by
  rw [Array.getElem?_setIfInBounds]
  by_cases hp : p = offset
  · subst hp
    have hsize : p < (s ++ Array.replicate (p + 1 - s.size) none).size := by
      rw [Array.size_append, Array.size_replicate]
      omega
    rw [if_pos rfl, if_pos hsize, if_pos rfl]
    rfl
  · rw [if_neg (Ne.symm hp), if_neg hp, Array.getElem?_append]
    by_cases hs : p < s.size
    · rw [if_pos hs]
    · -- The cells between the old end and the new one are not written.
      rw [if_neg hs, Array.getElem?_eq_none (Nat.not_lt.mp hs), Array.getElem?_replicate]
      split <;> rfl

namespace Segment

/-- A segment that is written reaches up to the cell, or is as long as before. -/
theorem size_write (s : Segment) (offset : Nat) (v : Value) :
    (s.write offset v).size = max s.size (offset + 1) := by
  rw [write, Array.size_setIfInBounds, Array.size_append, Array.size_replicate]
  omega

/-- Writing a cell changes it alone. -/
theorem cell_write (s : Segment) (offset : Nat) (v : Value) (p : Nat) :
    (s.write offset v)[p]?.join = if p = offset then some v else s[p]?.join :=
  join_getElem?_grow s offset v p

/-- The segments have the same length, and the same of their cells are written. -/
structure SameShape (s t : Segment) : Prop where
  size : t.size = s.size
  written : ∀ p : Nat, t[p]?.join.isSome = s[p]?.join.isSome

end Segment

namespace Memory

/-! ## Segments -/

/-- Changing a segment leaves the others alone. -/
theorem segment?_modifySegment (m : Memory) (i j : Int) (f : Segment → Segment) :
    (m.modifySegment i f).segment? j =
      if j = i then (m.segment? i).map f else m.segment? j := by
  cases i with
  | ofNat n =>
    cases j with
    | ofNat k =>
      simp only [modifySegment, segment?, Array.getElem?_modify, Int.ofNat.injEq]
      by_cases hk : k = n
      · rw [if_pos hk, if_pos hk.symm, hk]
      · rw [if_neg hk, if_neg (Ne.symm hk)]
    | negSucc k => rfl
  | negSucc n =>
    cases j with
    | ofNat k => rfl
    | negSucc k =>
      simp only [modifySegment, segment?, Array.getElem?_modify, Int.negSucc.injEq]
      by_cases hk : k = n
      · rw [if_pos hk, if_pos hk.symm, hk]
      · rw [if_neg hk, if_neg (Ne.symm hk)]

/-- The temporary segments that are allocated count down to their number. -/
theorem isSome_segment?_iff_of_neg {m : Memory} {i : Int} (hi : i < 0) :
    (m.segment? i).isSome ↔ -(m.temporaries.size : Int) ≤ i := by
  cases i with
  | ofNat n => exact absurd hi (Int.not_lt.mpr (Int.natCast_nonneg n))
  | negSucc n =>
    show (m.temporaries[n]?).isSome ↔ _
    rw [isSome_getElem?]
    omega

/-- The view of a cell through its segment. -/
theorem get?_eq (m : Memory) (a : Address) :
    m.get? a = (m.segment? a.segment).bind fun s => s[a.offset]?.join := rfl

/-- A written cell lies in an allocated segment. -/
theorem segment?_of_get? {m : Memory} {a : Address} {v : Value} (h : m.get? a = some v) :
    ∃ s, m.segment? a.segment = some s ∧ s[a.offset]?.join = some v := by
  rw [get?_eq] at h
  exact Option.bind_eq_some_iff.mp h

/-- No cell is written in a segment that is not allocated. -/
theorem get?_of_segment?_eq_none {m : Memory} {a : Address} (h : m.segment? a.segment = none) :
    m.get? a = none := by
  rw [get?_eq, h]
  rfl

/-- Changing a segment leaves the cells of the others alone. -/
theorem get?_modifySegment_of_ne {m : Memory} {i : Int} {f : Segment → Segment} {a : Address}
    (h : a.segment ≠ i) : (m.modifySegment i f).get? a = m.get? a := by
  rw [get?_eq, segment?_modifySegment, if_neg h, get?_eq]

/-- The cells of a changed segment. -/
theorem get?_modifySegment_self {m : Memory} {i : Int} {f : Segment → Segment} {s : Segment}
    {a : Address} (hs : m.segment? i = some s) (h : a.segment = i) :
    (m.modifySegment i f).get? a = (f s)[a.offset]?.join := by
  rw [get?_eq, segment?_modifySegment, if_pos h, hs]
  rfl

/-! ## Writing -/

/-- The memory with a cell written, whatever it held. -/
def put (m : Memory) (a : Address) (v : Value) : Memory :=
  m.modifySegment a.segment (·.write a.offset v)

/-- Writing a cell of an allocated segment changes that cell alone. -/
theorem get?_put {m : Memory} {a : Address} {s : Segment} (hs : m.segment? a.segment = some s)
    (v : Value) (b : Address) :
    (m.put a v).get? b = if b = a then some v else m.get? b := by
  by_cases hseg : b.segment = a.segment
  · have hb : m.get? b = s[b.offset]?.join := by
      rw [get?_eq, hseg, hs]
      rfl
    rw [put, get?_modifySegment_self hs hseg, Segment.cell_write, hb]
    by_cases hoff : b.offset = a.offset
    · rw [if_pos hoff, if_pos (Address.ext hseg hoff)]
    · rw [if_neg hoff, if_neg fun h => hoff (congrArg Address.offset h)]
  · rw [put, get?_modifySegment_of_ne hseg, if_neg fun h => hseg (congrArg Address.segment h)]

/-- Inserting a value writes a cell that was not written, accepts one that holds the value, and
then checks it. -/
theorem insert_eq (a : Address) (v : Value) (m : Memory) :
    insert a v m =
      if (m.segment? a.segment).isNone then
        .error (.unallocatedSegment a.segment m.segments.size) m
      else
        match m.get? a with
        | none => validateCell a (m.put a v)
        | some old =>
          if old = v then validateCell a m else .error (.inconsistentMemory a old v) m := by
  unfold insert
  rw [Action.get_bind]
  split
  · rfl
  · cases m.get? a with
    | none => rfl
    | some old =>
      by_cases h : old = v
      · simp [h]
      · simp only [ne_eq, h, not_false_eq_true, if_true, if_false]
        rfl

/-! ## Checking -/

/-- The memories differ in the set of checked addresses only. -/
def Rechecked (m m' : Memory) : Prop := ∃ checked, m' = { m with validated := checked }

instance : IsPreorder Memory Rechecked where
  refl m := ⟨m.validated, rfl⟩
  trans := by
    rintro m _ _ ⟨_, rfl⟩ ⟨c, rfl⟩
    exact ⟨c, rfl⟩

namespace Rechecked

variable {m m' : Memory}

/-- Checking leaves the segments alone. -/
theorem segment?_eq (h : Rechecked m m') (i : Int) : m'.segment? i = m.segment? i := by
  obtain ⟨_, rfl⟩ := h
  rfl

/-- Checking leaves the cells alone. -/
theorem get?_eq (h : Rechecked m m') (a : Address) : m'.get? a = m.get? a := by
  obtain ⟨_, rfl⟩ := h
  rfl

end Rechecked

/-- Checking a cell changes the set of checked addresses only. -/
theorem respects_validateCell (a : Address) : Action.Respects Rechecked (validateCell a) := by
  unfold validateCell
  refine .bind .get fun m => ?_
  split
  · exact .pure _
  · exact .bind (.forM fun _ _ => .lift _) fun _ => .modify fun m => ⟨m.validated.insert a, rfl⟩

/-- Checking the written cells changes the set of checked addresses only. -/
theorem respects_validateExisting : Action.Respects Rechecked validateExisting := by
  unfold validateExisting
  refine .bind .get fun m => .forM fun ⟨i, _⟩ _ => ?_
  dsimp only
  split
  · exact .forM fun ⟨a, _⟩ _ => respects_validateCell a
  · exact .pure _

/-- The memories differ in the set of accessed addresses only. -/
def Marked (m m' : Memory) : Prop := ∃ accessed, m' = { m with accessed := accessed }

instance : IsPreorder Memory Marked where
  refl m := ⟨m.accessed, rfl⟩
  trans := by
    rintro m _ _ ⟨_, rfl⟩ ⟨c, rfl⟩
    exact ⟨c, rfl⟩

/-- Marking leaves the cells alone. -/
theorem Marked.get?_eq {m m' : Memory} (h : Marked m m') (a : Address) :
    m'.get? a = m.get? a := by
  obtain ⟨_, rfl⟩ := h
  rfl

/-- The faults of a cell that does not pass its check. -/
def IsRejection : Fault → Prop
  | .unknownCell _ | .foundAddress _ _ | .outOfRange _ _ _ => True
  | _ => False

/-- A rule rejects a cell that is not written, holds an address, or is too large. -/
theorem isRejection_of_checkRule {r : RangeRule} {m : Memory} {a : Address} {e : Fault}
    (h : checkRule r m a = .error e) : IsRejection e := by
  unfold checkRule read at h
  cases hv : m.get? a with
  | none =>
    rw [hv] at h
    cases h
    trivial
  | some v =>
    rw [hv] at h
    cases v with
    | address b =>
      cases h
      trivial
    | felt x =>
      change (if x.val < r.bound then pure () else throw (Fault.outOfRange a x r.bound)) = _ at h
      split at h
      · cases h
      · cases h
        trivial

/-- Checking a cell fails with a rejection. -/
theorem failsOnly_validateCell (a : Address) : Action.FailsOnly IsRejection (validateCell a) := by
  unfold validateCell
  refine .bind .get fun m => ?_
  split
  · exact .pure _
  · exact .bind (.forM fun _ => .lift fun _ => isRejection_of_checkRule) fun _ => .modify _

/-! ## What an insertion changes -/

/-- Every written cell of the first memory holds the same value in the second one. -/
def Extends (m m' : Memory) : Prop := ∀ a v, m.get? a = some v → m'.get? a = some v

instance : IsPreorder Memory Extends where
  refl _ _ _ h := h
  trans _ _ _ h h' a v hv := h' a v (h a v hv)

/-- Checking cells keeps what is written. -/
theorem Rechecked.extends {m m' : Memory} (h : Rechecked m m') : m.Extends m' := by
  intro a v hv
  rwa [h.get?_eq]

/-- Writing a cell that is not written keeps what is written. -/
theorem extends_put {m : Memory} {a : Address} {s : Segment}
    (hs : m.segment? a.segment = some s) (hnew : m.get? a = none) (v : Value) :
    m.Extends (m.put a v) := by
  intro b w hb
  have hne : b ≠ a := by
    rintro rfl
    rw [hnew] at hb
    cases hb
  rw [get?_put hs, if_neg hne, hb]

/-- What it takes for an insertion to succeed: the segment is allocated, and the cell is written
now or held the value before. -/
theorem insert_ok_cases {a : Address} {v : Value} {m t : Memory} {u : Unit}
    (h : insert a v m = .ok u t) :
    ∃ s, m.segment? a.segment = some s ∧
      (m.get? a = none ∧ Rechecked (m.put a v) t ∨ m.get? a = some v ∧ Rechecked m t) := by
  rw [insert_eq] at h
  cases hs : m.segment? a.segment with
  | none => simp [hs] at h
  | some s =>
    refine ⟨s, rfl, ?_⟩
    rw [hs] at h
    cases hold : m.get? a with
    | none =>
      rw [hold] at h
      exact .inl ⟨rfl, (respects_validateCell a).of_ok h⟩
    | some old =>
      rw [hold] at h
      by_cases hv : old = v
      · subst hv
        have h' : validateCell a m = .ok u t := by simpa using h
        exact .inr ⟨rfl, (respects_validateCell a).of_ok h'⟩
      · simp [hv] at h

/-- A successful insertion writes its cell and changes no other one. -/
theorem get?_of_insert_ok {a : Address} {v : Value} {m t : Memory} {u : Unit}
    (h : insert a v m = .ok u t) (b : Address) :
    t.get? b = if b = a then some v else m.get? b := by
  obtain ⟨s, hs, ⟨-, ht⟩ | ⟨hold, ht⟩⟩ := insert_ok_cases h
  · rw [ht.get?_eq, get?_put hs]
  · rw [ht.get?_eq]
    by_cases hb : b = a
    · rw [if_pos hb, hb, hold]
    · rw [if_neg hb]

/-- An insertion, whether it fails or not, respects what the writing of a cell that is not written
and the checking of the cell respect. -/
theorem respects_insert_of {R : Memory → Memory → Prop} [IsPreorder Memory R] {a : Address}
    {v : Value}
    (hput : ∀ m s, m.segment? a.segment = some s → m.get? a = none → R m (m.put a v))
    (hcheck : Action.Respects R (validateCell a)) : Action.Respects R (insert a v) := by
  intro m
  rw [Action.after, insert_eq]
  cases hs : m.segment? a.segment with
  | none => exact refl m
  | some s =>
    cases hold : m.get? a with
    | none => exact IsTrans.trans _ _ _ (hput m s hs hold) (hcheck (m.put a v))
    | some old =>
      by_cases hv : old = v
      · simpa [hv, Action.after] using hcheck m
      · simpa [hv] using refl m

/-- Inserting a value keeps what is written, also when it fails. -/
theorem respects_insert (a : Address) (v : Value) : Action.Respects Extends (insert a v) :=
  respects_insert_of (fun _ _ hs hnew => extends_put hs hnew v)
    ((respects_validateCell a).mono fun _ _ => Rechecked.extends)

/-! ## Which segments change -/

/-- The same segments are allocated, and only those of one sort may differ. -/
structure Touches (P : Int → Prop) (m m' : Memory) : Prop where
  allocated : ∀ i, (m'.segment? i).isSome = (m.segment? i).isSome
  others : ∀ i, ¬ P i → m'.segment? i = m.segment? i

instance (P : Int → Prop) : IsPreorder Memory (Touches P) where
  refl _ := ⟨fun _ => rfl, fun _ _ => rfl⟩
  trans _ _ _ h h' := ⟨fun i => (h'.allocated i).trans (h.allocated i),
    fun i hi => (h'.others i hi).trans (h.others i hi)⟩

namespace Touches

variable {P Q : Int → Prop} {m m' : Memory}

/-- Fewer segments may be said to differ. -/
protected theorem mono (h : Touches P m m') (hPQ : ∀ i, P i → Q i) : Touches Q m m' :=
  ⟨h.allocated, fun i hi => h.others i (mt (hPQ i) hi)⟩

/-- The cells of a segment that does not differ are as before. -/
theorem get?_eq (h : Touches P m m') {a : Address} (ha : ¬ P a.segment) :
    m'.get? a = m.get? a := by
  rw [Memory.get?_eq, h.others a.segment ha, Memory.get?_eq]

end Touches

/-- Changing a segment touches this segment. -/
theorem touches_modifySegment (m : Memory) (i : Int) (f : Segment → Segment) :
    m.Touches (· = i) (m.modifySegment i f) := by
  refine ⟨fun j => ?_, fun j hj => ?_⟩
  · rw [segment?_modifySegment]
    split
    · rename_i hj
      rw [Option.isSome_map, hj]
    · rfl
  · rw [segment?_modifySegment, if_neg hj]

/-- Marking touches no segment. -/
theorem Marked.touches {m m' : Memory} (h : Marked m m') (P : Int → Prop) : m.Touches P m' := by
  obtain ⟨_, rfl⟩ := h
  exact ⟨fun _ => rfl, fun _ _ => rfl⟩

/-- Inserting a value touches the segment of its cell, also when it fails. -/
theorem touches_insert (a : Address) (v : Value) :
    Action.Respects (Touches (· = a.segment)) (insert a v) := by
  refine respects_insert_of (fun m _ _ _ => touches_modifySegment m a.segment _) ?_
  refine (respects_validateCell a).mono fun m m' h => ?_
  exact ⟨fun i => congrArg Option.isSome (h.segment?_eq i), fun i _ => h.segment?_eq i⟩

/-- The same addresses are marked as accessed. -/
def SameMarks (m m' : Memory) : Prop := m'.accessed = m.accessed

instance : IsPreorder Memory SameMarks where
  refl _ := rfl
  trans _ _ _ h h' := Eq.trans h' h

/-- Changing a segment marks nothing. -/
theorem sameMarks_modifySegment (m : Memory) (i : Int) (f : Segment → Segment) :
    m.SameMarks (m.modifySegment i f) := by
  cases i <;> rfl

/-- Inserting a value marks nothing, also when it fails. -/
theorem sameMarks_insert (a : Address) (v : Value) : Action.Respects SameMarks (insert a v) := by
  refine respects_insert_of (fun m _ _ _ => sameMarks_modifySegment m a.segment _) ?_
  refine (respects_validateCell a).mono ?_
  rintro m _ ⟨_, rfl⟩
  rfl

end Memory

end Cairo
