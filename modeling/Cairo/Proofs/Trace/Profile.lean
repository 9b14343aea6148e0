import Mathlib.Algebra.Ring.Nat
import Mathlib.Data.List.Basic
import Mathlib.Order.Bounds.Basic
import Cairo.Trace.Profile

/-!
# Profiles count rows

A profile is computed on the stretches of a trace, while its meaning is about single rows: a frame
says how many rows have its frame pointer, where the first of them stands, and how far the last of
them lies behind (`Counts`).  The stretches tile the rows (`tiles_stretches`), so that the first and
the last stretch of a frame pointer bound the places of its rows (`Tiles.isLeast_before`,
`Tiles.isGreatest_stop`), and their lengths add up to the number of rows (`sum_length_stretches`).
-/

namespace Cairo.Profile

variable {rows : List TraceRow} {s : Stretch} {ss : List Stretch} {fp : Int} {i start : Nat}

/-- The places of the rows with a frame pointer. -/
def places (rows : List TraceRow) (fp : Int) : Set Nat := {i | rows[i]?.map (·.fp) = some fp}

/-- A frame pointer is one of the rows' if it has a place. -/
theorem nonempty_places_iff : (places rows fp).Nonempty ↔ fp ∈ rows.map (·.fp) := by
  rw [List.mem_iff_getElem?]
  exact exists_congr fun i => by rw [List.getElem?_map]; rfl

/-! ## Stretches tile the rows -/

/-- What a stretch says of the rows: they have its frame pointer from `before` to its end, and the
first of them and the row ahead of it are the ones that it names. -/
structure Stretch.Describes (s : Stretch) (rows : List TraceRow) : Prop where
  length_pos : 0 < s.length
  mem_places : ∀ i, s.before ≤ i → i < s.stop → i ∈ places rows s.fp
  entryPc_eq : rows[s.before]?.map (·.pc) = some s.entryPc
  parent_eq : s.parent = if s.before = 0 then none else rows[s.before - 1]?.map (·.fp)

/-- The stretches describe the rows from a place on, one behind the other up to the last row. -/
inductive Tiles (rows : List TraceRow) : Nat → List Stretch → Prop
  | nil : Tiles rows rows.length []
  | cons {s : Stretch} {ss : List Stretch} (head : s.Describes rows) (tail : Tiles rows s.stop ss) :
      Tiles rows s.before (s :: ss)

/-- A stretch has rows. -/
theorem Stretch.Describes.before_lt_stop (h : s.Describes rows) : s.before < s.stop :=
  Nat.lt_add_of_pos_right h.length_pos

/-- A stretch ends among the rows. -/
theorem Stretch.Describes.stop_le (h : s.Describes rows) : s.stop ≤ rows.length := by
  have hlt := h.before_lt_stop
  obtain ⟨r, hr, -⟩ := Option.map_eq_some_iff.mp (h.mem_places (s.stop - 1) (by omega) (by omega))
  obtain ⟨hlast, -⟩ := List.getElem?_eq_some_iff.mp hr
  omega

/-- A stretch is longer by a row with its frame pointer that follows. -/
theorem Stretch.Describes.extend (h : s.Describes rows) (hnext : s.stop ∈ places rows s.fp) :
    Stretch.Describes { s with length := s.length + 1 } rows where
  length_pos := Nat.succ_pos _
  mem_places i hbefore hstop := by
    rcases Nat.lt_succ_iff_lt_or_eq.mp hstop with hlt | rfl
    · exact h.mem_places i hbefore hlt
    · exact hnext
  entryPc_eq := h.entryPc_eq
  parent_eq := h.parent_eq

/-- A row that follows a stretch begins another one. -/
theorem Stretch.Describes.next (h : s.Describes rows) {r : TraceRow} (hr : rows[s.stop]? = some r) :
    Stretch.Describes ⟨r.fp, some s.fp, r.pc, s.stop, 1⟩ rows where
  length_pos := Nat.one_pos
  mem_places i hbefore hstop := by
    obtain rfl : i = s.stop := Nat.le_antisymm (Nat.lt_succ_iff.mp hstop) hbefore
    exact congrArg (Option.map _) hr
  entryPc_eq := congrArg (Option.map _) hr
  parent_eq := by
    have hlt := h.before_lt_stop
    have hlast : rows[s.stop - 1]?.map (·.fp) = some s.fp :=
      h.mem_places (s.stop - 1) (by omega) (by omega)
    exact ((if_neg (by omega : ¬s.stop = 0)).trans hlast).symm

/-- What is left of the rows from a place on begins with the row there. -/
theorem of_drop_eq_cons {r : TraceRow} {rest : List TraceRow} (h : rows.drop i = r :: rest) :
    rows[i]? = some r ∧ rows.drop (i + 1) = rest := by
  rw [← List.head?_drop, ← List.tail_drop, h]
  exact ⟨rfl, rfl⟩

/-- The stretches that begin with one that describes its rows describe these and all that follow. -/
theorem tiles_stretchesFrom {rest : List TraceRow} (hs : s.Describes rows)
    (hrest : rows.drop s.stop = rest) : Tiles rows s.before (stretchesFrom s rest) := by
  -- The induction is on the rows that follow the stretch at hand.
  fun_induction stretchesFrom s rest with
  | case1 s =>
    have hstop : rows.length = s.stop :=
      Nat.le_antisymm (List.drop_eq_nil_iff.mp hrest) hs.stop_le
    exact .cons hs (hstop ▸ .nil)
  | case2 s r rest hfp ih =>
    obtain ⟨hr, hdrop⟩ := of_drop_eq_cons hrest
    exact ih (hs.extend (hfp ▸ congrArg (Option.map _) hr)) hdrop
  | case3 s r rest hfp ih =>
    obtain ⟨hr, hdrop⟩ := of_drop_eq_cons hrest
    exact .cons hs (ih (hs.next hr) hdrop)

/-- The stretches of a trace tile its rows. -/
theorem tiles_stretches (rows : List TraceRow) : Tiles rows 0 (stretches rows) := by
  cases rows with
  | nil => exact .nil
  | cons r rest =>
    have hfirst : Stretch.Describes ⟨r.fp, none, r.pc, 0, 1⟩ (r :: rest) :=
      { length_pos := Nat.one_pos
        mem_places := by
          intro i _ hi
          obtain rfl : i = 0 := Nat.lt_one_iff.mp hi
          rfl
        entryPc_eq := rfl
        parent_eq := rfl }
    exact tiles_stretchesFrom hfirst rfl

/-- The stretches of a tiling describe their rows, behind the place where it begins. -/
theorem Tiles.describes (h : Tiles rows start ss) :
    ∀ s ∈ ss, s.Describes rows ∧ start ≤ s.before := by
  induction h with
  | nil => exact nofun
  | cons head tail ih =>
    intro t ht
    rcases List.mem_cons.mp ht with rfl | ht
    · exact ⟨head, Nat.le_refl _⟩
    · exact ⟨(ih t ht).1, Nat.le_trans head.before_lt_stop.le (ih t ht).2⟩

/-- The stretches of a tiling stand in order. -/
theorem Tiles.pairwise (h : Tiles rows start ss) : ss.Pairwise fun s t => s.stop ≤ t.before := by
  induction h with
  | nil => exact .nil
  | cons head tail ih => exact .cons (fun t ht => (tail.describes t ht).2) ih

/-- Each place behind the beginning of a tiling lies in one of its stretches. -/
theorem Tiles.exists_stretch (h : Tiles rows start ss) (hstart : start ≤ i) (hi : i < rows.length) :
    ∃ s ∈ ss, s.before ≤ i ∧ i < s.stop := by
  induction h with
  | nil => omega
  | @cons s ss head tail ih =>
    by_cases hstop : i < s.stop
    · exact ⟨s, List.mem_cons_self, hstart, hstop⟩
    · obtain ⟨t, ht, hplace⟩ := ih (Nat.le_of_not_lt hstop)
      exact ⟨t, List.mem_cons_of_mem s ht, hplace⟩

/-- A place of a frame pointer lies in one of its stretches. -/
theorem Tiles.exists_mem_filter (h : Tiles rows 0 ss) (hi : i ∈ places rows fp) :
    ∃ s ∈ ss.filter (·.fp = fp), s.before ≤ i ∧ i < s.stop := by
  obtain ⟨r, hr, -⟩ := Option.map_eq_some_iff.mp hi
  obtain ⟨hlt, -⟩ := List.getElem?_eq_some_iff.mp hr
  obtain ⟨s, hs, hbefore, hstop⟩ := h.exists_stretch (Nat.zero_le i) hlt
  have hfp : s.fp = fp :=
    Option.some.inj (((h.describes s hs).1.mem_places i hbefore hstop).symm.trans hi)
  exact ⟨s, List.mem_filter.mpr ⟨hs, decide_eq_true hfp⟩, hbefore, hstop⟩

/-! ## The first and the last stretch of a frame pointer -/

section Filter

variable {first last : Stretch} {later : List Stretch}

/-- A stretch among those of a frame pointer describes rows with this frame pointer. -/
theorem Tiles.describes_of_mem_filter (h : Tiles rows start ss)
    (hs : s ∈ ss.filter (·.fp = fp)) : s.Describes rows ∧ s.fp = fp :=
  ⟨(h.describes s (List.mem_filter.mp hs).1).1, of_decide_eq_true (List.mem_filter.mp hs).2⟩

/-- The first row of a frame pointer is the one in which its first stretch begins. -/
theorem Tiles.isLeast_before (h : Tiles rows 0 ss)
    (hfilter : ss.filter (·.fp = fp) = first :: later) : IsLeast (places rows fp) first.before := by
  have hordered := h.pairwise.filter fun s => decide (s.fp = fp)
  rw [hfilter] at hordered
  obtain ⟨hfirst, rfl⟩ := h.describes_of_mem_filter (hfilter ▸ List.mem_cons_self)
  refine ⟨hfirst.mem_places _ (Nat.le_refl _) hfirst.before_lt_stop, fun i hi => ?_⟩
  obtain ⟨s, hs, hbefore, -⟩ := h.exists_mem_filter hi
  rw [hfilter] at hs
  rcases List.mem_cons.mp hs with rfl | hs
  · exact hbefore
  · have hbehind := (List.pairwise_cons.mp hordered).1 s hs
    exact Nat.le_trans hfirst.before_lt_stop.le (Nat.le_trans hbehind hbefore)

/-- The last row of a frame pointer is the one in which its last stretch ends. -/
theorem Tiles.isGreatest_stop (h : Tiles rows 0 ss)
    (hlast : (ss.filter (·.fp = fp)).getLast? = some last) :
    IsGreatest (places rows fp) (last.stop - 1) := by
  obtain ⟨earlier, hfilter⟩ := List.getLast?_eq_some_iff.mp hlast
  have hordered := h.pairwise.filter fun s => decide (s.fp = fp)
  rw [hfilter] at hordered
  have hmem : last ∈ ss.filter (·.fp = fp) := List.mem_of_getLast? hlast
  obtain ⟨hdescribes, rfl⟩ := h.describes_of_mem_filter hmem
  have hlt := hdescribes.before_lt_stop
  refine ⟨hdescribes.mem_places _ (by omega) (by omega), fun i hi => ?_⟩
  obtain ⟨s, hs, -, hstop⟩ := h.exists_mem_filter hi
  rw [hfilter] at hs
  rcases List.mem_append.mp hs with hs | hs
  · have hbehind := (List.pairwise_append.mp hordered).2.2 s hs last List.mem_cons_self
    omega
  · obtain rfl := List.mem_singleton.mp hs
    omega

end Filter

/-! ## The lengths of stretches -/

/-- The stretches whose frame pointers have a property are as long together as there are rows whose
frame pointers have it, if the first one is as long as it says. -/
theorem sum_length_stretchesFrom (p : Int → Bool) (s : Stretch) (rest : List TraceRow) :
    (((stretchesFrom s rest).filter (p ·.fp)).map (·.length)).sum =
      (if p s.fp then s.length else 0) + rest.countP (p ·.fp) := by
  fun_induction stretchesFrom s rest with
  | case1 s =>
    rw [List.filter_cons, List.filter_nil, List.countP_nil]
    split <;> rfl
  | case2 s r rest hfp ih =>
    rw [ih, List.countP_cons, hfp]
    dsimp only
    split <;> omega
  | case3 s r rest hfp ih =>
    rw [List.filter_cons, List.countP_cons]
    dsimp only at ih
    split
    · rw [List.map_cons, List.sum_cons, ih]
      omega
    · rw [ih]
      omega

/-- The stretches of a trace whose frame pointers have a property are as long together as there are
rows whose frame pointers have it. -/
theorem sum_length_stretches (p : Int → Bool) (rows : List TraceRow) :
    (((stretches rows).filter (p ·.fp)).map (·.length)).sum = rows.countP (p ·.fp) := by
  cases rows with
  | nil => rfl
  | cons r rest =>
    unfold stretches
    rw [sum_length_stretchesFrom, List.countP_cons, Nat.add_comm]

/-! ## Frames -/

variable {f : Frame} {n : Nat}

/-- The steps of a frame are those of its stretches. -/
theorem ownSteps_frameOf (first : Stretch) (later : List Stretch) :
    (frameOf first later).ownSteps = ((first :: later).map (·.length)).sum := by
  have hfoldl : ∀ n, later.foldl (fun n s => n + s.length) n = n + (later.map (·.length)).sum := by
    induction later with
    | nil => exact fun n => rfl
    | cons s rest ih =>
      intro n
      rw [List.foldl_cons, ih, List.map_cons, List.sum_cons, Nat.add_assoc]
  exact hfoldl first.length

/-- What is left when the stretches of one frame pointer are taken out has all those of another. -/
theorem filter_filter_ne {fp' : Int} (h : fp ≠ fp') :
    (ss.filter (·.fp ≠ fp')).filter (·.fp = fp) = ss.filter (·.fp = fp) := by
  rw [List.filter_filter]
  refine List.filter_congr fun s _ => ?_
  grind

/-- The stretches that are left for the later frames are fewer. -/
theorem length_filter_le_of_cons (hn : (s :: ss).length ≤ n + 1) (p : Stretch → Bool) :
    (ss.filter p).length ≤ n :=
  Nat.le_trans (List.length_filter_le p ss) (Nat.le_of_succ_le_succ hn)

/-- A frame is made of all stretches of its frame pointer. -/
theorem filter_of_mem_framesOf (hn : ss.length ≤ n) (hf : f ∈ framesOf n ss) :
    ∃ first later, ss.filter (·.fp = f.fp) = first :: later ∧ f = frameOf first later := by
  fun_induction framesOf n ss with
  | case1 => cases hf
  | case2 => cases hn
  | case3 n s rest ih =>
    rcases List.mem_cons.mp hf with rfl | hf
    · exact ⟨s, _, List.filter_cons_of_pos (decide_eq_true rfl), rfl⟩
    · obtain ⟨first, later, hfilter, hframe⟩ := ih (length_filter_le_of_cons hn _) hf
      have hmem : first ∈ (rest.filter (·.fp ≠ s.fp)).filter (·.fp = f.fp) :=
        hfilter ▸ List.mem_cons_self
      have hne : f.fp ≠ s.fp := by
        rw [List.mem_filter, List.mem_filter] at hmem
        grind
      rw [filter_filter_ne hne] at hfilter
      exact ⟨first, later, by rwa [List.filter_cons_of_neg (by simpa using hne.symm)], hframe⟩

/-- Each frame pointer of the stretches has a frame. -/
theorem mem_fps_framesOf (hn : ss.length ≤ n) :
    fp ∈ (framesOf n ss).map (·.fp) ↔ fp ∈ ss.map (·.fp) := by
  fun_induction framesOf n ss with
  | case1 => rfl
  | case2 => cases hn
  | case3 n s rest ih =>
    rw [List.map_cons, List.map_cons, List.mem_cons, List.mem_cons,
      ih (length_filter_le_of_cons hn _)]
    refine or_congr_right' fun (hne : ¬fp = s.fp) => ?_
    simp only [List.mem_map, List.mem_filter]
    grind

/-- No frame pointer has two frames. -/
theorem nodup_fps_framesOf (hn : ss.length ≤ n) : ((framesOf n ss).map (·.fp)).Nodup := by
  fun_induction framesOf n ss with
  | case1 => exact .nil
  | case2 => cases hn
  | case3 n s rest ih =>
    have hlength := length_filter_le_of_cons hn (·.fp ≠ s.fp)
    refine List.nodup_cons.mpr ⟨?_, ih hlength⟩
    show s.fp ∉ _
    rw [mem_fps_framesOf hlength]
    simp

/-- The steps of all frames are those of all stretches. -/
theorem sum_ownSteps_framesOf (hn : ss.length ≤ n) :
    ((framesOf n ss).map (·.ownSteps)).sum = (ss.map (·.length)).sum := by
  fun_induction framesOf n ss with
  | case1 => rfl
  | case2 => cases hn
  | case3 n s rest ih =>
    have hparts := ((List.filter_append_perm (·.fp = s.fp) rest).map (·.length)).sum_nat
    rw [List.map_append, List.sum_append] at hparts
    simp only [← decide_not] at hparts
    rw [List.map_cons, List.sum_cons, ih (length_filter_le_of_cons hn _), ownSteps_frameOf,
      List.map_cons, List.map_cons, List.sum_cons, List.sum_cons, Nat.add_assoc, hparts]

/-! ## Rows -/

/-- What a frame says of the rows: how many have its frame pointer, where it was entered with the
first of them, and how far the last one lies behind the first. -/
structure Counts (rows : List TraceRow) (f : Frame) : Prop where
  ownSteps_eq : f.ownSteps = rows.countP (·.fp = f.fp)
  exists_first_last : ∃ first last, IsLeast (places rows f.fp) first ∧
    IsGreatest (places rows f.fp) last ∧ f.allSteps = last - first + 1 ∧
    rows[first]?.map (·.pc) = some f.entryPc ∧
    f.parent = if first = 0 then none else rows[first - 1]?.map (·.fp)

/-- The frame that is made of the stretches of its frame pointer counts the rows. -/
theorem counts_frameOf {first : Stretch} {later : List Stretch}
    (h : (stretches rows).filter (·.fp = first.fp) = first :: later) :
    Counts rows (frameOf first later) := by
  have htiles := tiles_stretches rows
  have hleast := htiles.isLeast_before h
  have hlast : ((stretches rows).filter (·.fp = first.fp)).getLast? =
      some (later.getLast?.getD first) := by rw [h, List.getLast?_cons]
  have hgreatest := htiles.isGreatest_stop hlast
  have hfirst := (htiles.describes_of_mem_filter (h ▸ List.mem_cons_self)).1
  have hend := (htiles.describes_of_mem_filter (List.mem_of_getLast? hlast)).1.before_lt_stop
  have horder : first.before ≤ (later.getLast?.getD first).stop - 1 := hleast.2 hgreatest.1
  refine ⟨?_, _, _, hleast, hgreatest, ?_, hfirst.entryPc_eq, hfirst.parent_eq⟩
  · rw [ownSteps_frameOf, ← h]
    exact sum_length_stretches (fun fp => decide (fp = first.fp)) rows
  · show (later.getLast?.getD first).stop - first.before = _
    omega

/-- A profile has exactly one frame for each frame pointer of the rows, and each counts them: the
steps in it are the rows with its frame pointer, all its steps reach from the first of them to the
last, it was entered where the first one stands, and its parent has the row ahead of this one, if
there is any.  So the steps of all frames together are as many as the rows. -/
theorem frames_count_rows (rows : List TraceRow) :
    ((frames rows).map (·.fp)).Nodup ∧
    (∀ fp, fp ∈ (frames rows).map (·.fp) ↔ fp ∈ rows.map (·.fp)) ∧
    (∀ f ∈ frames rows, Counts rows f) ∧
    ((frames rows).map (·.ownSteps)).sum = rows.length := by
  have htiles := tiles_stretches rows
  refine ⟨nodup_fps_framesOf (Nat.le_refl _), fun fp => ?_, fun f hf => ?_, ?_⟩
  · unfold frames
    rw [mem_fps_framesOf (Nat.le_refl _), ← nonempty_places_iff]
    constructor
    · intro h
      obtain ⟨s, hs, rfl⟩ := List.mem_map.mp h
      have hdescribes := (htiles.describes s hs).1
      exact ⟨_, hdescribes.mem_places _ (Nat.le_refl _) hdescribes.before_lt_stop⟩
    · rintro ⟨i, hi⟩
      obtain ⟨s, hs, -⟩ := htiles.exists_mem_filter hi
      obtain ⟨hmem, hfp⟩ := List.mem_filter.mp hs
      exact List.mem_map.mpr ⟨s, hmem, of_decide_eq_true hfp⟩
  · obtain ⟨first, later, hfilter, rfl⟩ := filter_of_mem_framesOf (Nat.le_refl _) hf
    exact counts_frameOf hfilter
  · unfold frames
    rw [sum_ownSteps_framesOf (Nat.le_refl _)]
    have hall := sum_length_stretches (fun _ => true) rows
    rwa [List.filter_true, List.countP_true] at hall

/-- A frame that is left and entered again, and another one entered from it. -/
example : frames [⟨1, 5, 5⟩, ⟨7, 6, 9⟩, ⟨2, 6, 5⟩, ⟨8, 7, 9⟩, ⟨9, 7, 9⟩] =
    [⟨5, none, 1, 2, 3⟩, ⟨9, some 5, 7, 3, 4⟩] := by
  decide

end Cairo.Profile
