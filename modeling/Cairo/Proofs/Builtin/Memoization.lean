import Cairo.Proofs.Builtin.Deduction
import Cairo.Proofs.Memory.WriteOnce

/-!
# Remembered deductions

A builtin remembers the values that it deduced.  `Remembers` says that each of them is what would
be deduced now.  It holds of nothing remembered, deducing a cell keeps it, and so does every change
of the memory that keeps field elements, of relocation as well.  Whatever is done to a memory and a
builtin, in whatever order, deducing a cell therefore answers what it would answer if nothing were
remembered (`answer_afterUses`).
-/

namespace Cairo

/-- The bound of the sizes of lists. -/
def listBound : Nat := Nat.pow 2 63

/-- The segments of a memory are lists, none of which has more items than lists can have.  Behind
the last of them the range of offsets goes on: a permutation at the very end of that would fail
while some of its outputs are remembered, but no cell of it can be written. -/
def Memory.FitsLists (m : Memory) : Prop :=
  ∀ i s, m.segment? i = some s → s.size < listBound

namespace Builtin

variable {b b' : Builtin} {m t : Memory} {a c : Address}

/-- Every remembered value belongs to a real segment and would be deduced now. -/
def Remembers (b : Builtin) (m : Memory) : Prop :=
  ∀ a x, b.cache[a]? = some x → 0 ≤ a.segment ∧ b.deduceFresh m a = .ok (some x)

/-- The builtins differ in what they remember only, and the second one has new values only where
they obey a law. -/
def Recalls (Q : Address → Felt → Prop) (b b' : Builtin) : Prop :=
  ∃ cache, b' = { b with cache := cache } ∧
    ∀ a x, cache[a]? = some x → b.cache[a]? = some x ∨ Q a x

instance (Q : Address → Felt → Prop) : IsPreorder Builtin (Recalls Q) where
  refl b := ⟨b.cache, rfl, fun _ _ h => .inl h⟩
  trans := by
    rintro b _ _ ⟨cache, rfl, h⟩ ⟨cache', rfl, h'⟩
    refine ⟨cache', rfl, fun a x hx => ?_⟩
    rcases h' a x hx with hx | hx
    · exact h a x hx
    · exact .inr hx

/-- What is remembered has no part in deducing fresh. -/
theorem deduceFresh_cache (b : Builtin) (cache : Std.ExtTreeMap Address Felt) (m : Memory)
    (a : Address) : { b with cache := cache }.deduceFresh m a = b.deduceFresh m a :=
  deduceFresh_congr (by rfl) (by rfl) m a

/-! ## Remembering -/

section Recalls

variable {Q : Address → Felt → Prop}

/-- Remembering a value that obeys the law. -/
theorem recalls_remember {x : Felt} (h : Q a x) : Action.Respects (Recalls Q) (remember a x) := by
  refine .modify fun b => ⟨_, rfl, fun c y hy => ?_⟩
  rw [Std.ExtTreeMap.getElem?_insert] at hy
  split at hy
  · rename_i heq
    obtain rfl := Address.compare_eq_iff.mp heq
    obtain rfl := Option.some.inj hy
    exact .inr h
  · exact .inl hy

/-- Remembering values for consecutive cells, all of which obey the law. -/
theorem recalls_rememberFrom {i : Nat} {values : List Felt}
    (h : ∀ (j : Nat) (x : Felt) (c : Address), values[j]? = some x →
      a.shift (i + j : Nat) = .ok c → Q c x) :
    Action.Respects (Recalls Q) (rememberFrom a i values) := by
  induction values generalizing i with
  | nil => exact .pure _
  | cons x rest ih =>
    refine Action.Respects.lift_bind fun c hc =>
      .bind (recalls_remember (h 0 x c rfl hc)) fun _ => ?_
    refine ih fun j y d hy hd => h (j + 1) y d hy ?_
    rwa [← Nat.add_assoc, Nat.add_right_comm]

end Recalls

/-- Values are remembered for consecutive cells whenever all of these are addresses. -/
theorem exists_rememberFrom {i : Nat} {values : List Felt}
    (h : ∀ j < values.length, ∃ c, a.shift (i + j : Nat) = .ok c) (b : Builtin) :
    ∃ b', rememberFrom a i values b = .ok () b' := by
  induction values generalizing i b with
  | nil => exact ⟨b, rfl⟩
  | cons x rest ih =>
    obtain ⟨c, hc⟩ := h 0 (Nat.zero_lt_succ _)
    have hrest : ∀ j < rest.length, ∃ c, a.shift (i + 1 + j : Nat) = .ok c := by
      intro j hj
      rw [Nat.add_right_comm]
      exact h (j + 1) (Nat.succ_lt_succ hj)
    obtain ⟨b', hb'⟩ := ih hrest { b with cache := b.cache.insert c x }
    refine ⟨b', Action.bind_eq_ok.mpr ⟨c, b, Action.lift_eq_ok.mpr ⟨hc, rfl⟩, ?_⟩⟩
    exact Action.bind_eq_ok.mpr ⟨(), _, Action.modify_eq_ok.mpr rfl, hb'⟩

/-- The outputs of an instance are what is deduced for its output cells. -/
theorem deduceFresh_of_instanceOutputs {values : List Felt} {i : Nat} {x : Felt}
    (h : b.instanceOutputs m a = .ok (some values)) (hx : values[i]? = some x)
    (hc : (b.instanceStart a).shift (b.kind.inputCells + i : Nat) = .ok c) :
    b.deduceFresh m c = .ok (some x) := by
  obtain ⟨-, xs, hlength, hinputs, hvalues⟩ := instanceOutputs_eq_some_iff.mp h
  have hcount := length_of_feltOutputs hlength (feltOutputs_of_outputs hvalues)
  obtain ⟨hlt, -⟩ := List.getElem?_eq_some_iff.mp hx
  obtain ⟨hplace, hstart⟩ := instanceStart_of_shift (by omega) hc
  refine deduceFresh_eq_some_iff.mpr ⟨values, instanceOutputs_eq_some_iff.mpr ?_, ?_⟩
  · rw [hplace, hstart]
    exact ⟨Nat.le_add_right _ _, xs, hlength, hinputs, hvalues⟩
  · unfold outputAt
    rw [hplace, Nat.add_sub_cancel_left, hx]

/-! ## Deducing -/

/-- Remembers and answers the value of a cell, if it has one. -/
def rememberFound (a : Address) : Option Felt → Action Builtin (Option Felt)
  | none => return none
  | some x => do
    remember a x
    return some x

/-- Answers the value of a cell from the outputs of its instance, and remembers it; a permutation
remembers all outputs before that. -/
def rememberOutputs (b : Builtin) (a : Address) (values : List Felt) :
    Action Builtin (Option Felt) := do
  if b.kind = .poseidon then
    rememberFrom (← (b.instanceStart a).shift b.kind.inputCells) 0 values
  rememberFound a (b.outputAt a values)

/-- Deducing a cell answers a remembered value, or else goes by the outputs of its instance. -/
theorem deduce_cases (b : Builtin) (m : Memory) (a : Address) :
    (∃ x, b.cache[a]? = some x ∧ deduce m a b = .ok (some x) b) ∨
      (∃ e, b.instanceOutputs m a = .error e ∧ deduce m a b = .error e b) ∨
        (b.instanceOutputs m a = .ok none ∧ deduce m a b = .ok none b) ∨
          ∃ values, b.instanceOutputs m a = .ok (some values) ∧
            deduce m a b = rememberOutputs b a values b := by
  unfold deduce
  rw [Action.get_bind]
  cases b.cache[a]? with
  | some x => exact .inl ⟨x, rfl, rfl⟩
  | none =>
    dsimp only
    cases b.instanceOutputs m a with
    | error e => exact .inr (.inl ⟨e, rfl, rfl⟩)
    | ok outputs =>
      cases outputs with
      | none => exact .inr (.inr (.inl ⟨rfl, rfl⟩))
      | some values => exact .inr (.inr (.inr ⟨values, rfl, rfl⟩))

/-- The outputs of an instance are remembered for the cells for which they are deduced fresh. -/
theorem recalls_rememberOutputs {values : List Felt} (ha : 0 ≤ a.segment)
    (h : b.instanceOutputs m a = .ok (some values)) :
    Action.Respects (Recalls fun c x => 0 ≤ c.segment ∧ b.deduceFresh m c = .ok (some x))
      (rememberOutputs b a values) := by
  have hfound : Action.Respects
      (Recalls fun c x => 0 ≤ c.segment ∧ b.deduceFresh m c = .ok (some x))
      (rememberFound a (b.outputAt a values)) := by
    cases hx : b.outputAt a values with
    | none => exact .pure _
    | some x =>
      have hfresh := deduceFresh_eq_some_iff.mpr ⟨values, h, hx⟩
      exact .bind (recalls_remember ⟨ha, hfresh⟩) fun _ => .pure _
  unfold rememberOutputs
  dsimp only
  split
  · refine Action.Respects.lift_bind fun first hfirst => .bind ?_ fun _ => hfound
    refine recalls_rememberFrom fun j x c hx hc => ⟨?_, ?_⟩
    · rw [(Address.shift_eq_ok.mp hc).1, (Address.shift_eq_ok.mp hfirst).1]
      exact ha
    · refine deduceFresh_of_instanceOutputs h hx ?_
      rw [Int.natCast_add]
      rwa [Nat.zero_add, Address.shift_trans hfirst] at hc
  · exact hfound

/-- Deducing a cell remembers only what would be deduced now. -/
theorem recalls_deduce (b : Builtin) (m : Memory) (ha : 0 ≤ a.segment) :
    Recalls (fun c x => 0 ≤ c.segment ∧ b.deduceFresh m c = .ok (some x)) b
      ((deduce m a).after b) := by
  unfold Action.after
  rcases b.deduce_cases m a with ⟨x, -, h⟩ | ⟨e, -, h⟩ | ⟨-, h⟩ | ⟨values, houtputs, h⟩
  · rw [h]
    exact refl b
  · rw [h]
    exact refl b
  · rw [h]
    exact refl b
  · rw [h]
    exact recalls_rememberOutputs ha houtputs b

/-- Deducing a cell keeps it true that every remembered value would be deduced now. -/
theorem Remembers.deduce (hb : b.Remembers m) (ha : 0 ≤ a.segment) :
    ((deduce m a).after b).Remembers m := by
  obtain ⟨cache, hcache, hnew⟩ := b.recalls_deduce m ha
  rw [hcache]
  intro c x hx
  rw [deduceFresh_cache]
  rcases hnew c x hx with hold | hfresh
  · exact hb c x hold
  · exact hfresh

/-- Remembered values are deduced in every memory that keeps field elements. -/
theorem Remembers.of_keepsFelts (hb : b.Remembers m) (hkeeps : m.KeepsFelts t) :
    b.Remembers t := by
  intro c x hx
  obtain ⟨hc, hfresh⟩ := hb c x hx
  exact ⟨hc, deduceFresh_of_keepsFelts hkeeps hc hfresh⟩

/-- The answer from the outputs of an instance is the one at the place of the cell. -/
theorem rememberOutputs_ok {values : List Felt} {found : Option Felt} {u : Builtin}
    (h : rememberOutputs b a values u = .ok found b') : b.outputAt a values = found := by
  have hfound : ∀ {u : Builtin}, rememberFound a (b.outputAt a values) u = .ok found b' →
      b.outputAt a values = found := by
    intro u h
    cases hx : b.outputAt a values with
    | none =>
      rw [hx] at h
      exact (Action.pure_eq_ok.mp h).1
    | some x =>
      rw [hx] at h
      obtain ⟨_, _, -, h⟩ := Action.bind_eq_ok.mp h
      exact (Action.pure_eq_ok.mp h).1
  unfold rememberOutputs at h
  dsimp only at h
  split at h
  · obtain ⟨first, _, -, h⟩ := Action.bind_eq_ok.mp h
    obtain ⟨_, _, -, h⟩ := Action.bind_eq_ok.mp h
    exact hfound h
  · exact hfound h

/-- What is deduced successfully is what would be deduced fresh. -/
theorem Remembers.deduce_ok (hb : b.Remembers m) {found : Option Felt}
    (h : Builtin.deduce m a b = .ok found b') : b.deduceFresh m a = .ok found := by
  rcases b.deduce_cases m a with ⟨x, hhit, hx⟩ | ⟨e, -, he⟩ | ⟨hnone, hn⟩ | ⟨values, houtputs, hv⟩
  · rw [hx] at h
    cases h
    exact (hb a x hhit).2
  · rw [he] at h
    cases h
  · rw [hn] at h
    cases h
    rw [deduceFresh_eq, hnone]
    rfl
  · rw [hv] at h
    rw [deduceFresh_eq, houtputs, ← rememberOutputs_ok h]
    rfl

/-- An instance lies in the range of offsets when its inputs are written in a list. -/
theorem room_of_fitsLists (hfits : m.FitsLists) {values : List Felt}
    (h : b.instanceOutputs m a = .ok (some values)) :
    (b.instanceStart a).offset + b.kind.cellsPerInstance ≤ offsetBound := by
  obtain ⟨-, xs, hlength, hinputs, -⟩ := instanceOutputs_eq_some_iff.mp h
  -- The last input stands before the end of its list, and the rest of the instance is short.
  have hpos : 0 < b.kind.inputCells ∧ b.kind.cellsPerInstance ≤ b.kind.inputCells + 3 := by
    cases b.kind <;> decide
  have hlast : b.kind.inputCells - 1 < (xs.map Value.felt).length := by
    rw [List.length_map]
    omega
  obtain ⟨c, hc, hget⟩ := hinputs _ _ (List.getElem?_eq_getElem hlast)
  obtain ⟨s, hs, hcell⟩ := Memory.segment?_of_get? hget
  have hsize := hfits _ s hs
  have hoffset : c.offset < s.size := by
    by_contra hge
    rw [Array.getElem?_eq_none (Nat.not_lt.mp hge)] at hcell
    cases hcell
  have hsum := (Address.shift_eq_ok.mp hc).2
  have hbounds : listBound + 3 ≤ offsetBound := by decide
  omega

/-- The output cells of an instance that lies in the range of offsets are addresses. -/
theorem exists_shift_outputs {values : List Felt} {first : Address}
    (h : b.instanceOutputs m a = .ok (some values))
    (hroom : (b.instanceStart a).offset + b.kind.cellsPerInstance ≤ offsetBound)
    (hfirst : (b.instanceStart a).shift b.kind.inputCells = .ok first) :
    ∀ j < values.length, ∃ c, first.shift (0 + j : Nat) = .ok c := by
  obtain ⟨-, xs, hlength, -, hvalues⟩ := instanceOutputs_eq_some_iff.mp h
  have hcount := length_of_feltOutputs hlength (feltOutputs_of_outputs hvalues)
  have hsum := (Address.shift_eq_ok.mp hfirst).2
  intro j hj
  refine ⟨⟨first.segment, first.offset + j, by omega⟩, Address.shift_eq_ok.mpr ⟨rfl, ?_⟩⟩
  rw [Nat.zero_add, Int.natCast_add]

/-- The outputs of an instance can be remembered when their cells are addresses. -/
theorem exists_rememberOutputs {values : List Felt}
    (h : b.instanceOutputs m a = .ok (some values))
    (hroom : (b.instanceStart a).offset + b.kind.cellsPerInstance ≤ offsetBound) (u : Builtin) :
    ∃ found b', rememberOutputs b a values u = .ok found b' := by
  have hfound : ∀ u : Builtin, ∃ found b',
      rememberFound a (b.outputAt a values) u = .ok found b' := by
    intro u
    cases b.outputAt a values with
    | none => exact ⟨_, _, rfl⟩
    | some x => exact ⟨_, _, rfl⟩
  obtain ⟨hplace, -⟩ := instanceOutputs_eq_some_iff.mp h
  obtain ⟨first, hfirst⟩ := exists_shift_instanceStart hplace
  obtain ⟨w, hw⟩ := exists_rememberFrom (exists_shift_outputs h hroom hfirst) u
  unfold rememberOutputs
  dsimp only
  split
  · obtain ⟨found, b', hend⟩ := hfound w
    refine ⟨found, b', Action.bind_eq_ok.mpr ⟨first, u, Action.lift_eq_ok.mpr ⟨hfirst, rfl⟩, ?_⟩⟩
    exact Action.bind_eq_ok.mpr ⟨(), w, hw, hend⟩
  · exact hfound u

/-- Deducing a cell answers what it would if nothing were remembered. -/
theorem Remembers.answer_deduce (hb : b.Remembers m) (hfits : m.FitsLists) :
    (Builtin.deduce m a).answer b = b.deduceFresh m a := by
  -- It does so whenever it does not fail.
  have hok : ∀ {found b'}, Builtin.deduce m a b = .ok found b' →
      (Builtin.deduce m a).answer b = b.deduceFresh m a := by
    intro found b' h
    rw [hb.deduce_ok h, Action.answer_of_ok h]
  rcases b.deduce_cases m a with ⟨x, -, h⟩ | ⟨e, houtputs, h⟩ | ⟨-, h⟩ | ⟨values, houtputs, h⟩
  · exact hok h
  · rw [deduceFresh_eq, houtputs, Action.answer_of_error h]
    rfl
  · exact hok h
  · obtain ⟨found, b', hfound⟩ :=
      exists_rememberOutputs houtputs (room_of_fitsLists hfits houtputs) b
    exact hok (h.trans hfound)

/-! ## Interleavings -/

/-- What happens to a memory and a builtin: a call on the memory, a rule for a temporary segment,
relocation, or the deduction of a cell. -/
inductive Use
  | call (c : Memory.Call)
  | addRelocation (src dst : Address)
  | relocate
  | deduce (a : Address)

/-- What a use makes of a memory and a builtin, whether it succeeds or fails. -/
def Use.apply : Use → Memory × Builtin → Memory × Builtin
  | call c, (m, b) => (c.act.after m, b)
  | addRelocation src dst, (m, b) => ((Memory.addRelocation src dst).after m, b)
  | relocate, (m, b) => (Memory.relocate.after m, b)
  | deduce a, (m, b) => (m, (Builtin.deduce m a).after b)

/-- The use deduces cells of real segments only. -/
def Use.IsReal : Use → Prop
  | deduce a => 0 ≤ a.segment
  | _ => True

/-- A memory and a builtin after a list of uses. -/
def afterUses (uses : List Use) (s : Memory × Builtin) : Memory × Builtin :=
  uses.foldl (fun s u => u.apply s) s

/-- A use keeps it true that every remembered value would be deduced now, and changes nothing else
of the builtin. -/
theorem remembers_apply {u : Use} (hu : u.IsReal) (hb : b.Remembers m) :
    (u.apply (m, b)).2.Remembers (u.apply (m, b)).1 ∧
      ∃ cache, (u.apply (m, b)).2 = { b with cache := cache } := by
  cases u with
  | call c =>
    exact ⟨hb.of_keepsFelts (Memory.respects_act c m).keepsFelts, b.cache, rfl⟩
  | addRelocation src dst =>
    exact ⟨hb.of_keepsFelts (Memory.respects_addRelocation src dst m).keepsFelts, b.cache, rfl⟩
  | relocate => exact ⟨hb.of_keepsFelts (Memory.keepsFelts_relocate m), b.cache, rfl⟩
  | deduce a =>
    obtain ⟨cache, hcache, -⟩ := b.recalls_deduce m hu
    exact ⟨hb.deduce hu, cache, hcache⟩

/-- Every remembered value would be deduced now, after any uses. -/
theorem remembers_afterUses {uses : List Use} (huses : ∀ u ∈ uses, u.IsReal)
    (hb : b.Remembers m) :
    (afterUses uses (m, b)).2.Remembers (afterUses uses (m, b)).1 ∧
      ∃ cache, (afterUses uses (m, b)).2 = { b with cache := cache } := by
  induction uses generalizing m b with
  | nil => exact ⟨hb, b.cache, rfl⟩
  | cons u rest ih =>
    obtain ⟨hfirst, cache, hcache⟩ := remembers_apply (huses u List.mem_cons_self) hb
    obtain ⟨hrest, cache', hcache'⟩ := ih (fun v hv => huses v (List.mem_cons_of_mem u hv)) hfirst
    refine ⟨hrest, cache', hcache'.trans ?_⟩
    show { (u.apply (m, b)).2 with cache := cache' } = _
    rw [hcache]

/-- A builtin that remembers nothing remembers nothing wrong. -/
theorem remembers_of_isEmpty (hempty : b.cache = ∅) (m : Memory) : b.Remembers m := by
  intro a x hx
  rw [hempty, Std.ExtTreeMap.getElem?_empty] at hx
  cases hx

/-- Whatever happens to a memory and to a builtin that remembers nothing at first, deducing a cell
of a real segment answers what it would if nothing were remembered: nothing for an input or while
an input is missing, and otherwise the output for the inputs of the instance of the cell. -/
theorem answer_afterUses {b₀ : Builtin} {m₀ : Memory} {uses : List Use}
    (hempty : b₀.cache = ∅) (huses : ∀ u ∈ uses, u.IsReal)
    (hrun : afterUses uses (m₀, b₀) = (m, b)) (hfits : m.FitsLists) (a : Address) :
    (Builtin.deduce m a).answer b = (Builtin.deduce m a).answer b₀ ∧
      IsDeduced b₀ m a ((Builtin.deduce m a).answer b) := by
  obtain ⟨hb, cache, hcache⟩ := remembers_afterUses huses (remembers_of_isEmpty hempty m₀)
  rw [hrun] at hb hcache
  have hanswer : (Builtin.deduce m a).answer b = b₀.deduceFresh m a := by
    rw [hb.answer_deduce hfits]
    obtain rfl : b = { b₀ with cache := cache } := hcache
    exact deduceFresh_cache b₀ cache m a
  rw [hanswer, (remembers_of_isEmpty hempty m).answer_deduce hfits]
  exact ⟨rfl, b₀.isDeduced_deduceFresh m a⟩

/-- The segments of a memory are checked one by one. -/
theorem fitsLists_of_all
    (h : (m.segments.all (·.size < listBound) && m.temporaries.all (·.size < listBound)) = true) :
    m.FitsLists := by
  rw [Bool.and_eq_true, Array.all_eq_true', Array.all_eq_true'] at h
  intro i s hs
  cases i with
  | ofNat n => exact of_decide_eq_true (h.1 s (Array.mem_of_getElem? hs))
  | negSucc n => exact of_decide_eq_true (h.2 s (Array.mem_of_getElem? hs))

/-- Two inputs of a permutation are written, and the third one to a temporary segment that is then
moved to its place.  An output is asked for before and after that. -/
def permuting (third output : Address) : List Use :=
  [.call .addSegment, .call .addTemporary,
    .call (.load (.base 0) [.value (.felt 1), .value (.felt 2)]),
    .call (.insert (.base (-1)) (.value (.felt 3))), .deduce output,
    .addRelocation (.base (-1)) third, .relocate, .deduce output]

/-- After these uses, the other outputs are remembered and are those for the three inputs. -/
theorem answer_afterUses_permuting :
    ∃ m b, afterUses (permuting ⟨0, 2, by decide⟩ ⟨0, 4, by decide⟩)
        (.empty, .ofKind .poseidon) = (m, b) ∧ m.FitsLists ∧
      (Builtin.deduce m ⟨0, 5, by decide⟩).answer b =
        (Builtin.deduce m ⟨0, 5, by decide⟩).answer (.ofKind .poseidon) ∧
      IsDeduced (.ofKind .poseidon) m ⟨0, 5, by decide⟩
        ((Builtin.deduce m ⟨0, 5, by decide⟩).answer b) := by
  have hreal : ∀ u ∈ permuting ⟨0, 2, by decide⟩ ⟨0, 4, by decide⟩, u.IsReal := by
    simp [permuting, Use.IsReal]
  obtain ⟨m, b, hrun⟩ : ∃ m b, afterUses (permuting ⟨0, 2, by decide⟩ ⟨0, 4, by decide⟩)
      (.empty, .ofKind .poseidon) = (m, b) := ⟨_, _, Prod.mk.eta.symm⟩
  have hfits : (afterUses (permuting ⟨0, 2, by decide⟩ ⟨0, 4, by decide⟩)
      (.empty, .ofKind .poseidon)).1.FitsLists := fitsLists_of_all (by decide +kernel)
  rw [hrun] at hfits
  exact ⟨m, b, hrun, hfits, answer_afterUses rfl hreal hrun hfits _⟩

end Builtin

end Cairo
