import Mathlib.Order.Defs.Unbundled
import Cairo.Action

/-!
# How actions end, and what they respect

The first half opens answers and actions that succeed: `bind_eq_ok` takes a sequence apart into
its two halves, and the lemmas after it do the same for the single steps an action is built from.

The second half is about relations between the state before and the state after.  `Respects R x`
says that `x` ends, whether it fails or not, in a state that `R` relates to the one it started
in.  For a preorder `R` this passes from the steps of an action to the whole, so that a law of
runs is proved once for each step.  `Ensures R x` says the same of the runs of `x` that succeed
only.  Both are a `Law`, which is whatever passes from steps to the whole.  Two notions more are
about failures: which faults an action ends in (`FailsOnly`), and whether it leaves the state as it
was then (`Atomic`).  At the end, `Mirrors` compares how two actions end that start in different
states.
-/

namespace Cairo

/-! ## Answers that succeed -/

namespace Answer

variable {ε α β : Type}

/-- A sequence of two answers succeeds when both do. -/
theorem bind_eq_ok {x : Except ε α} {f : α → Except ε β} {b : β} :
    (x >>= f) = .ok b ↔ ∃ a, x = .ok a ∧ f a = .ok b := by
  show Except.bind x f = .ok b ↔ _
  cases x with
  | ok a => simp [Except.bind]
  | error e => simp [Except.bind]

/-- A sequence of answers goes on with the first one. -/
theorem ok_bind (a : α) (f : α → Except Fault β) :
    ((Except.ok a : Except Fault α) >>= f) = f a := rfl

/-- The image of an answer succeeds when the answer does. -/
theorem map_eq_ok {x : Except Fault α} {f : α → β} {b : β} :
    x.map f = .ok b ↔ ∃ a, x = .ok a ∧ f a = b := by
  cases x with
  | ok a => simp [Except.map]
  | error e => simp [Except.map]

/-- The image of an answer under a function that tells answers apart is that of the answer only. -/
theorem map_eq_ok_apply {x : Except Fault α} {f : α → β} (hf : Function.Injective f) {a : α} :
    x.map f = .ok (f a) ↔ x = .ok a := by
  rw [map_eq_ok]
  refine ⟨fun ⟨b, hb, hab⟩ => ?_, fun h => ⟨a, h, rfl⟩⟩
  rw [hb, hf hab]

/-- The image of an answer fails as the answer does. -/
theorem map_eq_error {x : Except Fault α} {f : α → β} {e : Fault} :
    x.map f = .error e ↔ x = .error e := by
  cases x with
  | ok a => simp [Except.map]
  | error e' => simp [Except.map]

/-- A plain answer is what it is. -/
theorem pure_eq_ok {a b : α} : (pure a : Except ε α) = .ok b ↔ a = b := by
  show Except.ok a = .ok b ↔ _
  simp

/-- A fault is no answer. -/
theorem throw_eq_ok {e : ε} {b : α} : (throw e : Except ε α) = .ok b ↔ False := by
  show Except.error e = .ok b ↔ _
  simp

/-- An answer that is there as an option succeeds. -/
theorem eq_ok_of_toOption {x : Except ε α} {a : α} (h : x.toOption = some a) : x = .ok a := by
  cases x with
  | ok b => exact congrArg Except.ok (Option.some.inj h)
  | error e => cases h

/-- An optional answer succeeds when it is there. -/
theorem orThrow_eq_ok {x : Option α} {e : Fault} {a : α} :
    Action.orThrow x e = .ok a ↔ x = some a := by
  cases x with
  | none => simp [Action.orThrow]
  | some b => simp [Action.orThrow]

/-- What a fold over a list keeps from item to item holds of its answer. -/
theorem foldlM_ok {f : β → α → Except Fault β} {l : List α} {b b' : β} (I : β → Prop)
    (h : l.foldlM f b = .ok b') (start : I b)
    (round : ∀ a ∈ l, ∀ b b', I b → f b a = .ok b' → I b') : I b' := by
  induction l generalizing b with
  | nil =>
    obtain rfl := pure_eq_ok.mp h
    exact start
  | cons a rest ih =>
    rw [List.foldlM_cons] at h
    obtain ⟨c, hc, hrest⟩ := bind_eq_ok.mp h
    refine ih hrest (round a List.mem_cons_self b c start hc) fun a' ha' => ?_
    exact round a' (List.mem_cons_of_mem a ha')

/-- There are as many answers as items that they are for. -/
theorem length_of_mapM {f : α → Except Fault β} {l : List α} {l' : List β}
    (h : l.mapM f = .ok l') : l'.length = l.length := by
  induction l generalizing l' with
  | nil =>
    rw [List.mapM_nil] at h
    obtain rfl := pure_eq_ok.mp h
    rfl
  | cons a rest ih =>
    rw [List.mapM_cons] at h
    simp only [bind_eq_ok, pure_eq_ok] at h
    obtain ⟨b, -, rest', hrest, rfl⟩ := h
    rw [List.length_cons, List.length_cons, ih hrest]

/-- Answers for the items of a list stand at the places of the items. -/
theorem getElem?_of_mapM {f : α → Except Fault β} {l : List α} {l' : List β}
    (h : l.mapM f = .ok l') (k : Nat) :
    (l[k]? = none → l'[k]? = none) ∧ ∀ a, l[k]? = some a → ∃ b, f a = .ok b ∧ l'[k]? = some b := by
  induction l generalizing l' k with
  | nil =>
    rw [List.mapM_nil] at h
    obtain rfl := pure_eq_ok.mp h
    exact ⟨fun _ => rfl, nofun⟩
  | cons a rest ih =>
    rw [List.mapM_cons] at h
    simp only [bind_eq_ok, pure_eq_ok] at h
    obtain ⟨b, hb, rest', hrest, rfl⟩ := h
    cases k with
    | zero => simpa using hb
    | succ k => exact ih hrest k

/-- The answer for an item of a list is among the answers. -/
theorem mem_of_mapM {f : α → Except Fault β} {l : List α} {l' : List β} (h : l.mapM f = .ok l')
    {a : α} (ha : a ∈ l) : ∃ b, f a = .ok b ∧ b ∈ l' := by
  obtain ⟨k, hk⟩ := List.mem_iff_getElem?.mp ha
  obtain ⟨b, hb, hk'⟩ := (getElem?_of_mapM h k).2 a hk
  exact ⟨b, hb, List.mem_iff_getElem?.mpr ⟨k, hk'⟩⟩

/-- Each of the answers for a list is for one of its items. -/
theorem exists_of_mem_mapM {f : α → Except Fault β} {l : List α} {l' : List β}
    (h : l.mapM f = .ok l') {b : β} (hb : b ∈ l') : ∃ a ∈ l, f a = .ok b := by
  obtain ⟨k, hk⟩ := List.mem_iff_getElem?.mp hb
  obtain ⟨hnone, hsome⟩ := getElem?_of_mapM h k
  cases ha : l[k]? with
  | none =>
    rw [hnone ha] at hk
    cases hk
  | some a =>
    obtain ⟨b', hb', hk'⟩ := hsome a ha
    obtain rfl := Option.some.inj (hk'.symm.trans hk)
    exact ⟨a, List.mem_of_getElem? ha, hb'⟩

/-- Every item of a list has an answer if each of them has. -/
theorem exists_mapM_ok {f : α → Except Fault β} {l : List α} (h : ∀ a ∈ l, ∃ b, f a = .ok b) :
    ∃ l', l.mapM f = .ok l' := by
  induction l with
  | nil => exact ⟨[], rfl⟩
  | cons a rest ih =>
    obtain ⟨b, hb⟩ := h a List.mem_cons_self
    obtain ⟨rest', hrest⟩ := ih fun a' ha' => h a' (List.mem_cons_of_mem a ha')
    refine ⟨b :: rest', ?_⟩
    rw [List.mapM_cons, hb, hrest]
    rfl

/-- A walk through a list that fails does so at one of its items. -/
theorem exists_of_mapM_error {f : α → Except Fault β} {l : List α} {e : Fault}
    (h : l.mapM f = .error e) : ∃ a ∈ l, f a = .error e := by
  induction l with
  | nil => cases h
  | cons a rest ih =>
    rw [List.mapM_cons] at h
    cases ha : f a with
    | error e' =>
      rw [ha] at h
      obtain rfl := Except.error.inj h
      exact ⟨a, List.mem_cons_self, ha⟩
    | ok b =>
      rw [ha, ok_bind] at h
      cases hrest : rest.mapM f with
      | ok l' =>
        rw [hrest] at h
        cases h
      | error e' =>
        rw [hrest] at h
        obtain rfl := Except.error.inj h
        obtain ⟨a', ha', he⟩ := ih hrest
        exact ⟨a', List.mem_cons_of_mem a ha', he⟩

/-- If there is an answer for each item that meets a condition, and a fault for the others, then
there are answers for a list if all of its items meet the condition. -/
theorem mapM_eq_ite {P : α → Prop} [DecidablePred P] {f : α → Except Fault β} {g : α → β}
    {e : Fault} (hf : ∀ a, f a = if P a then .ok (g a) else .error e) (l : List α) :
    l.mapM f = if ∀ a ∈ l, P a then .ok (l.map g) else .error e := by
  induction l with
  | nil => rfl
  | cons a rest ih =>
    rw [List.mapM_cons, hf a, ih]
    by_cases ha : P a
    · rw [if_pos ha]
      by_cases hrest : ∀ b ∈ rest, P b
      · rw [if_pos hrest, if_pos (List.forall_mem_cons.mpr ⟨ha, hrest⟩)]
        rfl
      · rw [if_neg hrest, if_neg fun h => hrest (List.forall_mem_cons.mp h).2]
        rfl
    · rw [if_neg ha, if_neg fun h => ha (List.forall_mem_cons.mp h).1]
      rfl

/-! ### Faults of answers -/

/-- An answer that is there under a condition fails just where the condition does. -/
theorem exists_ite_eq_error {P : Prop} [Decidable P] {a : α} {e : Fault} :
    (∃ e', (if P then .ok a else .error e : Except Fault α) = .error e') ↔ ¬ P := by
  by_cases h : P
  · simp [h]
  · simp [h]

/-- The answer fails with faults of one sort only. -/
def FailsOnly (P : Fault → Prop) (x : Except Fault α) : Prop := ∀ e, x = .error e → P e

namespace FailsOnly

variable {P : Fault → Prop}

/-- An answer does not fail. -/
protected theorem ok (a : α) : FailsOnly P (.ok a) := nofun

/-- A fault is of its sort. -/
protected theorem error {e : Fault} (he : P e) : FailsOnly P (.error e : Except Fault α) := by
  rintro _ ⟨⟩
  exact he

/-- A sequence fails as one of its halves does. -/
protected theorem bind {x : Except Fault α} {f : α → Except Fault β} (hx : FailsOnly P x)
    (hf : ∀ a, FailsOnly P (f a)) : FailsOnly P (x >>= f) := by
  cases x with
  | ok a => exact hf a
  | error e => exact .error (hx e rfl)

/-- Nothing fails behind a fault. -/
protected theorem throw_bind {e : Fault} (he : P e) (f : β → Except Fault α) :
    FailsOnly P ((throw e : Except Fault β) >>= f) := .error he

/-- The image of an answer fails as the answer does. -/
protected theorem map {x : Except Fault α} {f : α → β} (hx : FailsOnly P x) :
    FailsOnly P (x.map f) := by
  cases x with
  | ok a => exact .ok _
  | error e => exact .error (hx e rfl)

/-- An absent answer fails with the fault that is given for it. -/
protected theorem orThrow {x : Option α} {e : Fault} (he : P e) :
    FailsOnly P (Action.orThrow x e) := by
  cases x with
  | none => exact .error he
  | some a => exact .ok a

/-- A fold over a list fails as one of its rounds does. -/
protected theorem foldlM {l : List β} {f : α → β → Except Fault α} {a : α}
    (hf : ∀ a b, FailsOnly P (f a b)) : FailsOnly P (l.foldlM f a) := by
  induction l generalizing a with
  | nil => exact .ok _
  | cons b l ih =>
    rw [List.foldlM_cons]
    exact .bind (hf a b) fun _ => ih

/-- Answers for the items of a list fail as one of them does. -/
protected theorem mapM {l : List β} {f : β → Except Fault α} (hf : ∀ b, FailsOnly P (f b)) :
    FailsOnly P (l.mapM f) := by
  induction l with
  | nil =>
    rw [List.mapM_nil]
    exact .ok _
  | cons b l ih =>
    rw [List.mapM_cons]
    exact .bind (hf b) fun _ => .bind ih fun _ => .ok _

end FailsOnly

end Answer

namespace Action

variable {σ τ α β : Type}

/-! ## Actions that succeed -/

/-- A sequence of two actions succeeds when the first does, and the second after it. -/
theorem bind_eq_ok {x : Action σ α} {f : α → Action σ β} {s t : σ} {b : β} :
    (x >>= f) s = .ok b t ↔ ∃ a u, x s = .ok a u ∧ f a u = .ok b t := by
  show EStateM.bind x f s = .ok b t ↔ _
  unfold EStateM.bind
  cases x s with
  | ok a u => simp [and_assoc]
  | error e u => simp

/-- A sequence goes on where its first half ends. -/
theorem bind_of_ok {x : Action σ α} {f : α → Action σ β} {s t : σ} {a : α} (h : x s = .ok a t) :
    (x >>= f) s = f a t := by
  show EStateM.bind x f s = _
  unfold EStateM.bind
  rw [h]

/-- A sequence fails with its first half. -/
theorem bind_of_error {x : Action σ α} {f : α → Action σ β} {s t : σ} {e : Fault}
    (h : x s = .error e t) : (x >>= f) s = .error e t := by
  show EStateM.bind x f s = _
  unfold EStateM.bind
  rw [h]

/-- A plain answer leaves the state alone. -/
theorem pure_eq_ok {a b : α} {s t : σ} :
    (pure a : Action σ α) s = .ok b t ↔ a = b ∧ s = t := by
  show EStateM.Result.ok a s = .ok b t ↔ _
  simp

/-- Reading the state answers it. -/
theorem get_eq_ok {a s t : σ} : (get : Action σ σ) s = .ok a t ↔ s = a ∧ s = t := by
  show EStateM.Result.ok s s = .ok a t ↔ _
  simp

/-- An action that reads the state first goes on with the state that it read. -/
theorem get_bind (f : σ → Action σ α) (s : σ) : (get >>= f) s = f s s := rfl

/-- An action that changes the state first goes on with the new state. -/
theorem modify_bind (f : σ → σ) (g : PUnit → Action σ α) (s : σ) :
    (modify f >>= g) s = g .unit (f s) := rfl

/-- Changing the state succeeds. -/
theorem modify_eq_ok {f : σ → σ} {s t : σ} {u : PUnit} :
    (modify f : Action σ PUnit) s = .ok u t ↔ f s = t := by
  show EStateM.Result.ok PUnit.unit (f s) = .ok u t ↔ _
  simp

/-- An answer lifted to an action leaves the state alone. -/
theorem lift_eq_ok {x : Except Fault α} {a : α} {s t : σ} :
    (liftM x : Action σ α) s = .ok a t ↔ x = .ok a ∧ s = t := by
  show ofExcept x s = .ok a t ↔ _
  cases x with
  | ok b => simp [ofExcept]
  | error e => simp [ofExcept]

/-- A sequence goes on with an answer that is lifted. -/
theorem lift_bind_of_ok {x : Except Fault α} {a : α} (h : x = .ok a) (f : α → Action σ β) (s : σ) :
    ((liftM x : Action σ α) >>= f) s = f a s :=
  bind_of_ok (lift_eq_ok.mpr ⟨h, rfl⟩)

/-- An action on a part succeeds when it does so on the part. -/
theorem within_eq_ok {part : σ → τ} {replace : σ → τ → σ} {x : Action τ α} {a : α} {s t : σ} :
    within part replace x s = .ok a t ↔ ∃ u, x (part s) = .ok a u ∧ replace s u = t := by
  unfold within
  cases x (part s) with
  | ok b u => simp [and_assoc]
  | error e u => simp

/-- An action on a part fails as it does on the part. -/
theorem within_eq_error {part : σ → τ} {replace : σ → τ → σ} {x : Action τ α} {s t : σ}
    {e : Fault} :
    within part replace x s = .error e t ↔ ∃ u, x (part s) = .error e u ∧ replace s u = t := by
  unfold within
  cases x (part s) with
  | ok a u => simp
  | error e' u => simp [and_assoc]

/-- A sequence of actions on a part is one of actions on the whole, if the part that is replaced is
found again. -/
theorem within_bind {part : σ → τ} {replace : σ → τ → σ} (hpart : ∀ s t, part (replace s t) = t)
    (hlast : ∀ s t u, replace (replace s t) u = replace s u) (x : Action τ α)
    (f : α → Action τ β) :
    within part replace (x >>= f) =
      within part replace x >>= fun a => within part replace (f a) := by
  funext s
  cases hx : x (part s) with
  | ok a t =>
    rw [bind_of_ok (within_eq_ok.mpr ⟨t, hx, rfl⟩)]
    unfold within
    rw [bind_of_ok hx, hpart]
    cases f a t with
    | ok b u => exact congrArg (EStateM.Result.ok b) (hlast s t u).symm
    | error e u => exact congrArg (EStateM.Result.error e) (hlast s t u).symm
  | error e t =>
    rw [bind_of_error (within_eq_error.mpr ⟨t, hx, rfl⟩)]
    unfold within
    rw [bind_of_error hx]

/-- A sequence of actions over a range establishes what its rounds do: `I k` holds after `k`
rounds. -/
theorem forM_range_ok {f : Nat → Action σ PUnit} {n : Nat} {s t : σ} {u : PUnit}
    (I : Nat → σ → Prop) (h : (List.range n).forM f s = .ok u t) (start : I 0 s)
    (round : ∀ k s t, k < n → I k s → f k s = .ok .unit t → I (k + 1) t) : I n t := by
  -- The induction is on the rounds that are left, of which the first is round `k`.
  have run : ∀ len k s, k + len = n → I k s →
      (List.range' k len).forM f s = .ok u t → I n t := by
    intro len
    induction len with
    | zero =>
      intro k s hk hI hrun
      obtain ⟨-, rfl⟩ := pure_eq_ok.mp hrun
      obtain rfl : k = n := hk
      exact hI
    | succ len ih =>
      intro k s hk hI hrun
      obtain ⟨⟨⟩, s', hfirst, hrest⟩ := bind_eq_ok.mp hrun
      exact ih (k + 1) s' (by omega) (round k s s' (by omega) hI hfirst) hrest
  rw [List.range_eq_range'] at h
  exact run n 0 s (Nat.zero_add n) start h

/-- What the rounds of a loop over a list keep holds at its end, and what each of them finds out
holds of all items. -/
theorem forM_ok {f : β → Action σ PUnit} {l : List β} {s t : σ} {u : PUnit} (I : σ → Prop)
    (P : β → Prop) (h : l.forM f s = .ok u t) (start : I s)
    (round : ∀ b ∈ l, ∀ s t, I s → f b s = .ok .unit t → I t ∧ P b) : I t ∧ ∀ b ∈ l, P b := by
  induction l generalizing s with
  | nil =>
    obtain ⟨-, rfl⟩ := pure_eq_ok.mp h
    exact ⟨start, nofun⟩
  | cons b rest ih =>
    obtain ⟨⟨⟩, s', hfirst, hrest⟩ := bind_eq_ok.mp h
    obtain ⟨hs', hb⟩ := round b List.mem_cons_self s s' start hfirst
    obtain ⟨ht, hall⟩ := ih hrest hs' fun c hc => round c (List.mem_cons_of_mem b hc)
    exact ⟨ht, List.forall_mem_cons.mpr ⟨hb, hall⟩⟩

/-- What the items of a list keep when each of them is answered holds at the end, and what each
answer is like holds of all answers. -/
theorem mapM_ok {f : β → Action σ α} {l : List β} {l' : List α} {s t : σ} (I : σ → Prop)
    (P : α → Prop) (h : l.mapM f s = .ok l' t) (start : I s)
    (round : ∀ b ∈ l, ∀ s a t, I s → f b s = .ok a t → I t ∧ P a) : I t ∧ ∀ a ∈ l', P a := by
  induction l generalizing s l' with
  | nil =>
    rw [List.mapM_nil] at h
    obtain ⟨rfl, rfl⟩ := pure_eq_ok.mp h
    exact ⟨start, nofun⟩
  | cons b rest ih =>
    rw [List.mapM_cons] at h
    obtain ⟨a, s', hfirst, h⟩ := bind_eq_ok.mp h
    obtain ⟨rest', t', hrest, h⟩ := bind_eq_ok.mp h
    obtain ⟨rfl, rfl⟩ := pure_eq_ok.mp h
    obtain ⟨hs', ha⟩ := round b List.mem_cons_self s a s' start hfirst
    obtain ⟨ht, hall⟩ := ih hrest hs' fun c hc => round c (List.mem_cons_of_mem b hc)
    exact ⟨ht, List.forall_mem_cons.mpr ⟨ha, hall⟩⟩

/-- An action that succeeds ends in the state that it succeeds in. -/
theorem after_of_ok {x : Action σ α} {s t : σ} {a : α} (h : x s = .ok a t) : x.after s = t := by
  unfold after
  rw [h]

/-- An action that fails ends in the state that it fails in. -/
theorem after_of_error {x : Action σ α} {s t : σ} {e : Fault} (h : x s = .error e t) :
    x.after s = t := by
  unfold after
  rw [h]

/-- Actions that end alike end in the same state. -/
theorem after_congr {x y : Action σ α} {s t : σ} (h : x s = y t) : x.after s = y.after t := by
  unfold after
  rw [h]

/-- An action that succeeds answers what it succeeds with. -/
theorem answer_of_ok {x : Action σ α} {s t : σ} {a : α} (h : x s = .ok a t) :
    x.answer s = .ok a := by
  unfold answer
  rw [h]

/-- An action that fails answers the fault that it fails with. -/
theorem answer_of_error {x : Action σ α} {s t : σ} {e : Fault} (h : x s = .error e t) :
    x.answer s = .error e := by
  unfold answer
  rw [h]

/-- Actions that end alike have the same answer. -/
theorem answer_congr {x y : Action σ α} {s t : σ} (h : x s = y t) :
    x.answer s = y.answer t := by
  unfold answer
  rw [h]

/-- An action whose answer is no fault succeeds. -/
theorem exists_eq_ok_of_isOk {x : Action σ α} {s : σ} (h : (x.answer s).isOk = true) :
    ∃ a, x s = .ok a (x.after s) := by
  unfold answer at h
  unfold after
  cases hx : x s with
  | ok a t => exact ⟨a, rfl⟩
  | error e t =>
    rw [hx] at h
    cases h

/-- An action whose answer is there as an option succeeds with it. -/
theorem eq_ok_of_toOption {x : Action σ α} {s : σ} {a : α}
    (h : (x.answer s).toOption = some a) : x s = .ok a (x.after s) := by
  have hanswer := Answer.eq_ok_of_toOption h
  obtain ⟨b, hb⟩ := exists_eq_ok_of_isOk (congrArg Except.isOk hanswer)
  unfold answer at hanswer
  rw [hb] at hanswer
  rw [hb, Except.ok.inj hanswer]

/-- An action that has nothing to answer succeeds if it does not fail. -/
theorem eq_ok_of_isOk {x : Action σ Unit} {s : σ} (h : (x.answer s).isOk = true) :
    x s = .ok () (x.after s) := by
  obtain ⟨⟨⟩, hx⟩ := exists_eq_ok_of_isOk h
  exact hx

/-! ## Laws -/

/-- A law of actions: a property that passes from the steps of an action to the whole. -/
structure Law (σ : Type) where
  /-- The law holds of the action. -/
  Holds : ∀ {α : Type}, Action σ α → Prop
  protected pure : ∀ {α : Type} (a : α), Holds (pure a)
  protected get : Holds get
  protected lift : ∀ {α : Type} (x : Except Fault α), Holds (liftM x)
  protected throw : ∀ {α : Type} (e : Fault), Holds (throw e : Action σ α)
  protected bind : ∀ {α β : Type} {x : Action σ α} {f : α → Action σ β}, Holds x →
    (∀ a, Holds (f a)) → Holds (x >>= f)

namespace Law

variable (L : Law σ)

/-- A law holds where nothing happens behind a fault. -/
protected theorem throw_bind (e : Fault) (f : β → Action σ α) :
    L.Holds ((throw e : Action σ β) >>= f) := L.throw e

/-- A sequence that starts with a lifted answer obeys a law if its rest does for this answer. -/
protected theorem lift_bind {x : Except Fault α} {f : α → Action σ β}
    (hf : ∀ a, x = .ok a → L.Holds (f a)) : L.Holds ((liftM x : Action σ α) >>= f) := by
  cases x with
  | ok a => exact hf a rfl
  | error e => exact L.throw e

/-- A law of the rounds of a loop over a list holds of the loop. -/
protected theorem forM {l : List β} {f : β → Action σ PUnit} (hf : ∀ b ∈ l, L.Holds (f b)) :
    L.Holds (l.forM f) := by
  induction l with
  | nil => exact L.pure _
  | cons b l ih =>
    have hl : L.Holds (l.forM f) := ih fun c hc => hf c (List.mem_cons_of_mem b hc)
    exact L.bind (hf b List.mem_cons_self) fun _ => hl

/-- A law of actions for the items of a list holds of the list of their answers. -/
protected theorem mapM {l : List β} {f : β → Action σ α} (hf : ∀ b ∈ l, L.Holds (f b)) :
    L.Holds (l.mapM f) := by
  induction l with
  | nil =>
    rw [List.mapM_nil]
    exact L.pure _
  | cons b l ih =>
    rw [List.mapM_cons]
    have hl : L.Holds (l.mapM f) := ih fun c hc => hf c (List.mem_cons_of_mem b hc)
    exact L.bind (hf b List.mem_cons_self) fun _ => L.bind hl fun _ => L.pure _

/-- A law of actions on the whole is one of the actions on a part. -/
def within (part : σ → τ) (replace : σ → τ → σ) (hpart : ∀ s t, part (replace s t) = t)
    (hsame : ∀ s, replace s (part s) = s)
    (hlast : ∀ s t u, replace (replace s t) u = replace s u) : Law τ where
  Holds x := L.Holds (Action.within part replace x)
  pure a := by
    have h : Action.within part replace (pure a) = pure a :=
      funext fun s => congrArg (EStateM.Result.ok a) (hsame s)
    rw [h]
    exact L.pure a
  get := by
    have h : Action.within part replace get = do return part (← get) :=
      funext fun s => congrArg (EStateM.Result.ok (part s)) (hsame s)
    rw [h]
    exact L.bind L.get fun _ => L.pure _
  lift x := by
    have h : Action.within part replace (liftM x) = liftM x := by
      funext s
      cases x with
      | ok a => exact congrArg (EStateM.Result.ok a) (hsame s)
      | error e => exact congrArg (EStateM.Result.error e) (hsame s)
    rw [h]
    exact L.lift x
  throw e := by
    have h : ∀ {α : Type}, Action.within part replace (throw e : Action τ α) = throw e :=
      funext fun s => congrArg (EStateM.Result.error e) (hsame s)
    rw [h]
    exact L.throw e
  bind hx hf := by
    rw [within_bind hpart hlast]
    exact L.bind hx hf

end Law

/-! ## Relations that actions respect -/

/-- The action ends in a state that is related to the one it started in, also when it fails. -/
def Respects (R : σ → σ → Prop) (x : Action σ α) : Prop := ∀ s, R s (x.after s)

namespace Respects

variable {R : σ → σ → Prop}

/-- An action that succeeds ends in a related state. -/
theorem of_ok {x : Action σ α} (hx : Respects R x) {s t : σ} {a : α} (h : x s = .ok a t) :
    R s t := by
  have hs := hx s
  rwa [after_of_ok h] at hs

/-- An action that fails ends in a related state. -/
theorem of_error {x : Action σ α} (hx : Respects R x) {s t : σ} {e : Fault}
    (h : x s = .error e t) : R s t := by
  have hs := hx s
  rwa [after_of_error h] at hs

/-- A relation that an action respects may be weakened. -/
protected theorem mono {S : σ → σ → Prop} {x : Action σ α} (hx : Respects R x)
    (hRS : ∀ s t, R s t → S s t) : Respects S x :=
  fun s => hRS _ _ (hx s)

/-- An action on a part respects what its change of the part brings about. -/
protected theorem within {S : τ → τ → Prop} {part : σ → τ} {replace : σ → τ → σ} {x : Action τ α}
    (hx : Respects S x) (hRS : ∀ s u, S (part s) u → R s (replace s u)) :
    Respects R (within part replace x) := by
  intro s
  rw [after_within]
  exact hRS s _ (hx (part s))

/-- A change of the state respects what holds of all such changes. -/
protected theorem modify {f : σ → σ} (hf : ∀ s, R s (f s)) :
    Respects R (modify f : Action σ PUnit) :=
  hf

/-- An action that reads the state first respects what its rest respects in the state that it
reads. -/
protected theorem get_bind {f : σ → Action σ α} (hf : ∀ s, R s ((f s).after s)) :
    Respects R (get >>= f) := hf

/-- In a given state, a sequence ends where its first half does if that fails, and where its second
half does otherwise. -/
theorem rel_bind {x : Action σ α} {f : α → Action σ β} {s : σ} (hx : R s (x.after s))
    (hf : ∀ a u, x s = .ok a u → R s ((f a).after u)) : R s ((x >>= f).after s) := by
  show R s (after (EStateM.bind x f) s)
  unfold after at hx ⊢
  unfold EStateM.bind
  cases h : x s with
  | ok a u => exact hf a u h
  | error e u =>
    rw [h] at hx
    exact hx

variable [IsPreorder σ R]

/-- A plain answer respects every preorder. -/
protected theorem pure (a : α) : Respects R (pure a : Action σ α) := fun s => refl s

/-- A fault respects every preorder. -/
protected theorem throw (e : Fault) : Respects R (throw e : Action σ α) := fun s => refl s

/-- Nothing happens behind a fault. -/
protected theorem throw_bind (e : Fault) (f : β → Action σ α) :
    Respects R ((throw e : Action σ β) >>= f) := fun s => refl s

/-- Reading the state respects every preorder. -/
protected theorem get : Respects R (get : Action σ σ) := fun s => refl s

/-- A lifted answer respects every preorder. -/
protected theorem lift (x : Except Fault α) : Respects R (liftM x : Action σ α) := by
  intro s
  show R s ((ofExcept x).after s)
  rw [after_ofExcept]
  exact refl s

/-- A sequence respects what both of its halves respect. -/
protected theorem bind {x : Action σ α} {f : α → Action σ β} (hx : Respects R x)
    (hf : ∀ a, Respects R (f a)) : Respects R (x >>= f) :=
  fun s => rel_bind (hx s) fun a u h => IsTrans.trans _ _ _ (hx.of_ok h) (hf a u)

/-- In a given state, a sequence respects what its first half does, and its second half in the state
that this leads to. -/
theorem rel_bind_trans {x : Action σ α} {f : α → Action σ β} {s : σ} (hx : R s (x.after s))
    (hf : ∀ a u, x s = .ok a u → R u ((f a).after u)) : R s ((x >>= f).after s) := by
  refine rel_bind hx fun a u h => ?_
  rw [after_of_ok h] at hx
  exact IsTrans.trans _ _ _ hx (hf a u h)

/-- In a given state, a sequence that starts with a lifted answer ends where its rest does for this
answer, or where it started. -/
theorem rel_lift_bind {x : Except Fault α} {f : α → Action σ β} {s : σ}
    (hf : ∀ a, x = .ok a → R s ((f a).after s)) :
    R s (((liftM x : Action σ α) >>= f).after s) := by
  refine rel_bind (Respects.lift x s) fun a u h => ?_
  obtain ⟨ha, rfl⟩ := lift_eq_ok.mp h
  exact hf a ha

/-- A sequence that starts with a lifted answer respects what its rest respects for this
answer. -/
theorem lift_bind {x : Except Fault α} {f : α → Action σ β}
    (hf : ∀ a, x = .ok a → Respects R (f a)) : Respects R ((liftM x : Action σ α) >>= f) :=
  fun s => rel_lift_bind fun a ha => hf a ha s

/-- To respect a preorder is a law. -/
def law (R : σ → σ → Prop) [IsPreorder σ R] : Law σ where
  Holds := Respects R
  pure := .pure
  get := .get
  lift := .lift
  throw := .throw
  bind := .bind

/-- A loop over a list respects what its rounds respect. -/
protected theorem forM {l : List β} {f : β → Action σ PUnit} (hf : ∀ b ∈ l, Respects R (f b)) :
    Respects R (l.forM f) := (law R).forM hf

/-- A list of answers, each from an action, respects what the actions respect. -/
protected theorem mapM {l : List β} {f : β → Action σ α} (hf : ∀ b ∈ l, Respects R (f b)) :
    Respects R (l.mapM f) := (law R).mapM hf

end Respects

/-! ## What actions bring about -/

/-- An action that succeeds ends in a state that is related to the one it started in; nothing is
said of one that fails. -/
def Ensures (R : σ → σ → Prop) (x : Action σ α) : Prop := ∀ s a t, x s = .ok a t → R s t

namespace Ensures

variable {R : σ → σ → Prop}

/-- What an action respects it brings about. -/
theorem of_respects {x : Action σ α} (hx : Respects R x) : Ensures R x := fun _ _ _ h => hx.of_ok h

/-- What an action brings about may be weakened. -/
protected theorem mono {S : σ → σ → Prop} {x : Action σ α} (hx : Ensures R x)
    (hRS : ∀ s t, R s t → S s t) : Ensures S x :=
  fun s a t h => hRS s t (hx s a t h)

/-- An action on a part brings about what its change of the part does. -/
protected theorem within {S : τ → τ → Prop} {part : σ → τ} {replace : σ → τ → σ} {x : Action τ α}
    (hx : Ensures S x) (hRS : ∀ s u, S (part s) u → R s (replace s u)) :
    Ensures R (within part replace x) := by
  intro s a t h
  obtain ⟨u, hu, rfl⟩ := within_eq_ok.mp h
  exact hRS s u (hx _ a u hu)

/-- A change of the state brings about what holds of all such changes. -/
protected theorem modify {f : σ → σ} (hf : ∀ s, R s (f s)) :
    Ensures R (modify f : Action σ PUnit) := .of_respects (.modify hf)

/-- An action that reads the state first brings about what its rest does in the state that it
reads. -/
protected theorem get_bind {f : σ → Action σ α} (hf : ∀ s a t, f s s = .ok a t → R s t) :
    Ensures R (get >>= f) := hf

/-- A fault brings about anything. -/
protected theorem throw (e : Fault) : Ensures R (throw e : Action σ α) := nofun

/-- Nothing happens behind a fault. -/
protected theorem throw_bind (e : Fault) (f : β → Action σ α) :
    Ensures R ((throw e : Action σ β) >>= f) := nofun

variable [IsPreorder σ R]

/-- A plain answer leaves the state as it is. -/
protected theorem pure (a : α) : Ensures R (pure a : Action σ α) := .of_respects (.pure a)

/-- Reading the state leaves it as it is. -/
protected theorem get : Ensures R (get : Action σ σ) := .of_respects .get

/-- A lifted answer leaves the state as it is. -/
protected theorem lift (x : Except Fault α) : Ensures R (liftM x : Action σ α) :=
  .of_respects (.lift x)

/-- A sequence brings about what both of its halves do. -/
protected theorem bind {x : Action σ α} {f : α → Action σ β} (hx : Ensures R x)
    (hf : ∀ a, Ensures R (f a)) : Ensures R (x >>= f) := by
  intro s b t h
  obtain ⟨a, u, hfirst, hrest⟩ := bind_eq_ok.mp h
  exact IsTrans.trans _ _ _ (hx s a u hfirst) (hf a u b t hrest)

/-- To bring about a preorder is a law. -/
def law (R : σ → σ → Prop) [IsPreorder σ R] : Law σ where
  Holds := Ensures R
  pure := .pure
  get := .get
  lift := .lift
  throw := .throw
  bind := .bind

/-- A loop over a list brings about what its rounds do. -/
protected theorem forM {l : List β} {f : β → Action σ PUnit} (hf : ∀ b ∈ l, Ensures R (f b)) :
    Ensures R (l.forM f) := (law R).forM hf

/-- A list of answers, each from an action, brings about what the actions do. -/
protected theorem mapM {l : List β} {f : β → Action σ α} (hf : ∀ b ∈ l, Ensures R (f b)) :
    Ensures R (l.mapM f) := (law R).mapM hf

/-- What a round of a loop over a list establishes for its item, and the other rounds keep, holds of
all items in the end. -/
theorem forM_establishes {l : List β} {f : β → Action σ PUnit} {P : β → σ → Prop} {s t : σ}
    {u : PUnit} (h : l.forM f s = .ok u t) (hf : ∀ b ∈ l, Ensures R (f b))
    (establish : ∀ b ∈ l, ∀ s' t', R s s' → f b s' = .ok .unit t' → P b t')
    (keep : ∀ b s t, R s t → P b s → P b t) : ∀ b ∈ l, P b t := by
  induction l generalizing s with
  | nil => exact nofun
  | cons b rest ih =>
    obtain ⟨⟨⟩, s', hfirst, hrest⟩ := bind_eq_ok.mp h
    obtain ⟨hb, hothers⟩ := List.forall_mem_cons.mp hf
    have hs' : R s s' := hb s _ s' hfirst
    refine List.forall_mem_cons.mpr ⟨keep b s' t (Ensures.forM hothers s' _ t hrest) ?_, ?_⟩
    · exact establish b List.mem_cons_self s s' (refl s) hfirst
    · exact ih hrest hothers fun c hc s₁ t₁ hs₁ =>
        establish c (List.mem_cons_of_mem b hc) s₁ t₁ (IsTrans.trans _ _ _ hs' hs₁)

end Ensures

/-! ## How actions fail -/

/-- A sequence of two actions fails when the first does, or the second after it. -/
theorem bind_eq_error {x : Action σ α} {f : α → Action σ β} {s t : σ} {e : Fault} :
    (x >>= f) s = .error e t ↔
      x s = .error e t ∨ ∃ a u, x s = .ok a u ∧ f a u = .error e t := by
  show EStateM.bind x f s = .error e t ↔ _
  unfold EStateM.bind
  cases x s with
  | ok a u => simp [and_assoc]
  | error e' u => simp

/-- An answer lifted to an action fails as it does, and leaves the state alone. -/
theorem lift_eq_error {x : Except Fault α} {s t : σ} {e : Fault} :
    (liftM x : Action σ α) s = .error e t ↔ x = .error e ∧ s = t := by
  show ofExcept x s = .error e t ↔ _
  cases x with
  | ok b => simp [ofExcept]
  | error e' => simp [ofExcept]

/-- A sequence fails with an answer that is lifted. -/
theorem lift_bind_of_error {x : Except Fault α} {e : Fault} (h : x = .error e)
    (f : α → Action σ β) (s : σ) : ((liftM x : Action σ α) >>= f) s = .error e s :=
  bind_of_error (lift_eq_error.mpr ⟨h, rfl⟩)

/-- A change that is computed from the state fails as its computation does, and changes nothing
then. -/
theorem modify_computed_eq_error {f : σ → Except Fault α} {g : α → σ → σ} {s t : σ} {e : Fault} :
    (do modify (g (← f (← get))) : Action σ PUnit) s = .error e t ↔ f s = .error e ∧ s = t := by
  rw [get_bind, bind_eq_error, lift_eq_error]
  exact ⟨fun h => h.resolve_right nofun, .inl⟩

/-- Checks for the items of a list fail at the first item that is not passed. -/
theorem forM_lift_eq_error {f : β → Except Fault PUnit} {l : List β} {s t : σ} {e : Fault} :
    (l.forM fun b => (liftM (f b) : Action σ PUnit)) s = .error e t ↔ s = t ∧
      ∃ before b after, l = before ++ b :: after ∧ (∀ c ∈ before, f c = .ok .unit) ∧
        f b = .error e := by
  induction l with
  | nil =>
    show EStateM.Result.ok _ _ = _ ↔ _
    simp
  | cons c l ih =>
    show ((liftM (f c) : Action σ PUnit) >>= fun _ => l.forM fun b => liftM (f b)) s = _ ↔ _
    rw [bind_eq_error, lift_eq_error]
    simp only [lift_eq_ok]
    constructor
    · rintro (⟨hc, rfl⟩ | ⟨⟨⟩, _, ⟨hc, rfl⟩, h⟩)
      · exact ⟨rfl, [], c, l, rfl, nofun, hc⟩
      · obtain ⟨rfl, before, b, after, rfl, hbefore, hb⟩ := ih.mp h
        exact ⟨rfl, c :: before, b, after, rfl, List.forall_mem_cons.mpr ⟨hc, hbefore⟩, hb⟩
    · rintro ⟨rfl, before, b, after, hl, hbefore, hb⟩
      cases before with
      | nil =>
        obtain ⟨rfl, -⟩ := List.cons.inj hl
        exact .inl ⟨hb, rfl⟩
      | cons c' before =>
        obtain ⟨rfl, rfl⟩ := List.cons.inj hl
        obtain ⟨hc, hbefore⟩ := List.forall_mem_cons.mp hbefore
        exact .inr ⟨.unit, s, ⟨hc, rfl⟩, ih.mpr ⟨rfl, before, b, after, rfl, hbefore, hb⟩⟩

/-- A loop over a list succeeds if each of its rounds does and prepares the next one. -/
theorem exists_forM_ok {f : β → Action σ PUnit} {l : List β} {s : σ} (I : σ → Prop) (start : I s)
    (round : ∀ b ∈ l, ∀ s, I s → ∃ t, f b s = .ok .unit t ∧ I t) :
    ∃ t, l.forM f s = .ok .unit t ∧ I t := by
  induction l generalizing s with
  | nil => exact ⟨s, rfl, start⟩
  | cons b l ih =>
    obtain ⟨u, hu, hI⟩ := round b List.mem_cons_self s start
    obtain ⟨t, ht, hend⟩ := ih hI fun c hc => round c (List.mem_cons_of_mem b hc)
    exact ⟨t, (bind_of_ok hu).trans ht, hend⟩

/-- A loop over a list changes nothing if none of its rounds does. -/
theorem forM_of_rounds {f : β → Action σ PUnit} {l : List β} {s : σ}
    (h : ∀ b ∈ l, f b s = .ok .unit s) : l.forM f s = .ok .unit s := by
  induction l with
  | nil => rfl
  | cons b l ih =>
    refine (bind_of_ok (h b List.mem_cons_self)).trans (ih fun c hc => ?_)
    exact h c (List.mem_cons_of_mem b hc)

/-- A loop over a range fails in one of its rounds, in a state that the rounds before it have
established. -/
theorem forM_range_error {f : Nat → Action σ PUnit} {n : Nat} {s t : σ} {e : Fault}
    (I : Nat → σ → Prop) (h : (List.range n).forM f s = .error e t) (start : I 0 s)
    (round : ∀ k u v, k < n → I k u → f k u = .ok .unit v → I (k + 1) v) :
    ∃ k u, k < n ∧ I k u ∧ f k u = .error e t := by
  -- The induction is on the rounds that are left, of which the first is round `k`.
  have run : ∀ len k s, k + len = n → I k s → (List.range' k len).forM f s = .error e t →
      ∃ k u, k < n ∧ I k u ∧ f k u = .error e t := by
    intro len
    induction len with
    | zero => exact nofun
    | succ len ih =>
      intro k s hk hI h
      rcases bind_eq_error.mp h with hfirst | ⟨⟨⟩, u, hfirst, hrest⟩
      · exact ⟨k, s, by omega, hI, hfirst⟩
      · exact ih (k + 1) u (by omega) (round k s u (by omega) hI hfirst) hrest
  rw [List.range_eq_range'] at h
  exact run n 0 s (Nat.zero_add n) start h

/-! ## Faults that actions end in -/

/-- The action fails with faults of one sort only. -/
def FailsOnly (P : Fault → Prop) (x : Action σ α) : Prop := ∀ s e t, x s = .error e t → P e

namespace FailsOnly

variable {P : Fault → Prop}

/-- A plain answer does not fail. -/
protected theorem pure (a : α) : FailsOnly P (pure a : Action σ α) := nofun

/-- Reading the state does not fail. -/
protected theorem get : FailsOnly P (get : Action σ σ) := nofun

/-- Changing the state does not fail. -/
protected theorem modify (f : σ → σ) : FailsOnly P (modify f : Action σ PUnit) := nofun

/-- Nothing fails behind a fault. -/
protected theorem throw_bind {e : Fault} (he : P e) (f : β → Action σ α) :
    FailsOnly P ((throw e : Action σ β) >>= f) := by
  rintro _ _ _ ⟨⟩
  exact he

/-- The faults that an action fails with are of every more general sort. -/
protected theorem mono {Q : Fault → Prop} {x : Action σ α} (hx : FailsOnly P x)
    (hPQ : ∀ e, P e → Q e) : FailsOnly Q x :=
  fun s e t h => hPQ e (hx s e t h)

/-- An action on a part fails as the action does. -/
protected theorem within {part : σ → τ} {replace : σ → τ → σ} {x : Action τ α}
    (hx : FailsOnly P x) : FailsOnly P (within part replace x) := by
  intro s e t h
  unfold within at h
  cases hs : x (part s) with
  | ok a u =>
    rw [hs] at h
    cases h
  | error e' u =>
    rw [hs] at h
    cases h
    exact hx _ _ _ hs

/-- A lifted answer fails as the answer does. -/
protected theorem lift {x : Except Fault α} (hx : Answer.FailsOnly P x) :
    FailsOnly P (liftM x : Action σ α) := by
  intro s e t h
  have h' : ofExcept x s = .error e t := h
  cases x with
  | ok a => cases h'
  | error e' =>
    cases h'
    exact hx e rfl

/-- A sequence fails as one of its halves does. -/
protected theorem bind {x : Action σ α} {f : α → Action σ β} (hx : FailsOnly P x)
    (hf : ∀ a, FailsOnly P (f a)) : FailsOnly P (x >>= f) := by
  intro s e t h
  have h' : EStateM.bind x f s = .error e t := h
  unfold EStateM.bind at h'
  cases hs : x s with
  | ok a u =>
    rw [hs] at h'
    exact hf a u e t h'
  | error e' u =>
    rw [hs] at h'
    cases h'
    exact hx s e t hs

/-- A loop over a list fails as one of its rounds does. -/
protected theorem forM {l : List β} {f : β → Action σ PUnit} (hf : ∀ b, FailsOnly P (f b)) :
    FailsOnly P (l.forM f) := by
  induction l with
  | nil => exact .pure _
  | cons b l ih => exact .bind (hf b) fun _ => ih

end FailsOnly

/-! ## Failures without effect -/

/-- The action leaves the state as it was when it fails. -/
def Atomic (x : Action σ α) : Prop := ∀ s e t, x s = .error e t → t = s

namespace Atomic

/-- A plain answer does not fail. -/
protected theorem pure (a : α) : Atomic (pure a : Action σ α) := nofun

/-- Changing the state does not fail. -/
protected theorem modify (f : σ → σ) : Atomic (modify f : Action σ PUnit) := nofun

/-- An action that reads the state first fails as the rest does. -/
protected theorem get_bind {f : σ → Action σ α} (hf : ∀ s, Atomic (f s)) : Atomic (get >>= f) :=
  fun s e t h => hf s s e t h

/-- An action that starts with a lifted answer fails with it, or as the rest does. -/
protected theorem lift_bind {x : Except Fault α} {f : α → Action σ β} (hf : ∀ a, Atomic (f a)) :
    Atomic ((liftM x : Action σ α) >>= f) := by
  intro s e t h
  cases x with
  | ok a => exact hf a s e t h
  | error e' =>
    have h' : EStateM.Result.error e' s = (.error e t : EStateM.Result Fault σ β) := h
    cases h'
    rfl

/-- An action that fails without effect respects what it respects when it succeeds. -/
theorem respects {R : σ → σ → Prop} [IsPreorder σ R] {x : Action σ α} (hx : Atomic x)
    (hok : ∀ s a t, x s = .ok a t → R s t) : Respects R x := by
  intro s
  unfold after
  cases h : x s with
  | ok a t => exact hok s a t h
  | error e t =>
    obtain rfl := hx s e t h
    exact refl t

end Atomic

/-! ## Actions in two states -/

/-- Two runs end with the same answer or the same fault, in states that are related; unless the
first one ends in a fault of one sort. -/
inductive Mirrors (P : Fault → Prop) (R : σ → τ → Prop) :
    EStateM.Result Fault σ α → EStateM.Result Fault τ α → Prop
  | ok {a : α} {s : σ} {t : τ} (h : R s t) : Mirrors P R (.ok a s) (.ok a t)
  | error {e : Fault} {s : σ} {t : τ} (h : R s t) : Mirrors P R (.error e s) (.error e t)
  | excepted {e : Fault} {s : σ} {r : EStateM.Result Fault τ α} (he : P e) :
    Mirrors P R (.error e s) r

namespace Mirrors

variable {P : Fault → Prop} {R : σ → τ → Prop} {s : σ} {t : τ}

/-- A lifted answer is mirrored. -/
protected theorem lift (x : Except Fault α) (h : R s t) :
    Mirrors P R ((liftM x : Action σ α) s) ((liftM x : Action τ α) t) := by
  cases x with
  | ok a => exact .ok h
  | error e => exact .error h

/-- Sequences are mirrored if both of their halves are. -/
protected theorem bind {x : Action σ α} {y : Action τ α} {f : α → Action σ β} {g : α → Action τ β}
    (hx : Mirrors P R (x s) (y t)) (hf : ∀ a s t, R s t → Mirrors P R (f a s) (g a t)) :
    Mirrors P R ((x >>= f) s) ((y >>= g) t) := by
  show Mirrors P R (EStateM.bind x f s) (EStateM.bind y g t)
  unfold EStateM.bind
  generalize x s = r, y t = r' at hx
  cases hx with
  | ok h => exact hf _ _ _ h
  | error h => exact .error h
  | excepted he => exact .excepted he

/-- Loops over the same list are mirrored if their rounds are, also if the second one goes on with
items for which it does nothing. -/
protected theorem forM_append {l l' : List β} {f : β → Action σ PUnit} {g : β → Action τ PUnit}
    (hf : ∀ b ∈ l, ∀ s t, R s t → Mirrors P R (f b s) (g b t))
    (hidle : ∀ b ∈ l', ∀ t, g b t = .ok .unit t) (h : R s t) :
    Mirrors P R (l.forM f s) ((l ++ l').forM g t) := by
  induction l generalizing s t with
  | nil =>
    rw [List.nil_append, forM_of_rounds fun b hb => hidle b hb t]
    exact .ok h
  | cons b l ih =>
    exact .bind (hf b List.mem_cons_self s t h) fun _ _ _ h' =>
      ih (fun c hc => hf c (List.mem_cons_of_mem b hc)) h'

/-- Loops over the same list are mirrored if their rounds are. -/
protected theorem forM {l : List β} {f : β → Action σ PUnit} {g : β → Action τ PUnit}
    (hf : ∀ b ∈ l, ∀ s t, R s t → Mirrors P R (f b s) (g b t)) (h : R s t) :
    Mirrors P R (l.forM f s) (l.forM g t) := by
  have hloops := Mirrors.forM_append hf (List.forall_mem_nil _) h
  rwa [List.append_nil] at hloops

/-- What mirrors an action that succeeds does so as well. -/
theorem exists_ok {x : EStateM.Result Fault τ α} {a : α} (h : Mirrors P R (.ok a s) x) :
    ∃ t, x = .ok a t ∧ R s t := by
  cases h with
  | ok h => exact ⟨_, rfl, h⟩

/-- If no fault is excepted, actions that are mirrored have the same answer. -/
theorem answer_eq {x : Action σ α} {y : Action τ α} (h : Mirrors P R (x s) (y t))
    (hP : ∀ e, ¬ P e) : y.answer t = x.answer s := by
  unfold answer
  generalize x s = r, y t = r' at h
  cases h with
  | ok _ => rfl
  | error _ => rfl
  | excepted he => exact absurd he (hP _)

/-- If no fault is excepted, actions that are mirrored end in states that are related. -/
theorem rel_after {x : Action σ α} {y : Action τ α} (h : Mirrors P R (x s) (y t))
    (hP : ∀ e, ¬ P e) : R (x.after s) (y.after t) := by
  unfold after
  generalize x s = r, y t = r' at h
  cases h with
  | ok h => exact h
  | error h => exact h
  | excepted he => exact absurd he (hP _)

end Mirrors

end Action

end Cairo
