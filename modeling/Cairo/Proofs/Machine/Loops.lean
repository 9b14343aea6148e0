import Cairo.Proofs.Machine.Faults
import Cairo.Proofs.Machine.Steps

/-!
# The two loops over steps

`runUntil` looks at the program counter before it looks at what it is allowed, `runFor` looks at its
count first.  As long as the address is not reached both do the same, a step (`Advances.loop`), so
that a loop of either kind goes on after some steps as it would have been started there.  How
`runUntil` ends is then told by the first of three things to happen: the address is reached, the
steps are used up, or a step fails (`exists_advances`).
-/

namespace Cairo.Machine

variable {A : Address} {s t u : Machine}

/-- Some steps without a fault lead to the second machine, and the program counter is not at the
address before the last of them is made. -/
structure Advances (A : Address) (k : Nat) (s t : Machine) : Prop where
  steps : steps k s = .ok () t
  before : ∀ j < k, ∀ u, Machine.steps j s = .ok () u → u.registers.pc ≠ A

/-- The program counter is at the address after some steps without a fault, and not before. -/
structure Reaches (A : Address) (k : Nat) (s t : Machine) : Prop extends Advances A k s t where
  pc : t.registers.pc = A

/-- No steps advance to where they start. -/
theorem Advances.zero (A : Address) (s : Machine) : Advances A 0 s s :=
  ⟨rfl, fun _ hj => absurd hj (Nat.not_lt_zero _)⟩

/-- To advance is to make a first step from elsewhere and to advance from there. -/
theorem advances_succ_iff {k : Nat} :
    Advances A (k + 1) s t ↔
      s.registers.pc ≠ A ∧ ∃ u, step s = .ok () u ∧ Advances A k u t := by
  constructor
  · rintro ⟨hsteps, hbefore⟩
    obtain ⟨_, u, hstep, hrest⟩ := Action.bind_eq_ok.mp hsteps
    refine ⟨hbefore 0 (Nat.succ_pos k) s rfl, u, hstep, hrest, fun j hj v hv => ?_⟩
    exact hbefore (j + 1) (Nat.succ_lt_succ hj) v (Action.bind_eq_ok.mpr ⟨(), u, hstep, hv⟩)
  · rintro ⟨hne, u, hstep, hrest, hbefore⟩
    refine ⟨Action.bind_eq_ok.mpr ⟨(), u, hstep, hrest⟩, fun j hj v hv => ?_⟩
    cases j with
    | zero =>
      obtain ⟨-, rfl⟩ := Action.pure_eq_ok.mp hv
      exact hne
    | succ j =>
      obtain ⟨_, u', hstep', hv⟩ := Action.bind_eq_ok.mp hv
      obtain ⟨-, rfl⟩ := EStateM.Result.ok.inj (hstep.symm.trans hstep')
      exact hbefore j (Nat.lt_of_succ_lt_succ hj) v hv

/-- A loop that makes a step wherever the address is not reached goes on after some steps as if it
had started there. -/
theorem Advances.loop {α : Type} {x : Nat → Action Machine α}
    (hx : ∀ n s, s.registers.pc ≠ A → x (n + 1) s = (step >>= fun _ => x n) s) {k : Nat}
    (h : Advances A k s t) (n : Nat) : x (k + n) s = x n t := by
  induction k generalizing s with
  | zero =>
    obtain ⟨-, rfl⟩ := Action.pure_eq_ok.mp h.steps
    rw [Nat.zero_add]
  | succ k ih =>
    obtain ⟨hne, u, hstep, hrest⟩ := advances_succ_iff.mp h
    rw [Nat.succ_add, hx _ s hne, Action.bind_of_ok hstep, ih hrest]

/-! ## Until an address is reached -/

/-- At the address nothing is done. -/
theorem runUntil_of_pc_eq (h : s.registers.pc = A) (n : Nat) :
    runUntil (some A) n s = .ok n s := by
  cases n with
  | zero =>
    unfold runUntil
    rw [Action.get_bind]
    simp only [h, ne_eq, not_true_eq_false, if_false]
    rfl
  | succ n =>
    unfold runUntil
    rw [Action.get_bind, if_pos (congrArg some h)]
    rfl

/-- Elsewhere, with no step allowed, the run fails. -/
theorem runUntil_zero_of_pc_ne (h : s.registers.pc ≠ A) :
    runUntil (some A) 0 s = .error (.endNotReached s.registers.pc (some A)) s := by
  unfold runUntil
  rw [Action.get_bind]
  simp only [ne_eq, Option.some.injEq, h, not_false_eq_true, if_true]
  rfl

/-- Elsewhere, with a step allowed, a step is made. -/
theorem runUntil_succ_of_pc_ne (n : Nat) (s : Machine) (h : s.registers.pc ≠ A) :
    runUntil (some A) (n + 1) s = (step >>= fun _ => runUntil (some A) n) s := by
  rw [runUntil, Action.get_bind, if_neg fun heq => h (Option.some.inj heq)]

/-- Of the steps that are allowed some are made without a fault, and no more because the address is
reached, because no more are allowed, or because the next one fails. -/
theorem exists_advances (A : Address) (n : Nat) (s : Machine) :
    ∃ k t, k ≤ n ∧ Advances A k s t ∧ (t.registers.pc = A ∨
      t.registers.pc ≠ A ∧ (k = n ∨ k < n ∧ ∃ e u, step t = .error e u)) := by
  induction n generalizing s with
  | zero =>
    refine ⟨0, s, le_refl 0, .zero A s, ?_⟩
    by_cases hpc : s.registers.pc = A
    · exact .inl hpc
    · exact .inr ⟨hpc, .inl rfl⟩
  | succ n ih =>
    by_cases hpc : s.registers.pc = A
    · exact ⟨0, s, Nat.zero_le _, .zero A s, .inl hpc⟩
    · cases hstep : step s with
      | error e u =>
        exact ⟨0, s, Nat.zero_le _, .zero A s, .inr ⟨hpc, .inr ⟨Nat.succ_pos n, e, u, hstep⟩⟩⟩
      | ok _ u =>
        obtain ⟨k, t, hk, hadvances, hend⟩ := ih u
        refine ⟨k + 1, t, Nat.succ_le_succ hk, advances_succ_iff.mpr ⟨hpc, u, hstep, hadvances⟩, ?_⟩
        obtain hreached | ⟨hne, rfl | ⟨hlt, hfails⟩⟩ := hend
        · exact .inl hreached
        · exact .inr ⟨hne, .inl rfl⟩
        · exact .inr ⟨hne, .inr ⟨Nat.succ_lt_succ hlt, hfails⟩⟩

namespace Advances

variable {k : Nat}

/-- A run goes on after some steps with what is allowed beyond them. -/
theorem runUntil_add (h : Advances A k s t) (n : Nat) :
    runUntil (some A) (k + n) s = runUntil (some A) n t :=
  h.loop runUntil_succ_of_pc_ne n

/-- A run that does not reach the address with the last step that is allowed fails there. -/
theorem runUntil_of_consumed (h : Advances A k s t) (ht : t.registers.pc ≠ A) :
    runUntil (some A) k s = .error (.endNotReached t.registers.pc (some A)) t :=
  (h.runUntil_add 0).trans (runUntil_zero_of_pc_ne ht)

/-- A run fails with the step that fails before the address is reached. -/
theorem runUntil_of_failed (h : Advances A k s t) (ht : t.registers.pc ≠ A) {n : Nat} (hk : k < n)
    {e : Fault} (hstep : step t = .error e u) : runUntil (some A) n s = .error e u := by
  obtain ⟨left, rfl⟩ := Nat.exists_eq_add_of_lt hk
  rw [Nat.add_assoc, h.runUntil_add (left + 1), runUntil_succ_of_pc_ne left t ht,
    Action.bind_of_error hstep]

end Advances

/-- A run that reaches the address within what is allowed answers what is left. -/
theorem Reaches.runUntil {k n : Nat} (h : Reaches A k s t) (hk : k ≤ n) :
    runUntil (some A) n s = .ok (n - k) t := by
  obtain ⟨left, rfl⟩ := Nat.exists_eq_add_of_le hk
  rw [h.runUntil_add left, runUntil_of_pc_eq h.pc, Nat.add_sub_cancel_left]

/-- A run until an address ends in the machine after some of the steps that are allowed, the last of
which may have failed. -/
theorem exists_after_steps_runUntil (A : Address) (n : Nat) (s : Machine) :
    ∃ k ≤ n, (runUntil (some A) n).after s = (steps k).after s := by
  obtain ⟨k, t, hk, h, hreached | ⟨hne, rfl | ⟨hlt, e, u, hstep⟩⟩⟩ := exists_advances A n s
  · refine ⟨k, hk, ?_⟩
    unfold Action.after
    rw [Reaches.runUntil ⟨h, hreached⟩ hk, h.steps]
  · refine ⟨k, hk, ?_⟩
    unfold Action.after
    rw [h.runUntil_of_consumed hne, h.steps]
  · refine ⟨k + 1, hlt, ?_⟩
    have hsteps : steps (k + 1) s = .error e u :=
      (h.loop (fun _ _ _ => rfl) 1).trans (Action.bind_of_error hstep)
    unfold Action.after
    rw [h.runUntil_of_failed hne hlt hstep, hsteps]

/-- A run until an address returns when it reaches it within the steps that are allowed. -/
theorem runUntil_eq_ok {n left : Nat} :
    runUntil (some A) n s = .ok left t ↔
      ∃ k ≤ n, Reaches A k s t ∧ left = n - k := by
  constructor
  · intro hrun
    obtain ⟨k, u, hk, h, hreached | ⟨hne, rfl | ⟨hlt, e, v, hstep⟩⟩⟩ := exists_advances A n s
    · obtain ⟨rfl, rfl⟩ :=
        EStateM.Result.ok.inj ((Reaches.runUntil ⟨h, hreached⟩ hk).symm.trans hrun)
      exact ⟨k, hk, ⟨h, hreached⟩, rfl⟩
    · cases (h.runUntil_of_consumed hne).symm.trans hrun
    · cases (h.runUntil_of_failed hne hlt hstep).symm.trans hrun
  · rintro ⟨k, hk, h, rfl⟩
    exact h.runUntil hk

/-- A run until an address fails for want of steps when all that are allowed are made and the
address is not reached. -/
theorem advances_of_endNotReached {n : Nat} {pc : Address} {target : Option Address}
    (hrun : runUntil (some A) n s = .error (.endNotReached pc target) t) :
    Advances A n s t ∧ t.registers.pc ≠ A := by
  obtain ⟨k, u, hk, h, hreached | ⟨hne, rfl | ⟨hlt, e, v, hstep⟩⟩⟩ := exists_advances A n s
  · cases (Reaches.runUntil ⟨h, hreached⟩ hk).symm.trans hrun
  · obtain ⟨-, rfl⟩ := EStateM.Result.error.inj ((h.runUntil_of_consumed hne).symm.trans hrun)
    exact ⟨h, hne⟩
  · obtain ⟨rfl, rfl⟩ :=
      EStateM.Result.error.inj ((h.runUntil_of_failed hne hlt hstep).symm.trans hrun)
    exact (failsOnly_step _ _ _ hstep).elim

/-! ## For a number of steps -/

/-- Elsewhere than at the end of the program a step is made. -/
theorem runFor_succ_of_pc_ne (n : Nat) (s : Machine) (h : s.registers.pc ≠ A) :
    runFor (some A) (n + 1) s = (step >>= fun _ => runFor (some A) n) s := by
  rw [runFor, Action.get_bind, if_neg fun heq => h (Option.some.inj heq)]

/-- At the end of the program no step is made. -/
theorem runFor_succ_of_pc_eq (n : Nat) (h : s.registers.pc = A) :
    runFor (some A) (n + 1) s = .error (.endOfProgram (n + 1)) s := by
  rw [runFor, Action.get_bind, if_pos (congrArg some h)]
  rfl

/-- A run for as many steps as it takes to the end of the program makes them, and one for more steps
fails there with the number of those that are left. -/
theorem Reaches.runFor {k : Nat} (h : Reaches A k s t) :
    Machine.runFor (some A) k s = .ok () t ∧
      ∀ j > 0, Machine.runFor (some A) (k + j) s = .error (.endOfProgram j) t := by
  refine ⟨h.loop runFor_succ_of_pc_ne 0, fun j hj => ?_⟩
  obtain ⟨i, rfl⟩ : ∃ i, j = i + 1 := ⟨j - 1, by omega⟩
  rw [h.loop runFor_succ_of_pc_ne (i + 1), runFor_succ_of_pc_eq i h.pc]
  rfl

end Cairo.Machine
