import Cairo.Proofs.Linear.Machine
import Cairo.Proofs.Relocation.Loop

/-!
# Where the segments of a run go

A run first relocates its temporary segments by rules and then lays the real segments out by a
table.  A segment is placed where the two lead together from its first cell (`placement`).  The
memory before both steps then fits the linear memory after them (`fits_placement`): its cells,
also those of temporary segments, are found at the numbers of their addresses.
-/

namespace Cairo

open Memory

/-- The linear address that an address has after it was relocated. -/
def Address.locate (rules : Relocations) (table : List Int) (a : Address) : Except Fault Int := do
  (← relocateAddress rules a).linear table

/-- The placement of segments by rules and a table. -/
def placement (rules : Relocations) (table : List Int) : Placement where
  start i := ((Address.base i).locate rules table).toOption.getD 0
  IsPlaced i := ∃ n, (Address.base i).locate rules table = .ok n

variable {rules : Relocations} {table : List Int} {sizes : List Nat}

/-- An address keeps its distance from the first cell of its segment when it is relocated. -/
theorem exists_relocateAddress_base (rules : Relocations) (i : Int) :
    ∃ first, relocateAddress rules (.base i) = .ok first ∧ ∀ a b, a.segment = i →
      relocateAddress rules a = .ok b →
        b.segment = first.segment ∧ b.offset = first.offset + a.offset := by
  by_cases hmoved : IsMoved rules i
  · obtain ⟨hi, dst, hdst⟩ := hmoved
    refine ⟨dst, ?_, fun a b ha hb => ?_⟩
    · rw [relocateAddress_of_lookup hi hdst]
      exact Address.shift_eq_ok.mpr ⟨rfl, by simp⟩
    · subst ha
      rw [relocateAddress_of_lookup hi hdst] at hb
      obtain ⟨hseg, hoff⟩ := Address.shift_eq_ok.mp hb
      exact ⟨hseg, by omega⟩
  · refine ⟨.base i, relocateAddress_of_not_isMoved hmoved, fun a b ha hb => ?_⟩
    subst ha
    rw [relocateAddress_of_not_isMoved hmoved] at hb
    obtain rfl := Except.ok.inj hb
    exact ⟨rfl, (Nat.zero_add _).symm⟩

/-- The linear address of a relocated address, in terms of the placement. -/
theorem linear_relocated_iff {a b : Address} (h : relocateAddress rules a = .ok b) {n : Int} :
    b.linear table = .ok n ↔
      (placement rules table).IsPlaced a.segment ∧ n = (placement rules table).address a := by
  obtain ⟨first, hfirst, hothers⟩ := exists_relocateAddress_base rules a.segment
  obtain ⟨hseg, hoff⟩ := hothers a b rfl h
  have hlocate : (Address.base a.segment).locate rules table = first.linear table := by
    unfold Address.locate
    rw [hfirst]
    rfl
  constructor
  · intro hb
    obtain ⟨hreal, start, hstart, rfl⟩ := Address.linear_eq_ok.mp hb
    rw [hseg] at hreal hstart
    have hn : first.linear table = .ok (start + first.offset) :=
      Address.linear_eq_ok.mpr ⟨hreal, start, hstart, rfl⟩
    refine ⟨⟨_, hlocate.trans hn⟩, ?_⟩
    unfold placement Placement.address
    dsimp only
    rw [hlocate, hn]
    show start + (b.offset : Int) = start + first.offset + a.offset
    omega
  · rintro ⟨⟨k, hk⟩, rfl⟩
    unfold placement Placement.address
    dsimp only
    rw [hk]
    rw [hlocate] at hk
    obtain ⟨hreal, start, hstart, rfl⟩ := Address.linear_eq_ok.mp hk
    refine Address.linear_eq_ok.mpr ⟨by rwa [hseg], start, by rwa [hseg], ?_⟩
    show start + (first.offset : Int) + a.offset = start + b.offset
    omega

/-- Linear addresses are numbers that field elements can stand for, if all segments together leave
room for one more offset. -/
theorem linear_inRange (htable : StartsAt sizes table) (hsizes : sizes.sum + offsetBound < prime)
    {a : Address} {n : Int} (h : a.linear table = .ok n) : 1 ≤ n ∧ n < prime := by
  obtain ⟨-, start, hstart, rfl⟩ := Address.linear_eq_ok.mp h
  have hle := linearStart_le sizes a.segment.toNat
  have hpos : 1 ≤ linearStart sizes a.segment.toNat := Nat.le_add_right 1 _
  have hoffset := a.offset_lt
  rw [htable _ _ hstart]
  omega

/-- The linear value of a relocated value, in terms of the placement. -/
theorem linear_relocatedValue {v w : Value} {x : Felt} (h : relocateValue rules v = .ok w)
    (hx : w.linear table = .ok x) : x = (placement rules table).value v := by
  cases v with
  | felt y =>
    obtain rfl := Except.ok.inj h
    obtain rfl := Except.ok.inj hx
    rfl
  | address a =>
    obtain ⟨b, hb, rfl⟩ := Answer.map_eq_ok.mp h
    obtain ⟨n, hn, rfl⟩ := Answer.map_eq_ok.mp hx
    obtain ⟨-, rfl⟩ := (linear_relocated_iff hb).mp hn
    rfl

/-- Memory that is relocated by rules and then laid out by a table fits linear memory. -/
theorem fits_placement {m t : Memory} {l : LinearMemory} (hrelocated : IsRelocated rules m t)
    (htable : StartsAt (t.segments.toList.map Array.size) table)
    (hsizes : (t.segments.toList.map Array.size).sum + offsetBound < prime)
    (hl : LinearMemory.ofMemory table t = .ok l) : (placement rules table).Fits m l := by
  obtain ⟨hplaces, hcells⟩ := LinearMemory.cell?_ofMemory htable.laysOut hl
  -- A cell in a placed segment is relocated to a real segment and laid out from there.
  have hfound : ∀ a v, m.get? a = some v → (placement rules table).IsPlaced a.segment →
      ∃ w x, relocateValue rules v = .ok w ∧ w.linear table = .ok x ∧
        l.cell? ((placement rules table).address a) = some x := by
    intro a v hv hplaced
    obtain ⟨b, w, hb, hw, hget⟩ := hrelocated.settled a v hv
    have hlinear := (linear_relocated_iff hb).mpr ⟨hplaced, rfl⟩
    have hreal := (Address.linear_eq_ok.mp hlinear).1
    obtain ⟨n, x, hn, hx⟩ := hplaces b w hget hreal
    obtain rfl := Except.ok.inj (hlinear.symm.trans hn)
    exact ⟨w, x, hw, hx, (hcells _ x).mpr ⟨b, w, hget, hreal, hn, hx⟩⟩
  constructor
  · intro a v hv hplaced
    obtain ⟨w, x, hw, hx, hcell⟩ := hfound a v hv hplaced
    rw [hcell, linear_relocatedValue hw hx]
  · intro a b hv hplaced
    obtain ⟨w, x, hw, hx, -⟩ := hfound a _ hv hplaced
    obtain ⟨c, hc, rfl⟩ := Answer.map_eq_ok.mp hw
    obtain ⟨n, hn, rfl⟩ := Answer.map_eq_ok.mp hx
    obtain ⟨hb, rfl⟩ := (linear_relocated_iff hc).mp hn
    exact ⟨hb, linear_inRange htable hsizes hn⟩

/-- The linear row of registers is their row in the placement, and its numbers are in range. -/
theorem isRow_of_linear (htable : StartsAt sizes table)
    (hsizes : sizes.sum + offsetBound < prime) {r : Registers} {row : TraceRow}
    (h : r.linear table = .ok row) : (placement rules table).IsRow r row ∧ row.InRange := by
  -- The registers lie in real segments, which are not moved.
  have hplaced : ∀ {a : Address} {n : Int}, a.linear table = .ok n →
      n = (placement rules table).address a ∧ (placement rules table).IsPlaced a.segment := by
    intro a n hn
    have hreal := (Address.linear_eq_ok.mp hn).1
    have hfixed : relocateAddress rules a = .ok a :=
      relocateAddress_of_not_isMoved fun hmoved => absurd hmoved.1 (by omega)
    obtain ⟨hp, hn'⟩ := (linear_relocated_iff hfixed).mp hn
    exact ⟨hn', hp⟩
  have hregister : ∀ {a : Option Address} {n : Int}, Registers.linearRegister table a = .ok n →
      ∃ b, a = some b ∧ b.linear table = .ok n := by
    intro a n hn
    cases a with
    | none => cases hn
    | some b => exact ⟨b, rfl, hn⟩
  unfold Registers.linear at h
  obtain ⟨pc, hpc, h⟩ := Answer.bind_eq_ok.mp h
  obtain ⟨ap, hap, h⟩ := Answer.bind_eq_ok.mp h
  obtain ⟨fp, hfp, h⟩ := Answer.bind_eq_ok.mp h
  obtain rfl := Answer.pure_eq_ok.mp h
  obtain ⟨a, ha, hap⟩ := hregister hap
  obtain ⟨b, hb, hfp⟩ := hregister hfp
  refine ⟨⟨hplaced hpc, ⟨a, ha, hplaced hap⟩, ⟨b, hb, hplaced hfp⟩⟩, ?_⟩
  exact ⟨linear_inRange htable hsizes hpc, linear_inRange htable hsizes hap,
    linear_inRange htable hsizes hfp⟩

end Cairo
