import Cairo.Proofs.Memory.WriteOnce
import Cairo.Proofs.Value.Arithmetic

/-!
# Trees in memory

A nested list stands in memory as a tree: each list has its items in consecutive cells, and where it
contains another list there is a pointer to the first item of that one.  `readBack` follows the
pointers, guided by the outline of the lists alone, and rebuilds the tree.  If the lists of a datum
are numbered in the order in which a reader meets them, and each stands in the segment of its
number, the tree is the one that `placed` describes, and this is what is read back from a memory
that holds the items (`readBack_placed`).
-/

namespace Cairo

/-! ## Trees -/

/-- How lists are nested, without what stands in them. -/
inductive Outline
  | leaf
  | list (items : List Outline)

/-- A tree of values, with the address of the first item for each list. -/
inductive Tree
  | leaf (v : Value)
  | list (base : Address) (items : List Tree)

namespace Tree

/-- The value that stands for a tree. -/
def value : Tree → Value
  | leaf v => v
  | list base _ => .address base

mutual

/-- The nested lists of a tree, without the addresses. -/
def datum : Tree → Datum
  | leaf v => .value v
  | list _ items => .list (datumAll items)

/-- The nested lists of several trees. -/
def datumAll : List Tree → List Datum
  | [] => []
  | tree :: rest => tree.datum :: datumAll rest

end

mutual

/-- The lists of a tree, outer ones first: the address and the values of each. -/
def nodes : Tree → List (Address × List Value)
  | leaf _ => []
  | list base items => (base, items.map value) :: nodesAll items

/-- The lists of several trees. -/
def nodesAll : List Tree → List (Address × List Value)
  | [] => []
  | tree :: rest => tree.nodes ++ nodesAll rest

end

end Tree

/-- The lists stand in consecutive segments, at the start of each, and none is longer than there are
offsets. -/
structure Consecutive (n : Nat) (nodes : List (Address × List Value)) : Prop where
  bases : nodes.map Prod.fst = (List.range' n nodes.length).map fun k : Nat => .base k
  fits : ∀ x ∈ nodes, x.2.length < offsetBound

namespace Datum

mutual

/-- How the lists of a datum are nested. -/
def outline : Datum → Outline
  | list items => .list (outlines items)
  | _ => .leaf

/-- How the lists of several data are nested. -/
def outlines : List Datum → List Outline
  | [] => []
  | d :: rest => d.outline :: outlines rest

end

mutual

/-- The datum with its numbers reduced to field elements. -/
def reduced : Datum → Datum
  | value v => value v
  | truth b => value (.felt (Felt.ofInt b.toNat))
  | integer n => value (.felt (Felt.ofInt n))
  | list items => list (reducedAll items)
  | nothing => nothing
  | text s => text s

/-- The data with their numbers reduced to field elements. -/
def reducedAll : List Datum → List Datum
  | [] => []
  | d :: rest => d.reduced :: reducedAll rest

end

/-- Nested lists of values and numbers, none of which is longer than there are offsets. -/
inductive IsArgument : Datum → Prop
  | value (v : Value) : IsArgument (value v)
  | truth (b : Bool) : IsArgument (truth b)
  | integer (n : Int) : IsArgument (integer n)
  | list {items : List Datum} (fits : items.length < offsetBound)
      (all : ∀ d ∈ items, IsArgument d) : IsArgument (list items)

/-- A list is an argument if its items are, and it is not too long. -/
theorem isArgument_list_iff {items : List Datum} :
    (list items).IsArgument ↔ items.length < offsetBound ∧ ∀ d ∈ items, d.IsArgument := by
  constructor
  · rintro ⟨⟩
    exact ⟨‹_›, ‹_›⟩
  · rintro ⟨hfits, hitems⟩
    exact .list hfits hitems

mutual

/-- The tree that an argument becomes, if its lists are put into the segments from an index on.
What is no argument stands for zero here. -/
def placed : Datum → Nat → Tree
  | value v, _ => .leaf v
  | truth b, _ => .leaf (.felt (Felt.ofInt b.toNat))
  | integer n, _ => .leaf (.felt (Felt.ofInt n))
  | list items, n => .list (.base n) (placedAll items (n + 1))
  | nothing, _ => .leaf (.felt 0)
  | text _, _ => .leaf (.felt 0)

/-- The trees that several arguments become, one after another. -/
def placedAll : List Datum → Nat → List Tree
  | [], _ => []
  | d :: rest, n => d.placed n :: placedAll rest (n + (d.placed n).nodes.length)

end

/-- Each argument becomes a tree. -/
theorem length_placedAll (items : List Datum) (n : Nat) :
    (placedAll items n).length = items.length := by
  induction items generalizing n with
  | nil => rfl
  | cons d rest ih => rw [placedAll, List.length_cons, List.length_cons, ih]

end Datum

namespace Consecutive

/-- No lists are consecutive. -/
protected theorem nil (n : Nat) : Consecutive n [] := ⟨rfl, nofun⟩

/-- A list and consecutive ones behind it are consecutive. -/
protected theorem cons {n : Nat} {values : List Value} {nodes : List (Address × List Value)}
    (hfits : values.length < offsetBound) (h : Consecutive (n + 1) nodes) :
    Consecutive n ((.base n, values) :: nodes) where
  bases := by
    rw [List.map_cons, h.bases]
    rfl
  fits := List.forall_mem_cons.mpr ⟨hfits, h.fits⟩

/-- Consecutive lists and those that go on behind them are consecutive. -/
protected theorem append {n : Nat} {xs ys : List (Address × List Value)} (hx : Consecutive n xs)
    (hy : Consecutive (n + xs.length) ys) : Consecutive n (xs ++ ys) where
  bases := by
    rw [List.map_append, hx.bases, hy.bases, ← List.map_append, List.length_append,
      List.range'_append_1]
  fits := List.forall_mem_append.mpr ⟨hx.fits, hy.fits⟩

/-- Where a list stands. -/
theorem fst_eq {n k : Nat} {nodes : List (Address × List Value)} (h : Consecutive n nodes)
    {x : Address × List Value} (hx : nodes[k]? = some x) : x.1 = .base ((n + k : Nat) : Int) := by
  have hbase : (nodes.map Prod.fst)[k]? = some x.1 := by rw [List.getElem?_map, hx, Option.map_some]
  have hk : k < nodes.length := (List.getElem?_eq_some_iff.mp hx).1
  rw [h.bases, List.getElem?_map, List.getElem?_range' hk, Option.map_some, Nat.one_mul] at hbase
  exact (Option.some.inj hbase).symm

end Consecutive

namespace Datum

mutual

/-- The lists of an argument are placed in consecutive segments. -/
theorem consecutive_placed {d : Datum} (hd : d.IsArgument) (n : Nat) :
    Consecutive n (d.placed n).nodes := by
  cases d with
  | list items =>
    obtain ⟨hfits, hitems⟩ := isArgument_list_iff.mp hd
    rw [placed, Tree.nodes]
    refine .cons ?_ (consecutive_placedAll items hitems (n + 1))
    rwa [List.length_map, length_placedAll]
  | value | truth | integer | nothing | text =>
    rw [placed, Tree.nodes]
    exact .nil n

/-- The lists of several arguments are placed in consecutive segments. -/
theorem consecutive_placedAll (items : List Datum) (hitems : ∀ d ∈ items, d.IsArgument) (n : Nat) :
    Consecutive n (Tree.nodesAll (placedAll items n)) := by
  cases items with
  | nil =>
    rw [placedAll, Tree.nodesAll]
    exact .nil n
  | cons d rest =>
    obtain ⟨hd, hrest⟩ := List.forall_mem_cons.mp hitems
    rw [placedAll, Tree.nodesAll]
    exact (consecutive_placed hd n).append (consecutive_placedAll rest hrest _)

end

mutual

/-- The tree that an argument becomes is the argument with its numbers reduced. -/
theorem datum_placed {d : Datum} (hd : d.IsArgument) (n : Nat) :
    (d.placed n).datum = d.reduced := by
  cases d with
  | list items =>
    obtain ⟨-, hitems⟩ := isArgument_list_iff.mp hd
    rw [placed, Tree.datum, reduced, datumAll_placedAll items hitems]
  | value | truth | integer => rw [placed, Tree.datum, reduced]
  | nothing | text => cases hd

/-- The trees that several arguments become are the arguments with their numbers reduced. -/
theorem datumAll_placedAll (items : List Datum) (hitems : ∀ d ∈ items, d.IsArgument) (n : Nat) :
    Tree.datumAll (placedAll items n) = reducedAll items := by
  cases items with
  | nil => rw [placedAll, Tree.datumAll, reducedAll]
  | cons d rest =>
    obtain ⟨hd, hrest⟩ := List.forall_mem_cons.mp hitems
    rw [placedAll, Tree.datumAll, reducedAll, datum_placed hd, datumAll_placedAll rest hrest]

end

end Datum

/-! ## Reading trees -/

namespace Memory

variable {m t : Memory}

mutual

/-- Follows the pointers of a tree with the given outline. -/
def readBack (m : Memory) : Outline → Value → Option Tree
  | .leaf, v => some (.leaf v)
  | .list items, .address a => (m.readBackFrom items a 0).map (.list a)
  | .list _, .felt _ => none

/-- Follows the pointers in consecutive cells, starting at an offset from an address. -/
def readBackFrom (m : Memory) : List Outline → Address → Nat → Option (List Tree)
  | [], _, _ => some []
  | o :: rest, a, k => do
    let b ← (a.shift k).toOption
    let tree ← m.readBack o (← m.get? b)
    return tree :: (← m.readBackFrom rest a (k + 1))

end

/-- The memory holds values in consecutive cells, starting at an offset from an address. -/
def Holds (m : Memory) (a : Address) (k : Nat) (values : List Value) : Prop :=
  ∀ j v, values[j]? = some v → ∃ b, a.shift ((k + j : Nat) : Int) = .ok b ∧ m.get? b = some v

/-- What a memory holds is held by one with more cells. -/
theorem Holds.mono {a : Address} {k : Nat} {values : List Value} (h : m.Holds a k values)
    (hext : m.Extends t) : t.Holds a k values := by
  intro j v hv
  obtain ⟨b, hb, hcell⟩ := h j v hv
  exact ⟨b, hb, hext b v hcell⟩

/-- The first value and the others. -/
theorem Holds.cons {a : Address} {k : Nat} {v : Value} {values : List Value}
    (h : m.Holds a k (v :: values)) :
    (∃ b, a.shift k = .ok b ∧ m.get? b = some v) ∧ m.Holds a (k + 1) values := by
  refine ⟨h 0 v rfl, fun j w hw => ?_⟩
  obtain ⟨b, hb, hcell⟩ := h (j + 1) w hw
  refine ⟨b, ?_, hcell⟩
  rwa [Nat.add_assoc, Nat.add_comm 1 j]

mutual

/-- A tree is read back from a memory that holds the values of its lists. -/
theorem readBack_placed (d : Datum) (n : Nat)
    (hnodes : ∀ x ∈ (d.placed n).nodes, m.Holds x.1 0 x.2) :
    m.readBack d.outline (d.placed n).value = some (d.placed n) := by
  cases d with
  | list items =>
    rw [Datum.placed, Tree.nodes, List.forall_mem_cons] at hnodes
    rw [Datum.outline, Datum.placed, Tree.value, readBack,
      readBackFrom_placedAll items (n + 1) 0 hnodes.1 hnodes.2, Option.map_some]
  | value v | truth b | integer k | nothing | text s =>
    rw [Datum.outline, Datum.placed, Tree.value, readBack]
    all_goals exact nofun

/-- Several trees are read back from consecutive cells that hold their values. -/
theorem readBackFrom_placedAll {a : Address} (items : List Datum) (n k : Nat)
    (hcells : m.Holds a k ((Datum.placedAll items n).map Tree.value))
    (hnodes : ∀ x ∈ Tree.nodesAll (Datum.placedAll items n), m.Holds x.1 0 x.2) :
    m.readBackFrom (Datum.outlines items) a k = some (Datum.placedAll items n) := by
  cases items with
  | nil => rw [Datum.outlines, Datum.placedAll, readBackFrom]
  | cons d rest =>
    rw [Datum.placedAll, List.map_cons] at hcells
    obtain ⟨⟨b, hb, hcell⟩, hcells⟩ := hcells.cons
    rw [Datum.placedAll, Tree.nodesAll, List.forall_mem_append] at hnodes
    obtain ⟨hfirst, hothers⟩ := hnodes
    rw [Datum.outlines, Datum.placedAll, readBackFrom, hb]
    simp only [Except.toOption, Option.bind_eq_bind, Option.bind_some, hcell,
      readBack_placed d n hfirst, readBackFrom_placedAll rest _ (k + 1) hcells hothers]
    rfl

end

/-- Values that were loaded are held. -/
theorem holds_of_load {values : List Value} {a b : Address}
    (h : load a (values.map .value) m = .ok b t) : t.Holds a 0 values := by
  intro j v hv
  -- A cell of the data has an address because the place after the data has one.
  have hj : j < values.length := (List.getElem?_eq_some_iff.mp hv).1
  obtain ⟨-, hend⟩ := Address.shift_eq_ok.mp (shift_of_load h)
  rw [List.length_map] at hend
  have hoffset : a.offset + j < offsetBound := by
    have hb := b.offset_lt
    omega
  have hshift : a.shift j = .ok ⟨a.segment, a.offset + j, hoffset⟩ := by
    rw [Address.shift_eq_ok]
    exact ⟨rfl, Int.natCast_add _ _⟩
  have hdatum : (values.map Datum.value)[j]? = some (.value v) := by
    rw [List.getElem?_map, hv, Option.map_some]
  obtain ⟨w, hw, hcell⟩ := get?_of_load h hdatum hshift
  obtain rfl : v = w := Except.ok.inj hw
  exact ⟨_, by rwa [Nat.zero_add], hcell⟩

end Memory

end Cairo
