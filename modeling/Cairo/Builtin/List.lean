import Cairo.Builtin.Basic

/-!
# The builtins of a machine

A machine has its builtins in a list.  A cell belongs to the first of them that owns its segment
(`deduceCell`), and `verifyAll` checks every written cell against what its builtin deduces.
-/

namespace Cairo

namespace Builtin

/-- The first builtin that owns a segment; those before it must have segments too. -/
def ownerOf? : List Builtin → Int → Except Fault (Option Builtin)
  | [], _ => .ok none
  | b :: rest, i => do
    if (← b.requireSegment) = i then return some b
    ownerOf? rest i

/-- The value that a cell has by the builtin that owns its segment, if there is one. -/
def deduceCell (m : Memory) (a : Address) : Action (List Builtin) (Option Felt)
  | [] => .ok none []
  | b :: rest =>
    match b.requireSegment with
    | .error e => .error e (b :: rest)
    | .ok i =>
      if i = a.segment then
        match deduce m a b with
        | .ok x b' => .ok x (b' :: rest)
        | .error e b' => .error e (b' :: rest)
      else
        match deduceCell m a rest with
        | .ok x rest' => .ok x (b :: rest')
        | .error e rest' => .error e (b :: rest')

/-- Checks a written cell of a builtin. -/
def verifyCell (m : Memory) (a : Address) (v : Value) : Action Builtin Unit := do
  match ← deduce m a with
  | none => return ()
  | some x => if .felt x ≠ v then throw (.inconsistentDeduction (← get).kind a x v)

/-- Checks every written cell of a builtin. -/
def verify (m : Memory) : Action Builtin Unit := do
  let b ← get
  let i ← b.requireSegment
  let s ← m.getSegment i
  (s.items i).forM fun (a, v) => verifyCell m a v

/-- An action on every builtin in turn, up to the first that fails. -/
def onEach (x : Action Builtin Unit) : Action (List Builtin) Unit
  | [] => .ok () []
  | b :: rest =>
    match x b with
    | .error e b' => .error e (b' :: rest)
    | .ok () b' =>
      match onEach x rest with
      | .ok () rest' => .ok () (b' :: rest')
      | .error e rest' => .error e (b' :: rest')

/-- Checks every written cell of every builtin. -/
def verifyAll (m : Memory) : Action (List Builtin) Unit := onEach (verify m)

end Builtin

end Cairo
