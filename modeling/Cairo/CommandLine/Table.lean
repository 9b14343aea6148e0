import Cairo.CommandLine.Commands

/-!
# Tables

A table is drawn with ruled borders under its centred title.  Every column is as wide as its
widest text, and texts stand at the right of their columns.
-/

namespace Cairo.CommandLine.Table

/-- A number of copies of a character. -/
def copies (n : Nat) (c : Char) : String := String.ofList (List.replicate n c)

/-- A text at the right of a column. -/
def alignRight (width : Nat) (s : String) : String := copies (width - s.length) ' ' ++ s

/-- A text in the middle of a line. -/
def alignCenter (width : Nat) (s : String) : String :=
  let missing := width - s.length
  copies (missing / 2) ' ' ++ s ++ copies (missing - missing / 2) ' '

/-- The widths of the columns of some rows. -/
def widths : List (List String) → List Nat
  | [] => []
  | [row] => row.map String.length
  | row :: rest => (row.map String.length).zipWith max (widths rest)

/-- A ruled line with the given ends, joint and filling. -/
def rule (left joint right fill : String) (columns : List Nat) : String :=
  left ++ String.intercalate joint (columns.map fun w => String.join (List.replicate (w + 2) fill))
    ++ right ++ "\n"

/-- A row between borders. -/
def rowLine (border : String) (columns : List Nat) (row : List String) : String :=
  border ++ String.join ((columns.zipWith alignRight row).map fun s => " " ++ s ++ " " ++ border)
    ++ "\n"

/-- A table as it is printed. -/
def render (t : Table) : String :=
  let columns := widths t.rows
  let width := columns.foldl (fun n w => n + w + 3) 1
  let body := match t.rows with
    | [] => ""
    | header :: rows =>
      rule "┏" "┳" "┓" "━" columns ++ rowLine "┃" columns header ++
        rule "┡" "╇" "┩" "━" columns ++ String.join (rows.map (rowLine "│" columns)) ++
        rule "└" "┴" "┘" "─" columns
  alignCenter width t.title ++ "\n" ++ body

end Cairo.CommandLine.Table
