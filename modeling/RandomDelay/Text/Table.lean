/-!
# Tables

Rows of cells under each other: every column is as wide as its widest cell, the cells stand at the
right of their columns, and two spaces part the columns.
-/

set_option autoImplicit false

namespace RandomDelay.Text

/-- Width of every column of some rows, as many columns as the first row has. -/
def columnWidths : List (List (List Char)) → List Nat
  | [] => []
  | first :: rest =>
    rest.foldl (fun widths row => List.zipWith (fun width cell => max width cell.length) widths row)
      (first.map List.length)

/-- Cell at the right of a column. -/
def atRight (width : Nat) (cell : List Char) : List Char :=
  List.replicate (width - cell.length) ' ' ++ cell

/-- Lines of a table with the given rows. -/
def table (rows : List (List (List Char))) : List (List Char) :=
  let widths := columnWidths rows
  rows.map fun row => [' ', ' '].intercalate (List.zipWith atRight widths row)

end RandomDelay.Text
