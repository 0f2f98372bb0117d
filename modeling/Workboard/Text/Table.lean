import Workboard.Text.Blank
import Workboard.Text.Cut

/-!
# Tables

Rows of cells under headings and a rule. A column is as wide as its widest cell in
bytes, and its cells are padded in characters; the last column is not padded, and no
line ends in a blank.
-/
namespace Workboard.Text

/-- The width of a column of cells. -/
def columnWidth (cells : List String) : Nat := cells.foldl (fun w c => max w c.utf8ByteSize) 0

/-- The widths of the columns of a table, as many as there are headings. -/
def columnWidths (headings : List String) (rows : List (List String)) : List Nat :=
  (List.range headings.length).map fun i => columnWidth ((headings :: rows).filterMap (·[i]?))

/-- The cells of a line, all but the last padded, two blanks apart. -/
def alignCells : List Nat → List String → String
  | _, [] => ""
  | _, [c] => c
  | w :: ws, c :: cs => padRight w c ++ "  " ++ alignCells ws cs
  | [], c :: cs => c ++ "  " ++ alignCells [] cs

/-- The text of a table. -/
def table (headings : List String) (rows : List (List String)) : String :=
  let widths := columnWidths headings rows
  let rule := widths.map fun w => String.ofList (List.replicate w '-')
  String.join ((headings :: rule :: rows).map fun r => trimEnd (alignCells widths r) ++ "\n")

end Workboard.Text
