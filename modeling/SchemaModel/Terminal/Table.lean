import SchemaModel.Text.Width

/-!
Tables of text. A column is as wide as its widest line with a blank on each side, and a blank
stands between columns. Rules run above and below the table, broken between the columns, and
unbroken under the header. A cell of several lines makes its row as high.
-/

namespace SchemaModel

inductive Alignment where
  | left
  | right
deriving DecidableEq, Repr

namespace Table

def cellLines (cell : String) : List String :=
  (cell.toList.foldr (fun c lines => match lines with
    | line :: rest => if c = '\n' then [] :: line :: rest else (c :: line) :: rest
    | [] => [[c]]) [[]]).map String.ofList

/-- The columns that the widest line of a cell takes. -/
def cellWidth (cell : String) : Nat :=
  (cellLines cell).foldl (fun width line => max width (Text.columns line)) 0

def blanks (n : Nat) : String := String.ofList (List.replicate n ' ')

def rule (n : Nat) : String := String.ofList (List.replicate n '─')

/-- A line of a cell with a blank on each side. -/
def pad (alignment : Alignment) (width : Nat) (line : String) : String :=
  let room := blanks (width - Text.columns line)
  match alignment with
  | .left => " " ++ line ++ room ++ " "
  | .right => " " ++ room ++ line ++ " "

/-- The lines of a row. -/
def rowLines (widths : List Nat) (alignments : List Alignment) (cells : List String) :
    List String :=
  let columns := cells.map cellLines
  let height := columns.foldl (fun height lines => max height lines.length) 0
  (List.range height).map fun i =>
    " ".intercalate ((widths.zip (alignments.zip columns)).map fun (width, alignment, lines) =>
      pad alignment width (lines[i]?.getD ""))

/-- The lines of a table. The header is set to the left in every column. -/
def lines (alignments : List Alignment) (header : List String) (rows : List (List String)) :
    List String :=
  let widths := (header :: rows).foldl
    (fun widths row => List.zipWith max widths (row.map cellWidth)) (header.map fun _ => 0)
  let broken := " ".intercalate (widths.map fun width => rule (width + 2))
  let lefts := header.map fun _ => Alignment.left
  [broken] ++ rowLines widths lefts header ++ [rule (Text.columns broken)] ++
    rows.flatMap (rowLines widths alignments) ++ [broken]

end Table

end SchemaModel
