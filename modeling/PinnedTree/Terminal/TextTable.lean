import PinnedTree.Terminal.Control
import PinnedTree.Terminal.Style

namespace PinnedTree

/-- A table for reading: headers, and rows with one cell for each of them. -/
structure TextTable where
  headers : List String
  rows : List (List String)
deriving DecidableEq, Repr

namespace TextTable

open Terminal (shownColumns truncate)

/-- The table of some rows; those with more or fewer cells than there are headers are left out. -/
def ofRows (headers : List String) (rows : List (List String)) : TextTable :=
  ⟨headers, rows.filter fun row => row.length = headers.length⟩

def isEmpty (table : TextTable) : Bool := table.rows.isEmpty

def minColumn : Nat := 8

def oneLine (cell : String) : List Char :=
  cell.toList.map fun c => if c = '\n' || c = '\r' || c = '\t' then ' ' else c

def widened (widths : List Nat) (row : List String) : List Nat :=
  List.zipWith (fun width cell => max width (shownColumns (oneLine cell))) widths row

def naturalWidths (table : TextTable) : List Nat :=
  table.rows.foldl widened (table.headers.map fun header => shownColumns header.toList)

def widest (widths : List Nat) : Nat :=
  let most := widths.foldl max 0
  ((List.range widths.length).filter fun i => widths[i]? = some most).getLast?.getD 0

/-- Widths that have to give up so many columns, as long as one is wide enough to do so. -/
def narrowed : Nat → List Nat → List Nat
  | 0, widths => widths
  | excess + 1, widths =>
    let i := widest widths
    let width := widths.getD i 0
    if width ≤ minColumn then widths else narrowed excess (widths.set i (width - 1))

def frameColumns (count : Nat) : Nat := 3 + 3 * count

def widths (table : TextTable) (terminal : Terminal) : List Nat :=
  let natural := table.naturalWidths
  narrowed (natural.foldl (· + ·) 0 - (terminal.width - frameColumns natural.length)) natural

def border (widths : List Nat) (left between right : Char) : List Char :=
  [' ', ' ', left] ++ Text.joined between (widths.map fun width => List.replicate (width + 2) '─')
    ++ [right, '\n']

def shownCell (style : String → String) (cell : String) (width : Nat) : List Char :=
  let shown := truncate width (oneLine cell)
  ' ' :: (style (String.ofList shown)).toList
    ++ List.replicate (width - shownColumns shown) ' ' ++ [' ', '│']

def rowLine (style : String → String) (widths : List Nat) (cells : List String) : List Char :=
  [' ', ' ', '│'] ++ (List.zipWith (shownCell style) cells widths).flatten ++ ['\n']

/-- A table as a text; its headers are bold. -/
def render (table : TextTable) (terminal : Terminal) : String :=
  if table.headers.isEmpty then ""
  else
    let widths := table.widths terminal
    String.ofList (border widths '┌' '┬' '┐'
      ++ rowLine (terminal.paint .bold) widths table.headers
      ++ border widths '├' '┼' '┤'
      ++ table.rows.flatMap (rowLine id widths)
      ++ border widths '└' '┴' '┘')

end TextTable

end PinnedTree
