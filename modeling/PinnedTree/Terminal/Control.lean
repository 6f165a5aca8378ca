import PinnedTree.Terminal.Width

namespace PinnedTree.Terminal

/-- How far a control sequence has come after the character that opens it. -/
inductive Stage
  | opened
  | charset
  | parameters
  | digits (count : Nat)
  | separated
  | complete
  | broken
deriving DecidableEq, Repr

def opens (c : Char) : Bool := c = '\x1b' || c = '\u009b'

def closes (c : Char) : Bool :=
  ('A' ≤ c && c ≤ 'P') || c ∈ ['R', 'Z', 'c', 'q', 'r', 'y', '=', '>', '<', '~']
    || ('f' ≤ c && c ≤ 'n')

def maxDigits : Nat := 4

namespace Stage

def next (c : Char) : Stage → Stage
  | .opened =>
    if c = '(' || c = ')' then .charset
    else if c ∈ [';', '[', '#', '?'] then .parameters
    else if c.isDigit then .digits 1
    else if closes c then .complete
    else .broken
  | .charset =>
    if c ∈ ['(', ')', ';', '[', '#', '?'] then .parameters
    else if '0' ≤ c && c ≤ '2' then .complete
    else if c.isDigit then .digits 1
    else if closes c then .complete
    else .broken
  | .parameters =>
    if c ∈ ['(', ')', ';', '[', '#', '?'] then .parameters
    else if c.isDigit then .digits 1
    else if closes c then .complete
    else .broken
  | .digits count =>
    if c.isDigit then (if count < maxDigits then .digits (count + 1) else .complete)
    else if c = ';' then .separated
    else if closes c then .complete
    else .broken
  | .separated =>
    if c = ';' then .separated
    else if c.isDigit then .digits 1
    else if closes c then .complete
    else .broken
  | .complete | .broken => .broken

def canEnd : Stage → Bool
  | .digits _ | .complete => true
  | _ => false

/-- The length of the longest control sequence, if there is one: so many characters have been read,
and so many of them could be one. -/
def longest (stage : Stage) (read : Nat) (found : Option Nat) : List Char → Option Nat
  | [] => found
  | c :: rest =>
    match stage.next c with
    | .broken => found
    | later => later.longest (read + 1) (if later.canEnd then some (read + 1) else found) rest

end Stage

/-- Each character with whether it belongs to a control sequence; so many of the first ones do. -/
def markedFrom (inside : Nat) : List Char → List (Char × Bool)
  | [] => []
  | c :: rest =>
    match inside with
    | n + 1 => (c, true) :: markedFrom n rest
    | 0 =>
      match if opens c then Stage.opened.longest 0 none rest else none with
      | some n => (c, true) :: markedFrom n rest
      | none => (c, false) :: markedFrom 0 rest

/-- A stretch of a text: control sequences, or letters that are shown. -/
structure Piece where
  isControl : Bool
  letters : List Char
deriving DecidableEq, Repr

def grouped : List (Char × Bool) → List Piece
  | [] => []
  | (c, mark) :: rest =>
    match grouped rest with
    | [] => [⟨mark, [c]⟩]
    | piece :: pieces =>
      if piece.isControl = mark then ⟨mark, c :: piece.letters⟩ :: pieces
      else ⟨mark, [c]⟩ :: piece :: pieces

def pieces (text : List Char) : List Piece := grouped (markedFrom 0 text)

def Piece.columns (piece : Piece) : Nat :=
  if piece.isControl then 0 else Terminal.columns piece.letters

def shownColumns (text : List Char) : Nat :=
  (pieces text).foldl (fun sum piece => sum + piece.columns) 0

/-- The characters that fit into so many columns, taken one by one; nothing follows once the columns
are full. -/
def fitting (room : Nat) : List Char → List Char
  | [] => []
  | c :: rest =>
    if room < charColumns c then []
    else if room = charColumns c then [c]
    else c :: fitting (room - charColumns c) rest

def ellipsis : List Char := ['.', '.', '.']

def cutPieces (room : Nat) : List Piece → List Char
  | [] => []
  | piece :: rest =>
    if piece.isControl then piece.letters ++ cutPieces room rest
    else if piece.columns ≤ room then piece.letters ++ cutPieces (room - piece.columns) rest
    else fitting room piece.letters ++ ellipsis
      ++ (rest.filter (·.isControl)).flatMap (·.letters)

/-- A text that takes at most so many columns, by the reckoning of single characters. -/
def truncate (width : Nat) (text : List Char) : List Char :=
  if shownColumns text ≤ width then text
  else cutPieces (width - ellipsis.length) (pieces text)

end PinnedTree.Terminal
