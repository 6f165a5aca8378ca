import PinnedTree.Path.Part
import PinnedTree.Text.Fields

namespace PinnedTree.Path

/-- A part together with what is written between it and the part before. -/
structure Spelled where
  gap : String
  part : Part
deriving DecidableEq, Repr

namespace Spelling

def partOf? (piece : String) : Option Part :=
  if piece = "" || piece = "." then none
  else if piece = ".." then some .up
  else some (.name piece)

def ofPieces (gap : String) : List String → List Spelled
  | [] => []
  | piece :: pieces =>
    match partOf? piece with
    | none => ofPieces (gap ++ piece ++ "/") pieces
    | some part => ⟨gap, part⟩ :: ofPieces "/" pieces

def parse (text : String) : List Spelled :=
  match Text.split '/' text with
  | [] => []
  | first :: pieces =>
    if text.isEmpty then []
    else if first = "" then ⟨"", .top⟩ :: ofPieces "" pieces
    else if first = "." then ⟨"", .here⟩ :: ofPieces "/" pieces
    else ofPieces "" (first :: pieces)

def text : List Spelled → String
  | [] => ""
  | first :: parts =>
    parts.foldl (fun written next => written ++ next.gap ++ next.part.text) first.part.text

end Spelling

def parts (text : String) : List Part := (Spelling.parse text).map (·.part)

def fileName? (text : String) : Option String :=
  match (parts text).getLast? with
  | some (.name name) => some name
  | _ => none

/-- The path without its last part; a path without parts, or of the top alone, has no parent. -/
def parent? (text : String) : Option String :=
  match (Spelling.parse text).getLast? with
  | none => none
  | some ⟨_, .top⟩ => none
  | some _ => some (Spelling.text (Spelling.parse text).dropLast)

/-- What a name has before and after its last dot; a name that starts with its only dot has no
extension. -/
def stemAndExtension (name : String) : String × Option String :=
  match Text.cutLast? '.' name with
  | some (stem, ext) => if stem.isEmpty then (name, none) else (stem, some ext)
  | none => (name, none)

def extension? (text : String) : Option String :=
  (fileName? text).bind fun name => (stemAndExtension name).2

/-- The destinations of a list that lie strictly inside a parent and in no other of them, as they
are written after the parent. -/
def directChildren (parent : String) (all : List String) : List String :=
  (topmostInside (·.part) (parts parent) (all.map Spelling.parse)).map Spelling.text

end PinnedTree.Path
