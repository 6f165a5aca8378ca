import PinnedTree.Path.Spelling

namespace PinnedTree

structure Location where
  base : String
  names : List String := []
deriving DecidableEq, Repr

namespace Location

def ofText (text : String) : Location := ⟨text, []⟩

def child (l : Location) (name : String) : Location := ⟨l.base, l.names ++ [name]⟩

def below (l : Location) (names : List String) : Location := ⟨l.base, l.names ++ names⟩

instance : HDiv Location String Location := ⟨child⟩

def appendPiece (path piece : String) : String :=
  if path.isEmpty || Text.endsWith path "/" then path ++ piece else path ++ "/" ++ piece

def text (l : Location) : String := l.names.foldl appendPiece l.base

def join (l : Location) (path : String) : Location :=
  if Text.startsWith path "/" then ofText path else ofText (appendPiece l.text path)

def anchored (l : Location) : Bool := Text.startsWith l.base "/"

/-- The pieces to walk, one after another; a slash at the end asks for a directory. -/
def segments (l : Location) : List String :=
  (Text.split '/' l.base).filter (· ≠ "")
    ++ (if Text.endsWith l.base "/" then ["."] else []) ++ l.names

/-- Whether the path is written with a slash at its end, as only directories may be. -/
def asksForDir (l : Location) : Bool := l.names.isEmpty && Text.endsWith l.base "/"

def bare (l : Location) : Location :=
  let base := (l.base.toList.reverse.dropWhile (· = '/')).reverse
  if l.asksForDir && !base.isEmpty then ofText (String.ofList base) else l

def endsInName (l : Location) : Bool :=
  match l.bare.segments.getLast? with
  | some last => last ≠ "." && last ≠ ".."
  | none => false

def parent? (l : Location) : Option Location :=
  match l.names with
  | [] => (Path.parent? l.base).map ofText
  | _ :: _ => some ⟨l.base, l.names.dropLast⟩

def writtenAncestors : Nat → String → List Location
  | 0, _ => []
  | fuel + 1, path =>
    match Path.parent? path with
    | none => []
    | some above => ofText above :: writtenAncestors fuel above

def ancestors (l : Location) : List Location :=
  (List.range l.names.length).map (fun dropped =>
      ⟨l.base, l.names.take (l.names.length - dropped)⟩)
    ++ ofText l.base :: writtenAncestors (l.base.length + 1) l.base

def fileName? (l : Location) : Option String :=
  match l.names.getLast? with
  | some name => some name
  | none => Path.fileName? l.base

/-- The extension of the name the path ends in. -/
def extension? (l : Location) : Option String :=
  l.fileName?.bind fun name => (Path.stemAndExtension name).2

@[simp] theorem child_eq_div (l : Location) (name : String) : l / name = l.child name := rfl

@[simp] theorem segments_child (l : Location) (name : String) :
    (l.child name).segments = l.segments ++ [name] := (List.append_assoc _ _ _).symm

@[simp] theorem segments_below (l : Location) (names : List String) :
    (l.below names).segments = l.segments ++ names := (List.append_assoc _ _ _).symm

end Location

end PinnedTree
