import PinnedTree.Error
import PinnedTree.Files
import PinnedTree.Json.Reader
import PinnedTree.Json.Writer

namespace PinnedTree

def markerFile : String := ".depsync.json"

/-- What a checkout holds, where it came from, and when. -/
structure Marker where
  id : String
  revision : String
  locator : String
  backend : String
  syncedAt : String
deriving DecidableEq, Repr

namespace Marker

def form : Json.Read.RecordForm String where
  name := "RevisionMarker"
  fields := ["id", "revision", "locator", "backend", "synced_at"]
  read := Json.Read.readString "a string"

def ofFields (found : List (String × String)) : Marker where
  id := (found.lookup "id").getD ""
  revision := (found.lookup "revision").getD ""
  locator := (found.lookup "locator").getD ""
  backend := (found.lookup "backend").getD ""
  syncedAt := (found.lookup "synced_at").getD ""

def parse (text : String) : Except JsonError Marker :=
  (form.parse text.toList).map ofFields

def text (marker : Marker) : String :=
  String.ofList (Json.Write.pretty [("id", marker.id), ("revision", marker.revision),
    ("locator", marker.locator), ("backend", marker.backend), ("synced_at", marker.syncedAt)]
    ++ ['\n'])

def read (d : Disk) (directory : Location) : Except MarkerError (Option Marker) :=
  match d.readText (directory / markerFile) with
  | .error (.errno .noEntry) => .ok none
  | .error fault => .error (.io fault)
  | .ok text =>
    match parse text with
    | .ok marker => .ok (some marker)
    | .error cause => .error (.parse cause)

/-- Writes the marker of a directory: as a temporary file first, which then takes its place. -/
def write (marker : Marker) (directory : Location) : Action MarkerError Unit :=
  Action.reporting .io do
    let temporary ← Files.makeTemporary directory
    Action.changeOnce (·.fill temporary marker.text.toUTF8)
    match ← Action.outcome (Files.rename temporary (directory / markerFile)) with
    | .ok _ => return ()
    | .error fault =>
      Action.ignoringFailure (Files.removeFile temporary)
      throw fault

end Marker

inductive Inspection
  | missing
  | empty
  | marked (marker : Marker)
  | unmanaged
deriving DecidableEq, Repr

namespace Inspection

def ofPlace (d : Disk) (l : Location) : Except MarkerError Inspection :=
  match d.linkStat l with
  | .error (.errno .noEntry) => .ok .missing
  | .error fault => .error (.io fault)
  | .ok .dir =>
    match Marker.read d l with
    | .error e => .error e
    | .ok (some marker) => .ok (.marked marker)
    | .ok none =>
      match d.list l with
      | .error fault => .error (.io fault)
      | .ok [] => .ok .empty
      | .ok _ => .ok .unmanaged
  | .ok _ => .ok .unmanaged

/-- Whether a directory holds nothing but nested places and real directories on the way to them. It is
listed by the path that names it, while its objects tell their kind themselves; so many levels may be
gone down. -/
def holdsOnly (d : Disk) (nested : List (List String)) :
    Nat → Location → DiskPath → List String → Except IoFault Bool
  | 0, _, _, _ => .ok false
  | levels + 1, l, directory, above => do
    (← d.list l).allM fun name =>
      let inner := above ++ [name]
      if nested.contains inner then .ok true
      else if nested.any inner.isPrefixOf && d.look (directory ++ [name]) = some .dir then
        holdsOnly d nested levels (l / name) (directory ++ [name]) inner
      else .ok false

def depthOf (nested : List (List String)) : Nat := (nested.map List.length).foldl max 0

/-- What stands at a place that has others nested in it: a directory that holds nothing but these is
as good as empty. -/
def ofOuter (d : Disk) (l : Location) (nested : List (List String)) :
    Except MarkerError Inspection := do
  let found ← ofPlace d l
  if found = .unmanaged && !nested.isEmpty then
    match d.resolve true l with
    | .ok (.taken path .dir) =>
      let only ← (holdsOnly d nested (depthOf nested + 1) l path []).mapError .io
      return if only then .empty else found
    | _ => return found
  else return found

end Inspection

end PinnedTree
