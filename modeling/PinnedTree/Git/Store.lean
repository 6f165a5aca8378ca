import PinnedTree.Archive.Zlib
import PinnedTree.Files
import PinnedTree.Git.Fetch
import PinnedTree.Git.Index

namespace PinnedTree.Git.Store

def directoryName : String := ".git"

def headFile (place : Location) : Location := place / RefName.head

def objectsDir (place : Location) : Location := place / "objects"

def refsDir (place : Location) : Location := place / "refs"

def indexFile (place : Location) : Location := place / "index"

def configFile (place : Location) : Location := place / "config"

def leadsToFile (d : Disk) (l : Location) : Bool :=
  match d.stat l with
  | .ok (.file _ _) => true
  | _ => false

def isRepository (d : Disk) (place : Location) : Bool :=
  leadsToFile d (headFile place) && d.leadsToDir (objectsDir place) && d.leadsToDir (refsDir place)

def find? (d : Disk) (l : Location) : Option Location :=
  [l / directoryName, l].find? (isRepository d)

def filesBelow (d : Disk) (l : Location) : List (List String × ByteArray) :=
  match d.resolve true l with
  | .ok (.taken path .dir) => (d.inside path).filterMap fun entry =>
    match entry.2 with
    | .file content _ => some (entry.1.drop path.length, content)
    | _ => none
  | _ => []

def capitalRefs (d : Disk) (place : Location) : List (String × String) :=
  (filesBelow d place).filterMap fun entry =>
    match entry.1 with
    | [name] =>
      if RefName.isCapital name.toList then some (name, Text.ofUtf8Lossy entry.2.toList) else none
    | _ => none

def namedRefs (d : Disk) (place : Location) : List (String × String) :=
  (filesBelow d (refsDir place)).map fun entry =>
    (Text.join '/' ("refs" :: entry.1), Text.ofUtf8Lossy entry.2.toList)

def objectIn? (entry : List String × ByteArray) : Option (ObjectId × Object) := do
  let id ← ObjectId.ofText? (String.join entry.1)
  let stream ← Zlib.unwrap? entry.2
  return (id, ← Object.ofFramed? stream.toList)

def load (d : Disk) (place : Location) : Repository where
  objects := (filesBelow d (objectsDir place)).filterMap objectIn?
  refs := capitalRefs d place ++ namedRefs d place

def objectFile (place : Location) (id : ObjectId) : Location :=
  (objectsDir place).below
    [String.ofList (id.hex.toList.take 2), String.ofList (id.hex.toList.drop 2)]

def objectMode : Nat := 0o444

def saveObject (place : Location) (entry : ObjectId × Object) : Action IoFault Unit := do
  let file := objectFile place entry.1
  if ← Action.observe (·.holdsSomething file) then return ()
  Files.makeParents file
  Action.change (·.writeFile file (Zlib.wrap entry.2.framed) objectMode)

def saveRef (place : Location) (ref : String × String) : Action IoFault Unit := do
  let file := place.below (Text.split '/' ref.1)
  Files.makeParents file
  Files.writeText file ref.2

def save (place : Location) (old new : Repository) : Action IoFault Unit := do
  (new.objects.filter fun entry => !old.holds entry.1).forM (saveObject place)
  (new.refs.filter fun ref => old.refs.lookup ref.1 ≠ some ref.2).forM (saveRef place)

def newConfig (bare : Bool) : String :=
  "[core]\n\tbare = " ++ toString bare ++ "\n\trepositoryformatversion = 0\n\tfilemode = true\n"

def firstBranch : String := RefName.branches ++ "master"

def create (place : Location) (bare : Bool) : Action IoFault Unit := do
  for inner in ["info", "pack"] do Files.makeDirs (objectsDir place / inner)
  for inner in ["heads", "tags"] do Files.makeDirs (refsDir place / inner)
  if !(← Action.observe (·.leadsSomewhere (configFile place))) then
    Files.writeText (configFile place) (newConfig bare)
  if !(← Action.observe (·.leadsSomewhere (headFile place))) then
    Files.writeText (headFile place) (RefValue.symbolicMark ++ firstBranch ++ "\n")

def remoteMark : String := "[remote \"origin\"]"

def withoutRemote : List String → List String
  | [] => []
  | line :: rest =>
    if line = remoteMark then
      (rest.dropWhile fun next => !Text.startsWith next "[")
    else line :: withoutRemote rest

def withRemote (text url : String) : String :=
  let lines := (withoutRemote (Text.split '\n' text)).reverse.dropWhile (·.isEmpty)
  Text.join '\n' (lines.reverse ++ [remoteMark, "\turl = " ++ url,
    "\tfetch = +" ++ RefName.branches ++ "*:" ++ RefName.remoteBranches ++ "*", ""])

def setRemote (place : Location) (url : String) : Action IoFault Unit := do
  let text ← Action.observe fun d => (d.readText (configFile place)).toOption.getD ""
  Files.writeText (configFile place) (withRemote text url)

def localPath? (url : String) : Option String :=
  match Text.dropStart? url "file://" with
  | some rest =>
    let path := (Text.dropStart? rest "localhost").getD rest
    if Text.startsWith path "/" && !Text.startsWith path "//" && path ≠ "/" then some path else none
  | none => if ':' ∈ url.toList then none else some url

/-- The repository with a given address, which has to be on the same disk. -/
def remote (d : Disk) (url : String) : Except GitError Repository :=
  match localPath? url with
  | none => .error .unreachable
  | some path =>
    if !d.leadsToDir (.ofText path) then .error .unreachable
    else match find? d (.ofText path) with
      | none => .error .notARepository
      | some place => .ok (load d place)

end PinnedTree.Git.Store
