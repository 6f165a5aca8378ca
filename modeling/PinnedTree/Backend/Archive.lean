import PinnedTree.Archive.Names
import PinnedTree.Archive.Zip
import PinnedTree.Backend
import PinnedTree.Digest.Sha256
import PinnedTree.Files
import PinnedTree.Locator

namespace PinnedTree.Archive

def placeholder : String := "\x7brevision\x7d"

def handles (locator : String) : Bool :=
  let address := (Locator.splitFragment locator).1
  (["https://", "http://", "file://"].any fun start => Text.startsWith address start)
    && Text.endsWith address ".zip"

def expectedDigest (locator : String) : Option String :=
  (Locator.splitFragment locator).2.bind fun fragment => Text.dropStart? fragment "sha256="

def copySize : Nat := 65536

def copyPieces (target : Location) (content : ByteArray) (done : Nat) :
    Nat → Action FetchError Unit
  | 0 => Backend.poll
  | left + 1 => do
    Backend.poll
    let next := done + copySize
    Action.reporting .io (Action.changeOnce (·.fill target (content.extract 0 next)))
    copyPieces target content next left

def copyArchive (address : String) (target : Location) : Action FetchError Unit := do
  match Text.dropStart? address "file://" with
  | none => throw (.http (address ++ ": " ++ noNetwork))
  | some path =>
    let source := Location.ofText path
    if (← Action.reporting .io (Action.query (·.stat source))) = .dir then
      Backend.poll
      throw (.io (.errno .isDirectory))
    let content ← Action.reporting .io (Action.query (·.readBytes source))
    copyPieces target content 0 ((content.size + copySize - 1) / copySize)

/-- Checks an archive against the digest that is asked for; the case of letters does not matter. -/
def checkDigest (content : ByteArray) : Option String → Except FetchError Unit
  | none => .ok ()
  | some expected =>
    let actual := Digest.Sha256.hex content
    if expected.toLower = actual.toLower then .ok () else .error (.checksum expected actual)

structure Member where
  path : List String
  isDirectory : Bool
  entry : Zip.Entry
  packed : ByteArray

/-- The entry with its data; a name for which the library gives no path is refused. -/
def memberOf (enclosed : String → Option (List String)) (bytes : ByteArray) (entry : Zip.Entry) :
    Except ArchiveError Member := do
  let packed ← Zip.packedData bytes entry
  match enclosed entry.name with
  | none => throw (.unsafePath entry.name)
  | some path => return ⟨path, isDirectoryName entry.name, entry, packed⟩

def members (enclosed : String → Option (List String)) (bytes : ByteArray) :
    Except ArchiveError (List Member) := do
  (← Zip.entries bytes).mapM (memberOf enclosed bytes)

def topOf (members : List Member) : Option String :=
  commonTop? (members.map fun m => (m.path, m.isDirectory))

def unpackFile (target : Location) (m : Member) : Action FetchError Unit := do
  Action.reporting .io do
    Files.makeParents target
    let (content, fault) := Zip.content m.entry m.packed
    Files.write target content
    match fault with
    | some fault => throw fault
    | none => pure ()
    match m.entry.mode with
    | some mode => Action.changeOnce (·.setMode target (mode % 0o1000))
    | none => return ()

/-- Unpacks entries, as far as they are not the directory that is left out; counts the files. -/
def unpack (target : Location) (top : Option String) : List Member → Action FetchError Nat
  | [] => return 0
  | m :: rest => do
    Backend.poll
    let path := if top.isSome then m.path.drop 1 else m.path
    if top.isSome && path.isEmpty then unpack target top rest
    else if m.isDirectory then
      Action.reporting .io (Files.makeDirs (target.below path))
      unpack target top rest
    else
      unpackFile (target.below path) m
      return (← unpack target top rest) + 1

/-- Unpacks an archive into a directory; counts the files. What path the name of an entry stands for
is up to the library for archives. -/
def unpackAll (enclosed : String → Option (List String)) (bytes : ByteArray) (target : Location) :
    Action FetchError Nat := do
  match members enclosed bytes with
  | .error cause => throw (.archive cause)
  | .ok found => unpack target (topOf found) found

def fetch (request : FetchRequest) : Action FetchError Unit := do
  let address := Text.replace (Locator.splitFragment request.locator).1 placeholder
    request.revision
  let scratch := request.staging.parent?.getD request.staging
  Files.withTemporary scratch .io fun copy => do
    copyArchive address copy
    let content ← Action.reporting .io (Action.query (·.readBytes copy))
    match checkDigest content (expectedDigest request.locator) with
    | .error e => throw e
    | .ok _ => pure ()
    let _ ← unpackAll path? content request.staging

/-- The backend for archives. -/
def backend : Backend where
  name := "archive"
  handles := handles
  fetch := fetch

end PinnedTree.Archive
