import PinnedTree.Backend.CopyTree
import PinnedTree.Git.Checkout
import PinnedTree.Git.Store

namespace PinnedTree.Git

def schemes : List String := ["https://", "http://", "ssh://", "git://", "git+", "git@"]

def handles (locator : String) : Bool :=
  schemes.any (Text.startsWith locator) || Text.endsWith locator ".git"

def remoteUrl (locator : String) : String := (Text.dropStart? locator "git+").getD locator

/-- Takes over the repository of an earlier checkout; its index is of no use in a new directory. -/
def reuse (request : FetchRequest) : Action FetchError Unit := do
  match request.previous.map (· / Store.directoryName) with
  | none => return ()
  | some old =>
    if ← Action.observe (·.leadsToDir old) then
      let place := request.staging / Store.directoryName
      let _ ← copyTree old place
      Action.ignoringFailure (Files.removeFile (Store.indexFile place))

def openOrCreate (staging : Location) : Action FetchError Location := do
  match ← Action.observe (Store.find? · staging) with
  | some place => return place
  | none =>
    let place := staging / Store.directoryName
    Action.reporting (fun _ => .git .notARepository) (Store.create place false)
    return place

def oldFiles (d : Disk) (place : Location) (own : Repository) :
    Except GitError (List SnapshotFile) :=
  if !d.leadsSomewhere (Store.indexFile place) then .ok []
  else match own.target RefName.head with
    | .error .missing => .ok []
    | .error .faulty => .error .invalidReference
    | .ok id => own.filesAt id

def checkOut (staging place : Location) (own : Repository) (id : ObjectId) :
    Action GitError Unit := do
  let old ← Action.query (oldFiles · place own)
  let wanted ← Action.query fun _ => own.filesAt id
  Action.reporting (fun _ => .checkoutConflict) do
    Checkout.apply staging old wanted
    Files.write (Store.indexFile place) (Index.bytes wanted)
  if !own.knowsHead then throw .invalidReference
  Action.reporting (fun _ => .checkoutConflict) do
    Files.writeText (Store.headFile place) (id.hex ++ "\n")

def fetch (request : FetchRequest) : Action FetchError Unit := do
  let url := remoteUrl request.locator
  reuse request
  let place ← openOrCreate request.staging
  if url.isEmpty then throw (.git .unreachable)
  Action.reporting (fun _ => .git .invalidReference) (Store.setRemote place url)
  let own ← Action.observe (Store.load · place)
  let stopped ← Action.isCancelled
  let now ← Action.query fun d => own.obtain (Store.remote d url) stopped url request.revision
  Action.reporting (fun _ => .git .invalidReference) (Store.save place own now)
  match now.resolve request.revision with
  | none => throw (.revisionNotFound request.revision url)
  | some id =>
    Backend.poll
    Action.reporting .git (checkOut request.staging place now id)

/-- The backend for repositories. -/
def backend : Backend where
  name := "git"
  handles := handles
  fetch := fetch

end PinnedTree.Git
