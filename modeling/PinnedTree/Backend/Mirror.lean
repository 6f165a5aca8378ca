import PinnedTree.Backend.CopyTree
import PinnedTree.Locator

namespace PinnedTree.Mirror

def scheme : String := "file://"

def handles (locator : String) : Bool :=
  let address := (Locator.splitFragment locator).1
  Text.startsWith address scheme && !Text.endsWith address ".zip" && !Text.endsWith address ".git"

def isSingleName (text : String) : Bool :=
  match Path.parts text with
  | [.name name] => name = text
  | _ => false

def directory (locator : String) : Location :=
  .ofText (((Text.dropStart? (Locator.splitFragment locator).1 scheme).getD ""))

def fetch (request : FetchRequest) : Action FetchError Unit := do
  if !isSingleName request.revision then throw (.invalidRevision request.revision)
  let source := directory request.locator / request.revision
  if !(← Action.observe (·.leadsToDir source)) then
    throw (.revisionNotFound request.revision request.locator)
  let _ ← copyTree source request.staging

/-- The backend for mirrors. -/
def backend : Backend where
  name := "mirror"
  handles := handles
  fetch := fetch

end PinnedTree.Mirror
