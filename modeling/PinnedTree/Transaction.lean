import PinnedTree.Backend
import PinnedTree.Digest.Sha256
import PinnedTree.Marker
import PinnedTree.Pin
import PinnedTree.RunState

/-!
Bringing the content of one pin into place. It is put together beside the tree and then swapped in
by renames. Each step of the swap says how to undo it; if a later one fails they are undone, latest
first. A journal beside the old content lets the next run put it back if this one is cut off.
-/

namespace PinnedTree.Transaction

def isSlotChar (c : Char) : Bool :=
  ('0' ≤ c && c ≤ '9') || ('a' ≤ c && c ≤ 'z') || ('A' ≤ c && c ≤ 'Z')

/-- The name under which the content of an id is kept while it is on its way: the beginning of the
id for a reader, and of its digest to tell ids apart. -/
def slotName (id : String) : String :=
  String.ofList ((id.toList.take 48).map fun c => if isSlotChar c then c else '_')
    ++ "-" ++ String.ofList ((Digest.Sha256.hex id.toUTF8).toList.take 12)

def journalName (slot : String) : String := slot ++ ".json"

structure Job where
  pin : Pin
  backend : Backend
  destination : Location
  nested : List (List String)

inductive Undo
  | rename (source target : Location)
  | removeFile (l : Location)
deriving DecidableEq, Repr

/-- What a swap that fails leaves to be undone, latest first. -/
structure Broken where
  fault : IoFault
  undo : List Undo
deriving DecidableEq, Repr

def step (undo : List Undo) (action : Action IoFault Unit) : Action Broken Unit :=
  Action.reporting (fun fault => ⟨fault, undo⟩) action

def journalText (id : String) (destination : Location) : String :=
  String.ofList (Json.Write.compact [("id", id), ("destination", destination.text)])

def moveAside (job : Job) (backup journal : Location) : Action Broken (List Undo) := do
  if ← Action.observe (·.leadsSomewhere backup) then step [] (Files.removeAll backup)
  step [] (Files.writeText journal (journalText job.pin.id job.destination))
  let undo := [Undo.removeFile journal]
  step undo (Files.rename job.destination backup)
  return .rename backup job.destination :: undo

/-- Carries nested checkouts from the old content over into the new, except where the new content
has something itself. -/
def carryOver (backup destination : Location) (undo : List Undo) :
    List (List String) → Action Broken (List Undo)
  | [] => return undo
  | names :: rest => do
    let old := backup.below names
    let new := destination.below names
    if !(← Action.observe (·.holdsSomething old)) || (← Action.observe (·.holdsSomething new)) then
      carryOver backup destination undo rest
    else
      step undo (Files.makeParents new)
      step undo (Files.rename old new)
      carryOver backup destination (.rename new old :: undo) rest

def swap (job : Job) (staging backup journal : Location) : Action Broken Unit := do
  step [] (Files.makeParents job.destination)
  let replaced ← Action.observe (·.holdsSomething job.destination)
  let undo ← if replaced then moveAside job backup journal else pure []
  step undo (Files.rename staging job.destination)
  if replaced then
    let _ ← carryOver backup job.destination (.rename job.destination staging :: undo) job.nested
  return ()

def rollBack : List Undo → Action FetchError Unit
  | [] => return ()
  | .rename source target :: rest => do
    Action.ignoringFailure (Files.rename source target)
    rollBack rest
  | .removeFile l :: rest => do
    Action.ignoringFailure (Files.removeFile l)
    rollBack rest

def discard (l : Location) : Action FetchError Unit := do
  if ← Action.observe (·.leadsSomewhere l) then Action.ignoringFailure (Files.removeAll l)

def markerOf (job : Job) (now : String) : Marker where
  id := job.pin.id
  revision := job.pin.revision
  locator := job.pin.locator
  backend := job.backend.name
  syncedAt := now

def request (d : Disk) (job : Job) (staging : Location) : FetchRequest where
  id := job.pin.id
  locator := job.pin.locator
  revision := job.pin.revision
  staging := staging
  previous := if d.leadsToDir job.destination then some job.destination else none

def prepare (staging : Location) : Action IoFault Unit := do
  if ← Action.observe (·.leadsSomewhere staging) then Files.removeAll staging
  Files.makeDirs staging

def stage (job : Job) (staging : Location) : Action FetchError Unit := do
  let asked ← Action.observe (request · job staging)
  Action.announce (.requested job.backend.name asked)
  job.backend.fetch asked
  Backend.poll
  let marker := markerOf job (← get).clock
  Action.reporting (fun e => FetchError.marker e.message) (marker.write staging)

def swapIn (root : Location) (job : Job) (slot : String) (staging : Location) :
    Action FetchError Unit := do
  let backup := Layout.backup root / slot
  let journal := Layout.backup root / journalName slot
  match ← Action.outcome (swap job staging backup journal) with
  | .ok _ =>
    discard backup
    Action.ignoringFailure (Files.removeFile journal)
  | .error broken =>
    rollBack broken.undo
    throw (.io broken.fault)

/-- Brings the content of a pin into place, or leaves the destination as it was. -/
def materialize (root : Location) (job : Job) : Action FetchError Unit := do
  let slot := slotName job.pin.id
  let staging := Layout.staging root / slot
  Action.reporting .io (prepare staging)
  let result : Except FetchError Unit ← Action.outcome do
    stage job staging
    swapIn root job slot staging
  discard staging
  match result with
  | .ok _ => return ()
  | .error e => throw e

end PinnedTree.Transaction
