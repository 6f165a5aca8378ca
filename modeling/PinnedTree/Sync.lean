import PinnedTree.Plan
import PinnedTree.Recovery

/-!
A run: the whole table is checked and planned before anything on disk changes, then the groups of
the plan are handled independently of each other. A pin that fails keeps its old content and does
not stop the others.
-/

namespace PinnedTree

abbrev Observer := Event → StateM World Unit

/-- How a run is to be made. The schedule says in which order the pins of a plan come to be
handled. -/
structure SyncOptions where
  parallelism : Nat := 1
  dryRun : Bool := false
  filter : Option IdFilter := none
  adoptUnmanaged : Bool := false
  schedule : List (List Nat) → List Nat := List.flatten

namespace Sync

def tell {ε : Type} (observer : Observer) (event : Event) : Action ε Unit := do
  Action.announce event
  (observer event : StateM World Unit)

def entryReport (planned : PlannedPin) (outcome : Outcome) : EntryReport where
  id := planned.pin.id
  destination := planned.destination.text
  revision := planned.pin.revision
  backend := planned.backend.name
  outcome := outcome

def foreseen : PlannedAction → Outcome
  | .current => .alreadyCurrent
  | .fetch => .wouldFetch
  | .update old => .wouldUpdate old

def foresee (observer : Observer) : List PlannedPin → Action SyncError (List EntryReport)
  | [] => return []
  | planned :: rest => do
    let report := entryReport planned (foreseen planned.action)
    tell observer (.finished report)
    return report :: (← foresee observer rest)

def conflictError (planned : PlannedPin) : Conflict → FetchError
  | .pathReused owner => .pathReused planned.destination.text owner
  | .unmanaged => .unmanaged planned.destination.text

def reconsider (d : Disk) (root : Location) (adopt : Bool) (planned : PlannedPin) :
    Except FetchError PlannedAction := do
  let found ← (Inspection.ofOuter d (planned.destination.place root) planned.nested).mapError
    fun e => .marker e.message
  (decideAction planned.pin.id planned.pin.revision found adopt).mapError (conflictError planned)

def jobOf (root : Location) (planned : PlannedPin) : Transaction.Job where
  pin := planned.pin
  backend := planned.backend
  destination := planned.destination.place root
  nested := planned.nested

def execute (root : Location) (adopt : Bool) (planned : PlannedPin) :
    Action FetchError Outcome := do
  Backend.poll
  match ← Action.query (reconsider · root adopt planned) with
  | .current => return .alreadyCurrent
  | .fetch =>
    Transaction.materialize root (jobOf root planned)
    return .fetchedNew
  | .update old =>
    Transaction.materialize root (jobOf root planned)
    return .updated old

def failure (e : FetchError) : Outcome :=
  .failed (if e.isCancelled then .cancelled else .fetch e.message)

def runPin (root : Location) (adopt : Bool) (observer : Observer) (planned : PlannedPin) :
    Action SyncError EntryReport := do
  tell observer (.started planned.pin.id)
  let outcome ← match ← Action.outcome (execute root adopt planned) with
    | .ok outcome => pure outcome
    | .error e => pure (failure e)
  let report := entryReport planned outcome
  tell observer (.finished report)
  return report

def runPins (plan : Plan) (adopt : Bool) (observer : Observer) :
    List Nat → Action SyncError (List EntryReport)
  | [] => return []
  | i :: rest =>
    match plan.pins[i]? with
    | none => runPins plan adopt observer rest
    | some planned => do
      let report ← runPin plan.root adopt observer planned
      return report :: (← runPins plan adopt observer rest)

def recorded (table : PinTable) (report : SyncReport) (state : RunState) : RunState :=
  (report.entries.filter (!·.outcome.isFailure)).foldl (fun state entry =>
    match table.get? entry.id with
    | some pin => state.insert pin.id ⟨entry.destination, pin.revision, pin.locator⟩
    | none => state) state

def record (root : Location) (table : PinTable) (report : SyncReport) :
    Action SyncError Unit := do
  let state ← Action.query (RunState.load · root)
  (recorded table report state).save root

def carryOut (plan : Plan) (table : PinTable) (options : SyncOptions) (observer : Observer) :
    Action SyncError SyncReport :=
  Layout.whileLocked plan.root do
    let _ ← Action.reporting (SyncError.state (Layout.directory plan.root).text)
      (Recovery.recover plan.root)
    tell observer (.began plan.pins.length)
    let entries ← runPins plan options.adoptUnmanaged observer (options.schedule plan.groups)
    let report := SyncReport.ofEntries false entries
    record plan.root table report
    return report

end Sync

/-- Brings the tree under a root in line with a table. -/
def sync (root : Location) (table : PinTable) (options : SyncOptions) (backends : List Backend)
    (observer : Observer) : Action SyncError SyncReport := do
  if options.parallelism = 0 then throw (.config .invalidParallelism)
  let plan ← Action.reporting SyncError.config <| Action.query
    (Plan.build · root table backends options.filter options.adoptUnmanaged)
  if options.dryRun then
    Sync.tell observer (.began plan.pins.length)
    return SyncReport.ofEntries true (← Sync.foresee observer plan.pins)
  else Sync.carryOut plan table options observer

end PinnedTree
