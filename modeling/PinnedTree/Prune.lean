import PinnedTree.Plan
import PinnedTree.RunState

/-!
Removing checkouts whose ids have left the table. Only what earlier runs have recorded is ever
removed, and only while the marker there still names the same id.
-/

namespace PinnedTree

/-- What happens to the record and the checkout of an id that has left the table. -/
inductive PruneAction
  | removed
  | wouldRemove
  | forgotten
  | kept
deriving DecidableEq, Repr

/-- The line of a report about one id that has left the table. -/
structure PrunedEntry where
  id : String
  destination : Destination
  action : PruneAction
deriving DecidableEq

/-- What a run has done about the ids that have left the table. -/
structure PruneReport where
  dryRun : Bool
  entries : List PrunedEntry
deriving DecidableEq

def PruneReport.removed (report : PruneReport) : Nat :=
  report.entries.countP fun entry => entry.action = .removed || entry.action = .wouldRemove

namespace Prune

/-- A recorded id that the table does not list, and the destination that its record names, if it
names one. -/
structure Candidate where
  id : String
  destination : Option Destination
deriving DecidableEq

def Candidate.depth (candidate : Candidate) : Nat :=
  match candidate.destination with
  | some destination => destination.names.length
  | none => 0

def live (table : PinTable) : List Destination :=
  table.pins.filterMap fun pin => (PlacedPin.destinationOf pin.id pin.destination).toOption

def candidates (state : RunState) (table : PinTable) : List Candidate :=
  ((state.records.filter fun record => !table.contains record.1).map fun record =>
    ⟨record.1, (PlacedPin.destinationOf record.1 record.2.path).toOption⟩).mergeSort
      fun a b => b.depth ≤ a.depth

def inUse (table : PinTable) (destination : Destination) : Bool :=
  (live table).any (·.within destination)

def owns (d : Disk) (l : Location) (id : String) : Bool :=
  match Inspection.ofPlace d l with
  | .ok (.marked marker) => marker.id = id
  | _ => false

def remove (root : Location) (dryRun : Bool) (id : String) (destination : Destination) :
    Action SyncError PruneAction := do
  let l := destination.place root
  if !(← Action.observe (owns · l id)) then return .forgotten
  if dryRun then return .wouldRemove
  Action.reporting (SyncError.state l.text) (Files.removeAll l)
  return .removed

/-- Handles candidates one after another; tells what was done and what is still to be recorded. -/
def handle (root : Location) (table : PinTable) (dryRun : Bool) (state : RunState) :
    List Candidate → Action SyncError (List PrunedEntry × RunState)
  | [] => return ([], state)
  | ⟨id, none⟩ :: rest => handle root table dryRun (state.erase id) rest
  | ⟨id, some destination⟩ :: rest => do
    let action ← if inUse table destination then pure .kept
      else remove root dryRun id destination
    let left := if action = .kept then state else state.erase id
    let (entries, final) ← handle root table dryRun left rest
    return (⟨id, destination, action⟩ :: entries, final)

def run (root : Location) (table : PinTable) (dryRun : Bool) : Action SyncError PruneReport := do
  let state ← Action.query (RunState.load · root)
  let (entries, left) ← handle root table dryRun state (candidates state table)
  if !dryRun then left.save root
  return ⟨dryRun, entries⟩

end Prune

/-- Removes the checkouts of ids that have left the table, or tells which ones it would remove. -/
def prune (root : Location) (table : PinTable) (dryRun : Bool) : Action SyncError PruneReport :=
  if dryRun then Prune.run root table true
  else Layout.whileLocked root (Prune.run root table false)

end PinnedTree
