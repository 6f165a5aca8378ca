import PinnedTree.Cancellation
import PinnedTree.Disk.Calls
import PinnedTree.Report

/-!
The world in which a run acts: a disk with the steps that have changed it, the locks that are held,
the cancellation token, and what has been made known about the run's progress.
-/

namespace PinnedTree

/-- What a backend is asked for: the content of a pin at a revision, to be put into an empty
directory; the checkout of an earlier revision may help. -/
structure FetchRequest where
  id : String
  locator : String
  revision : String
  staging : Location
  previous : Option Location
deriving DecidableEq, Repr

inductive Event
  | began (total : Nat)
  | started (id : String)
  | requested (backend : String) (request : FetchRequest)
  | finished (report : EntryReport)
deriving DecidableEq, Repr

/-- The state that actions read and change; the lists of steps and events hold the latest first. -/
structure World where
  disk : Disk
  steps : List Step := []
  locks : List DiskPath := []
  token : CancelToken := {}
  events : List Event := []
  clock : String := ""

namespace World

/-- The world after one more step; a lock goes with the file that is removed or replaced. -/
def perform (w : World) (step : Step) : World :=
  { w with
    disk := step.apply w.disk
    steps := step :: w.steps
    locks := match step with
      | .unlink path => w.locks.filter (· ≠ path)
      | .rename source target => (w.locks.filter fun p => !target.isPrefixOf p).map
          (Disk.moved source target)
      | _ => w.locks }

def announce (w : World) (event : Event) : World := { w with events := event :: w.events }

def history (w : World) : List Step := w.steps.reverse

end World

/-- A computation that acts on the world and may fail. What it did before it failed stays done. -/
abbrev Action (ε : Type) := ExceptT ε (StateM World)

namespace Action

variable {ε ε' α : Type}

def query (f : Disk → Except ε α) : Action ε α := do
  match f (← get).disk with
  | .ok a => return a
  | .error e => throw e

def observe (f : Disk → α) : Action ε α := do return f (← get).disk

def perform (steps : List Step) : Action ε Unit :=
  modify fun w => steps.foldl World.perform w

def change (f : Disk → Except ε (List Step)) : Action ε Unit := do perform (← query f)

def changeOnce (f : Disk → Except ε Step) : Action ε Unit := do perform [← query f]

def reporting (f : ε → ε') (action : Action ε α) : Action ε' α := ExceptT.adapt f action

def ignoringFailure (action : Action ε Unit) : Action ε' Unit := do
  match ← (action.run : StateM World _) with
  | .ok _ | .error _ => return ()

def outcome (action : Action ε α) : Action ε' (Except ε α) := (action.run : StateM World _)

def isCancelled : Action ε Bool := do
  let seen := (← get).token.isTripped
  modify fun w => { w with token := w.token.afterPoll }
  return seen

/-- Makes something known. -/
def announce (event : Event) : Action ε Unit := modify fun w => w.announce event

end Action

end PinnedTree
