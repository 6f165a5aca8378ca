namespace PinnedTree

inductive FailureReason
  | cancelled
  | fetch (message : String)
deriving DecidableEq, Repr

def FailureReason.text : FailureReason → String
  | .cancelled => "cancelled"
  | .fetch message => message

/-- What happened, or would happen, to one pin; an update names the revision it replaces, if one is
known. -/
inductive Outcome
  | alreadyCurrent
  | fetchedNew
  | updated (old : Option String)
  | wouldFetch
  | wouldUpdate (old : Option String)
  | failed (reason : FailureReason)
deriving DecidableEq, Repr

namespace Outcome

def label : Outcome → String
  | .alreadyCurrent => "already-current"
  | .fetchedNew => "fetched-new"
  | .updated _ => "updated"
  | .wouldFetch => "would-fetch"
  | .wouldUpdate _ => "would-update"
  | .failed _ => "failed"

def isFailure : Outcome → Bool
  | .failed _ => true
  | _ => false

def text : Outcome → String
  | .updated (some old) => "updated (was " ++ old ++ ")"
  | .wouldUpdate (some old) => "would-update (was " ++ old ++ ")"
  | .failed reason => "failed(" ++ reason.text ++ ")"
  | other => other.label

end Outcome

structure EntryReport where
  id : String
  destination : String
  revision : String
  backend : String
  outcome : Outcome
deriving DecidableEq, Repr

/-- How many pins came to each kind of outcome; cancelled ones are failed, too. -/
structure Summary where
  current : Nat
  fetched : Nat
  updated : Nat
  pending : Nat
  failed : Nat
  cancelled : Nat
deriving DecidableEq, Repr

/-- The report of a run, its lines in the order of their ids. -/
structure SyncReport where
  dryRun : Bool
  entries : List EntryReport
deriving DecidableEq, Repr

namespace SyncReport

/-- The report of some lines, which are sorted by id; lines of one id keep their order. -/
def ofEntries (dryRun : Bool) (entries : List EntryReport) : SyncReport where
  dryRun := dryRun
  entries := entries.mergeSort fun a b => a.id ≤ b.id

def isSuccess (report : SyncReport) : Bool := !report.entries.any (·.outcome.isFailure)

def get? (report : SyncReport) (id : String) : Option EntryReport :=
  report.entries.find? (·.id = id)

def outcome? (report : SyncReport) (id : String) : Option Outcome :=
  (report.get? id).map (·.outcome)

def failures (report : SyncReport) : List EntryReport :=
  report.entries.filter (·.outcome.isFailure)

def count (report : SyncReport) (kind : Outcome → Bool) : Nat :=
  report.entries.countP fun entry => kind entry.outcome

/-- The counts of all kinds of outcome. -/
def summary (report : SyncReport) : Summary where
  current := report.count (· = .alreadyCurrent)
  fetched := report.count (· = .fetchedNew)
  updated := report.count fun | .updated _ => true | _ => false
  pending := report.count fun | .wouldFetch | .wouldUpdate _ => true | _ => false
  failed := report.count (·.isFailure)
  cancelled := report.count (· = .failed .cancelled)

end SyncReport

end PinnedTree
