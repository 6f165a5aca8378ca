import PinnedTree.Prune
import PinnedTree.Report
import PinnedTree.Terminal.TextTable

namespace PinnedTree

namespace Outcome

def style : Outcome → Terminal.Style
  | .alreadyCurrent => .dim
  | .fetchedNew | .updated _ => .green
  | .wouldFetch | .wouldUpdate _ => .yellow
  | .failed _ => .boldRed

def shown (outcome : Outcome) (terminal : Terminal) : String :=
  terminal.paint outcome.style outcome.text

def sign (outcome : Outcome) (terminal : Terminal) : String :=
  match outcome with
  | .alreadyCurrent => terminal.paint .dim "="
  | .fetchedNew | .updated _ => terminal.paint .green "✓"
  | .wouldFetch | .wouldUpdate _ => terminal.paint .yellow "~"
  | .failed _ => terminal.paint .red "x"

end Outcome

namespace Display

def done (terminal : Terminal) : String := terminal.paint .green "✓"

def note (terminal : Terminal) : String := terminal.paint .blue "ℹ"

def entryLine (terminal : Terminal) (entry : EntryReport) : String :=
  entry.outcome.sign terminal ++ " " ++ terminal.paint .bold entry.id ++ " "
    ++ terminal.paint .dim entry.destination ++ " " ++ entry.outcome.shown terminal ++ "\n"

def part (terminal : Terminal) (style : Terminal.Style) (count : Nat) (kind : String) :
    List String :=
  if count = 0 then [] else [terminal.paint style (toString count ++ " " ++ kind)]

def parts (terminal : Terminal) (summary : Summary) : List String :=
  part terminal .green summary.fetched "fetched"
    ++ part terminal .green summary.updated "updated"
    ++ part terminal .yellow summary.pending "pending"
    ++ part terminal .dim summary.current "current"
    ++ part terminal .boldRed summary.failed "failed"

def failureLine (terminal : Terminal) (entry : EntryReport) : String :=
  "   " ++ terminal.paint .red entry.id ++ " " ++ entry.outcome.text ++ "\n"

def summaryLines (terminal : Terminal) (report : SyncReport) : String :=
  let summary := report.summary
  let sign := if report.isSuccess then done terminal else terminal.paint .red "x"
  let counts := match parts terminal summary with
    | [] => [terminal.paint .dim "nothing to do"]
    | counts => counts
  sign ++ " " ++ ", ".intercalate counts ++ "\n"
    ++ String.join (report.failures.map (failureLine terminal))
    ++ (if summary.cancelled = 0 then ""
      else "   " ++ toString summary.cancelled ++ " entries were cancelled; run "
        ++ terminal.paint .boldCyan "depsync sync" ++ " again to finish.\n")

def noEntries (terminal : Terminal) (path : String) : String :=
  note terminal ++ " No entries in " ++ path ++ ".\n"

def dryRunLine (terminal : Terminal) : String :=
  note terminal ++ " Dry run, nothing will be written.\n"

def statusTable (terminal : Terminal) (report : SyncReport) : TextTable :=
  .ofRows ["Id", "Path", "Revision", "Backend", "Status"] <| report.entries.map fun entry =>
    [terminal.paint .bold entry.id, entry.destination, entry.revision, entry.backend,
      entry.outcome.shown terminal]

def status (terminal : Terminal) (path : String) (report : SyncReport) : String :=
  let table := statusTable terminal report
  (if table.isEmpty then noEntries terminal path else table.render terminal)
    ++ summaryLines terminal report

def backendCell (terminal : Terminal) (backends : List Backend) (locator : String) : String :=
  match Backend.resolve? backends locator with
  | some backend => terminal.paint .cyan backend.name
  | none => terminal.paint .red "none"

def pinsTable (terminal : Terminal) (backends : List Backend) (table : PinTable) : TextTable :=
  .ofRows ["Id", "Revision", "Path", "Locator", "Backend"] <| table.pins.map fun pin =>
    [terminal.paint .bold pin.id, pin.revision, pin.destination, pin.locator,
      backendCell terminal backends pin.locator]

def pins (terminal : Terminal) (backends : List Backend) (path : String) (table : PinTable) :
    String :=
  let shown := pinsTable terminal backends table
  if shown.isEmpty then noEntries terminal path
  else shown.render terminal ++ "   " ++ toString table.pins.length ++ " entries from "
    ++ terminal.paint .dim path ++ ", backends tried in order: "
    ++ ", ".intercalate (backends.map (·.name)) ++ "\n"

def pruneSign (terminal : Terminal) : PruneAction → String
  | .removed => terminal.paint .red "-"
  | .wouldRemove => terminal.paint .yellow "~"
  | .forgotten => terminal.paint .dim "·"
  | .kept => terminal.paint .dim "="

def pruneLabel (terminal : Terminal) : PruneAction → String
  | .removed => terminal.paint .red "removed"
  | .wouldRemove => terminal.paint .yellow "would remove"
  | .forgotten => terminal.paint .dim "forgotten (not ours on disk)"
  | .kept => terminal.paint .dim "kept (path still in use)"

def pruneLine (terminal : Terminal) (entry : PrunedEntry) : String :=
  pruneSign terminal entry.action ++ " " ++ terminal.paint .bold entry.id ++ " "
    ++ terminal.paint .dim entry.destination.text ++ " " ++ pruneLabel terminal entry.action
    ++ "\n"

def pruned (terminal : Terminal) (report : PruneReport) : String :=
  if report.entries.isEmpty then done terminal ++ " Nothing to prune.\n"
  else String.join (report.entries.map (pruneLine terminal)) ++ done terminal ++ " "
    ++ toString report.removed ++ " "
    ++ (if report.dryRun then "would be removed" else "removed") ++ "\n"

/-- The line about an error that ends the program. -/
def failure (terminal : Terminal) (failure : Failure) : String :=
  terminal.paint .boldRed "error:" ++ " " ++ failure.text ++ "\n"

end Display

end PinnedTree
