import PinnedTree.Backend.Standard
import PinnedTree.CommandLine.Arguments
import PinnedTree.CommandLine.Display
import PinnedTree.CommandLine.Help
import PinnedTree.Config
import PinnedTree.Sync
import PinnedTree.Text.Blank

namespace PinnedTree

/-- The filter for ids that are given as lists with commas; without any id there is none. -/
def IdFilter.ofLists? (values : List String) : Option IdFilter :=
  let ids := ((values.flatMap (Text.split ',')).map Text.trim).filter (!·.isEmpty)
  if ids.isEmpty then none else some (.ofList ids)

namespace CommandLine

/-- What the program leaves behind when it ends: its exit code and what it has printed. -/
structure Result where
  code : Nat
  output : String := ""
  errors : String := ""
deriving DecidableEq, Repr

structure Checkout where
  root : Location
  config : Config
  tablePath : Location
  table : PinTable

namespace Checkout

def load (d : Disk) (invocation : Invocation) : Except Failure Checkout := do
  let root := Location.ofText invocation.root
  let config ← (Config.load d root).mapError fun e => Failure.ofCause (.config e)
  let tablePath := match invocation.table with
    | some path => Location.ofText path
    | none => config.tablePath d root
  let table ← (PinTable.load d tablePath).mapError fun e =>
    .inContext ("loading dependency table " ++ tablePath.text) (.ofCause (.config e))
  return ⟨root, config, tablePath, table⟩

end Checkout

def defaultParallelism : Nat := 1

def optionsFor (checkout : Checkout) (dryRun : Bool) (parallelism : Option Nat)
    (only : List String) : SyncOptions where
  parallelism := (parallelism.or checkout.config.parallelism).getD defaultParallelism
  dryRun := dryRun
  filter := IdFilter.ofLists? only
  adoptUnmanaged := checkout.config.adoptUnmanaged

def failed (terminal : Terminal) (output : String) (failure : Failure) : Result where
  code := failure.exitCode
  output := output
  errors := Display.failure terminal failure

/-- The lines about the pins that have been handled, from the events of a run, latest first. -/
def entryLines (terminal : Terminal) (events : List Event) : String :=
  String.join <| events.reverse.filterMap fun
    | .finished entry => some (Display.entryLine terminal entry)
    | _ => none

def runSync (terminal : Terminal) (checkout : Checkout) (options : SyncOptions) :
    StateM World Result := do
  let before := (← get).events.length
  let result ← (sync checkout.root checkout.table options Backend.standard fun _ => pure ()).run
  let events := (← get).events
  let output := (if options.dryRun then Display.dryRunLine terminal else "")
    ++ entryLines terminal (events.take (events.length - before))
  match result with
  | .error e => return failed terminal output (.ofCause (.sync e))
  | .ok report =>
    return {
      code := if report.isSuccess then exitSuccess else exitFailure
      output := output ++ Display.summaryLines terminal report }

def runStatus (terminal : Terminal) (checkout : Checkout) (only : List String) :
    StateM World Result := do
  let options := { optionsFor checkout true none only with parallelism := 1 }
  match ← (sync checkout.root checkout.table options Backend.standard fun _ => pure ()).run with
  | .error e => return failed terminal "" (.ofCause (.sync e))
  | .ok report =>
    return {
      code := exitSuccess
      output := Display.status terminal checkout.tablePath.text report }

def runPrune (terminal : Terminal) (checkout : Checkout) (dryRun : Bool) :
    StateM World Result := do
  match ← (prune checkout.root checkout.table dryRun).run with
  | .error e => return failed terminal "" (.ofCause (.sync e))
  | .ok report => return { code := exitSuccess, output := Display.pruned terminal report }

def runCommand (terminal : Terminal) (checkout : Checkout) : Command → StateM World Result
  | .sync dryRun parallelism only =>
    runSync terminal checkout (optionsFor checkout dryRun parallelism only)
  | .status only => runStatus terminal checkout only
  | .list => return {
      code := exitSuccess
      output := Display.pins terminal Backend.standard checkout.tablePath.text checkout.table }
  | .prune dryRun => runPrune terminal checkout dryRun
  | .completion shell => return { code := exitSuccess, output := completionScript shell }

def exitUsage : Nat := 2

def stopped : Stop → Result
  | .usage => { code := exitUsage, errors := usage }
  | .help => { code := exitSuccess, output := help }
  | .version name => { code := exitSuccess, output := name ++ " " ++ versionNumber ++ "\n" }

def runInvocation (terminal : Terminal) (invocation : Invocation) : StateM World Result := do
  match invocation.command with
  | .completion shell => return { code := exitSuccess, output := completionScript shell }
  | command =>
    match Checkout.load (← get).disk invocation with
    | .error e => return failed terminal "" e
    | .ok checkout => runCommand terminal checkout command

/-- Runs the program with some arguments. -/
def run (terminal : Terminal) (arguments : List String) : StateM World Result :=
  match Invocation.parse arguments with
  | .error stop => return stopped stop
  | .ok invocation => runInvocation terminal invocation

end CommandLine

end PinnedTree
