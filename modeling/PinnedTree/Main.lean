import PinnedTree.CommandLine.Run
import PinnedTree.Text.Moment
import Std.Time.DateTime.Timestamp

namespace PinnedTree.Main

def maxDepth : Nat := 256

def pathText (path : DiskPath) : String := "/" ++ Text.join '/' path

def namesOf (text : String) : DiskPath := (Text.split '/' text).filter (· ≠ "")

def listing (path : DiskPath) : IO (List (String × IO.FS.FileType)) := do
  let place ← IO.FS.realPath (pathText path)
  (← place.readDir).toList.mapM fun entry => do
    return (entry.fileName, (← entry.path.symlinkMetadata).type)

def readBelow : Nat → Disk → DiskPath → IO Disk
  | 0, _, path => throw (IO.userError (pathText path ++ ": too many levels of directories"))
  | depth + 1, disk, path => do
    (← listing path).foldlM (fun disk (name, type) => do
      let inner := path ++ [name]
      match type with
      | .dir => readBelow depth (disk.put inner .dir) inner
      | .file =>
        return disk.put inner (.file (← IO.FS.readBinFile (pathText inner)) Files.plainMode)
      | .symlink => return disk.put inner (.link (← IO.FS.realPath (pathText inner)).toString)
      | .other => return disk) disk

def readPlace (disk : Disk) (text : String) : IO Disk := do
  let path := namesOf (← IO.FS.realPath text).toString
  if disk.look path = some .dir then return disk
  try
    let way := (List.range path.length).map fun n => path.take (n + 1)
    readBelow maxDepth (way.foldl (fun disk above => disk.put above .dir) disk) path
  catch _ => return disk

def localPaths (table : PinTable) : List String :=
  table.pins.filterMap fun pin =>
    (Text.cutFirst? ':' pin.locator).bind fun (_, rest) => Text.dropStart? rest "//"

def readTree (arguments : List String) : IO Disk := do
  let home := namesOf (← IO.currentDir).toString
  let disk ← readBelow maxDepth (Disk.empty home) home
  match CommandLine.Invocation.parse arguments with
  | .error _ => return disk
  | .ok invocation =>
    let disk ← (invocation.root :: invocation.table.toList).foldlM readPlace disk
    match CommandLine.Checkout.load disk invocation with
    | .error _ => return disk
    | .ok checkout => (localPaths checkout.table).foldlM readPlace disk

def rights (mode : Nat) : IO.FileRight :=
  let right (n : Nat) : IO.AccessRight := ⟨n &&& 4 ≠ 0, n &&& 2 ≠ 0, n &&& 1 ≠ 0⟩
  ⟨right (mode / 64 % 8), right (mode / 8 % 8), right (mode % 8)⟩

/-- Takes a step on the disk itself; the first argument says how the disk was before. -/
def take (before : Disk) : Step → IO Unit
  | .makeDir path => IO.FS.createDir (pathText path)
  | .create path mode => do
    IO.FS.writeBinFile (pathText path) .empty
    if (before.look path).isNone then IO.setAccessRights (pathText path) (rights mode)
  | .write path content => IO.FS.writeBinFile (pathText path) content
  | .setMode path mode => IO.setAccessRights (pathText path) (rights mode)
  | .makeLink path _ => throw (IO.userError (pathText path ++ ": cannot make a link"))
  | .unlink path => IO.FS.removeFile (pathText path)
  | .removeDir path => IO.FS.removeDir (pathText path)
  | .rename source target => IO.FS.rename (pathText source) (pathText target)

def takeAll (disk : Disk) : List Step → IO Unit
  | [] => return ()
  | step :: rest => do
    take disk step
    takeAll (step.apply disk) rest

/-- Holds the lock that an invocation needs while the program runs, or finds that another one has
it. -/
def lock (disk : Disk) (arguments : List String) :
    IO (List IO.FS.Handle × List DiskPath) := do
  match CommandLine.Invocation.parse arguments with
  | .error _ => return ([], [])
  | .ok invocation =>
    match disk.resolve true (Layout.lockFile (.ofText invocation.root)) with
    | .ok (.taken path (.file _ _)) =>
      let handle ← IO.FS.Handle.mk (pathText path) .append
      return if ← handle.tryLock then ([handle], []) else ([], [path])
    | _ => return ([], [])

def terminal : IO Terminal := do
  let plain := (← IO.getEnv "NO_COLOR").isSome
  return { styled := (← (← IO.getStdout).isTty) && !plain }

def now : IO Moment := do
  let time := (← Std.Time.Timestamp.now).val
  return ⟨time.second.val.toNat, time.nano.val.toNat⟩

def run (arguments : List String) : IO UInt32 := do
  let disk ← readTree arguments
  let (held, ofOthers) ← lock disk arguments
  let world : World := { disk := disk, locks := ofOthers, clock := (← now).text }
  let (result, after) := CommandLine.run (← terminal) arguments world
  takeAll disk after.history
  held.forM fun handle => handle.unlock
  IO.print result.output
  IO.eprint result.errors
  return result.code.toUInt32

end PinnedTree.Main

/-- Runs the program. -/
def main (arguments : List String) : IO UInt32 := PinnedTree.Main.run arguments
