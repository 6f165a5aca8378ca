import PinnedTree.Disk.Basic

namespace PinnedTree

inductive Step
  | makeDir (path : DiskPath)
  | create (path : DiskPath) (mode : Nat)
  | write (path : DiskPath) (content : ByteArray)
  | setMode (path : DiskPath) (mode : Nat)
  | makeLink (path : DiskPath) (target : String)
  | unlink (path : DiskPath)
  | removeDir (path : DiskPath)
  | rename (source target : DiskPath)
deriving DecidableEq

namespace Step

/-- The disk after a step. Creating a file that is there already empties it and keeps its mode. -/
def apply (d : Disk) : Step → Disk
  | .makeDir path => d.put path .dir
  | .create path mode =>
    match d.look path with
    | some (.file _ old) => d.put path (.file .empty old)
    | _ => d.put path (.file .empty mode)
  | .write path content =>
    match d.look path with
    | some (.file _ mode) => d.put path (.file content mode)
    | _ => d
  | .setMode path mode =>
    match d.look path with
    | some (.file content _) => d.put path (.file content mode)
    | _ => d
  | .makeLink path target => d.put path (.link target)
  | .unlink path => d.erase path
  | .removeDir path => d.erase path
  | .rename source target => d.move source target

def applyAll (d : Disk) (steps : List Step) : Disk := steps.foldl apply d

/-- The paths at and below which a step changes what stands there. -/
def touched : Step → List DiskPath
  | .makeDir path | .create path _ | .write path _ | .setMode path _ | .makeLink path _
  | .unlink path | .removeDir path => [path]
  | .rename source target => [source, target]

end Step

end PinnedTree
