import PinnedTree.Files
import PinnedTree.Git.Snapshot

namespace PinnedTree.Git.Checkout

/-- Removes the directories of a list that hold nothing, inner ones first, up to one that does. -/
def removeEmpty : List Location → Action IoFault Unit
  | [] => return ()
  | l :: above => do
    match ← Action.observe (·.resolve false l) with
    | .ok (.taken path .dir) =>
      if ← Action.observe (·.isEmptyDir path) then
        Action.perform [.removeDir path]
        removeEmpty above
    | _ => return ()

/-- The directories between the root of a checkout and a file in it, inner ones first. -/
def between (root : Location) (path : List String) : List Location :=
  ((List.range path.length).drop 1).reverse.map fun n => root.below (path.take n)

def removeOld (root : Location) (path : List String) : Action IoFault Unit := do
  let place := root.below path
  match ← Action.observe (·.linkStat place) with
  | .ok (.file _ _) | .ok (.link _) =>
    Files.removeFile place
    removeEmpty (between root path)
  | _ => return ()

def clear (place : Location) : Action IoFault Unit := do
  match ← Action.observe (·.linkStat place) with
  | .ok .dir => Files.removeAll place
  | .ok _ => Files.removeFile place
  | .error _ => return ()

/-- Removes the files and links that stand where directories are wanted, outer ones first. -/
def clearWay : List Location → Action IoFault Unit
  | [] => return ()
  | place :: inner => do
    match ← Action.observe (·.linkStat place) with
    | .ok .dir => clearWay inner
    | .ok _ => Files.removeFile place
    | .error _ => return ()

def putFile (root : Location) (file : SnapshotFile) : Action IoFault Unit := do
  let place := root.below file.path
  clearWay (between root file.path).reverse
  Files.makeParents place
  if file.mode = "160000" then Files.makeDirs place
  else
    clear place
    if file.mode = SnapshotFile.linkMode then
      Action.changeOnce (·.makeLink (Text.ofUtf8Lossy file.content.toList) place)
    else
      let mode := if file.mode = SnapshotFile.executableMode then 0o755 else Files.plainMode
      Action.change (·.writeFile place file.content mode)

/-- Brings a directory from the files of the last checkout to the wanted ones. -/
def apply (root : Location) (old wanted : List SnapshotFile) : Action IoFault Unit := do
  let kept := wanted.map (·.path)
  (old.filter fun file => !kept.contains file.path).forM fun file => removeOld root file.path
  wanted.forM (putFile root)

end PinnedTree.Git.Checkout
