import PinnedTree.Backend
import PinnedTree.Files

namespace PinnedTree.CopyTree

/-- The objects of a tree, each with the names that lead to it, outer ones first. A link at the root
counts as such, and what it leads to is walked all the same. -/
def entries (d : Disk) (source : Location) : Except IoFault (List (List String × Node)) :=
  match d.linkStat source with
  | .error fault => .error (.walking source.text fault)
  | .ok root =>
    match d.resolve true source with
    | .ok (.taken path .dir) =>
      .ok (([], root) :: ((d.inside path).mergeSort fun a b => a.1.length ≤ b.1.length).map
        fun entry => (entry.1.drop path.length, entry.2))
    | _ => .ok [([], root)]

def copyFile (source target : Location) (mode : Nat) : Action IoFault Unit := do
  let content ← Action.query (·.readBytes source)
  Action.changeOnce (·.openToWrite target mode)
  Action.changeOnce (·.setMode target mode)
  Action.changeOnce (·.fill target content)

def copyLink (source target : Location) : Action IoFault Unit := do
  match ← Action.query (·.linkStat source) with
  | .link text => Action.changeOnce (·.makeLink text target)
  | _ => throw (.errno .invalidArgument)

def copyNode (source target : Location) : Node → Action IoFault Unit
  | .dir => Files.makeDirs target
  | .link _ => copyLink source target
  | .file _ mode => copyFile source target mode

def enter (source : Location) : Node → Action FetchError Unit
  | .dir => do
    match ← Action.observe (·.list source) with
    | .ok _ => return ()
    | .error fault =>
      Backend.poll
      throw (.io (.walking source.text fault))
  | _ => return ()

def copyEntries (source target : Location) : List (List String × Node) → Action FetchError Nat
  | [] => return 0
  | (names, node) :: rest => do
    Backend.poll
    Action.reporting .io (copyNode (source.below names) (target.below names) node)
    enter (source.below names) node
    let files ← copyEntries source target rest
    return match node with
      | .file _ _ => files + 1
      | _ => files

end CopyTree

/-- Copies a tree and counts its files. -/
def copyTree (source target : Location) : Action FetchError Nat := do
  let found ← Action.reporting .io (Action.query (CopyTree.entries · source))
  CopyTree.copyEntries source target found

end PinnedTree
