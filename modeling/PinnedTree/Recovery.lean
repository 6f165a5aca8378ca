import PinnedTree.Transaction

/-!
Clearing up after a run that was cut off: content that was moved aside and has nothing in its place
goes back, and all else that was on its way is dropped.
-/

namespace PinnedTree.Recovery

structure Journal where
  id : String
  destination : String
deriving DecidableEq, Repr

def journalForm : Json.Read.RecordForm String where
  name := "Journal"
  fields := ["id", "destination"]
  read := Json.Read.readString "a string"

def readJournal (d : Disk) (l : Location) : Option Journal :=
  match d.readText l with
  | .error _ => none
  | .ok text =>
    match journalForm.parse text.toList with
    | .error _ => none
    | .ok found =>
      some ⟨(found.lookup "id").getD "", (found.lookup "destination").getD ""⟩

def putBack (backup : Location) (journal : Journal) : Action IoFault Bool := do
  let destination := Location.ofText journal.destination
  if (← Action.observe (·.leadsSomewhere backup))
      && !(← Action.observe (·.holdsSomething destination)) then
    Files.makeParents destination
    Files.rename backup destination
    return true
  else return false

/-- Follows the journals among some names and removes them; counts the contents put back. -/
def followJournals (directory : Location) : List String → Action IoFault Nat
  | [] => return 0
  | name :: rest => do
    match Path.stemAndExtension name with
    | (stem, some "json") =>
      let l := directory / name
      let restored ← match ← Action.observe (readJournal · l) with
        | some journal => putBack (directory / stem) journal
        | none => pure false
      Files.removeFile l
      return (← followJournals directory rest) + (if restored then 1 else 0)
    | _ => followJournals directory rest

def removeDirs (directory : Location) : List String → Action IoFault Unit
  | [] => return ()
  | name :: rest => do
    if ← Action.observe (·.leadsToDir (directory / name)) then Files.removeAll (directory / name)
    removeDirs directory rest

def removeEverything (directory : Location) : List String → Action IoFault Unit
  | [] => return ()
  | name :: rest => do
    if ← Action.observe (·.leadsToDir (directory / name)) then Files.removeAll (directory / name)
    else Files.removeFile (directory / name)
    removeEverything directory rest

/-- Clears up under a root; counts the destinations that got their content back. -/
def recover (root : Location) : Action IoFault Nat := do
  let backup := Layout.backup root
  let restored ←
    if ← Action.observe (·.leadsToDir backup) then
      let restored ← followJournals backup (← Action.query (·.list backup))
      removeDirs backup (← Action.query (·.list backup))
      pure restored
    else pure 0
  let staging := Layout.staging root
  if ← Action.observe (·.leadsToDir staging) then
    removeEverything staging (← Action.query (·.list staging))
  return restored

end PinnedTree.Recovery
