import PinnedTree.Error
import PinnedTree.Destination
import PinnedTree.Files
import PinnedTree.Text.Keyed
import PinnedTree.Toml.Reader
import PinnedTree.Toml.Record
import PinnedTree.Toml.Writer

namespace PinnedTree

namespace Layout

def directory (root : Location) : Location := root / stateDirectory

def staging (root : Location) : Location := directory root / "staging"

def backup (root : Location) : Location := directory root / "backup"

def stateFile (root : Location) : Location := directory root / "state.toml"

def lockFile (root : Location) : Location := directory root / "lock"

def makeDir (l : Location) : Action SyncError Unit :=
  Action.reporting (SyncError.state l.text) (Files.makeDirs l)

def ensure (root : Location) : Action SyncError Unit := do
  makeDir (staging root)
  makeDir (backup root)

def lock (root : Location) : Action SyncError Unit := do
  ensure root
  let l := lockFile root
  Action.reporting (SyncError.state l.text) do
    match ← Action.observe (·.stat l) with
    | .ok (.file _ mode) => if !mayWrite mode then throw (.errno .permissionDenied)
    | _ => Action.changeOnce (·.openToWrite l Files.plainMode)
  if ← Action.reporting (SyncError.state l.text) (Files.isLocked l) then throw (.locked l.text)
  Action.reporting (SyncError.state l.text) (Files.hold l)

def unlock (root : Location) : Action SyncError Unit := Files.release (lockFile root)

def whileLocked {α : Type} (root : Location) (body : Action SyncError α) : Action SyncError α := do
  lock root
  let result : Except SyncError α ← Action.outcome body
  unlock root
  match result with
  | .ok value => return value
  | .error e => throw e

end Layout

structure StateRecord where
  path : String
  revision : String
  locator : String
deriving DecidableEq, Repr

/-- What earlier runs have put in place, in the order of the ids. -/
structure RunState where
  records : List (String × StateRecord) := []
  ordered : Text.InOrder records := by exact .nil

namespace RunState

def get? (state : RunState) (id : String) : Option StateRecord := state.records.lookup id

def insert (state : RunState) (id : String) (record : StateRecord) : RunState :=
  ⟨Text.insertKeyed id record state.records, state.ordered.insertKeyed⟩

def erase (state : RunState) (id : String) : RunState :=
  ⟨state.records.filter (·.1 ≠ id), state.ordered.filter _⟩

def recordsField : String := "entry"

def block (entry : String × StateRecord) : List Char :=
  ('[' :: recordsField.toList) ++ '.' :: Toml.Write.key entry.1 ++ ']' :: '\n' ::
    Toml.Write.line "path" entry.2.path ++ Toml.Write.line "revision" entry.2.revision
    ++ Toml.Write.line "locator" entry.2.locator

/-- The text of a state file: a block for each record, with an empty line between two of them. -/
def text (state : RunState) : String :=
  String.ofList <|
    match state.records with
    | [] => ('[' :: recordsField.toList) ++ [']', '\n']
    | records => Text.joined '\n' (records.map block)

def recordForm : Toml.RecordForm where
  name := "StateEntry"
  fields := ["path", "revision", "locator"]
  neededInTable := ["path", "revision", "locator"]
  neededInArray := ["path", "revision", "locator"]
  refusesOthers := false
  check _ value := do let _ ← value.asString "a string"

def fieldText (fields : List (String × Toml)) (name : String) : String :=
  match fields.lookup name with
  | some (.string value) => value
  | _ => ""

def recordOf (value : Toml) : Except TomlError StateRecord := do
  let fields ← recordForm.ofToml value
  return ⟨fieldText fields "path", fieldText fields "revision", fieldText fields "locator"⟩

def ofMembers : List (String × Toml) → Except TomlError RunState
  | [] => .ok {}
  | (id, value) :: rest => do
    let record ← recordOf value
    return (← ofMembers rest).insert id record

def ofToml : Toml → Except TomlError RunState
  | .table _ members => ofMembers members
  | other => .error (other.mismatch "a map")

def form : Toml.RecordForm where
  name := "RunState"
  fields := [recordsField]
  neededInTable := []
  neededInArray := []
  refusesOthers := false
  check _ value := do let _ ← ofToml value

def parse (text : String) : Except TomlError RunState := do
  let fields ← form.ofMembers (← Toml.Read.document text)
  match fields.lookup recordsField with
  | some value => ofToml value
  | none => return {}

def load (d : Disk) (root : Location) : Except SyncError RunState :=
  let l := Layout.stateFile root
  if !d.leadsSomewhere l then .ok {}
  else match d.readText l with
    | .error fault => .error (.state l.text fault)
    | .ok text =>
      match parse text with
      | .error cause => .error (.stateFile l.text cause.message)
      | .ok state => .ok state

/-- Writes the state under a root. -/
def save (state : RunState) (root : Location) : Action SyncError Unit := do
  Layout.ensure root
  let l := Layout.stateFile root
  Action.reporting (SyncError.state l.text) (Files.writeText l state.text)

end RunState

end PinnedTree
