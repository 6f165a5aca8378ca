import PinnedTree.Error
import PinnedTree.Table.Documents
import PinnedTree.World

namespace PinnedTree

structure Config where
  table : Option String := none
  parallelism : Option Nat := none
  adoptUnmanaged : Bool := false
deriving DecidableEq, Repr

namespace Config

def file : String := "depsync.toml"

def defaultTable : String := "DEPS.toml"

def otherTable : String := "DEPS.json"

def checkSetting (name : String) (value : Toml) : Except TomlError Unit :=
  if name = "table" then do let _ ← value.asString "path string"
  else if name = "parallelism" then do let _ ← value.asSize
  else do let _ ← value.asBool

def sectionForm : Toml.RecordForm where
  name := "SyncSection"
  fields := ["table", "parallelism", "adopt_unmanaged"]
  neededInTable := []
  neededInArray := ["table", "parallelism"]
  refusesOthers := true
  check := checkSetting

def ofToml (value : Toml) : Except TomlError Config := do
  let fields ← sectionForm.ofToml value
  return {
    table := match fields.lookup "table" with
      | some (.string path) => some path
      | _ => none
    parallelism := match fields.lookup "parallelism" with
      | some (.integer n) => some n.toNat
      | _ => none
    adoptUnmanaged := match fields.lookup "adopt_unmanaged" with
      | some (.bool adopt) => adopt
      | _ => false }

def form : Toml.RecordForm where
  name := "ProjectConfig"
  fields := ["sync"]
  neededInTable := []
  neededInArray := []
  refusesOthers := true
  check _ value := do let _ ← ofToml value

def parse (text : String) : Except TomlError Config := do
  let fields ← form.ofMembers (← Toml.Read.document text)
  match fields.lookup "sync" with
  | some value => ofToml value
  | none => return {}

def load (d : Disk) (root : Location) : Except ConfigError Config :=
  let l := root / file
  if !d.leadsSomewhere l then .ok {}
  else match d.readText l with
    | .error fault => .error (.read l.text fault)
    | .ok text =>
      match parse text with
      | .error cause => .error (.parse l.text cause.message)
      | .ok config =>
        if config.parallelism = some 0 then .error .invalidParallelism else .ok config

def tablePath (config : Config) (d : Disk) (root : Location) : Location :=
  match config.table with
  | some table => root.join table
  | none =>
    if !d.leadsSomewhere (root / defaultTable) && d.leadsSomewhere (root / otherTable) then
      root / otherTable
    else root / defaultTable

end Config

namespace PinTable

def documentError (path : String) : TableError → ConfigError
  | .json cause => .parse path cause.message
  | .toml cause => .parse path cause.message
  | .keyMismatch key id => .keyMismatch key id

def ofText (format : TableFormat) (content path : String) : Except ConfigError PinTable :=
  (parse format content).mapError (documentError path)

/-- The table in a file, in the format that its extension names. -/
def load (d : Disk) (l : Location) : Except ConfigError PinTable :=
  match d.readText l with
  | .error fault => .error (.read l.text fault)
  | .ok content =>
    match l.extension? with
    | some "toml" => ofText .toml content l.text
    | some "json" => ofText .json content l.text
    | _ => .error (.unsupportedFormat l.text)

end PinTable

end PinnedTree
