import PinnedTree.Json.Reader
import PinnedTree.Table.Datum
import PinnedTree.Toml.Reader
import PinnedTree.Toml.Record

namespace PinnedTree

inductive TableFormat
  | toml
  | json
deriving DecidableEq, Repr

inductive TableError
  | json (cause : JsonError)
  | toml (cause : TomlError)
  | keyMismatch (key id : String)
deriving DecidableEq, Repr

def pinsName : String := "RawDeps"

def pinsField : String := "deps"

mutual

def Json.datum : Json → Datum
  | .null => .absent
  | .string value => .text value
  | .array found => .list (Json.datums found)
  | .object found => .fields (Json.memberDatums found)
  | .bool _ | .number _ => .other

def Json.datums : List Json → List Datum
  | [] => []
  | item :: rest => item.datum :: Json.datums rest

def Json.memberDatums : List (String × Json) → List (String × Datum)
  | [] => []
  | (key, member) :: rest => (key, member.datum) :: Json.memberDatums rest

end

mutual

def Toml.datum : Toml → Except TomlError Datum
  | .string value => .ok (.text value)
  | .integer value =>
    if Toml.least64 ≤ value ∧ value < Toml.bound64 then .ok .other
    else .error (Toml.mismatch (.integer value) "any value")
  | .float value =>
    if (Toml.float value).isHeld then .ok .other else .error .grammar
  | .bool _ | .datetime => .ok .other
  | .array _ found => return .list (← Toml.datums found)
  | .table _ found => return .fields (← Toml.memberDatums found)

def Toml.datums : List Toml → Except TomlError (List Datum)
  | [] => .ok []
  | item :: rest => return (← item.datum) :: (← Toml.datums rest)

def Toml.memberDatums : List (String × Toml) → Except TomlError (List (String × Datum))
  | [] => .ok []
  | (key, member) :: rest => return (key, ← member.datum) :: (← Toml.memberDatums rest)

end

namespace PinTable

def hasForm (datum : Datum) : Bool :=
  match ofDatum datum with
  | .error .noForm => false
  | _ => true

def ofFormed (datum : Datum) : Except TableError PinTable :=
  match ofDatum datum with
  | .ok table => .ok table
  | .error .noForm => .ok {}
  | .error (.keyMismatch key id) => .error (.keyMismatch key id)

def readPins (text : List Char) : Except JsonError (Datum × List Char) := do
  let (value, rest) ← Json.Read.readValue .keep (Json.Read.maxDepth - 1) text
  if hasForm value.datum then return (value.datum, rest) else throw (.noVariant pinsName)

def jsonForm : Json.Read.RecordForm Datum where
  name := "RawTable"
  fields := [pinsField]
  read := readPins

def ofJson (content : String) : Except TableError PinTable :=
  match jsonForm.parse content.toList with
  | .error cause => .error (.json cause)
  | .ok found => ofFormed ((found.lookup pinsField).getD .absent)

def tomlForm : Toml.RecordForm where
  name := "RawTable"
  fields := [pinsField]
  neededInTable := [pinsField]
  neededInArray := [pinsField]
  refusesOthers := false
  check _ value := do
    if hasForm (← value.datum) then return () else throw (.noVariant pinsName)

def tomlPins (content : String) : Except TomlError Datum := do
  let fields ← tomlForm.ofMembers (← Toml.Read.document content)
  match fields.lookup pinsField with
  | some value => value.datum
  | none => throw (.missingField pinsField)

def ofToml (content : String) : Except TableError PinTable :=
  match tomlPins content with
  | .error cause => .error (.toml cause)
  | .ok datum => ofFormed datum

/-- The table in a document of either format. -/
def parse (format : TableFormat) (content : String) : Except TableError PinTable :=
  match format with
  | .toml => ofToml content
  | .json => ofJson content

end PinTable

end PinnedTree
