import PinnedTree.Toml.Basic

namespace PinnedTree.Toml

mutual

def isSettled : Toml → Bool
  | .array _ items => areSettled items
  | .table _ members => membersSettled members
  | other => other.isHeld

def areSettled : List Toml → Bool
  | [] => true
  | item :: rest => item.isSettled && areSettled rest

def membersSettled : List (String × Toml) → Bool
  | [] => true
  | (_, member) :: rest => member.isSettled && membersSettled rest

end

/-- The fields of a record, which of them have to be given in a table and which in an array, and
what each of them may hold. Other keys are refused or passed over. -/
structure RecordForm where
  name : String
  fields : List String
  neededInTable : List String
  neededInArray : List String
  refusesOthers : Bool
  check : String → Toml → Except TomlError Unit

namespace RecordForm

def expected (form : RecordForm) : String := "struct " ++ form.name

def expectedLength (form : RecordForm) : String :=
  form.expected ++ " with " ++ toString form.fields.length
    ++ (if form.fields.length = 1 then " element" else " elements")

def checkMembers (form : RecordForm) : List (String × Toml) → Except TomlError Unit
  | [] => .ok ()
  | (key, member) :: rest => do
    if key ∈ form.fields then form.check key member
    else if form.refusesOthers then throw (.unknownField key form.fields)
    else if !member.isSettled then throw .grammar
    checkMembers form rest

def ofMembers (form : RecordForm) (members : List (String × Toml)) :
    Except TomlError (List (String × Toml)) := do
  form.checkMembers members
  match form.neededInTable.find? fun name => (members.lookup name).isNone with
  | some name => throw (.missingField name)
  | none => return members.filter (·.1 ∈ form.fields)

def ofItems (form : RecordForm) : Nat → List String → List Toml →
    Except TomlError (List (String × Toml))
  | _, [], _ => .ok []
  | length, name :: names, [] =>
    if name ∈ form.neededInArray then .error (.invalidLength length form.expectedLength)
    else ofItems form (length + 1) names []
  | length, name :: names, item :: items => do
    form.check name item
    return (name, item) :: (← ofItems form (length + 1) names items)

def ofToml (form : RecordForm) : Toml → Except TomlError (List (String × Toml))
  | .table _ members => form.ofMembers members
  | .array _ items => form.ofItems 0 form.fields items
  | other => .error (other.mismatch form.expected)

end RecordForm

def asString (value : Toml) (expected : String) : Except TomlError String :=
  match value with
  | .string text => .ok text
  | other => .error (other.mismatch expected)

def asBool (value : Toml) : Except TomlError Bool :=
  match value with
  | .bool found => .ok found
  | other => .error (other.mismatch "a boolean")

/-- A size of at most 64 bits. -/
def asSize (value : Toml) : Except TomlError Nat :=
  match value with
  | .integer found =>
    if 0 ≤ found ∧ found < bound64 then .ok found.toNat
    else if least64 ≤ found ∧ found < 0 then
      .error (.invalidValue (Toml.integer found).found "usize")
    else .error (mismatch (.integer found) "usize")
  | other => .error (other.mismatch "usize")

end PinnedTree.Toml
