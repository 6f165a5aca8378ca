import PinnedTree.Decimal.Shortest
import PinnedTree.Text.Quoted

namespace PinnedTree

/-- How a table came to be, which says what a later line may add to it. -/
inductive TableOrigin
  | inline
  | header
  | passedByHeader
  | dottedKey
deriving DecidableEq, Repr

inductive TomlFloat
  | decimal (value : Decimal)
  | infinite (negative : Bool)
  | notANumber
deriving DecidableEq, Repr

/-- A TOML value. An open array is one that headers add tables to. -/
inductive Toml
  | string (value : String)
  | integer (value : Int)
  | float (value : TomlFloat)
  | bool (value : Bool)
  | datetime
  | array (isOpen : Bool) (items : List Toml)
  | table (origin : TableOrigin) (members : List (String × Toml))
deriving Repr

inductive TomlError
  | grammar
  | missingField (name : String)
  | unknownField (name : String) (known : List String)
  | invalidType (found : String) (expected : String)
  | invalidValue (found : String) (expected : String)
  | invalidLength (length : Nat) (expected : String)
  | noVariant (name : String)
deriving DecidableEq, Repr

def TomlError.listed (known : List String) : String :=
  match known with
  | [] => "there are no fields"
  | [one] => "expected `" ++ one ++ "`"
  | [one, two] => "expected `" ++ one ++ "` or `" ++ two ++ "`"
  | many => "expected one of " ++ ", ".intercalate (many.map fun name => "`" ++ name ++ "`")

def TomlError.message : TomlError → String
  | .grammar => "TOML: syntax"
  | .missingField name => "TOML: missing field `" ++ name ++ "`"
  | .unknownField name known => "TOML: unknown field `" ++ name ++ "`, " ++ listed known
  | .invalidType found expected => "TOML: invalid type: " ++ found ++ ", expected " ++ expected
  | .invalidValue found expected => "TOML: invalid value: " ++ found ++ ", expected " ++ expected
  | .invalidLength length expected =>
    "TOML: invalid length " ++ toString length ++ ", expected " ++ expected
  | .noVariant name => "TOML: data did not match any variant of untagged enum " ++ name

namespace Toml

def least64 : Int := -0x8000000000000000

def bound64 : Int := 0x10000000000000000

def bound127 : Int := 0x80000000000000000000000000000000

def bound128 : Int := 0x100000000000000000000000000000000

def found : Toml → String
  | .string value => "string " ++ Text.quoted value
  | .integer value =>
    let plain := "integer `" ++ toString value ++ "`"
    if least64 ≤ value ∧ value < bound64 then plain
    else if value < bound127 then plain ++ " as i128"
    else plain ++ " as u128"
  | .float (.decimal value) => "floating point `" ++ value.positional ++ "`"
  | .float (.infinite negative) =>
    "floating point `" ++ (if negative then "-inf.0" else "inf.0") ++ "`"
  | .float .notANumber => "floating point `NaN.0`"
  | .bool value => "boolean `" ++ toString value ++ "`"
  | .datetime => "map"
  | .array _ _ => "sequence"
  | .table _ _ => "map"

/-- Whether a number can be handed on at all: whole ones need 128 bits at most, and others must not
round to something infinite. -/
def isHeld : Toml → Bool
  | .integer value => -bound127 ≤ value && value < bound128
  | .float (.decimal value) => value.nearest?.isSome
  | _ => true

/-- The error for a value that stands where something else was expected. -/
def mismatch (value : Toml) (expected : String) : TomlError :=
  if value.isHeld then .invalidType value.found expected else .grammar

end Toml

end PinnedTree
