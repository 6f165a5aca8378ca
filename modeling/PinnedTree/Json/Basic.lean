import PinnedTree.Decimal.Shortest
import PinnedTree.Text.Quoted

namespace PinnedTree

/-- A number as it was written: a whole one that fits 64 bits, or a decimal. -/
inductive JsonNumber
  | whole (value : Int)
  | decimal (value : Decimal)
deriving DecidableEq, Repr

/-- A JSON value; the members of an object keep their order, and repeated keys stay. -/
inductive Json
  | null
  | bool (value : Bool)
  | number (value : JsonNumber)
  | string (value : String)
  | array (items : List Json)
  | object (members : List (String × Json))
deriving Repr

inductive Unexpected
  | null
  | bool (value : Bool)
  | number (value : JsonNumber)
  | string (value : String)
  | sequence
  | map
deriving DecidableEq, Repr

inductive JsonError
  | eofInList
  | eofInObject
  | eofInString
  | eofInValue
  | expectedColon
  | expectedListEnd
  | expectedObjectEnd
  | expectedIdent
  | expectedValue
  | invalidEscape
  | invalidNumber
  | numberOutOfRange
  | controlCharacter
  | keyNotString
  | loneSurrogate
  | trailingComma
  | trailingCharacters
  | unexpectedHexEnd
  | recursionLimit
  | invalidType (found : Unexpected) (expected : String)
  | invalidLength (length : Nat) (expected : String)
  | missingField (name : String)
  | duplicateField (name : String)
  | noVariant (name : String)
deriving DecidableEq, Repr

def Unexpected.text : Unexpected → String
  | .null => "null"
  | .bool value => "boolean `" ++ toString value ++ "`"
  | .number (.whole value) => "integer `" ++ toString value ++ "`"
  | .number (.decimal value) => "floating point `" ++ value.scientific ++ "`"
  | .string value => "string " ++ Text.quoted value
  | .sequence => "sequence"
  | .map => "map"

/-- The text an error is reported with. -/
def JsonError.message : JsonError → String
  | .eofInList => "EOF while parsing a list"
  | .eofInObject => "EOF while parsing an object"
  | .eofInString => "EOF while parsing a string"
  | .eofInValue => "EOF while parsing a value"
  | .expectedColon => "expected `:`"
  | .expectedListEnd => "expected `,` or `]`"
  | .expectedObjectEnd => "expected `,` or `\x7d`"
  | .expectedIdent => "expected ident"
  | .expectedValue => "expected value"
  | .invalidEscape => "invalid escape"
  | .invalidNumber => "invalid number"
  | .numberOutOfRange => "number out of range"
  | .controlCharacter => "control character (\\u0000-\\u001F) found while parsing a string"
  | .keyNotString => "key must be a string"
  | .loneSurrogate => "lone leading surrogate in hex escape"
  | .trailingComma => "trailing comma"
  | .trailingCharacters => "trailing characters"
  | .unexpectedHexEnd => "unexpected end of hex escape"
  | .recursionLimit => "recursion limit exceeded"
  | .invalidType found expected => "invalid type: " ++ found.text ++ ", expected " ++ expected
  | .invalidLength length expected =>
    "invalid length " ++ toString length ++ ", expected " ++ expected
  | .missingField name => "missing field `" ++ name ++ "`"
  | .duplicateField name => "duplicate field `" ++ name ++ "`"
  | .noVariant name => "data did not match any variant of untagged enum " ++ name

end PinnedTree
