import PinnedTree.Json.Basic
import PinnedTree.Text.Hex

namespace PinnedTree.Json.Read

inductive Manner
  | keep
  | skip
deriving DecidableEq, Repr

def isBlank (c : Char) : Bool := c = ' ' || c = '\n' || c = '\t' || c = '\r'

def skipBlank (text : List Char) : List Char := text.dropWhile isBlank

def hexUnit? (a b c d : Char) : Option Nat := do
  let high := (← Text.hexDigit? a) * 16 + (← Text.hexDigit? b)
  return (high * 16 + (← Text.hexDigit? c)) * 16 + (← Text.hexDigit? d)

def escaped? (c : Char) : Option Char :=
  if c = '"' || c = '\\' || c = '/' then some c
  else if c = 'b' then some '\x08'
  else if c = 'f' then some '\x0c'
  else if c = 'n' then some '\n'
  else if c = 'r' then some '\r'
  else if c = 't' then some '\t'
  else none

def isLeading (unit : Nat) : Bool := 0xD800 ≤ unit && unit ≤ 0xDBFF

def isTrailing (unit : Nat) : Bool := 0xDC00 ≤ unit && unit ≤ 0xDFFF

def paired (leading trailing : Nat) : Char :=
  Char.ofNat ((leading - 0xD800) * 0x400 + (trailing - 0xDC00) + 0x10000)

def shortEscape (rest : List Char) : JsonError :=
  if 4 ≤ (String.ofList rest).utf8ByteSize then .invalidEscape else .eofInString

def push (c : Char) : Except JsonError (List Char × List Char) →
    Except JsonError (List Char × List Char)
  | .ok (letters, rest) => .ok (c :: letters, rest)
  | .error e => .error e

def letters (manner : Manner) : List Char → Except JsonError (List Char × List Char)
  | [] => .error .eofInString
  | c :: rest =>
    if c = '"' then .ok ([], rest)
    else if c = '\\' then
      match rest with
      | [] => .error .eofInString
      | e :: rest =>
        if e = 'u' then
          match rest with
          | h₁ :: h₂ :: h₃ :: h₄ :: rest =>
            match hexUnit? h₁ h₂ h₃ h₄ with
            | none => .error .invalidEscape
            | some unit =>
              if manner = .skip then letters manner rest
              else if isTrailing unit then .error .loneSurrogate
              else if isLeading unit then
                match rest with
                | [] => .error .eofInString
                | slash :: rest =>
                  if slash = '\\' then
                    match rest with
                    | [] => .error .eofInString
                    | u :: rest =>
                      if u = 'u' then
                        match rest with
                        | l₁ :: l₂ :: l₃ :: l₄ :: rest =>
                          match hexUnit? l₁ l₂ l₃ l₄ with
                          | none => .error .invalidEscape
                          | some low =>
                            if isTrailing low then push (paired unit low) (letters manner rest)
                            else .error .loneSurrogate
                        | short => .error (shortEscape short)
                      else .error .unexpectedHexEnd
                  else .error .unexpectedHexEnd
              else push (Char.ofNat unit) (letters manner rest)
          | short => .error (shortEscape short)
        else
          match escaped? e with
          | some meant => push meant (letters manner rest)
          | none => .error .invalidEscape
    else if c.toNat < 0x20 then .error .controlCharacter
    else push c (letters manner rest)

def string (manner : Manner) (text : List Char) : Except JsonError (String × List Char) :=
  match letters manner text with
  | .ok (cs, rest) => .ok (String.ofList cs, rest)
  | .error e => .error e

def word : List Char → List Char → Except JsonError (List Char)
  | [], text => .ok text
  | _ :: _, [] => .error .eofInValue
  | w :: ws, c :: text => if c = w then word ws text else .error .expectedIdent

def digitsValue (digits : List Char) : Nat :=
  digits.foldl (fun n c => n * 10 + (c.toNat - '0'.toNat)) 0

def noDigit (manner : Manner) (rest : List Char) : JsonError :=
  if manner = .keep && rest.isEmpty then .eofInValue else .invalidNumber

def wholeDigits (manner : Manner) : List Char → Except JsonError (List Char × List Char)
  | [] => .error (noDigit manner [])
  | c :: rest =>
    if c = '0' then
      match rest with
      | d :: _ => if d.isDigit then .error .invalidNumber else .ok (['0'], rest)
      | [] => .ok (['0'], rest)
    else if c.isDigit then .ok (c :: rest.takeWhile Char.isDigit, rest.dropWhile Char.isDigit)
    else .error .invalidNumber

def someDigits (manner : Manner) (text : List Char) : Except JsonError (List Char × List Char) :=
  let digits := text.takeWhile Char.isDigit
  let rest := text.dropWhile Char.isDigit
  if digits.isEmpty then .error (noDigit manner rest) else .ok (digits, rest)

def fraction (manner : Manner) : List Char → Except JsonError (Option (List Char) × List Char)
  | '.' :: rest => do
    let (digits, rest) ← someDigits manner rest
    return (some digits, rest)
  | text => .ok (none, text)

def exponent (manner : Manner) : List Char → Except JsonError (Option Int × List Char)
  | c :: rest => do
    if c = 'e' || c = 'E' then
      let (negative, rest) := match rest with
        | '-' :: rest => (true, rest)
        | '+' :: rest => (false, rest)
        | rest => (false, rest)
      let (digits, rest) ← someDigits manner rest
      let size : Int := digitsValue digits
      return (some (if negative then -size else size), rest)
    else return (none, c :: rest)
  | [] => .ok (none, [])

/-- A number; whole ones that do not fit 64 bits, and zero with a sign, are decimals. -/
def number (manner : Manner) (text : List Char) : Except JsonError (JsonNumber × List Char) := do
  let (negative, text) := match text with
    | '-' :: rest => (true, rest)
    | text => (false, text)
  let (whole, text) ← wholeDigits manner text
  let (part, text) ← fraction manner text
  let (power, text) ← exponent manner text
  let size := digitsValue whole
  if part.isNone && power.isNone then
    if !negative && size < 0x10000000000000000 then return (.whole size, text)
    if negative && 0 < size && size ≤ 0x8000000000000000 then return (.whole (-size), text)
  let behind := part.getD []
  let digits := digitsValue (whole ++ behind)
  let scale := power.getD 0 - behind.length
  let found : Decimal := ⟨negative, digits, scale⟩
  if manner = .keep && found.nearest?.isNone then throw .numberOutOfRange
  return (.decimal found, text)

/-- The values that begin with a letter, a digit or a quote; the text starts with the first letter
of the value. -/
def scalar (manner : Manner) : List Char → Except JsonError (Json × List Char)
  | [] => .error .eofInValue
  | c :: rest =>
    if c = 'n' then do return (.null, ← word "ull".toList rest)
    else if c = 't' then do return (.bool true, ← word "rue".toList rest)
    else if c = 'f' then do return (.bool false, ← word "alse".toList rest)
    else if c = '-' || c.isDigit then do
      let (value, rest) ← number manner (c :: rest)
      return (.number value, rest)
    else if c = '"' then do
      let (value, rest) ← string manner rest
      return (.string value, rest)
    else .error .expectedValue

/-- What follows the white space in front of the next key, after its quote; nothing if the object
ends. -/
def nextKey (manner : Manner) (first : Bool) (text : List Char) :
    Except JsonError (Bool × List Char) :=
  match skipBlank text with
  | [] => .error .eofInObject
  | c :: rest =>
    if c = '}' then .ok (false, rest)
    else if first then if c = '"' then .ok (true, rest) else .error .keyNotString
    else if c = ',' then
      match skipBlank rest with
      | [] => .error (if manner = .keep then .eofInValue else .eofInObject)
      | d :: rest =>
        if d = '"' then .ok (true, rest)
        else if d = '}' && manner = .keep then .error .trailingComma
        else .error .keyNotString
    else .error .expectedObjectEnd

def colon (text : List Char) : Except JsonError (List Char) :=
  match skipBlank text with
  | [] => .error .eofInObject
  | c :: rest => if c = ':' then .ok rest else .error .expectedColon

def nextItem (manner : Manner) (first : Bool) (text : List Char) :
    Except JsonError (Bool × List Char) :=
  match skipBlank text with
  | [] => .error .eofInList
  | c :: rest =>
    if c = ']' then .ok (false, rest)
    else if first then .ok (true, c :: rest)
    else if c = ',' then
      match skipBlank rest with
      | [] => .error .eofInValue
      | d :: rest =>
        if d = ']' then .error (if manner = .keep then .trailingComma else .expectedValue)
        else .ok (true, d :: rest)
    else .error .expectedListEnd

def inner (manner : Manner) (depth : Nat) : Except JsonError Nat :=
  match manner with
  | .skip => .ok depth
  | .keep => if depth ≤ 1 then .error .recursionLimit else .ok (depth - 1)

mutual

def value (manner : Manner) : Nat → Nat → List Char → Except JsonError (Json × List Char)
  | 0, _, _ => .error .eofInValue
  | fuel + 1, depth, text =>
    match skipBlank text with
    | [] => .error .eofInValue
    | c :: rest =>
      if c = '[' then do
        let depth ← inner manner depth
        let (found, rest) ← items manner fuel depth true rest
        return (.array found, rest)
      else if c = '{' then do
        let depth ← inner manner depth
        let (found, rest) ← members manner fuel depth true rest
        return (.object found, rest)
      else scalar manner (c :: rest)

def items (manner : Manner) : Nat → Nat → Bool → List Char →
    Except JsonError (List Json × List Char)
  | 0, _, _, _ => .error .eofInList
  | fuel + 1, depth, first, text => do
    let (more, text) ← nextItem manner first text
    if more then
      let (item, text) ← value manner fuel depth text
      let (rest, text) ← items manner fuel depth false text
      return (item :: rest, text)
    else return ([], text)

def members (manner : Manner) : Nat → Nat → Bool → List Char →
    Except JsonError (List (String × Json) × List Char)
  | 0, _, _, _ => .error .eofInObject
  | fuel + 1, depth, first, text => do
    let (more, text) ← nextKey manner first text
    if more then
      let (key, text) ← string manner text
      let text ← colon text
      let (member, text) ← value manner fuel depth text
      let (rest, text) ← members manner fuel depth false text
      return ((key, member) :: rest, text)
    else return ([], text)

end

def enough (text : List Char) : Nat := 2 * text.length + 4

def maxDepth : Nat := 128

def readValue (manner : Manner) (depth : Nat) (text : List Char) :
    Except JsonError (Json × List Char) :=
  value manner (enough text) depth text

/-- What stands in place of something else, for a report; its own faults come first. -/
def unexpected (expected : String) (text : List Char) : JsonError :=
  match skipBlank text with
  | [] => .eofInValue
  | c :: rest =>
    if c = '[' then .invalidType .sequence expected
    else if c = '{' then .invalidType .map expected
    else match scalar .keep (c :: rest) with
      | .error e => e
      | .ok (.null, _) => .invalidType .null expected
      | .ok (.bool value, _) => .invalidType (.bool value) expected
      | .ok (.number value, _) => .invalidType (.number value) expected
      | .ok (.string value, _) => .invalidType (.string value) expected
      | .ok (_, _) => .expectedValue

def readString (expected : String) (text : List Char) : Except JsonError (String × List Char) :=
  match skipBlank text with
  | '"' :: rest => string .keep rest
  | _ => .error (unexpected expected text)

/-- A record that a text may give as an object or as a list of its fields in order. -/
structure RecordForm (α : Type) where
  name : String
  fields : List String
  read : List Char → Except JsonError (α × List Char)

namespace RecordForm

variable {α : Type} (form : RecordForm α)

def expected : String := "struct " ++ form.name

def expectedLength : String :=
  form.expected ++ " with " ++ toString form.fields.length
    ++ (if form.fields.length = 1 then " element" else " elements")

/-- Reads the members of an object; each field may come once, and other members are passed over. -/
def members : Nat → Bool → List (String × α) → List Char →
    Except JsonError (List (String × α) × List Char)
  | 0, _, _, _ => .error .eofInObject
  | fuel + 1, first, found, text => do
    let (more, text) ← nextKey .keep first text
    if more then
      let (key, text) ← string .keep text
      if key ∈ form.fields then
        if (found.lookup key).isSome then throw (.duplicateField key)
        let text ← colon text
        let (field, text) ← form.read text
        members fuel false (found ++ [(key, field)]) text
      else
        let text ← colon text
        let (_, text) ← readValue .skip maxDepth text
        members fuel false found text
    else
      match form.fields.find? fun name => (found.lookup name).isNone with
      | some name => throw (.missingField name)
      | none => return (found, text)

def items : List String → Nat → Bool → List (String × α) → List Char →
    Except JsonError (List (String × α) × List Char)
  | [], _, _, found, text =>
    match skipBlank text with
    | [] => .error .eofInList
    | c :: rest =>
      if c = ']' then .ok (found, rest)
      else if c = ',' then
        match skipBlank rest with
        | ']' :: _ => .error .trailingComma
        | _ => .error .trailingCharacters
      else .error .trailingCharacters
  | name :: names, length, first, found, text => do
    let (more, text) ← nextItem .keep first text
    if more then
      let (field, text) ← form.read text
      items names (length + 1) false (found ++ [(name, field)]) text
    else throw (.invalidLength length form.expectedLength)

/-- Reads a whole text that holds one record and nothing else. -/
def parse (text : List Char) : Except JsonError (List (String × α)) := do
  let (found, rest) ← match skipBlank text with
    | [] => .error .eofInValue
    | c :: rest =>
      if c = '[' then form.items form.fields 0 true [] rest
      else if c = '{' then form.members (enough rest) true [] rest
      else .error (unexpected form.expected text)
  if (skipBlank rest).isEmpty then return found else throw .trailingCharacters

end RecordForm

end PinnedTree.Json.Read
