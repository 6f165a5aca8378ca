import PinnedTree.Toml.Basic

namespace PinnedTree.Toml

/-- Digits in groups that single underscores separate; their value in a base, or nothing. -/
def groupedDigits? (isDigit : Char → Bool) (text : List Char) : Option (List Char) :=
  let rec go : Bool → List Char → Option (List Char)
    | afterDigit, [] => if afterDigit then some [] else none
    | afterDigit, c :: rest =>
      if isDigit c then (go true rest).map (c :: ·)
      else if c = '_' && afterDigit then go false rest
      else none
  go false text

def digitValue (c : Char) : Nat :=
  if c.isDigit then c.toNat - '0'.toNat
  else if c.isLower then c.toNat - 'a'.toNat + 10
  else c.toNat - 'A'.toNat + 10

def digitsValue (base : Nat) (digits : List Char) : Nat :=
  digits.foldl (fun n c => n * base + digitValue c) 0

def isHex (c : Char) : Bool := c.isDigit || ('a' ≤ c && c ≤ 'f') || ('A' ≤ c && c ≤ 'F')

def signed (text : List Char) : Bool × List Char :=
  match text with
  | '-' :: rest => (true, rest)
  | '+' :: rest => (false, rest)
  | _ => (false, text)

def wholePart? (text : List Char) : Option (List Char) := do
  let digits ← groupedDigits? Char.isDigit text
  if digits.length > 1 && digits.head? = some '0' then none else some digits

def integer? (text : List Char) : Option Int :=
  match text with
  | '0' :: 'x' :: rest => (groupedDigits? isHex rest).map fun ds => (digitsValue 16 ds : Int)
  | '0' :: 'o' :: rest =>
    (groupedDigits? (fun c => '0' ≤ c && c ≤ '7') rest).map fun ds => (digitsValue 8 ds : Int)
  | '0' :: 'b' :: rest =>
    (groupedDigits? (fun c => c = '0' || c = '1') rest).map fun ds => (digitsValue 2 ds : Int)
  | _ =>
    let (negative, rest) := signed text
    (wholePart? rest).map fun ds =>
      let size : Int := digitsValue 10 ds
      if negative then -size else size

def exponent? (text : List Char) : Option Int :=
  let (negative, rest) := signed text
  (groupedDigits? Char.isDigit rest).map fun ds =>
    let size : Int := digitsValue 10 ds
    if negative then -size else size

def float? (text : List Char) : Option TomlFloat := do
  let (negative, rest) := signed text
  if rest = "inf".toList then return .infinite negative
  if rest = "nan".toList then return .notANumber
  let mantissa := rest.takeWhile fun c => c ≠ 'e' && c ≠ 'E'
  let power ← match rest.drop mantissa.length with
    | [] => some 0
    | _ :: digits => exponent? digits
  let whole ← wholePart? (mantissa.takeWhile (· ≠ '.'))
  let behind ← match mantissa.dropWhile (· ≠ '.') with
    | [] => some []
    | _ :: digits => groupedDigits? Char.isDigit digits
  if mantissa.length = rest.length && !mantissa.contains '.' then none
  else return .decimal ⟨negative, digitsValue 10 (whole ++ behind), power - behind.length⟩

def fixedDigits? (count : Nat) (text : List Char) : Option (Nat × List Char) :=
  let digits := text.take count
  if digits.length = count && digits.all Char.isDigit then
    some (digitsValue 10 digits, text.drop count)
  else none

def after? (c : Char) : List Char → Option (List Char)
  | d :: rest => if c = d then some rest else none
  | [] => none

def daysIn (year month : Nat) : Nat :=
  if month = 2 then
    if year % 4 = 0 && (year % 100 ≠ 0 || year % 400 = 0) then 29 else 28
  else if month = 4 || month = 6 || month = 9 || month = 11 then 30
  else 31

def date? (text : List Char) : Option (List Char) := do
  let (year, text) ← fixedDigits? 4 text
  let text ← after? '-' text
  let (month, text) ← fixedDigits? 2 text
  let text ← after? '-' text
  let (day, text) ← fixedDigits? 2 text
  if 1 ≤ month && month ≤ 12 && 1 ≤ day && day ≤ daysIn year month then some text else none

def time? (text : List Char) : Option (List Char) := do
  let (hour, text) ← fixedDigits? 2 text
  let text ← after? ':' text
  let (minute, text) ← fixedDigits? 2 text
  if hour > 24 || minute > 59 then none
  else match text with
    | ':' :: rest => do
      let (second, rest) ← fixedDigits? 2 rest
      if second > 60 then none
      else match rest with
        | '.' :: part =>
          if (part.takeWhile Char.isDigit).isEmpty then none
          else some (part.dropWhile Char.isDigit)
        | _ => some rest
    | _ => some text

def offset? (text : List Char) : Option (List Char) :=
  match text with
  | [] => some []
  | c :: rest =>
    if c = 'Z' || c = 'z' then some rest
    else if c = '+' || c = '-' then do
      let (hour, rest) ← fixedDigits? 2 rest
      let rest ← after? ':' rest
      let (minute, rest) ← fixedDigits? 2 rest
      if hour > 24 || minute > 59 then none else some rest
    else none

def isDatetime (text : List Char) : Bool :=
  match date? text with
  | some [] => true
  | some (c :: rest) =>
    (c = 'T' || c = 't' || c = ' ') && ((time? rest).bind offset?) = some []
  | none => time? text = some []

/-- The value a word stands for. -/
def ofWord? (text : List Char) : Option Toml :=
  if text = "true".toList then some (.bool true)
  else if text = "false".toList then some (.bool false)
  else match integer? text with
    | some value => some (.integer value)
    | none => match float? text with
      | some value => some (.float value)
      | none => if isDatetime text then some .datetime else none

end PinnedTree.Toml
