import PinnedTree.Decimal.Basic

namespace PinnedTree.Binary

/-- Compares a whole number times a power of ten with a whole number times a power of two. -/
def compareTen (digits : Nat) (ten : Int) (size : Nat) (two : Int) : Ordering :=
  let left := digits * Nat.pow 10 ten.toNat * Nat.pow 2 (-two).toNat
  let right := size * Nat.pow 2 two.toNat * Nat.pow 10 (-ten).toNat
  compare left right

/-- Whether a decimal is read as this double: it lies within half a step, and an even significand
also takes the two ends. The step below a power of two is half as wide. -/
def reads (b : Binary) (digits : Nat) (ten : Int) : Bool :=
  let narrow := b.significand = Nat.pow 2 52 && b.exponent > -1074
  let low := if narrow then 4 * b.significand - 1 else 4 * b.significand - 2
  let high := 4 * b.significand + 2
  let two := b.exponent - 2
  let even := b.significand % 2 = 0
  match compareTen digits ten low two, compareTen digits ten high two with
  | .gt, .lt => true
  | .eq, _ | _, .eq => even
  | _, _ => false

/-- The place of the first digit: the value is below this power of ten and not below the one
before. -/
def firstPlace (b : Binary) : Int :=
  let bits : Int := (b.significand.log2 : Int) + b.exponent
  let guess := (bits * 30103) / 100000
  if compareTen 1 guess b.significand b.exponent = .gt then guess
  else if compareTen 1 (guess + 1) b.significand b.exponent = .gt then guess + 1
  else guess + 2

def floorIn (b : Binary) (ten : Int) : Nat :=
  (b.significand * Nat.pow 2 b.exponent.toNat * Nat.pow 10 (-ten).toNat)
    / (Nat.pow 2 (-b.exponent).toNat * Nat.pow 10 ten.toNat)

/-- The decimal of so many digits that is read back, the nearer one if there are two. -/
def withDigits? (b : Binary) (count : Nat) : Option (Nat × Int) :=
  let ten := b.firstPlace - count
  let low := b.floorIn ten
  let high := low + 1
  match b.reads low ten, b.reads high ten with
  | true, true =>
    match compareTen (2 * low + 1) ten (2 * b.significand) b.exponent with
    | .lt => some (high, ten)
    | .gt => some (low, ten)
    | .eq => some (if low % 2 = 0 then low else high, ten)
  | true, false => some (low, ten)
  | false, true => some (high, ten)
  | false, false => none

def trimmed : Nat → Nat → Int → Nat × Int
  | 0, digits, ten => (digits, ten)
  | fuel + 1, digits, ten =>
    if digits % 10 = 0 && digits ≠ 0 then trimmed fuel (digits / 10) (ten + 1) else (digits, ten)

def shortest (b : Binary) : Nat × Int :=
  if b.significand = 0 then (0, 0)
  else match (List.range 17).findSome? fun n => b.withDigits? (n + 1) with
    | some (digits, ten) => trimmed 18 digits ten
    | none => (b.significand, 0)

end PinnedTree.Binary

namespace PinnedTree.Decimal

def zeros (count : Nat) : String := String.ofList (List.replicate count '0')

def pointed (digits : String) (places : Int) : String :=
  if places ≤ 0 then "0." ++ zeros (-places).toNat ++ digits
  else if digits.length ≤ places.toNat then digits ++ zeros (places.toNat - digits.length) ++ ".0"
  else String.ofList (digits.toList.take places.toNat) ++ "."
    ++ String.ofList (digits.toList.drop places.toNat)

def sign (d : Decimal) : String := if d.negative then "-" else ""

def positional (d : Decimal) : String :=
  match d.nearest? with
  | none => d.sign ++ "inf.0"
  | some b =>
    let (digits, ten) := b.shortest
    let text := toString digits
    d.sign ++ pointed text (if digits = 0 then 1 else text.length + ten)

/-- The double nearest to a decimal, positional from 10^-5 up to 10^16 and otherwise with an
exponent. -/
def scientific (d : Decimal) : String :=
  match d.nearest? with
  | none => d.sign ++ "inf"
  | some b =>
    let (digits, ten) := b.shortest
    let text := toString digits
    let places := if digits = 0 then 1 else text.length + ten
    d.sign ++
      if -5 < places && places ≤ 16 then pointed text places
      else
        let front := String.ofList (text.toList.take 1)
        let behind := String.ofList (text.toList.drop 1)
        (if behind.isEmpty then front else front ++ "." ++ behind)
          ++ "e" ++ toString (places - 1)

end PinnedTree.Decimal
