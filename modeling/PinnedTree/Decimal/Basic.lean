namespace PinnedTree

/-- Digits with a power of ten, and a sign that zero can have, too. -/
structure Decimal where
  negative : Bool
  digits : Nat
  exponent : Int
deriving DecidableEq, Repr

structure Binary where
  significand : Nat
  exponent : Int
deriving DecidableEq, Repr

namespace Decimal

def magnitude (d : Decimal) : Int := (Nat.toDigits 10 d.digits).length + d.exponent

def quotient (d : Decimal) : Nat × Nat :=
  if d.exponent ≥ 0 then (d.digits * Nat.pow 10 d.exponent.toNat, 1)
  else (d.digits, Nat.pow 10 (-d.exponent).toNat)

/-- A quotient rounded to the nearest multiple of a power of two, a tie to the even one. -/
def roundTo (numerator denominator : Nat) (power : Int) : Nat :=
  let (top, bottom) :=
    if power ≥ 0 then (numerator, denominator * Nat.pow 2 power.toNat)
    else (numerator * Nat.pow 2 (-power).toNat, denominator)
  let whole := top / bottom
  let twice := 2 * (top % bottom)
  if twice > bottom || (twice = bottom && whole % 2 = 1) then whole + 1 else whole

/-- The double nearest to the value without its sign; none if it would be infinite. -/
def nearest? (d : Decimal) : Option Binary :=
  if d.digits = 0 || d.magnitude < -330 then some ⟨0, 0⟩
  else if d.magnitude > 310 then none
  else
    let (numerator, denominator) := d.quotient
    let guess : Int := (numerator.log2 : Int) - denominator.log2 - 53
    let power := max guess (-1074)
    let fitted := if roundTo numerator denominator power ≥ Nat.pow 2 53 then power + 1 else power
    let rounded := roundTo numerator denominator fitted
    let result : Binary :=
      if rounded = Nat.pow 2 53 then ⟨Nat.pow 2 52, fitted + 1⟩ else ⟨rounded, fitted⟩
    if result.exponent > 971 then none else some result

end Decimal

end PinnedTree
