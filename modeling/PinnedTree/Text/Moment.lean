namespace PinnedTree

structure Moment where
  seconds : Nat
  nanoseconds : Nat
deriving DecidableEq, Repr

structure CalendarDay where
  year : Nat
  month : Nat
  day : Nat
deriving DecidableEq, Repr

namespace CalendarDay

/-- The day so many days after the first of March of the year 0. Years begin in March here, so that
a leap day is the last of its year. -/
def ofCount (count : Nat) : CalendarDay :=
  let era := count / 146097
  let inEra := count % 146097
  let year := (inEra - inEra / 1460 + inEra / 36524 - inEra / 146096) / 365
  let inYear := inEra - (365 * year + year / 4 - year / 100)
  let month := (5 * inYear + 2) / 153
  ⟨year + era * 400 + (if month < 10 then 0 else 1), if month < 10 then month + 3 else month - 9,
    inYear - (153 * month + 2) / 5 + 1⟩

def epoch : Nat := 719468

example : ofCount epoch = ⟨1970, 1, 1⟩ := by decide
example : ofCount (epoch + 11016) = ⟨2000, 2, 29⟩ := by decide

end CalendarDay

namespace Moment

def padded (width n : Nat) : String :=
  let digits := toString n
  String.ofList (List.replicate (width - digits.length) '0') ++ digits

def fraction (nanoseconds : Nat) : String :=
  if nanoseconds = 0 then ""
  else if nanoseconds % 1000000 = 0 then "." ++ padded 3 (nanoseconds / 1000000)
  else if nanoseconds % 1000 = 0 then "." ++ padded 6 (nanoseconds / 1000)
  else "." ++ padded 9 nanoseconds

/-- The text of a moment. -/
def text (m : Moment) : String :=
  let day := CalendarDay.ofCount (CalendarDay.epoch + m.seconds / 86400)
  let rest := m.seconds % 86400
  padded 4 day.year ++ "-" ++ padded 2 day.month ++ "-" ++ padded 2 day.day ++ "T"
    ++ padded 2 (rest / 3600) ++ ":" ++ padded 2 (rest / 60 % 60) ++ ":" ++ padded 2 (rest % 60)
    ++ fraction m.nanoseconds ++ "+00:00"

end Moment

end PinnedTree
