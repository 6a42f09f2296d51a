/-
Moments as date and time of day, in universal time.
-/
import StackVm.Text.Basic

namespace StackVm.Text

/-- Year, month and day of a number of days since the start of 1970.  Years are
counted from March on, in periods of 400 years that all have the same length. -/
def dateOfDay (days : Nat) : Nat × Nat × Nat :=
  let shifted := days + 719468
  let era := shifted / 146097
  let day := shifted % 146097
  let year := (day - day / 1460 + day / 36524 - day / 146096) / 365
  let inYear := day - (365 * year + year / 4 - year / 100)
  let month := (5 * inYear + 2) / 153
  let inMonth := inYear - (153 * month + 2) / 5 + 1
  let calendarMonth := if month < 10 then month + 3 else month - 9
  (year + era * 400 + (if calendarMonth ≤ 2 then 1 else 0), calendarMonth, inMonth)

/-- A number with zeros in front up to `width` digits. -/
def zeroPadded (width n : Nat) : Text := padLeft width 0x30 (ofNat n)

/-- The date and time of day of a number of seconds since the start of 1970. -/
def stamp (seconds : Nat) : Text :=
  let (year, month, day) := dateOfDay (seconds / 86400)
  let inDay := seconds % 86400
  zeroPadded 4 year ++ "-" ++ zeroPadded 2 month ++ "-" ++ zeroPadded 2 day ++ " " ++
    zeroPadded 2 (inDay / 3600) ++ ":" ++ zeroPadded 2 (inDay / 60 % 60) ++ ":" ++
    zeroPadded 2 (inDay % 60)

end StackVm.Text
