/-
Dates and times as a settings file writes them: a date, a time of day, or both
with a `T` or a space between them and a zone after them.  Seconds may be left
out, and only seconds have a fraction.
-/
import StackVm.Toml.Number

namespace StackVm.Toml

/-- Reads a number of exactly `count` digits. -/
def digits? (count : Nat) (t : Text) : Option (Nat × Text) :=
  let front := t.take count
  if front.length = count ∧ front.all isDigit then some (valueOf 10 front, t.drop count) else none

/-- Reads a number of two digits that is at most `most`. -/
def upTo? (most : Nat) (t : Text) : Option (Nat × Text) :=
  (digits? 2 t).filter (·.1 ≤ most)

/-- What is left after one byte, if that is `b`. -/
def skip? (b : UInt8) : Text → Option Text
  | a :: t => if a = b then some t else none
  | [] => none

/-- Whether a year has a leap day. -/
def isLeap (year : Nat) : Bool := year % 4 = 0 && (year % 100 != 0 || year % 400 = 0)

/-- How many days a month has. -/
def daysIn (year month : Nat) : Nat :=
  if month = 2 then if isLeap year then 29 else 28
  else if month = 4 ∨ month = 6 ∨ month = 9 ∨ month = 11 then 30
  else 31

/-- What is left after a date. -/
def afterDate? (t : Text) : Option Text := do
  let (year, t) ← digits? 4 t
  let (month, t) ← upTo? 12 (← skip? 0x2D t)
  let (day, t) ← upTo? (daysIn year month) (← skip? 0x2D t)
  if month = 0 ∨ day = 0 then none else some t

/-- What is left after a time of day. -/
def afterTime? (t : Text) : Option Text := do
  let (_, t) ← upTo? 23 t
  let (_, t) ← upTo? 59 (← skip? 0x3A t)
  match skip? 0x3A t with
  | none => some t
  | some t =>
    let (_, t) ← upTo? 59 t
    match t with
    | 0x2E :: d :: rest => if isDigit d then some (rest.dropWhile isDigit) else some t
    | _ => some t

/-- Whether a text is a zone: `Z`, or the hours and minutes from it. -/
def isZone : Text → Bool
  | [0x5A] => true
  | sign :: t =>
    (sign = 0x2B || sign = 0x2D) &&
      (do
        let (_, t) ← upTo? 24 t
        let (_, t) ← upTo? 60 (← skip? 0x3A t)
        some t) == some []
  | [] => false

/-- The spelling of a moment in which `T` and `Z` are upper-case and no space divides. -/
def momentByte (b : UInt8) : UInt8 :=
  if b = 0x20 ∨ b = 0x74 then 0x54 else if b = 0x7A then 0x5A else b

/-- Whether a text is a date, a time of day, or a date with a time of day. -/
def isMoment (t : Text) : Bool :=
  let t := t.map momentByte
  match afterDate? t with
  | some [] => true
  | some (0x54 :: t) =>
    match afterTime? t with
    | some [] => true
    | some t => isZone t
    | none => false
  | some _ => false
  | none => afterTime? t == some []

/-- Whether a byte may stand in a moment. -/
def isMomentByte (b : UInt8) : Bool :=
  isDigit b || [0x2D, 0x3A, 0x54, 0x74, 0x20, 0x2E, 0x5A, 0x7A, 0x2B].contains b

end StackVm.Toml
