/-
Numbers as a settings file writes them.

Underscores may stand between two digits.  A decimal number has no zeros in
front; hexadecimal, octal and binary ones start with `0x`, `0o` and `0b`.
-/
import StackVm.Text.Basic

namespace StackVm.Toml

/-- Whether a byte is a decimal digit. -/
def isDigit (b : UInt8) : Bool := 0x30 ≤ b && b ≤ 0x39

/-- The value of a hexadecimal digit. -/
def digitValue? (b : UInt8) : Option Nat :=
  if isDigit b then some (b.toNat - 0x30)
  else if 0x41 ≤ b ∧ b ≤ 0x46 then some (b.toNat - 0x37)
  else if 0x61 ≤ b ∧ b ≤ 0x66 then some (b.toNat - 0x57)
  else none

/-- Whether a byte is a digit of a base up to sixteen. -/
def isDigitOf (base : Nat) (b : UInt8) : Bool := (digitValue? b).any (· < base)

/-- The byte that may separate digits. -/
def underscore : UInt8 := 0x5F

/-- The digits of a number, if every underscore stands between two of them. -/
def ungrouped (t : Text) : Option Text :=
  if t = [] ∨ t.head? = some underscore ∨ t.getLast? = some underscore ∨
      (t.zip t.tail).any (fun (a, b) => a = underscore && b = underscore) then none
  else some (t.filter (· ≠ underscore))

/-- The number that digits of a base write. -/
def valueOf (base : Nat) (digits : Text) : Nat :=
  digits.foldl (fun n b => n * base + (digitValue? b).getD 0) 0

/-- An integer as a signed machine word, if it fits. -/
def word? (n : Int) : Option Int64 :=
  if Int64.minValue.toInt ≤ n ∧ n ≤ Int64.maxValue.toInt then some (Int64.ofInt n) else none

/-- Whether a text of digits starts with a zero that is not all of it. -/
def hasLeadingZero (t : Text) : Bool := 1 < t.length && t.head? = some 0x30

/-- The decimal integer with an optional sign in front of `t`. -/
def decimal? (negative : Bool) (t : Text) : Option Int64 := do
  let digits ← ungrouped t
  if hasLeadingZero t then none
  else
    let n : Int := valueOf 10 digits
    word? (if negative then -n else n)

/-- The integer that the digits `t` write after the mark of their base. -/
def based? (base : Nat) (t : Text) : Option Int64 := do word? (valueOf base (← ungrouped t))

/-- A decimal fraction: the digits before and after the point, and the exponent. -/
structure Fraction where
  whole : Text
  part : Text := []
  exponent : Int := 0
  deriving DecidableEq, Repr

/-- Whether a byte may stand among the digits of a number. -/
def isDigitOrUnderscore (b : UInt8) : Bool := isDigit b || b = underscore

/-- The value from which on the digits of an exponent no longer count. -/
def maxExponent : Nat := 10000

/-- The exponent after its mark, which must be all of the text. -/
def exponent? : Text → Option Int
  | 0x2B :: t => do digits (← ungrouped t)
  | 0x2D :: t => do (- ·) <$> digits (← ungrouped t)
  | t => do digits (← ungrouped t)
where
  /-- The value of a text of digits only.  It grows no further once it is so large that
  only a file of that size could make up for it. -/
  digits (t : Text) : Option Int :=
    let add (n : Nat) (b : UInt8) : Nat :=
      if n < maxExponent then n * 10 + (digitValue? b).getD 0 else n
    if t.all isDigit then some (t.foldl add 0 : Nat) else none

/-- The decimal fraction a text writes.  A point has digits on both sides. -/
def fraction? (t : Text) : Option Fraction := do
  let (front, rest) := t.span isDigitOrUnderscore
  let whole ← ungrouped front
  if hasLeadingZero front then none
  else
    let (part, rest) ← match rest with
      | 0x2E :: rest =>
        let (digits, rest) := rest.span isDigitOrUnderscore
        (ungrouped digits).map (·, rest)
      | _ => some ([], rest)
    match rest with
    | [] => some ⟨whole, part, 0⟩
    | mark :: rest =>
      if mark = 0x45 ∨ mark = 0x65 then (exponent? rest).map (⟨whole, part, ·⟩) else none

/-- The smallest number that is nearer to 2^1024 than to the largest finite double. -/
def doubleLimit : Nat := Nat.pow 2 1024 - Nat.pow 2 970

/-- Whether a decimal fraction is too large for a double.  The number of digits
before the point settles all but the close cases. -/
def Fraction.overflows (f : Fraction) : Bool :=
  let digits := (f.whole ++ f.part).dropWhile (· = 0x30)
  let shift := f.exponent - f.part.length
  let size := digits.length + shift
  if digits = [] ∨ size < 300 then false
  else if 400 < size then true
  else if 0 ≤ shift then doubleLimit ≤ valueOf 10 digits * Nat.pow 10 shift.toNat
  else doubleLimit * Nat.pow 10 (-shift).toNat ≤ valueOf 10 digits

/-- Whether a text writes a decimal fraction that is a double. -/
def isFloat (t : Text) : Bool := (fraction? t).any fun f => !f.overflows

end StackVm.Toml
