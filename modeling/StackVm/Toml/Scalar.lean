/-
The values of a settings file that have no parts.
-/
import StackVm.Toml.Fault
import StackVm.Toml.Moment

namespace StackVm.Toml

/-- A value without parts.  Floats and moments are kept as they are written. -/
inductive Scalar where
  | string (data : Text)
  | integer (n : Int64)
  | boolean (b : Bool)
  | float (written : Text)
  | moment (written : Text)
  deriving DecidableEq, Repr

/-- The text without spaces at its end. -/
def trimEnd (t : Text) : Text := (t.reverse.dropWhile (· = 0x20)).reverse

/-- Reads a date or time. -/
def readMoment (t : Text) : Option (Scalar × Text) :=
  let (front, rest) := t.span isMomentByte
  let written := trimEnd front
  if isMoment written then some (.moment written, rest) else none

/-- Whether a byte may stand in a float. -/
def isFloatByte (b : UInt8) : Bool :=
  isDigitOrUnderscore b || [0x2E, 0x2D, 0x2B, 0x65, 0x45].contains b

/-- Reads a decimal integer or a float, after its sign. -/
def readDecimal (negative : Bool) (t : Text) : Option (Scalar × Text) :=
  let (front, rest) := t.span isDigitOrUnderscore
  match rest with
  | 0x2E :: _ | 0x45 :: _ | 0x65 :: _ =>
    let (written, rest) := t.span isFloatByte
    if isFloat written then some (.float written, rest) else none
  | _ => (decimal? negative front).map (.integer ·, rest)

/-- Reads an integer in another base, after the mark of the base. -/
def readBased (base : Nat) (mark t : Text) : Except Fault (Scalar × Text) :=
  if t.head?.any (isDigitOf base) then
    let (front, rest) := t.span fun b => isDigitOf base b || b = underscore
    orMalformed ((based? base front).map (.integer ·, rest))
  else .error (.noDigit base (mark ++ firstCharacter t))

/-- The words for the floats that are no numbers. -/
def readWord (t : Text) : Option (Scalar × Text) :=
  let inf : Text := "inf"
  let nan : Text := "nan"
  match Text.after? inf t with
  | some rest => some (.float inf, rest)
  | none => (Text.after? nan t).map (.float nan, ·)

/-- Reads a number after its sign. -/
def readSigned (negative : Bool) (t : Text) : Option (Scalar × Text) :=
  if t.head?.any isDigit then readDecimal negative t else readWord t

/-- Reads a number, a date or a time that starts with a digit. -/
def readNumeral (t : Text) : Except Fault (Scalar × Text) :=
  match t with
  | 0x30 :: 0x78 :: rest => readBased 16 "0x" rest
  | 0x30 :: 0x6F :: rest => readBased 8 "0o" rest
  | 0x30 :: 0x62 :: rest => readBased 2 "0b" rest
  | _ =>
    match t.dropWhile isDigit with
    | 0x2D :: _ | 0x3A :: _ => orMalformed (readMoment t)
    | _ => orMalformed (readDecimal false t)

/-- Reads a truth value. -/
def readBoolean (t : Text) : Option (Scalar × Text) :=
  match Text.after? "true" t with
  | some rest => some (.boolean true, rest)
  | none => (Text.after? "false" t).map (.boolean false, ·)

/-- Reads a value without parts that is not a string. -/
def readPlain (t : Text) : Except Fault (Scalar × Text) :=
  match t with
  | 0x2B :: rest => orMalformed (readSigned false rest)
  | 0x2D :: rest => orMalformed (readSigned true rest)
  | b :: _ =>
    if isDigit b then readNumeral t
    else if b = 0x69 ∨ b = 0x6E then orMalformed (readWord t)
    else orMalformed (readBoolean t)
  | [] => .error .malformed

end StackVm.Toml
