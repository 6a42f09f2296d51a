/-
Integers at the start of a command line value.

Spaces before the integer and whatever follows it are passed over.  The integer
may have a sign, a mark of its base and underscores between its digits.
-/
import StackVm.Text.Quoted
import StackVm.Toml.Number

namespace StackVm.Cli

/-- Why a value does not start with an integer. -/
inductive CountError where
  | endOfText
  | noInteger
  | invalid (token : Text)
  | outOfRange (token : Text)
  deriving DecidableEq, Repr

/-- The text of such a reason. -/
def CountError.message : CountError → Text
  | .endOfText => "EOF"
  | .noInteger => "expected integer"
  | .invalid token => "strconv.ParseInt: parsing " ++ Text.quoted token ++ ": invalid syntax"
  | .outOfRange token =>
    "strconv.ParseInt: parsing " ++ Text.quoted token ++ ": value out of range"

/-- Whether a character is a space. -/
def isSpace (c : Nat) : Bool :=
  (0x09 ≤ c && c ≤ 0x0D) || c = 0x20 || c = 0x85 || c = 0xA0 || c = 0x1680 ||
    (0x2000 ≤ c && c ≤ 0x200A) || c = 0x2028 || c = 0x2029 || c = 0x202F || c = 0x205F || c = 0x3000

/-- The base that a letter after a zero marks. -/
def baseOfMark? (b : UInt8) : Option Nat :=
  let letter := Text.lowerByte b
  if letter = 0x62 then some 2
  else if letter = 0x6F then some 8
  else if letter = 0x78 then some 16
  else none

/-- Whether a byte may stand among the digits of a base. -/
def isCountByte (base : Nat) (b : UInt8) : Bool := Toml.isDigitOf base b || b = Toml.underscore

/-- The bytes of the integer at the start of a text, after its sign. -/
def countToken (t : Text) : Except CountError Text :=
  match t with
  | [] => .error .endOfText
  | 0x30 :: rest =>
    match rest with
    | mark :: digits =>
      match baseOfMark? mark with
      | some base => .ok (0x30 :: mark :: digits.takeWhile (isCountByte base))
      | none => .ok (0x30 :: rest.takeWhile (isCountByte 8))
    | [] => .ok [0x30]
  | b :: _ =>
    if isCountByte 10 b then .ok (t.takeWhile (isCountByte 10)) else .error .noInteger

/-- The base of an integer, its digits, and the text in which underscores must
stand between digits: a mark of a base counts as a digit there. -/
def baseOf (token : Text) : Nat × Text × Text :=
  match token with
  | 0x30 :: mark :: d :: rest =>
    match baseOfMark? mark with
    | some base => (base, d :: rest, 0x30 :: d :: rest)
    | none => (8, mark :: d :: rest, token)
  | 0x30 :: rest => (8, rest, token)
  | _ => (10, token, token)

/-- The largest magnitude that is read before underscores are looked at. -/
def maxMagnitude : Nat := 0xFFFFFFFFFFFFFFFF

/-- The value of an integer after its sign; `whole` is the integer with the sign.
A magnitude that is too large is reported before a misplaced underscore. -/
def countValue (negative : Bool) (whole token : Text) : Except CountError Int64 :=
  let (base, digits, grouped) := baseOf token
  if !digits.all (isCountByte base) then .error (.invalid whole)
  else
    let n : Nat := Toml.valueOf base (digits.filter (· ≠ Toml.underscore))
    if maxMagnitude < n then .error (.outOfRange whole)
    else if (Toml.ungrouped grouped).isNone then .error (.invalid whole)
    else
      match Toml.word? (if negative then -(n : Int) else n) with
      | some n => .ok n
      | none => .error (.outOfRange whole)

/-- What is left of a text after the spaces at its start. -/
def skipSpaces (t : Text) : Text :=
  Text.join [] (((Text.runes t).dropWhile fun r => isSpace r.code).map bytes)
where
  /-- The bytes of a rune. -/
  bytes : Text.Rune → Text
    | .point c => Text.encodeRune c
    | .stray b => [b]

/-- The integer at the start of a value. -/
def count (t : Text) : Except CountError Int64 := do
  match skipSpaces t with
  | 0x2D :: rest =>
    let token ← countToken rest
    countValue true (0x2D :: token) token
  | 0x2B :: rest =>
    let token ← countToken rest
    countValue false (0x2B :: token) token
  | t =>
    let token ← countToken t
    countValue false token token

end StackVm.Cli
