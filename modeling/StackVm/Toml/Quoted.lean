/-
Strings of a settings file.

A basic string stands between double quotes and has escapes; a literal string
stands between single quotes and has none.  With three quotes on either side a
string may go over several lines, and up to two quotes more may stand before the
closing three, or up to three if a backslash stands before them.
-/
import StackVm.Toml.Fault
import StackVm.Toml.Number

namespace StackVm.Toml

/-- The quote of basic strings. -/
def doubleQuote : UInt8 := 0x22

/-- The quote of literal strings. -/
def singleQuote : UInt8 := 0x27

/-- The byte that starts an escape. -/
def backslash : UInt8 := 0x5C

/-- Whether a byte ends a line. -/
def isLineEnd (b : UInt8) : Bool := b = 0x0A || b = 0x0D

/-- Whether a byte is a space or a tab. -/
def isBlank (b : UInt8) : Bool := b = 0x20 || b = 0x09

/-- The character a hexadecimal escape names: a code point that is no surrogate. -/
def escapedPoint (digits : Text) : Option Text :=
  let code := valueOf 16 digits
  if digits.all (isDigitOf 16) ∧ (code < 0xD800 ∨ (0xE000 ≤ code ∧ code < 0x110000)) then
    some (Text.encodeRune code)
  else none

/-- The text an escape stands for and how many bytes after the backslash it has. -/
def escape : Text → Option (Text × Nat)
  | [] => none
  | b :: rest =>
    let hex (count : Nat) : Option (Text × Nat) :=
      if rest.length < count then none else (escapedPoint (rest.take count)).map (·, count + 1)
    if b = 0x62 then some ([0x08], 1)
    else if b = 0x74 then some ([0x09], 1)
    else if b = 0x6E then some ([0x0A], 1)
    else if b = 0x66 then some ([0x0C], 1)
    else if b = 0x72 then some ([0x0D], 1)
    else if b = 0x65 then some ([0x1B], 1)
    else if b = doubleQuote then some ([doubleQuote], 1)
    else if b = backslash then some ([backslash], 1)
    else if b = 0x78 then hex 2
    else if b = 0x75 then hex 4
    else if b = 0x55 then hex 8
    else none

/-- The blanks and line ends at the start of a text. -/
def leadingGap (t : Text) : Text := t.takeWhile fun b => isBlank b || isLineEnd b

/-- What stands after a backslash: an escape, or, in a string of several lines, a
line end with the blanks around it, which are left out. -/
def escapeOrBreak (manyLines : Bool) (t : Text) : Option (Text × Nat) :=
  let gap := leadingGap t
  if manyLines && gap.contains 0x0A then some ([], gap.length) else escape t

/-- Replaces escapes, behind the text read before, last byte first. -/
def unescapeInto (manyLines : Bool) (done : Text) : Text → Option Text
  | [] => some done.reverse
  | b :: rest =>
    if b = backslash then
      match escapeOrBreak manyLines rest with
      | none => none
      | some (text, count) => unescapeInto manyLines (text.reverse ++ done) (rest.drop count)
    else unescapeInto manyLines (b :: done) rest
termination_by t => t.length
decreasing_by
  · simp only [List.length_drop, List.length_cons]; omega
  · simp only [List.length_cons]; omega

/-- Why a string ends at a line end after a backslash, unless an escape before it is
wrong already. -/
def brokenAt (done : Text) (lineEnd : UInt8) : Fault :=
  if (unescapeInto false [] done.reverse).isSome then .noEscape [lineEnd] else .malformed

/-- The text between quotes on one line and what follows the closing quote; the
byte after a backslash does not close when there are escapes. -/
def lineUntil (quote : UInt8) (escapes : Bool) (done : Text) : Text → Except Fault (Text × Text)
  | [] => .error .malformed
  | [b] => if b = quote then .ok (done.reverse, []) else .error .malformed
  | b :: c :: rest =>
    if b = quote then .ok (done.reverse, c :: rest)
    else if isLineEnd b then .error .malformed
    else if escapes && b = backslash then
      if isLineEnd c then .error (brokenAt done c)
      else lineUntil quote escapes (c :: b :: done) rest
    else lineUntil quote escapes (b :: done) (c :: rest)

/-- The longest run of quotes that closes a string of several lines, given the text
before it, last byte first.  After an escaped backslash it is one longer. -/
def longestClosing (escapes : Bool) (done : Text) : Nat :=
  if escapes && done.head? = some backslash then 6 else 5

/-- The text before three closing quotes and what follows them.  A run of three or
more quotes closes; the ones before the last three belong to the text. -/
def linesUntil (quote : UInt8) (escapes : Bool) (done : Text) (t : Text) : Option (Text × Text) :=
  match t with
  | [] => none
  | b :: rest =>
    if b = quote then
      let more := (rest.takeWhile (· = quote)).length
      if more < 2 then
        linesUntil quote escapes (List.replicate (more + 1) quote ++ done) (rest.drop more)
      else if more < longestClosing escapes done then
        some ((List.replicate (more - 2) quote ++ done).reverse, rest.drop more)
      else none
    else if escapes && b = backslash then
      match rest with
      | [] => none
      | c :: rest => linesUntil quote escapes (c :: b :: done) rest
    else linesUntil quote escapes (b :: done) rest
termination_by t.length
decreasing_by
  · simp only [List.length_drop, List.length_cons]; omega
  · simp only [List.length_cons]; omega
  · simp only [List.length_cons]; omega

/-- The text without a line end at its start. -/
def dropFirstLineEnd : Text → Text
  | 0x0A :: rest => rest
  | 0x0D :: 0x0A :: rest => rest
  | t => t

/-- Reads a basic string on one line, after its quote. -/
def readBasic (t : Text) : Except Fault (Text × Text) := do
  let (raw, rest) ← lineUntil doubleQuote true [] t
  return (← orMalformed (unescapeInto false [] raw), rest)

/-- Reads a literal string on one line, after its quote. -/
def readLiteral (t : Text) : Except Fault (Text × Text) := lineUntil singleQuote false [] t

/-- Reads a basic string of several lines, after its quotes. -/
def readBasicLines (t : Text) : Option (Text × Text) := do
  let (raw, rest) ← linesUntil doubleQuote true [] t
  return (← unescapeInto true [] (dropFirstLineEnd raw), rest)

/-- Reads a literal string of several lines, after its quotes. -/
def readLiteralLines (t : Text) : Option (Text × Text) := do
  let (raw, rest) ← linesUntil singleQuote false [] t
  return (dropFirstLineEnd raw, rest)

/-- Reads a string of any of the four forms. -/
def readString (t : Text) : Except Fault (Text × Text) :=
  match t with
  | 0x22 :: 0x22 :: 0x22 :: rest => orMalformed (readBasicLines rest)
  | 0x27 :: 0x27 :: 0x27 :: rest => orMalformed (readLiteralLines rest)
  | 0x22 :: rest => readBasic rest
  | 0x27 :: rest => readLiteral rest
  | _ => .error .malformed

end StackVm.Toml
