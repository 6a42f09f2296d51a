/-
The tokens of statements.
-/
import StackVm.Text.Basic

namespace StackVm.Sql

/-- The kinds of tokens. -/
inductive Kind where
  /-- Blanks or a comment. -/
  | blank
  /-- A word, which may have a meaning of its own. -/
  | word
  /-- A name in quotes or brackets. -/
  | name
  /-- A text in single quotes. -/
  | string
  | number
  | symbol
  /-- A token that no statement here takes, such as a parameter. -/
  | other
  /-- No token. -/
  | illegal
  deriving DecidableEq, Repr

/-- A token as it is written. -/
structure Token where
  kind : Kind
  text : Text
  deriving DecidableEq, Repr

/-- Whether a byte is a decimal digit. -/
def isDigit (b : UInt8) : Bool := 0x30 ≤ b && b ≤ 0x39

/-- Whether a byte is a hexadecimal digit. -/
def isHexDigit (b : UInt8) : Bool :=
  isDigit b || (0x41 ≤ b && b ≤ 0x46) || (0x61 ≤ b && b ≤ 0x66)

/-- Whether a byte can start a word. -/
def isWordStart (b : UInt8) : Bool :=
  (0x41 ≤ b && b ≤ 0x5A) || (0x61 ≤ b && b ≤ 0x7A) || b = 0x5F || 0x80 ≤ b

/-- Whether a byte can stand in a word. -/
def isWordByte (b : UInt8) : Bool := isWordStart b || isDigit b || b = 0x24

/-- Whether a byte is a blank that can start blanks. -/
def startsBlanks (b : UInt8) : Bool := b = 0x20 || b = 0x09 || b = 0x0A || b = 0x0C || b = 0x0D

/-- Whether a byte can stand among blanks. -/
def isBlank (b : UInt8) : Bool := startsBlanks b || b = 0x0B

/-- How many bytes of a text in front are of a kind. -/
def count (p : UInt8 → Bool) (t : Text) : Nat := (t.takeWhile p).length

/-- The length of what stands up to a closing quote, of which two stand for one; none if
it is missing. -/
def quotedLength (quote : UInt8) : Text → Option Nat
  | [] => none
  | [b] => if b = quote then some 1 else none
  | b :: c :: rest =>
    if b = quote then if c = quote then (quotedLength quote rest).map (· + 2) else some 1
    else (quotedLength quote (c :: rest)).map (· + 1)

/-- The length of what stands up to the end of a comment that goes over several lines. -/
def commentLength : Text → Nat
  | 0x2A :: 0x2F :: _ => 2
  | [] => 0
  | _ :: rest => commentLength rest + 1

/-- Whether a byte is a digit or separates digits. -/
def isDigitOrLine (p : UInt8 → Bool) (b : UInt8) : Bool := p b || b = 0x5F

/-- The length of the digits after a point, with the point. -/
def fractionLength : Text → Nat
  | 0x2E :: rest => count (isDigitOrLine isDigit) rest + 1
  | _ => 0

/-- The length of an exponent, with its mark. -/
def exponentLength : Text → Nat
  | mark :: rest =>
    let sign := if rest.head? = some 0x2B ∨ rest.head? = some 0x2D then 1 else 0
    if (mark = 0x65 ∨ mark = 0x45) ∧ (rest.drop sign).head?.any isDigit then
      1 + sign + count (isDigitOrLine isDigit) (rest.drop sign)
    else 0
  | [] => 0

/-- A number.  With lines between its digits it is none that a setting takes, and a
letter after it spoils it. -/
def numeral (t : Text) : Kind × Nat :=
  let digits :=
    match t with
    | 0x30 :: x :: d :: rest =>
      if (x = 0x78 ∨ x = 0x58) ∧ isHexDigit d then count (isDigitOrLine isHexDigit) rest + 3 else 0
    | _ => 0
  let length :=
    if digits ≠ 0 then digits
    else
      let whole := count (isDigitOrLine isDigit) t
      let part := fractionLength (t.drop whole)
      whole + part + exponentLength (t.drop (whole + part))
  let more := count isWordByte (t.drop length)
  if more ≠ 0 then (.illegal, length + more)
  else (if (t.take length).contains 0x5F then .other else .number, length)

/-- The length of a parameter after its mark, and whether it has a name.  A name may have
a part in parentheses and double colons. -/
def parameterLength (named : Bool) : Text → Nat × Bool
  | [] => (0, named)
  | b :: rest =>
    if isWordByte b then
      let (n, named) := parameterLength true rest
      (n + 1, named)
    else if b = 0x28 ∧ named then
      let inner := count (fun b => !isBlank b && b != 0x29) rest
      if (rest.drop inner).head? = some 0x29 then (inner + 2, true) else (inner + 1, false)
    else if b = 0x3A ∧ rest.head? = some 0x3A then
      let (n, named) := parameterLength named (rest.drop 1)
      (n + 2, named)
    else (0, named)
termination_by t => t.length
decreasing_by
  · simp only [List.length_cons]; omega
  · simp only [List.length_drop, List.length_cons]; omega

/-- A binary text after its mark and its quote. -/
def binary (t : Text) : Kind × Nat :=
  let digits := count isHexDigit t
  let whole := count (· ≠ 0x27) t
  let closing := if (t.drop whole).isEmpty then 0 else 1
  (if digits = whole ∧ digits % 2 = 0 ∧ closing = 1 then .other else .illegal, 2 + whole + closing)

/-- The symbols of two or three bytes. -/
def longSymbols : List Text := ["->>", "->", "||", "==", "<=", "<>", "<<", ">=", ">>", "!="]

/-- The bytes that are symbols on their own. -/
def symbolBytes : Text := "()+*%&,~;=<>|-/."

/-- The length of a symbol. -/
def symbolLength (t : Text) : Nat :=
  match longSymbols.find? fun s => (Text.after? s t).isSome with
  | some s => s.length
  | none => if t.head?.any symbolBytes.contains then 1 else 0

/-- The kind and the length of the token at the start of a text that is not empty. -/
def tokenAt (b : UInt8) (rest : Text) : Kind × Nat :=
  let quoted (kind : Kind) : Kind × Nat :=
    match quotedLength b rest with
    | some n => (kind, n + 1)
    | none => (.illegal, rest.length + 1)
  if startsBlanks b then (.blank, count isBlank rest + 1)
  else if b = 0x2D ∧ rest.head? = some 0x2D then (.blank, count (· ≠ 0x0A) rest + 1)
  else if b = 0x2F ∧ rest.head? = some 0x2A ∧ 1 < rest.length then
    (.blank, commentLength (rest.drop 1) + 2)
  else if b = 0xEF ∧ rest.take 2 = [0xBB, 0xBF] then (.blank, 3)
  else if b = 0x27 then quoted .string
  else if b = 0x22 ∨ b = 0x60 then quoted .name
  else if b = 0x5B then
    let n := count (· ≠ 0x5D) rest
    if n < rest.length then (.name, n + 2) else (.illegal, n + 1)
  else if isDigit b ∨ (b = 0x2E ∧ rest.head?.any isDigit) then numeral (b :: rest)
  else if (b = 0x78 ∨ b = 0x58) ∧ rest.head? = some 0x27 then binary (rest.drop 1)
  else if isWordStart b then (.word, count isWordByte rest + 1)
  else if b = 0x3F then (.other, count isDigit rest + 1)
  else if b = 0x24 ∨ b = 0x40 ∨ b = 0x23 ∨ b = 0x3A then
    let (n, named) := parameterLength false rest
    (if named then .other else .illegal, n + 1)
  else
    match symbolLength (b :: rest) with
    | 0 => (.illegal, 1)
    | n => (.symbol, n)

/-- The tokens of a text, without blanks, behind those read before, last one first. -/
def tokensInto (done : List Token) (t : Text) : List Token :=
  match t with
  | [] => done.reverse
  | b :: rest =>
    let (kind, length) := tokenAt b rest
    let token : Token := ⟨kind, b :: rest.take (length - 1)⟩
    tokensInto (if kind = .blank then done else token :: done) (rest.drop (length - 1))
termination_by t.length
decreasing_by simp only [List.length_drop, List.length_cons]; omega

/-- The tokens of a text. -/
def tokens (t : Text) : List Token := tokensInto [] t

end StackVm.Sql
