/-
Quoted texts: a text between double quotes with everything that is not
printable written as an escape.
-/
import StackVm.Text.Utf8
import StackVm.Text.Printable

namespace StackVm.Text

/-- The letter after the backslash for the characters that have a short escape. -/
def shortEscape? (c : Nat) : Option UInt8 :=
  match c with
  | 0x07 => some 0x61
  | 0x08 => some 0x62
  | 0x0C => some 0x66
  | 0x0A => some 0x6E
  | 0x0D => some 0x72
  | 0x09 => some 0x74
  | 0x0B => some 0x76
  | 0x5C => some 0x5C
  | 0x22 => some 0x22
  | _ => none

/-- How one rune is written between the quotes.  A stray byte is escaped as a
byte, while a replacement character that is really there stands for itself. -/
def escapeRune : Rune → Text
  | .stray b => "\\x" ++ hexLower 2 b.toNat
  | .point c =>
    match shortEscape? c with
    | some letter => [0x5C, letter]
    | none =>
      if isPrintable c then encodeRune c
      else if c < 0x20 ∨ c = 0x7F then "\\x" ++ hexLower 2 c
      else if c < 0x10000 then "\\u" ++ hexLower 4 c
      else "\\U" ++ hexLower 8 c

/-- A text in double quotes. -/
def quoted (t : Text) : Text := 0x22 :: (runes t).flatMap escapeRune ++ [0x22]

end StackVm.Text
