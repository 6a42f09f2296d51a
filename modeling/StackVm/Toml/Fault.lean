/-
What can be wrong with a settings file.
-/
import StackVm.Text.Utf8

namespace StackVm.Toml

/-- The first thing that is wrong with a settings file. -/
inductive Fault where
  /-- It does not follow the rules in some other way. -/
  | malformed
  /-- No digit follows the mark of a base; `shown` is the mark and what follows it. -/
  | noDigit (base : Nat) (shown : Text)
  /-- What follows a backslash in a string is no escape. -/
  | noEscape (shown : Text)
  deriving DecidableEq, Repr

/-- The name of the numbers of a base. -/
def baseName (base : Nat) : Text :=
  if base = 2 then "a binary number"
  else if base = 8 then "an octal number"
  else "a hexadecimal number"

/-- The text of a fault.  What it shows of the file may be a line end. -/
def Fault.message : Fault → Text
  | .malformed => "malformed settings"
  | .noDigit base shown => "not " ++ baseName base ++ ": '" ++ shown ++ "'"
  | .noEscape shown => "invalid escape in string '\\" ++ shown ++ "'"

/-- A result that is missing only if the file is malformed. -/
def orMalformed {α : Type} : Option α → Except Fault α
  | some a => .ok a
  | none => .error .malformed

/-- The first character of a text. -/
def firstCharacter : Text → Text
  | [] => []
  | a :: rest => a :: rest.take (Text.runeAt a rest).2

end StackVm.Toml
