/-
Input lines.  A line ends with a newline, and what follows the last newline is a
line too unless it is empty.  A line is handed out without its newline and
without one carriage return before it.
-/
import StackVm.Text.Basic

namespace StackVm.Input

/-- The line without one carriage return at its end. -/
def trimReturn (line : Text) : Text :=
  if line.getLast? = some 0x0D then line.dropLast else line

/-- The next line of what is left to read, and what is left after it; no line at the end. -/
def nextLine (pending : Text) : Option Text × Text :=
  match pending with
  | [] => (none, [])
  | _ => (some (trimReturn (pending.takeWhile (· ≠ 0x0A))), (pending.dropWhile (· ≠ 0x0A)).drop 1)

end StackVm.Input
