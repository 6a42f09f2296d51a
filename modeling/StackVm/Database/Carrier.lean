/-
What carries a database: files with locks of different kinds, or memory.
-/
import StackVm.Text.Basic

namespace StackVm

/-- What carries a database. -/
inductive Carrier where
  | disk
  /-- Files without locks. -/
  | unlocked
  /-- Files with locks that are files themselves. -/
  | lockFile
  /-- Files of which nobody else has the use. -/
  | alone
  | memory
  deriving DecidableEq, Repr, Inhabited

namespace Carrier

/-- The carriers by their names. -/
def names : List (String × Carrier) :=
  [("unix", .disk), ("unix-none", .unlocked), ("unix-dotfile", .lockFile), ("unix-excl", .alone),
   ("memdb", .memory)]

/-- The carrier of a name. -/
def ofName? (name : Text) : Option Carrier :=
  (names.find? fun (n, _) => Text.ofString n = name).map (·.2)

/-- The text by which databases of different carriers are told apart. -/
def tag (c : Carrier) : Text := ((names.find? (·.2 = c)).map fun (n, _) => Text.ofString n).getD []

/-- Whether changes to databases can go to a log that others may read. -/
def canLog : Carrier → Bool
  | .disk | .alone => true
  | _ => false

/-- Whether the locks of one carrier are locks for another. -/
def heeds : Carrier → Carrier → Bool
  | .disk, .disk | .disk, .alone | .alone, .disk | .alone, .alone => true
  | .lockFile, .lockFile | .memory, .memory => true
  | _, _ => false

end Carrier

end StackVm
