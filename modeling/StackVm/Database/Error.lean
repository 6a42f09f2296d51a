/-
Why a database refuses work.
-/
import StackVm.Text.Basic

namespace StackVm

/-- Why a database refuses work. -/
inductive DatabaseError where
  /-- A statement has no meaning; the text says why. -/
  | logic (reason : Text)
  /-- Someone else has a lock on the database. -/
  | locked
  /-- The transaction that was begun is in the way. -/
  | lockedTable
  | readOnly
  /-- A change was left half done and cannot be undone, as nothing may be written. -/
  | unfinished
  /-- A file beside the database cannot be read. -/
  | unreadable
  /-- A file beside the database cannot be deleted. -/
  | undeletable
  /-- The file of the database cannot be locked. -/
  | unlockable
  /-- The file has the form of a database, but what is in it makes no sense. -/
  | malformed
  /-- The database has as many pages as it may have. -/
  | full
  | cannotOpen
  | notDatabase
  deriving DecidableEq, Repr

namespace DatabaseError

/-- The number of an error. -/
def code : DatabaseError → Nat
  | .logic _ => 1
  | .locked => 5
  | .lockedTable => 6
  | .readOnly => 8
  | .unfinished => 776
  | .unreadable => 266
  | .undeletable => 2570
  | .unlockable => 3850
  | .malformed => 11
  | .full => 13
  | .cannotOpen => 14
  | .notDatabase => 26

/-- The text of an error without its number. -/
def text : DatabaseError → Text
  | .logic reason => "SQL logic error: " ++ reason
  | .locked => "database is locked"
  | .lockedTable => "database table is locked"
  | .readOnly | .unfinished => "attempt to write a readonly database"
  | .unreadable | .undeletable | .unlockable => "disk I/O error"
  | .malformed => "database disk image is malformed"
  | .full => "database or disk is full"
  | .cannotOpen => "unable to open database file"
  | .notDatabase => "file is not a database"

/-- The text of an error.  A lock is named a second time. -/
def message (e : DatabaseError) : Text :=
  let again := if e = .locked then Text.ofString " (SQLITE_BUSY)" else []
  e.text ++ " (" ++ Text.ofNat e.code ++ ")" ++ again

end DatabaseError

end StackVm
