/-
The hold that stores have on a database: a cache of its own for each store, or one
that stores share.
-/
import StackVm.Database.Carrier
import StackVm.Database.Contents
import StackVm.Files.Tree

namespace StackVm

/-- How a change can be undone while it is being made. -/
inductive Journal where
  /-- A file that is deleted when the change is complete. -/
  | delete
  /-- A file that is made empty. -/
  | truncate
  /-- A file of which the start is made void. -/
  | persist
  | memory
  | off
  deriving DecidableEq, Repr

/-- Whether a journal is a file. -/
def Journal.isFile : Journal → Bool
  | .delete | .truncate | .persist => true
  | .memory | .off => false

/-- A lock on a database. -/
inductive Lock where
  | none
  /-- The others may read. -/
  | shared
  /-- The others may read, and a change is being made. -/
  | reserved
  /-- The others may do nothing. -/
  | exclusive
  deriving DecidableEq, Repr

/-- The strength of a lock. -/
def Lock.strength : Lock → Nat
  | .none => 0
  | .shared => 1
  | .reserved => 2
  | .exclusive => 3

/-- The stronger of two locks. -/
def Lock.max (a b : Lock) : Lock := if a.strength < b.strength then b else a

/-- A transaction: a change that is not complete. -/
structure Transaction where
  /-- What the database will hold, if anything was changed. -/
  contents : Option Contents := none
  deriving DecidableEq, Repr

/-- A hold on a database. -/
structure Cache where
  place : Place := []
  /-- What stores find it by that ask for a shared one. -/
  key : Option (Text × Text) := none
  /-- How many stores use it. -/
  users : Nat := 1
  isReadOnly : Bool := false
  /-- Whether the database is taken never to change. -/
  isFixed : Bool := false
  carrier : Carrier := .disk
  /-- Whether there is a log. -/
  usesLog : Bool := false
  journal : Journal := .delete
  /-- Whether a lock is kept once it is taken. -/
  keepsLock : Bool := false
  lock : Lock := .none
  /-- The transaction that was begun. -/
  transaction : Option Transaction := none
  /-- The most pages that the database may have. -/
  maxPages : Nat := 0xFFFFFFFE
  /-- The size of the pages of a database that is made. -/
  pageSize : Nat := 4096
  /-- Whether a database that is made gives back free pages. -/
  isCompact : Bool := false
  /-- The names of the rows and their numbers, as they were when a database that is taken
  never to change was first looked at. -/
  seenNames : Option (List (Text × Nat)) := none
  /-- The rows as they were then. -/
  seenRows : Option (List Row) := none
  /-- How many rows the last complete change touched. -/
  changes : Nat := 0
  deriving DecidableEq, Repr, Inhabited

namespace Cache

/-- Whether changes can go to a log: who keeps the lock needs no index to it that others
can read. -/
def canLog (c : Cache) : Bool := c.keepsLock || c.carrier.canLog

/-- Whether the index to the log is a file. -/
def hasIndex (c : Cache) : Bool := !c.keepsLock && c.carrier = .disk

/-- Whether others cannot read the database.  A lock that is a file is one for all. -/
def keepsOut (c : Cache) : Bool :=
  if c.carrier = .lockFile then c.lock ≠ .none else c.lock = .exclusive

end Cache

end StackVm
