/-
Reading and changing databases.

Beside the file of a database there may be three more: a journal, with which a change
can be undone that was left half done; a log, to which changes go first when the
database says so; and an index to the log.  Whoever reads a database looks at the
journal and the log first.
-/
import StackVm.Database.Error
import StackVm.Database.Foreign
import StackVm.Database.Pages
import StackVm.Files.System

namespace StackVm

/-- Work on databases, which may have changed files when it fails. -/
abbrev DatabaseM := EStateM DatabaseError FileSystem

namespace FileSystem

/-- A hold on a database. -/
def cache (fs : FileSystem) (id : Nat) : Cache := (fs.caches.lookup id).getD default

/-- Changes a hold on a database. -/
def setCache (fs : FileSystem) (id : Nat) (c : Cache) : FileSystem :=
  { fs with caches := fs.caches.map fun (n, old) => (n, if n = id then c else old) }

/-- Takes hold of a database. -/
def addCache (fs : FileSystem) (c : Cache) : FileSystem × Nat :=
  ({ fs with caches := (fs.issued, c) :: fs.caches, issued := fs.issued + 1 }, fs.issued)

/-- The other holds on the database of one whose locks matter to it. -/
def others (fs : FileSystem) (id : Nat) : List Cache :=
  let own := fs.cache id
  (fs.caches.filter fun (n, c) =>
    n ≠ id ∧ c.place = own.place ∧ own.carrier.heeds c.carrier ∧ !own.isFixed ∧
      !c.isFixed).map (·.2)

/-- The place beside another one whose name has something more at its end. -/
def beside (place : Place) (ending : Text) : Place :=
  place.dropLast ++ [place.getLast?.getD [] ++ ending]

/-- The place of the journal of a database. -/
def journalOf (place : Place) : Place := beside place "-journal"

/-- The place of the log of a database. -/
def logOf (place : Place) : Place := beside place "-wal"

/-- The place of the index to the log of a database. -/
def indexOf (place : Place) : Place := beside place "-shm"

/-- Whether nothing is at a place, or an empty file. -/
def isVacant : Option Node → Bool
  | none => true
  | some (.file data) => data.isEmpty
  | some _ => false

/-- Whether what is at a place is a database without pages. -/
def isBlank : Option Node → Bool
  | none => true
  | some (.file data) => Foreign.isEmpty data
  | some _ => false

/-- Whether the start of a journal was made void. -/
def isVoid : Node → Bool
  | .file data => data.head? = some 0
  | _ => false

/-- Leaves nothing at a place where something is. -/
def clear (fs : FileSystem) (place : Place) : FileSystem :=
  if (fs.node? place).isSome then fs.removeNode place else fs

/-- Puts a file at a place where nothing is. -/
def provide (fs : FileSystem) (place : Place) (data : Text) : FileSystem :=
  if (fs.node? place).isSome then fs else fs.setNode place (.file data)

/-- What a database holds, as it is seen through a hold on it. -/
def contentsOf (fs : FileSystem) (c : Cache) : Except DatabaseError Contents :=
  match c.transaction.bind (·.contents), fs.node? (logOf c.place), fs.node? c.place with
  | some p, _, _ => .ok p
  | none, log, node =>
    match if c.usesLog then log else none, node with
    | some (.log p), _ | _, some (.database p) => .ok p
    | _, some (.file data) =>
      if Foreign.isEmpty data then .ok { pageSize := c.pageSize, isCompact := c.isCompact }
      else Foreign.contents data
    | _, _ => .ok {}

/-- Whether a hold looks at the files beside a database: that is in a file, and may
change. -/
def looksBeside (c : Cache) : Bool := !isInMemory c.place && !c.isFixed

/-- Undoes what the journal of a database says.  Where locks are files, it seems to be one
of a change that is being made. -/
def settleJournal (id : Nat) : DatabaseM Unit := do
  let fs ← get
  let c := fs.cache id
  let place := journalOf c.place
  match fs.node? place with
  | none => return
  | some node =>
    if isVacant (some node) ∨ c.carrier = .lockFile ∨
        (fs.others id).any (1 < ·.lock.strength) then return
    else if isBlank (fs.node? c.place) then
      if !c.isReadOnly ∧ node ≠ .directory then set (fs.clear place)
    else if node = .directory then throw .unreadable
    else if isVoid node then return
    else if c.isReadOnly then throw .unfinished
    else set (fs.clear place)

/-- Opens the log of a database, which is made if it is missing. -/
def openLog (id : Nat) : DatabaseM Unit := do
  let fs ← get
  let c := fs.cache id
  if fs.node? (logOf c.place) = some .directory ∨ !c.canLog then throw .cannotOpen
  if c.keepsLock ∧ (fs.others id).any (·.usesLog) then throw .locked
  let fs := fs.provide (logOf c.place) []
  let fs := if c.hasIndex then fs.provide (indexOf c.place) [0] else fs
  let lock := if c.keepsLock then .exclusive else c.lock
  set (fs.setCache id { c with usesLog := true, lock })

/-- Takes notice of a log beside a database. -/
def settleLog (id : Nat) : DatabaseM Unit := do
  let fs ← get
  let c := fs.cache id
  let place := logOf c.place
  let node := fs.node? place
  if isVacant node then return
  else if isBlank (fs.node? c.place) then
    if node = some .directory then throw .undeletable else set (fs.clear place)
  else openLog id

/-- Strengthens the lock that a hold has on a database, if it keeps one. -/
def keepLock (id : Nat) (inTransaction kept : Lock) : DatabaseM Unit :=
  modify fun fs =>
    let c := fs.cache id
    if c.keepsLock then fs.setCache id { c with lock := c.lock.max kept }
    else if c.transaction.isSome then fs.setCache id { c with lock := c.lock.max inTransaction }
    else fs

/-- What a database holds, at a look that leaves no lock behind in a transaction. -/
def look (id : Nat) : DatabaseM Contents := do
  let fs ← get
  let c := fs.cache id
  if c.lock = .none then
    if (fs.others id).any (·.keepsOut) then throw .locked
    if looksBeside c then
      settleJournal id
      settleLog id
  let fs ← get
  match fs.contentsOf (fs.cache id) with
  | .error e => throw e
  | .ok p =>
    if p.isLogged ∧ looksBeside c ∧ !(fs.cache id).usesLog then openLog id
    keepLock id .none .shared
    return p

/-- Reads a database. -/
def readContents (id : Nat) : DatabaseM Contents := do
  let p ← look id
  keepLock id .shared .shared
  return p

/-- Whether a log cannot be written, as its index is no file. -/
def isLogStuck (fs : FileSystem) (c : Cache) : Bool :=
  c.usesLog && c.hasIndex && fs.node? (indexOf c.place) = some .directory

/-- Whether what is at a place is a file that is taken for a database and has a property. -/
def isForeign (p : Text → Bool) : Option Node → Bool
  | some (.file data) => !Foreign.isEmpty data && p data
  | _ => false

/-- Reads a database that is about to be changed. -/
def claim (id : Nat) : DatabaseM Contents := do
  let fs ← get
  let c := fs.cache id
  if c.isReadOnly then throw .readOnly
  let p ← look id
  if isForeign Foreign.isReadOnly (fs.node? c.place) then throw .readOnly
  let fs ← get
  if fs.isLogStuck (fs.cache id) then throw .readOnly
  if (fs.others id).any (1 < ·.lock.strength) then throw .locked
  keepLock id .reserved .shared
  return p

/-- Whether a change that is made through a hold has a journal that is a file. -/
def usesJournal (c : Cache) : Bool := c.journal.isFile && !c.usesLog && !isInMemory c.place

/-- Sees to it that there can be a journal for a change. -/
def openJournal (id : Nat) : DatabaseM Unit := do
  let fs ← get
  let c := fs.cache id
  let place := journalOf c.place
  if usesJournal c ∧ (maxName < (place.getLast?.getD []).length ∨
      fs.node? place = some .directory) then
    throw .cannotOpen

/-- Leaves the journal of a change that is complete or undone. -/
def leaveJournal (fs : FileSystem) (c : Cache) : FileSystem :=
  let place := journalOf c.place
  if !usesJournal c then fs
  else if c.journal = .delete then fs.clear place
  else fs.setNode place (.file (if c.journal = .truncate then [] else [0]))

/-- Keeps everyone else from a database, unless changes go to a log.  Whoever keeps locks
keeps this one even if it takes effect for new readers only. -/
def exclude (id : Nat) : DatabaseM Unit := do
  let fs ← get
  if !(fs.cache id).usesLog ∧ (fs.others id).any (0 < ·.lock.strength) then
    keepLock id .none .exclusive
    throw .locked

/-- Writes what a database holds to its file or its log. -/
def write (id : Nat) (p : Contents) : DatabaseM Unit := do
  exclude id
  let fs ← get
  let c := fs.cache id
  if c.usesLog then set (fs.setNode (logOf c.place) (.log p))
  else
    openJournal id
    modify fun fs => (fs.leaveJournal c).setNode c.place (.database p)
  keepLock id .exclusive .exclusive

/-- Changes what a database holds, after it was claimed. -/
def change (id : Nat) (p : Contents) : DatabaseM Unit := do
  let fs ← get
  let c := fs.cache id
  if c.maxPages < p.pages then throw .full
  if c.transaction.isSome then
    openJournal id
    set (fs.setCache id { c with transaction := some ⟨some p⟩ })
    keepLock id .reserved .reserved
  else write id p

/-- Ends work on a database that was claimed and stays as it is. -/
def leave (id : Nat) : DatabaseM Unit := do
  if ((← get).cache id).transaction.isNone then
    exclude id
    keepLock id .none .exclusive

/-- Sees to it that a database that is about to be changed has a page. -/
def claimPage (id : Nat) : DatabaseM Unit := do
  let p ← claim id
  let fs ← get
  let c := fs.cache id
  if isBlank (fs.node? c.place) ∧ (c.transaction.bind (·.contents)).isNone then change id p
  else leave id

/-- Ends the transaction of a hold. -/
def endTransaction (fs : FileSystem) (id : Nat) : FileSystem :=
  let c := fs.cache id
  let fs := if (c.transaction.bind (·.contents)).isSome then fs.leaveJournal c else fs
  fs.setCache id { c with transaction := none, lock := if c.keepsLock then c.lock else .none }

/-- Carries the log of a database over to its file, and leaves no log. -/
def carryOver (fs : FileSystem) (place : Place) : FileSystem :=
  let fs :=
    match fs.node? (logOf place) with
    | some (.log p) => fs.setNode place (.database p)
    | _ => fs
  let fs := fs.clear (logOf place)
  if fs.node? (indexOf place) = some .directory then fs else fs.clear (indexOf place)

/-- Whether the log of a database stays when the last hold on it is given up. -/
def leavesLog (fs : FileSystem) (c : Cache) : Bool :=
  c.isReadOnly || fs.isLogStuck c

/-- Gives up a hold on a database for one of its users.  With the last user goes what
is only held in memory, and with the last hold the log. -/
def release (fs : FileSystem) (id : Nat) : FileSystem :=
  let c := fs.cache id
  if 1 < c.users then fs.setCache id { c with users := c.users - 1 }
  else
    let others := fs.others id
    let fs := fs.endTransaction id
    let fs := { fs with caches := fs.caches.filter (·.1 ≠ id) }
    if isInMemory c.place then
      if fs.caches.any (·.2.place = c.place) then fs else fs.clear c.place
    else if c.usesLog ∧ !others.any (·.usesLog) ∧ !fs.leavesLog c then fs.carryOver c.place
    else fs

end FileSystem

end StackVm
