/-
Connections to databases, and how rows are put, found and removed through them.
-/
import StackVm.Database.Access

namespace StackVm

/-- A connection to a database. -/
structure Connection where
  /-- The hold on the database. -/
  cache : Nat
  /-- Whether nothing may be written through it. -/
  isQueryOnly : Bool := false
  /-- Whether a change gives the number of rows it touched as a row, and so before it is
  complete. -/
  givesCount : Bool := false
  /-- How texts are written in a database that is made through it. -/
  encoding : Encoding := .utf8
  /-- Whether it was seen that the database settles how texts are written. -/
  isSettled : Bool := false
  deriving DecidableEq, Repr

namespace Connection

open FileSystem

/-- Reads a database that is about to be changed. -/
def claim (c : Connection) : DatabaseM Contents :=
  if c.isQueryOnly then throw .readOnly else FileSystem.claim c.cache

/-- Changes what a database holds. -/
def update (c : Connection) (f : Contents → Contents) : DatabaseM Unit := do
  change c.cache (f (← c.claim))

/-- Looks at the database, and notes whether it settles how texts are written. -/
def see (c : Connection) : DatabaseM (Connection × Contents) := do
  let p ← look c.cache
  return ({ c with isSettled := c.isSettled || p.encoding.isSome }, p)

/-- Changes the hold on the database. -/
def adjust (c : Connection) (f : Cache → Cache) : DatabaseM Unit :=
  modify fun fs => fs.setCache c.cache (f (fs.cache c.cache))

/-- Notes how many rows a change touched, and gives the number that is reported. -/
def report (c : Connection) (touched : Nat) : DatabaseM Nat := do
  let before := ((← get).cache c.cache).changes
  c.adjust fun h => { h with changes := touched }
  return if c.givesCount then before else touched

/-- The table of images. -/
def tableName : Text := "images"

/-- A name in small letters. -/
def lowered (t : Text) : Text := t.map Text.lowerByte

/-- Fails for a table that is not there. -/
def noTable {α : Type} (schema : Option Text) (name : Text) : DatabaseM α :=
  let front := match schema with
    | some s => s ++ "."
    | none => []
  throw (.logic ("no such table: " ++ front ++ name))

/-- What a database holds that has the table of images. -/
def withTable (p : Contents) : DatabaseM Contents :=
  if p.hasTable then return p else noTable none tableName

/-- Removes the rows of the table of images that have a name, or all. -/
def remove (c : Connection) (name : Option Text) : DatabaseM Nat := do
  let p ← withTable (← c.claim)
  let rest := match name with
    | some name => p.erase name
    | none => { p with rows := [] }
  if name.isNone ∨ rest.rows.length < p.rows.length then change c.cache rest
  else leave c.cache
  c.report (p.rows.length - rest.rows.length)

/-- Makes the table of images if it is not there. -/
def prepare (c : Connection) : DatabaseM Unit := do
  let p ← readContents c.cache
  if !p.hasTable then
    let fs ← get
    let node := fs.node? (fs.cache c.cache).place
    if !c.isQueryOnly ∧ !(fs.cache c.cache).isReadOnly ∧ !isForeign Foreign.isReadOnly node ∧
        isForeign (!Foreign.hasRoom ·) node then
      throw .malformed
    c.update (·.makeTable c.encoding)

/-- Puts a row under a name. -/
def put (c : Connection) (name digest data : Text) (updated : Nat) : DatabaseM Unit := do
  let p ← withTable (← c.claim)
  change c.cache (p.put name digest data updated)
  let _ ← c.report 1

/-- The names of rows and their numbers. -/
def numbered (rows : List Row) : List (Text × Nat) := rows.map fun r => (r.name, r.number)

/-- The names of a database that is taken never to change, which are noted once. -/
def namesSeen (c : Connection) (p : Contents) : DatabaseM (List (Text × Nat)) := do
  let h := (← get).cache c.cache
  let names := h.seenNames.getD (numbered p.rows)
  c.adjust fun h => { h with seenNames := some names }
  return names

/-- The row of a number in a database that is taken never to change, of which the rows
are noted once. -/
def rowSeen (c : Connection) (p : Contents) (number : Nat) : DatabaseM Row := do
  let h := (← get).cache c.cache
  let rows := h.seenRows.getD p.rows
  c.adjust fun h => { h with seenRows := some rows }
  match rows.find? (·.number = number) with
  | some row => return row
  | none => throw .malformed

/-- The row of a name. -/
def find (c : Connection) (name : Text) : DatabaseM (Option Row) := do
  let p ← withTable (← readContents c.cache)
  if ((← get).cache c.cache).isFixed then
    match (← c.namesSeen p).lookup (p.writing.kept name) with
    | some number => return some (← c.rowSeen p number)
    | none => return none
  else return p.find name

/-- The rows in ascending order of names. -/
def rows (c : Connection) : DatabaseM (List Row) := do
  let p ← withTable (← readContents c.cache)
  if ((← get).cache c.cache).isFixed then
    let names ← c.namesSeen p
    names.mapM fun (_, number) => c.rowSeen p number
  else return p.rows

end Connection

end StackVm
