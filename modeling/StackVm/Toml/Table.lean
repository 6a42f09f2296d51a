/-
The tables that a settings file describes.

A table can come into being as the parent of another one before its own header or
its own assignment is seen; such a table is implicit and may be declared once
later.  Everything else is declared once only.  An implicit name under which an
array was given does not keep its value: what is declared later takes its place.
-/
import Std.Data.HashSet
import StackVm.Toml.Statement

namespace StackVm.Toml

/-- A value in a table. -/
inductive Node where
  | scalar (s : Scalar)
  | array (items : List Node)
  | table (entries : List (Text × Node))
  /-- An array whose elements have headers of their own, last one first. -/
  | tables (elements : List (List (Text × Node)))

/-- A table: values under distinct names, in order of their first mention. -/
abbrev Table := List (Text × Node)

namespace Table

/-- Sets the value under a name. -/
def set (t : Table) (name : Text) (v : Node) : Table :=
  match t with
  | [] => [(name, v)]
  | (n, old) :: rest => if n = name then (n, v) :: rest else (n, old) :: set rest name v

/-- Sets a value below tables that are made where they are missing; fails where
something else than a table is in the way. -/
def setBelow (t : Table) (v : Node) (name : Text) : Key → Option Table
  | [] => some (t.set name v)
  | outer :: rest =>
    match t.lookup outer with
    | none => (setBelow [] v name rest).map fun inner => t.set outer (.table inner)
    | some (.table inner) =>
      (setBelow inner v name rest).map fun inner => t.set outer (.table inner)
    | some _ => none

/-- The tables of a key, one inside the other. -/
def nest : Key → Node
  | [] => .table []
  | name :: rest => .table [(name, nest rest)]

/-- Makes the tables on the way to a key that are missing, and counts those that
are not.  Fails where something else than a table is in the way. -/
def complete : Key → Table → Option (Table × Nat)
  | [], t => some (t, 0)
  | name :: rest, t =>
    match t.lookup name with
    | none => some (t.set name (nest rest), 0)
    | some (.table inner) =>
      (complete rest inner).map fun (inner, n) => (t.set name (.table inner), n + 1)
    | some (.tables (last :: earlier)) =>
      (complete rest last).map fun (last, n) => (t.set name (.tables (last :: earlier)), n + 1)
    | some _ => none

/-- Changes the table a key leads to; the last element stands for an array of tables. -/
def modifyAt (f : Table → Option Table) : Key → Table → Option Table
  | [], t => f t
  | name :: rest, t =>
    match t.lookup name with
    | some (.table inner) => (modifyAt f rest inner).map fun inner => t.set name (.table inner)
    | some (.tables (last :: earlier)) =>
      (modifyAt f rest last).map fun last => t.set name (.tables (last :: earlier))
    | _ => none

/-- The table a key leads to. -/
def at? : Key → Table → Option Table
  | [], t => some t
  | name :: rest, t =>
    match t.lookup name with
    | some (.table inner) => at? rest inner
    | some (.tables (last :: _)) => at? rest last
    | _ => none

end Table

/-- The tables that the statements so far describe. -/
structure Document where
  root : Table := []
  /-- The keys of the tables that have not been declared yet. -/
  implicit : Std.HashSet Key := ∅
  /-- The keys under which an array was given last, in whatever element of an array
  of tables. -/
  arrays : Std.HashSet Key := ∅
  /-- The table that assignments belong to. -/
  current : Key := []

namespace Document

/-- Marks a key as not declared yet. -/
def allow (d : Document) (key : Key) : Document :=
  { d with implicit := d.implicit.insert key }

/-- Notes whether an array is given under a name of the current table.  For the
empty name this is noted of the table itself, unless that is the outermost one. -/
def note (d : Document) (name : Text) (isArray : Bool) : Document :=
  let key := if name = [] ∧ d.current ≠ [] then d.current else d.current ++ [name]
  { d with arrays := if isArray then d.arrays.insert key else d.arrays.erase key }

/-- Puts a value under a name of the current table.  A name that has a value must
be implicit; it keeps its value unless an array was given under it. -/
def declare (d : Document) (name : Text) (v : Node) : Option Document := do
  let key := d.current ++ [name]
  let t ← Table.at? d.current d.root
  let put (d : Document) : Option Document := do
    return { d with root := ← Table.modifyAt (fun t => some (t.set name v)) d.current d.root }
  match t.lookup name with
  | none => put d
  | some _ =>
    if d.implicit.contains key then
      let d := { d with implicit := d.implicit.erase key }
      if d.arrays.contains key then put d else some d
    else none

/-- Makes the tables of a key that are missing, which are implicit. -/
def openParents (d : Document) (key : Key) : Option Document := do
  let (root, known) ← Table.complete key d.root
  let made := (List.range' (known + 1) (key.length - known)).map key.take
  return { d with root, implicit := made.foldl (·.insert) d.implicit }

/-- Appends an empty table to the array under a name of the current table. -/
def appendElement (d : Document) (name : Text) : Option Document := do
  let append (t : Table) : Option Table :=
    match t.lookup name with
    | none => some (t.set name (.tables [[]]))
    | some (.tables elements) => some (t.set name (.tables ([] :: elements)))
    | some _ => none
  return { d with root := ← Table.modifyAt append d.current d.root }

/-- Enters the table of a key, or a new last element of the array of a key. -/
def enter (d : Document) (key : Key) (element : Bool) : Option Document := do
  let name ← key.getLast?
  let d ← d.openParents key.dropLast
  let d := { d with current := key.dropLast }
  let d ← if element then d.appendElement name else d.declare name (.table [])
  return { d with current := key }

/-- Enters the tables that the front of a dotted key names, one inside the other. -/
def enterAll (d : Document) : Key → Option Document
  | [] => some d
  | name :: rest => do
    let key := d.current ++ [name]
    let d ← (d.allow key).enter key false
    d.enterAll rest

mutual

/-- Evaluates the value that is being assigned to a name of the current table. -/
def evaluate (d : Document) (name : Text) (inArray : Bool) : Expr → Option (Document × Node)
  | .scalar s => some (d, .scalar s)
  | .array items => do
    let (d, nodes) ← evaluateAll (d.note name true) name items
    return (d, .array nodes)
  | .table pairs => do
    let outer := d.current
    let key := outer ++ [name]
    let d ← (d.allow key).enter key inArray
    let (d, t) ← assignAll d [] pairs
    return ({ d with current := outer }, .table t)

/-- Evaluates the items of an array. -/
def evaluateAll (d : Document) (name : Text) : List Expr → Option (Document × List Node)
  | [] => some (d, [])
  | e :: rest => do
    let (d, node) ← evaluate d name true e
    let (d, nodes) ← evaluateAll d name rest
    return (d, node :: nodes)

/-- Carries out assignments in the current table, and gives the table `t` with the
assigned values and nothing else added. -/
def assignAll (d : Document) (t : Table) : List (Key × Expr) → Option (Document × Table)
  | [] => some (d, t)
  | (key, e) :: rest => do
    let outer := d.current
    let name ← key.getLast?
    let d ← d.enterAll key.dropLast
    let (d, v) ← evaluate d name false e
    let d ← d.declare name v
    let d := d.note name e.isArray
    let t ← t.setBelow v name key.dropLast
    assignAll { d with current := outer } t rest

end

/-- Carries out a statement. -/
def add (d : Document) : Statement → Option Document
  | .header key => return (← d.enter key false).note [] false
  | .element key => return (← d.enter key true).note [] false
  | .assign key value => return (← d.assignAll [] [(key, value)]).1

end Document

/-- The outermost table of a settings file, or what is wrong with the file. -/
def parse (t : Text) : Except Fault Table := do
  let script := readScript t
  let d ← orMalformed (script.statements.foldlM Document.add {})
  match script.stop with
  | none => return d.root
  | some stop => throw (if (d.enterAll stop.entered).isSome then stop.fault else .malformed)

end StackVm.Toml
