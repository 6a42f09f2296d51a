/-
What the path of a database asks for.

A path may carry settings behind a question mark, may be written as a `file:`
address, and may ask for a database that is only held in memory.  A database in a
file is found by the text of its path: a step up undoes the name before it, also
when that name leads nowhere.
-/
import StackVm.Database.Access
import StackVm.Database.Setting
import StackVm.Text.Query
import StackVm.Text.Quoted

namespace StackVm

/-- Why a database cannot be asked for. -/
inductive LocationError where
  | query (error : Text.QueryError)
  /-- The settings name different ways to reach files. -/
  | conflict (carriers : List Text)
  /-- An address or one of its settings has no meaning. -/
  | meaningless
  /-- An address asks for more than it allowed before. -/
  | denied
  /-- A directory stands in place of the database, or the file whose permissions are to be
  taken over is not there. -/
  | unreadable
  | cannotOpen
  | unknownTimeFormat (value : Text)
  | unknownLock (value : Text)
  deriving DecidableEq, Repr

/-- The text of such a reason. -/
def LocationError.message : LocationError → Text
  | .query (.badEscape shown) => "invalid URL escape " ++ Text.quoted shown
  | .query .semicolon => "invalid semicolon separator in query"
  | .conflict carriers =>
    "conflicting vfs query parameters: [" ++ Text.join [0x20] carriers ++ "]"
  | .meaningless => "SQL logic error: out of memory (1)"
  | .denied => "access permission denied: out of memory (3)"
  | .unreadable => "disk I/O error: out of memory (10)"
  | .cannotOpen => "unable to open database file: out of memory (14)"
  | .unknownTimeFormat value => "unknown _time_format " ++ Text.quoted value
  | .unknownLock value => "unknown _txlock " ++ Text.quoted value

/-- What may be done with a database. -/
inductive Access where
  /-- It is made if it is missing. -/
  | create
  | write
  | read
  /-- It is held in memory. -/
  | memory
  deriving DecidableEq, Repr

namespace Access

/-- The access of a name. -/
def ofName? (name : Text) : Option Access :=
  if name = "rwc" then some .create
  else if name = "rw" then some .write
  else if name = "ro" then some .read
  else if name = "memory" then some .memory
  else none

/-- How much an access asks for. -/
def demand : Access → Nat
  | .memory => 0
  | .read => 1
  | .write => 2
  | .create => 3

/-- How much may still be asked for after an access. -/
def allowance : Access → Nat
  | .memory => 3
  | a => a.demand

end Access

/-- What a path asks for. -/
structure Location where
  /-- The path of the file. -/
  name : Text
  carrier : Carrier := .disk
  access : Access := .create
  /-- Whether a hold on the database is shared. -/
  isShared : Bool := false
  /-- Whether the file is taken never to change. -/
  isFixed : Bool := false
  /-- The path of the file whose permissions a new file gets. -/
  model : Option Text := none
  /-- The settings to carry out once the database is open. -/
  pragmas : List Text := []
  /-- What is wrong with it, which only shows after that. -/
  trouble : Option LocationError := none
  deriving DecidableEq, Repr

namespace Location

/-- The start of an address. -/
def scheme : Text := "file:"

/-- What follows the computer in an address; none if that is a different one. -/
def afterHost? (t : Text) : Option Text :=
  match Text.after? [Path.slash, Path.slash] t with
  | none => some t
  | some t =>
    let host := t.takeWhile (· ≠ Path.slash)
    if host = [] ∨ host = "localhost" then some (t.dropWhile (· ≠ Path.slash)) else none

/-- Takes one setting of an address. -/
def apply (l : Location) (setting : Text × Text) : Except LocationError Location :=
  let (name, value) := setting
  if name = "mode" then
    match Access.ofName? value with
    | none => .error .meaningless
    | some access =>
      if l.access.allowance < access.demand then .error .denied else .ok { l with access }
  else if name = "cache" then
    if value = "shared" then .ok { l with isShared := true }
    else if value = "private" then .ok { l with isShared := false }
    else .error .meaningless
  else .ok l

/-- The value of a setting that counts where it is first given. -/
def first? (settings : List (Text × Text)) (name : String) : Option Text :=
  settings.lookup (Text.ofString name)

/-- The value of a setting that counts where it is last given. -/
def last? (settings : List (Text × Text)) (name : String) : Option Text :=
  settings.reverse.lookup (Text.ofString name)

/-- Reads an address, of which `t` is what stands after the scheme. -/
def ofAddress (carrier t : Text) : Except LocationError Location := do
  match afterHost? t with
  | none => throw .meaningless
  | some t =>
    let (path, settings) := Text.cut 0x3F (Text.cut 0x23 t).1
    let settings := Text.looseQuery (settings.getD [])
    let l ← settings.foldlM apply { name := Text.unescapeLoosely [] path }
    match Carrier.ofName? ((last? settings "vfs").getD carrier) with
    | none => throw .meaningless
    | some carrier =>
      return { l with
        carrier
        isFixed := (first? settings "immutable").any Setting.meansYes
        model := first? settings "modeof" }

/-- The values of a setting in a query. -/
def values (settings : List (Text × Text)) (name : Text) : List Text :=
  (settings.filter (·.1 = name)).map (·.2)

/-- The carrier that a query names; the standard one if it names none. -/
def carrierOf (settings : List (Text × Text)) : Except LocationError Text :=
  let names := values settings "vfs"
  match names.dropWhile (· = []) with
  | [] => .ok Carrier.disk.tag
  | name :: others =>
    if others.any (· ≠ name) then .error (.conflict names) else .ok (Text.cut 0 name).1

/-- A text without blanks at its ends. -/
def trimmed (t : Text) : Text :=
  ((t.dropWhile Sql.isBlank).reverse.dropWhile Sql.isBlank).reverse

/-- What settings are put in order by. -/
def orderKey (t : Text) : Text := trimmed (Text.lowered t)

/-- Whether a setting says how long to wait for locks. -/
def isPatience (t : Text) : Bool := (Text.after? "busy_timeout" (orderKey t)).isSome

/-- Settings in the order in which they are carried out: first how long to wait, the last
of those first, then the others by their text. -/
def inOrder (settings : List Text) : List Text :=
  (settings.filter isPatience).reverse ++
    (settings.filter (!isPatience ·)).mergeSort fun a b => !Text.before (orderKey b) (orderKey a)

/-- What is wrong with the settings that matter only once a database is open. -/
def troubleOf (settings : List (Text × Text)) : Option LocationError :=
  let format := (values settings "_time_format").headD []
  let lock := (values settings "_txlock").headD []
  let word := Text.lowered lock
  if format ≠ [] then if format = "sqlite" then none else some (.unknownTimeFormat format)
  else if lock = [] ∨ word = "deferred" ∨ word = "immediate" ∨ word = "exclusive" then none
  else some (.unknownLock lock)

/-- What a path asks for.  A question mark at its very start belongs to the name,
and so does a query in an address, where its settings count as well. -/
def read (path : Text) : Except LocationError Location := do
  let (front, behind) := Text.cut 0x3F path
  let behind := if front = [] then none else behind
  let settings ← (Text.query (behind.getD [])).mapError .query
  let carrier ← carrierOf settings
  -- A zero byte ends a name.
  let l ←
    match Text.after? scheme path with
    | some t => ofAddress carrier (Text.cut 0 t).1
    | none =>
      match Carrier.ofName? carrier with
      | some carrier =>
        .ok { name := (Text.cut 0 (if behind.isSome then front else path)).1, carrier }
      | none => .error .meaningless
  return { l with
    pragmas := inOrder (values settings "_pragma")
    trouble := troubleOf settings }

/-- Whether a database is held by the memory of its hold alone. -/
def isHeld (l : Location) : Bool := l.name = [] ∨ l.name = ":memory:" ∨ l.access = .memory

/-- The longest path of a database. -/
def maxPath : Nat := 512

/-- What is put behind the path of a database for the file that keeps track of
changes. -/
def companion : Text := "-journal"

/-- The length of the path of a place. -/
def pathLength (place : Place) : Nat := place.foldl (fun n name => n + name.length + 1) 0

/-- Follows one name of a database path.  A missing place may be stepped out of; one
that cannot be there is refused. -/
def append (fs : FileSystem) (place : Place) (name : Text) : Option Place :=
  if name = Path.dotDot then some place.dropLast
  else if maxPath < pathLength place + name.length + 2 then none
  else
    match fs.follow place name with
    | .ok _ | .error .notFound => some (place ++ [name])
    | .error _ => none

/-- The place of a database in a file. -/
def place? (fs : FileSystem) (name : Text) : Option Place := do
  let place ← (fs.origin name ++ Path.names name).foldlM (append fs) []
  if place = [] ∨ maxPath < pathLength place + companion.length then none else some place

/-- The place in memory of a database.  Carried by memory, it is shared if its name starts
at a root. -/
def memoryPlace (fs : FileSystem) (l : Location) : Place :=
  let isRooted := l.name.head? = some Path.slash ∨ l.name.head? = some 0x5C
  if !l.isHeld ∧ isRooted ∧ 1 < l.name.length then FileSystem.sharedPlace l.name
  else fs.privatePlace

/-- Takes hold of a database. -/
def hold (fs : FileSystem) (l : Location) (key : Option (Text × Text)) (place : Place) :
    FileSystem × Nat :=
  let isFixed := l.isFixed && !l.isHeld
  fs.addCache {
    place, key, isFixed, isReadOnly := l.access = .read || isFixed, carrier := l.carrier }

/-- Takes hold of a database in memory, which is empty at first. -/
def holdMemory (fs : FileSystem) (l : Location) (key : Option (Text × Text)) : FileSystem × Nat :=
  let place := l.memoryPlace fs
  l.hold (fs.provide place []) key place

/-- Takes hold of a database in a file, and makes the file if it may be made. -/
def holdFile (fs : FileSystem) (l : Location) (key : Option (Text × Text)) (place : Place) :
    Except LocationError (FileSystem × Nat) :=
  if l.model.any fun path => !(fs.stat path).toBool then .error .unreadable
  else
    match fs.node? place.dropLast, fs.node? place with
    | some .directory, some .directory =>
      .error (if l.access = .read then .unreadable else .cannotOpen)
    | some .directory, some _ => .ok (l.hold fs key place)
    | some .directory, none =>
      if l.access = .create then .ok (l.hold (fs.setNode place (.file [])) key place)
      else .error .cannotOpen
    | _, _ => .error .cannotOpen

/-- Takes hold of what a location asks for: a hold that it can share, or a new one. -/
def settle (fs : FileSystem) (l : Location) : Except LocationError (FileSystem × Nat) := do
  let inMemory := l.isHeld ∨ l.carrier = .memory
  let place ← if inMemory then pure [] else
    match place? fs l.name with
    | some place => pure place
    | none => throw .cannotOpen
  let key : Option (Text × Text) :=
    if l.isShared ∧ l.name ≠ [] then
      some (l.carrier.tag, if inMemory then l.name else Path.ofNames place)
    else none
  match if key.isSome then fs.caches.find? (·.2.key = key) else none with
  | some (id, c) => return (fs.setCache id { c with users := c.users + 1 }, id)
  | none =>
    if inMemory then return l.holdMemory fs key else l.holdFile fs key place

end Location

end StackVm
