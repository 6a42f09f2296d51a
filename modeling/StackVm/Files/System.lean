/-
A small file system: directories, files and databases at places below a root.

A place is the list of names that lead to it.  Paths are followed name by name,
so that a path through something that is no directory does not lead anywhere,
even if a later step up would lead out of it again.  Databases that are only held
in memory have places of their own, to which no path leads.
-/
import StackVm.Database.Cache
import StackVm.Files.Path

namespace StackVm

/-- What is at a place. -/
inductive Node where
  | directory
  | file (data : Text)
  | database (contents : Contents)
  /-- The log of the database beside it, with what that holds once the log is carried
  over. -/
  | log (contents : Contents)
  deriving DecidableEq, Repr

/-- Why the system refuses a call. -/
inductive SystemError where
  | notFound
  | notDirectory
  | isDirectory
  | nameTooLong
  | invalidArgument
  deriving DecidableEq, Repr

/-- The text of a refusal. -/
def SystemError.message : SystemError → Text
  | .notFound => "no such file or directory"
  | .notDirectory => "not a directory"
  | .isDirectory => "is a directory"
  | .nameTooLong => "file name too long"
  | .invalidArgument => "invalid argument"

/-- A refused call: the operation, the path it was given and the reason. -/
structure PathError where
  operation : Text
  path : Text
  reason : SystemError
  deriving DecidableEq, Repr

/-- The text of a refused call. -/
def PathError.message (e : PathError) : Text :=
  e.operation ++ " " ++ e.path ++ ": " ++ e.reason.message

/-- A file system with a current directory. -/
structure FileSystem where
  nodes : Tree Node := .empty
  /-- The place of the current directory. -/
  cwd : Place := []
  /-- The holds on databases, under distinct numbers. -/
  caches : List (Nat × Cache) := []
  /-- How many numbers have been given out. -/
  issued : Nat := 0
  deriving Repr, Inhabited

namespace FileSystem

/-- What is at a place; the root is always a directory. -/
def node? (fs : FileSystem) (place : Place) : Option Node :=
  if place = [] then some .directory else fs.nodes.get? place

/-- Leaves nothing at a place. -/
def removeNode (fs : FileSystem) (place : Place) : FileSystem :=
  { fs with nodes := fs.nodes.set none place }

/-- Puts something at a place. -/
def setNode (fs : FileSystem) (place : Place) (node : Node) : FileSystem :=
  { fs with nodes := fs.nodes.set (some node) place }

/-- The longest name the system takes. -/
def maxName : Nat := 255

/-- The longest path the system takes. -/
def maxPath : Nat := 4095

/-- Follows one name from a place, which has to be a directory.  Nothing need be at
the place the name leads to. -/
def follow (fs : FileSystem) (place : Place) (name : Text) : Except SystemError Place :=
  match fs.node? place with
  | none => .error .notFound
  | some .directory =>
    if name = Path.dot then .ok place
    else if name = Path.dotDot then .ok place.dropLast
    else if maxName < name.length then .error .nameTooLong
    else .ok (place ++ [name])
  | some _ => .error .notDirectory

/-- Follows names from a place. -/
def walk (fs : FileSystem) : Place → List Text → Except SystemError Place
  | place, [] => .ok place
  | place, name :: rest =>
    match fs.follow place name with
    | .error e => .error e
    | .ok next => fs.walk next rest

/-- The place a path starts from. -/
def origin (fs : FileSystem) (p : Text) : Place := if Path.isAbsolute p then [] else fs.cwd

/-- Why the system does not look at a path at all. -/
def refusal? (p : Text) : Option SystemError :=
  if p = [] then some .notFound
  else if p.contains 0 then some .invalidArgument
  else if maxPath < p.length then some .nameTooLong
  else none

/-- The place a path leads to.  A slash at the end asks for a directory, as a dot
after it would. -/
def resolve (fs : FileSystem) (p : Text) : Except SystemError Place :=
  match refusal? p with
  | some e => .error e
  | none =>
    fs.walk (fs.origin p) (Path.pieces p ++ if Path.endsInSlash p then [Path.dot] else [])

/-- What a path leads to. -/
def stat (fs : FileSystem) (p : Text) : Except SystemError Node :=
  match fs.resolve p with
  | .error e => .error e
  | .ok place =>
    match fs.node? place with
    | some node => .ok node
    | none => .error .notFound

/-- The first bytes of every log. -/
def logHeader : Text := "DRUK_LOG_V1\n"

/-- The bytes of a file. -/
def contents : Node → Option Text
  | .directory => none
  | .file data => some data
  | .database contents => some contents.encode
  | .log contents => some (logHeader ++ contents.encode)

/-- The file that bytes make: a database or a log if they have the form of one. -/
def nodeOf (data : Text) : Node :=
  match Contents.decode data, (Text.after? logHeader data).bind Contents.decode with
  | some contents, _ => .database contents
  | none, some contents => .log contents
  | none, none => .file data

/-- Reads a file. -/
def read (fs : FileSystem) (p : Text) : Except PathError Text :=
  match fs.stat p with
  | .error e => .error ⟨"open", p, e⟩
  | .ok node =>
    match contents node with
    | none => .error ⟨"read", p, .isDirectory⟩
    | some data => .ok data

/-- The place of a file that is about to be written.  Everything above it has to be
there; a path that can only lead to a directory is refused for that before its last
name is looked at. -/
def target (fs : FileSystem) (p : Text) : Except SystemError Place :=
  match refusal? p with
  | some e => .error e
  | none =>
    match fs.walk (fs.origin p) ((Path.pieces p).dropLast ++ [Path.dot]) with
    | .error e => .error e
    | .ok dir =>
      match (Path.pieces p).getLast? with
      | none => .error .isDirectory
      | some name =>
        if name = Path.dot ∨ name = Path.dotDot ∨ Path.endsInSlash p then .error .isDirectory
        else
          match fs.follow dir name with
          | .error e => .error e
          | .ok place => if fs.node? place = some .directory then .error .isDirectory else .ok place

/-- The place at which a file can be written. -/
def writable (fs : FileSystem) (p : Text) : Except PathError Place :=
  (fs.target p).mapError fun e => ⟨"open", p, e⟩

/-- Writes a file, in place of the one that was there. -/
def writeFile (fs : FileSystem) (p data : Text) : Except PathError FileSystem :=
  match fs.writable p with
  | .error e => .error e
  | .ok place => .ok (fs.setNode place (.file data))

/-- Makes the directories that names lead to, one inside the other, from a place
with the path `p`.  Those made before one is refused stay. -/
def makeBelow (fs : FileSystem) (place : Place) (p : Text) :
    List Text → FileSystem × Option PathError
  | [] => (fs, none)
  | name :: rest =>
    let p := Path.below p name
    match refusal? p, fs.follow place name with
    | some e, _ | none, .error e => (fs, some ⟨"mkdir", p, e⟩)
    | none, .ok next =>
      match fs.node? next with
      | some .directory => fs.makeBelow next p rest
      | some _ => (fs, some ⟨"mkdir", p, .notDirectory⟩)
      | none => (fs.setNode next .directory).makeBelow next p rest

/-- Makes the directory of a clean path and those above it that are missing. -/
def makeDirectories (fs : FileSystem) (p : Text) : FileSystem × Option PathError :=
  fs.makeBelow (fs.origin p) (if Path.isAbsolute p then [Path.slash] else []) (Path.pieces p)

/-- The current directory as a path. -/
def cwdPath (fs : FileSystem) : Text := Path.ofNames fs.cwd

/-- Whether a place is in memory: its first name is empty, as none on a path is. -/
def isInMemory (place : Place) : Bool := place.head? = some []

/-- The place in memory that stores share under a name. -/
def sharedPlace (name : Text) : Place := [[], [], name]

/-- A place in memory that has not been given out before. -/
def privatePlace (fs : FileSystem) : Place := [[], Text.ofNat fs.issued]

end FileSystem

end StackVm
