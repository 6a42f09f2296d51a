/-
The image store: a database of encoded images under names, each with the digest
of its bytes.
-/
import StackVm.Database.Script
import StackVm.Image.Codec
import StackVm.Sha256
import StackVm.Store.Location

namespace StackVm

/-- The digest of an encoded image, in hexadecimal. -/
def imageDigest (data : Text) : Text := Text.hexBytes (Sha256.digest data)

/-- An open store. -/
structure Store where
  /-- The path the store was opened with. -/
  path : Text
  connection : Connection
  closed : Bool := false
  deriving DecidableEq, Repr

/-- What can go wrong with a store. -/
inductive StoreError where
  | directory (error : PathError)
  | location (error : LocationError)
  /-- The database refuses work; the text says what was being done. -/
  | refused (doing : Text) (error : DatabaseError)
  | emptyName
  /-- The store is closed; the text says what was being done. -/
  | closed (doing : Text)
  | notFound (name : Text)
  | digestMismatch (name stored computed : Text)
  | undecodable (name : Text) (error : Image.DecodeError)
  deriving DecidableEq, Repr

/-- What is being done until a database is ready for statements. -/
def opening : Text := "setting busy timeout"

/-- The text of a store error. -/
def StoreError.message : StoreError → Text
  | .directory error => "creating store directory: " ++ error.message
  | .location error => opening ++ ": " ++ error.message
  | .refused doing error => doing ++ ": " ++ error.message
  | .emptyName => "store: empty image name"
  | .closed doing => doing ++ ": sql: database is closed"
  | .notFound name => "image not found: " ++ name
  | .digestMismatch name stored computed =>
    "image " ++ name ++ ": digest mismatch (stored " ++ stored ++ ", computed " ++ computed ++ ")"
  | .undecodable name error => "image " ++ name ++ ": " ++ error.message

namespace Store

/-- Carries out work on the database of a store; `doing` says what is being done. -/
def perform {α : Type} (doing : Text) (work : DatabaseM α) (fs : FileSystem) :
    FileSystem × Except StoreError α :=
  match work.run fs with
  | .ok a fs => (fs, .ok a)
  | .error e fs => (fs, .error (.refused doing e))

/-- Gets a new connection ready: carries out settings and sees to it that there is a
table. -/
def ready (l : Location) (c : Connection) (fs : FileSystem) :
    FileSystem × Except StoreError Connection :=
  match perform opening (l.pragmas.foldlM (fun c t => c.execute ("pragma " ++ t)) c) fs with
  | (fs, .error e) => (fs, .error e)
  | (fs, .ok c) =>
    match l.trouble with
    | some e => (fs, .error (.location e))
    | none =>
      match perform "creating table" c.prepare fs with
      | (fs, .error e) => (fs, .error e)
      | (fs, .ok ()) => (fs, .ok c)

/-- Opens the store at a path; a missing or empty file becomes an empty store, and
missing directories are made. -/
def openAt (fs : FileSystem) (path : Text) : FileSystem × Except StoreError Store :=
  match fs.makeDirectories (Path.parent path) with
  | (fs, some e) => (fs, .error (.directory e))
  | (fs, none) =>
    match Location.read path with
    | .error e => (fs, .error (.location e))
    | .ok l =>
      match l.settle fs with
      | .error e => (fs, .error (.location e))
      | .ok (fs, cache) =>
        match ready l { cache } fs with
        | (fs, .error e) => (fs.release cache, .error e)
        | (fs, .ok connection) => (fs, .ok { path, connection })

/-- Closes a store.  A database that is only held in memory is lost with the last
store that has it open. -/
def close (s : Store) (fs : FileSystem) : FileSystem × Store :=
  (if s.closed then fs else fs.release s.connection.cache, { s with closed := true })

/-- Saves an image under a name, in place of the one there, and gives its digest. -/
def put (s : Store) (fs : FileSystem) (now : Nat) (name : Text) (img : Image) :
    FileSystem × Except StoreError Text :=
  let doing := "saving image " ++ name
  if name = [] then (fs, .error .emptyName)
  else if s.closed then (fs, .error (.closed doing))
  else
    let data := img.encode
    let digest := imageDigest data
    match perform doing (s.connection.put name digest data now) fs with
    | (fs, .error e) => (fs, .error e)
    | (fs, .ok ()) => (fs, .ok digest)

/-- The image of a row, if its bytes still have the digest they were saved with. -/
def imageOf (name : Text) (row : Row) : Except StoreError Image :=
  let computed := imageDigest row.data
  if computed ≠ row.digest then .error (.digestMismatch name row.digest computed)
  else (Image.decode row.data).mapError (.undecodable name)

/-- The image under a name. -/
def get (s : Store) (fs : FileSystem) (name : Text) : FileSystem × Except StoreError Image :=
  let doing := "querying image " ++ name
  if s.closed then (fs, .error (.closed doing))
  else
    match perform doing (s.connection.find name) fs with
    | (fs, .error e) => (fs, .error e)
    | (fs, .ok none) => (fs, .error (.notFound name))
    | (fs, .ok (some row)) => (fs, imageOf name row)

/-- The saved images in ascending order of names. -/
def list (s : Store) (fs : FileSystem) : FileSystem × Except StoreError (List Row) :=
  let doing := Text.ofString "listing images"
  if s.closed then (fs, .error (.closed doing)) else perform doing s.connection.rows fs

/-- Removes the image under a name. -/
def delete (s : Store) (fs : FileSystem) (name : Text) : FileSystem × Except StoreError Unit :=
  let doing := "deleting image " ++ name
  if s.closed then (fs, .error (.closed doing))
  else
    match perform doing (s.connection.remove (some name)) fs with
    | (fs, .error e) => (fs, .error e)
    | (fs, .ok 0) => (fs, .error (.notFound name))
    | (fs, .ok _) => (fs, .ok ())

end Store

end StackVm
