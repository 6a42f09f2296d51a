/-
The commands on the image store.
-/
import StackVm.Cli.Run
import StackVm.Store
import StackVm.Text.Columns
import StackVm.Text.Stamp

namespace StackVm.Cli

/-- What the commands are told: the world, the settings and where the store is. -/
structure Setup where
  world : World
  settings : Manifest
  storePath : Text

/-- Closes a store that was opened for a command. -/
def Console.leave (c : Console) (store : Store) : Console := { c with fs := (store.close c.fs).1 }

/-- Opens the store for a command and closes it again, however the command ends. -/
def withStore (setup : Setup) (act : Store → CommandM ExitCode) : CommandM ExitCode := fun c =>
  let (fs, opened) := Store.openAt c.fs setup.storePath
  match opened with
  | .error e => fail .failure e.message { c with fs }
  | .ok store =>
    match act store { c with fs } with
    | .ok code c => .ok code (c.leave store)
    | .error e c => .error e (c.leave store)

/-- Carries out an operation on a store. -/
def stored {α : Type} (act : FileSystem → FileSystem × Except StoreError α) :
    CommandM (Except StoreError α) := fun c =>
  let (fs, r) := act c.fs
  .ok r { c with fs }

/-- The code for a failed look-up. -/
def lookupCode : StoreError → ExitCode
  | .notFound _ => .data
  | _ => .failure

/-- Saves an image file under a name. -/
def storePut (setup : Setup) (name path : Text) : CommandM ExitCode := do
  match readImage (← get).fs path with
  | .error e => fail .data e.message
  | .ok img => withStore setup fun store => do
    match ← stored fun fs => store.put fs setup.world.now name img with
    | .error e => fail .failure e.message
    | .ok digest =>
      print (name ++ " " ++ digest ++ "\n")
      return .ok

/-- Writes a saved image to a file. -/
def storeGet (setup : Setup) (name out : Text) : CommandM ExitCode :=
  withStore setup fun store => do
    match ← stored (store.get · name) with
    | .error e => fail (lookupCode e) e.message
    | .ok img =>
      match (← get).fs.writeFile out img.encode with
      | .error e => fail .failure e.message
      | .ok fs =>
        modify fun c => { c with fs }
        return .ok

/-- How much of a digest is listed. -/
def shortDigest : Nat := 12

/-- The line of a saved image, with tabs between its cells. -/
def rowLine (row : Row) : Text :=
  row.name ++ "\t" ++ Text.ofNat row.data.length ++ "\t" ++ row.digest.take shortDigest ++ "\t" ++
    Text.stamp row.updated ++ "\n"

/-- Lists the saved images.  A digest that is too short to be cut ends the command. -/
def storeList (setup : Setup) : CommandM ExitCode :=
  withStore setup fun store => do
    match ← stored store.list with
    | .error e => fail .failure e.message
    | .ok rows =>
      if rows.any fun row => row.digest.length < shortDigest then throw (.fault .crash)
      print (Text.inColumns ("NAME\tSIZE\tDIGEST\tUPDATED\n" ++ rows.flatMap rowLine))
      return .ok

/-- Removes a saved image. -/
def storeRemove (setup : Setup) (name : Text) : CommandM ExitCode :=
  withStore setup fun store => do
    match ← stored (store.delete · name) with
    | .error e => fail (lookupCode e) e.message
    | .ok () => return .ok

/-- Runs a saved image. -/
def storeRun (setup : Setup) (name : Text) (args : List Text) : CommandM ExitCode :=
  withStore setup fun store => do
    match ← stored (store.get · name) with
    | .error e => fail (lookupCode e) e.message
    | .ok img => runImage setup.world setup.settings img name args

/-- The usage text of the store commands. -/
def storeUsage : List String :=
  ["Usage: druk store [put|get|list|rm|run] ...",
   "  put NAME FILE          Save an image or CHNK file",
   "  get NAME OUT           Write a stored image to OUT",
   "  list                   List stored images",
   "  rm NAME                Delete a stored image",
   "  run NAME [args...]     Run a stored image"]

/-- A word of the command line as a string, where it is one. -/
def asWord (t : Text) : String := (String.fromUTF8? ⟨t.toArray⟩).getD ""

/-- The store command. -/
def storeCommand (setup : Setup) : List Text → CommandM ExitCode
  | [] => refuse storeUsage
  | word :: args =>
    match asWord word, args with
    | "put", [name, path] => storePut setup name path
    | "put", _ => refuse ["Usage: druk store put NAME FILE"]
    | "get", [name, out] => storeGet setup name out
    | "get", _ => refuse ["Usage: druk store get NAME OUT"]
    | "list", _ | "ls", _ => storeList setup
    | "rm", [name] => storeRemove setup name
    | "rm", _ => refuse ["Usage: druk store rm NAME"]
    | "run", name :: args => storeRun setup name args
    | "run", [] => refuse ["Usage: druk store run NAME [args...]"]
    | _, _ => do
      printErr ("Unknown store subcommand: " ++ word ++ "\n")
      return .usage

end StackVm.Cli
