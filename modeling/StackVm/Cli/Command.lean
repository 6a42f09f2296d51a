/-
The command line: options, the manifest of the project, and the commands.
-/
import StackVm.Cli.Bundling
import StackVm.Cli.Stored
import StackVm.Manifest.Find

namespace StackVm.Cli

/-- The name under which the version is printed. -/
def version : Text := "dev"

/-- What the options of the command line set. -/
structure Settings where
  verbosity : Int64 := 0
  /-- Where the search for a manifest starts. -/
  dir : Text := Path.dot
  /-- The store to use; empty for the one of the manifest. -/
  storePath : Text := []
  deriving DecidableEq, Repr

/-- The options of the command line. -/
def flags : List (Flag Settings) :=
  [{ name := "v"
     isSwitch := true
     set := fun v s =>
       if v = none ∨ v = some (Text.ofString "true") then
         .ok { s with verbosity := s.verbosity + 1 }
       else (count (v.getD [])).map fun n => { s with verbosity := n } },
   { name := "C", set := fun v s => .ok { s with dir := v.getD [] } },
   { name := "store", set := fun v s => .ok { s with storePath := v.getD [] } }]

/-- The usage text. -/
def usage : List String :=
  ["Usage: druk [options] <command> [arguments]",
   "",
   "Commands:",
   "  run [FILE] [args...]        Run an image or CHNK file (default: [project] entry)",
   "  disasm FILE                 Disassemble every function in an image",
   "  bundle FILE -o EXE          Build a standalone executable running FILE",
   "  store put NAME FILE         Save an image in the store",
   "  store get NAME OUT          Write a stored image to a file",
   "  store list                  List stored images",
   "  store rm NAME               Delete a stored image",
   "  store run NAME [args...]    Run a stored image",
   "  version                     Print the version",
   "",
   "Options:",
   "  -C string",
   "    \tProject directory to search for druk.toml (default \".\")",
   "  -store string",
   "    \tImage database path (overrides [store] path)",
   "  -v\tVerbose logging (repeat for more)"]

/-- The name after the word that marks a stored image. -/
def storedName? (path : Text) : Option Text := (Text.after? "store:" path).filter (· ≠ [])

/-- The command that runs a program: the one given, or the entry of the project. -/
def runCommand (setup : Setup) (args : List Text) : CommandM ExitCode := do
  let path := args.headD setup.settings.project.entry
  if path = [] then
    refuse ["Usage: druk run FILE [args...]", "  (or set [project] entry in druk.toml)"]
  else
    match storedName? path with
    | some name => storeRun setup name args.tail
    | none =>
      match readImage (← get).fs path with
      | .error e => fail .data e.message
      | .ok img => runImage setup.world setup.settings img path args.tail

/-- Carries out a command. -/
def dispatch (setup : Setup) : List Text → CommandM ExitCode
  | [] => refuse usage
  | word :: args =>
    match asWord word, args with
    | "run", _ => runCommand setup args
    | "disasm", [path] => listImage path
    | "disasm", _ => refuse ["Usage: druk disasm FILE"]
    | "store", _ => storeCommand setup args
    | "bundle", _ => bundleCommand setup.world args
    | "version", _ => do
      print ("druk " ++ version ++ "\n")
      return .ok
    | _, _ => do
      printErr ("Unknown command: " ++ word ++ "\n")
      refuse usage

/-- The verbosity below which nothing is logged. -/
def leastVerbosity : Int64 := -3

/-- Makes the log file, unless nothing is logged to it. -/
def openLog (verbosity : Int64) (path : Text) (fs : FileSystem) : FileSystem :=
  if path = [] ∨ verbosity < leastVerbosity ∨ (fs.stat path).toBool then fs
  else (fs.writeFile path []).toOption.getD fs

/-- Carries out a command line. -/
def run (world : World) (args : List Text) : CommandM ExitCode := do
  match readFlags flags {} args with
  | .error e => do
    printErr e.message
    let code ← refuse usage
    return if e = .help then .ok else code
  | .ok (options, rest) =>
    match Manifest.find (← get).fs options.dir with
    | .error e => fail .data e.message
    | .ok found =>
      let fs := (← get).fs
      let settings := found.getD (Manifest.standard (Path.absolute fs.cwdPath options.dir))
      let storePath := if options.storePath = [] then settings.storePath else options.storePath
      modify fun c => { c with
        fs := openLog (max options.verbosity settings.log.verbosity) settings.logPath c.fs }
      dispatch ⟨world, settings, storePath⟩ rest

end StackVm.Cli
