/-
Making and running bundled executables.
-/
import StackVm.Bundle
import StackVm.Cli.Flags
import StackVm.Cli.Run

namespace StackVm.Cli

/-- Why an executable cannot be taken apart or made. -/
inductive BundleError where
  | system (error : PathError)
  | trailer (path : Text) (error : PathError)
  | tooShort (path : Text) (length : Nat)
  | tooLarge
  deriving DecidableEq, Repr

/-- The text of such a reason. -/
def BundleError.message : BundleError → Text
  | .system error => error.message
  | .trailer path error => "cannot read trailer of " ++ path ++ ": " ++ error.message
  | .tooShort path length =>
    path ++ ": embedded image length " ++ Text.ofNat length ++ " exceeds file size"
  | .tooLarge => "image too large to bundle"

/-- Takes the executable at a path apart. -/
def readBundle (fs : FileSystem) (path : Text) : Except BundleError Bundle.Layout :=
  match fs.stat path with
  | .error e => .error (.system ⟨"open", path, e⟩)
  | .ok node =>
    match FileSystem.contents node with
    | none => .error (.trailer path ⟨"read", path, .isDirectory⟩)
    | some data =>
      match Bundle.read data with
      | .error n => .error (.tooShort path n)
      | .ok layout => .ok layout

/-- Writes an executable from the first bytes of the one at `stub` and an image.
The file at `out` is emptied before the program is copied, so nothing is left to
copy when the two are the same file. -/
def writeBundle (fs : FileSystem) (out stub : Text) (stubSize : Nat) (payload : Text) :
    Except BundleError FileSystem := do
  if Bundle.maxPayload < payload.length then throw .tooLarge
  let source ← (fs.resolve stub).mapError fun e => .system ⟨"open", stub, e⟩
  let place ← (fs.writable out).mapError .system
  let emptied := fs.setNode place (.file [])
  let program := ((emptied.node? source).bind FileSystem.contents).getD []
  return emptied.setNode place (.file (Bundle.write (program.take stubSize) payload))

/-- The option that names the executable to make. -/
def outputFlag : Flag Text := { name := "o", set := fun v _ => .ok (v.getD []) }

/-- Reads options and arguments in any order. -/
def readMixed {α : Type} (flags : List (Flag α)) (a : α) (positional : List Text) :
    (fuel : Nat) → List Text → Except FlagError (α × List Text)
  | 0, _ => .ok (a, positional.reverse)
  | fuel + 1, args =>
    match readFlags flags a args with
    | .error e => .error e
    | .ok (a, []) => .ok (a, positional.reverse)
    | .ok (a, first :: rest) => readMixed flags a (first :: positional) fuel rest

/-- The usage text of bundling. -/
def bundleUsage : Text := "Usage of bundle:\n  -o string\n    \tOutput executable\n"

/-- Bundles an image file with the running executable. -/
def bundleImage (world : World) (out path : Text) : CommandM ExitCode := do
  let fs := (← get).fs
  match readImage fs path with
  | .error e => fail .data e.message
  | .ok img =>
    let payload := img.encode
    match world.executable with
    | none => fail .failure "cannot locate druk executable: no executable"
    | some stub =>
      let made := do
        let layout ← readBundle fs stub
        writeBundle fs out stub layout.stubSize payload
      match made with
      | .error e => fail .failure e.message
      | .ok fs =>
        modify fun c => { c with fs }
        print (out ++ " " ++ Text.ofNat payload.length ++ "\n")
        return .ok

/-- The command that bundles.  Its option may stand before or after the image. -/
def bundleCommand (world : World) (args : List Text) : CommandM ExitCode := do
  match readMixed [outputFlag] [] [] (args.length + 1) args with
  | .error e => do
    printErr (e.message ++ bundleUsage)
    return .usage
  | .ok (out, [path]) =>
    if out = [] then refuse ["Usage: druk bundle IMAGE -o EXE"] else bundleImage world out path
  | .ok _ => refuse ["Usage: druk bundle IMAGE -o EXE"]

/-- Runs the image behind the executable at a path, with the command line `argv`;
no code if there is no image. -/
def runEmbedded (world : World) (exe : Text) (argv : List Text) : CommandM (Option ExitCode) := do
  match readBundle (← get).fs exe with
  | .error e => some <$> fail .data e.message
  | .ok ⟨_, none⟩ => return none
  | .ok ⟨_, some payload⟩ =>
    match Image.parse payload with
    | .error e => some <$> fail .data ("embedded image: " ++ e.message)
    | .ok img =>
      let settings := Manifest.standard (Path.parent exe)
      some <$> runImage world settings img (argv.headD exe) argv.tail

end StackVm.Cli
