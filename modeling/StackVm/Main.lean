/-
The program.  The files that a command line can reach are read first, the command
is carried out on them, and what it changed is written back.
-/
import Std.Time.DateTime
import StackVm.Cli.Command

namespace StackVm.Program

/-- The bytes of an array. -/
def textOf (bytes : ByteArray) : Text := bytes.data.toList

/-- The array of a text. -/
def bytesOf (t : Text) : ByteArray := ⟨t.toArray⟩

/-- A path as the system takes it. -/
def nameOf (path : Text) : String := (String.fromUTF8? (bytesOf path)).getD ""

/-- How many bytes are read from the input at a time. -/
def blockSize : USize := 65536

/-- The input up to its end. -/
partial def readInput (stream : IO.FS.Stream) (done : ByteArray) : IO ByteArray := do
  let block ← stream.read blockSize
  if block.isEmpty then return done else readInput stream (done ++ block)

/-- The system's number for a directory that is used as a file. -/
def isDirectoryCode : UInt32 := 21

/-- What the system has at a path. -/
def nodeAt (path : Text) : IO (Option Node) := do
  try
    return some (FileSystem.nodeOf (textOf (← IO.FS.readBinFile (nameOf path))))
  catch
    | .inappropriateType _ code _ => return if code = isDirectoryCode then some .directory else none
    | .otherError code _ => return if code = isDirectoryCode then some .directory else none
    | _ => return none

/-- Takes over what the system has at a path and at the directories above it. -/
def fetch (fs : FileSystem) (path : Text) : IO FileSystem := do
  let mut fs := fs
  for p in Path.upwards (Path.absolute fs.cwdPath path) do
    let place := Path.names p
    if place ≠ [] ∧ (fs.node? place).isNone then
      if let some node ← nodeAt p then fs := fs.setNode place node
  return fs

/-- The path of a store, and the paths of the file that it names and of those beside it. -/
def storePaths (path : Text) : List Text :=
  match Location.read path with
  | .ok l => path :: (([[], "-journal", "-wal", "-shm"] : List Text).map (l.name ++ ·))
  | .error _ => [path]

/-- Takes over everything the options and arguments of a command line can reach. -/
def fetchAll (fs : FileSystem) (args : List Text) : IO FileSystem := do
  match Cli.readFlags Cli.flags {} args with
  | .error _ => return fs
  | .ok (options, rest) =>
    let mut fs := fs
    for dir in Path.upwards (Path.absolute fs.cwdPath options.dir) do
      fs ← fetch fs (Manifest.pathIn dir)
    let settings := ((Manifest.find fs options.dir).toOption.getD none).getD
      (Manifest.standard (Path.absolute fs.cwdPath options.dir))
    let stores := storePaths options.storePath ++ storePaths settings.storePath
    for path in rest ++ stores ++ [settings.project.entry, settings.logPath] do
      if path ≠ [] then fs ← fetch fs path
    return fs

/-- Writes what differs from before back to the system. -/
def writeBack (before after : FileSystem) : IO Unit := do
  for (place, node) in after.nodes.entries do
    if before.node? place ≠ some node then
      let name := nameOf (Path.ofNames place)
      match FileSystem.contents node with
      | none => IO.FS.createDirAll name
      | some data => IO.FS.writeBinFile name (bytesOf data)
  for (place, _) in before.nodes.entries do
    if (after.node? place).isNone then IO.FS.removeFile (nameOf (Path.ofNames place))

/-- Ends the program with what a command left behind. -/
def finish (before : FileSystem) (code : UInt32) (c : Cli.Console) : IO UInt32 := do
  writeBack before c.fs
  (← IO.getStdout).write ⟨c.out⟩
  (← IO.getStderr).write ⟨c.err⟩
  return code

/-- The code of a program that a fault ended. -/
def abortCode : UInt32 := 2

/-- The words that can make a command read its input. -/
def readsInput (args : List String) : Bool := args.contains "run"

/-- More instructions than a program takes in a lifetime. -/
def steps : Nat := Nat.pow 10 30

end StackVm.Program

open StackVm StackVm.Program

/-- Runs the image behind the executable, if there is one, and else the command
line. -/
def main (args : List String) : IO UInt32 := do
  let arguments := args.map Text.ofString
  let exe := Text.ofString (← IO.appPath).toString
  let program ← IO.FS.readBinFile (nameOf exe)
  let tail := program.extract (program.size - Bundle.marker.length) program.size
  let isBundled := textOf tail = Bundle.marker
  let cwd := Path.names (Text.ofString (← IO.currentDir).toString)
  let now := (← Std.Time.Timestamp.now).toSecondsSinceUnixEpoch.val.toNat
  let world : Cli.World := { executable := some exe, now, steps }
  let start : FileSystem := { cwd }
  let start ← if isBundled || args.contains "bundle" then fetch start exe else pure start
  let fs ← if isBundled then pure start else fetchAll start arguments
  let input ← if isBundled || readsInput args then readInput (← IO.getStdin) .empty
    else pure .empty
  let console : Cli.Console := { fs, input := textOf input }
  if isBundled then
    match Cli.runEmbedded world exe (exe :: arguments) console with
    | .ok code c => finish fs (code.getD .ok).toNat.toUInt32 c
    | .error _ c => finish fs abortCode c
  else
    match Cli.run world arguments console with
    | .ok code c => finish fs code.toNat.toUInt32 c
    | .error _ c => finish fs abortCode c
