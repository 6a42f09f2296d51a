/-
Loading the manifest of a directory, and finding the nearest one.
-/
import StackVm.Files.System
import StackVm.Manifest.Read

namespace StackVm

/-- Why there is no manifest where one was expected. -/
inductive ManifestError where
  | unreadable (path : Text) (error : PathError)
  | malformed (path : Text) (fault : Toml.Fault)
  | refused (path : Text) (error : SettingError)
  deriving DecidableEq, Repr

/-- The text of a manifest error. -/
def ManifestError.message : ManifestError → Text
  | .unreadable path error => "cannot read " ++ path ++ ": " ++ error.message
  | .malformed path fault => "parse error in " ++ path ++ ": " ++ fault.message
  | .refused path error => path ++ ": " ++ error.message

namespace Manifest

/-- The path of the manifest file of a directory. -/
def pathIn (dir : Text) : Text := Path.join dir fileName

/-- Loads the manifest of a directory. -/
def load (fs : FileSystem) (dir : Text) : Except ManifestError Manifest := do
  let path := pathIn dir
  let data ← (fs.read path).mapError (.unreadable path)
  let t ← (Toml.parse data).mapError (.malformed path)
  let m ← (Toml.orMalformed (ofTable (Path.absolute fs.cwdPath dir) t)).mapError (.malformed path)
  match m.problem? with
  | some e => throw (.refused path e)
  | none => return m.completed (givesMinThreshold t)

/-- Whether a directory has a manifest file. -/
def isIn (fs : FileSystem) (dir : Text) : Bool := (fs.stat (pathIn dir)).toBool

/-- Loads the manifest of a directory or of the nearest directory above it that has
one. -/
def find (fs : FileSystem) (start : Text) : Except ManifestError (Option Manifest) :=
  match (Path.upwards (Path.absolute fs.cwdPath start)).find? (isIn fs) with
  | none => .ok none
  | some dir => some <$> load fs dir

end Manifest

end StackVm
