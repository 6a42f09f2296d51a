/-
Project manifests: the settings under which the programs of a project run.
-/
import StackVm.Files.Path
import StackVm.Machine.Basic

namespace StackVm

/-- What a project is called and what it runs. -/
structure Project where
  name : Text := []
  version : Text := []
  /-- The image file, or the stored image, to run when none is given. -/
  entry : Text := []
  deriving DecidableEq, Repr, Inhabited

/-- Where diagnostics go and how many of them. -/
structure LogSettings where
  verbosity : Int64 := 0
  file : Text := []
  deriving DecidableEq, Repr, Inhabited

/-- The settings of a project. -/
structure Manifest where
  /-- The directory of the project, to which paths are relative. -/
  dir : Text := []
  project : Project := {}
  machine : Machine.Options := {}
  heap : Config := {}
  storeFile : Text := []
  log : LogSettings := {}
  deriving DecidableEq, Repr, Inhabited

/-- Why settings are refused. -/
inductive SettingError where
  | negativeFrames
  | negativeStack
  | negativeInitialThreshold
  | smallGrowthFactor
  | negativeMinThreshold
  | negativeObjects
  deriving DecidableEq, Repr

/-- The text of a refusal. -/
def SettingError.message : SettingError → Text
  | .negativeFrames => "vm.max_frames must not be negative"
  | .negativeStack => "vm.stack_max must not be negative"
  | .negativeInitialThreshold => "gc.initial_threshold must not be negative"
  | .smallGrowthFactor => "gc.growth_factor must be at least 2"
  | .negativeMinThreshold => "gc.min_threshold must not be negative"
  | .negativeObjects => "gc.max_objects must not be negative"

namespace Manifest

/-- The name of manifest files. -/
def fileName : Text := "druk.toml"

/-- Where the store of a project is unless its manifest says otherwise. -/
def standardStoreFile : Text := ".druk/images.db"

/-- The first setting that is out of bounds. -/
def problem? (m : Manifest) : Option SettingError :=
  if m.machine.maxFrames < 0 then some .negativeFrames
  else if m.machine.stackMax < 0 then some .negativeStack
  else if m.heap.initialThreshold < 0 then some .negativeInitialThreshold
  else if m.heap.growthFactor = 1 ∨ m.heap.growthFactor < 0 then some .smallGrowthFactor
  else if m.heap.minThreshold < 0 then some .negativeMinThreshold
  else if m.heap.maxObjects < 0 then some .negativeObjects
  else none

/-- A setting, or the standard one in place of zero. -/
def orStandard (standard n : Int64) : Int64 := if n = 0 then standard else n

/-- The manifest with standard settings in place of those that are not set.  A
least threshold of zero stays when the file gives it. -/
def completed (m : Manifest) (minThresholdGiven : Bool) : Manifest :=
  { m with
    machine := { m.machine with
      maxFrames := orStandard (Int64.ofNat Machine.standardFrames) m.machine.maxFrames
      stackMax := orStandard (Int64.ofNat Machine.standardStack) m.machine.stackMax }
    heap := { m.heap with
      initialThreshold := orStandard Config.standard.initialThreshold m.heap.initialThreshold
      growthFactor := orStandard Config.standard.growthFactor m.heap.growthFactor
      minThreshold :=
        if minThresholdGiven then m.heap.minThreshold
        else orStandard Config.standard.minThreshold m.heap.minThreshold }
    storeFile := if m.storeFile = [] then standardStoreFile else m.storeFile }

/-- The settings of a directory without a manifest file. -/
def standard (dir : Text) : Manifest := completed { dir } false

/-- A path of the project, from the project's directory unless it is absolute. -/
def resolve (m : Manifest) (p : Text) : Text :=
  if Path.isAbsolute p then p else Path.join m.dir p

/-- The path of the store. -/
def storePath (m : Manifest) : Text := m.resolve m.storeFile

/-- The path of the log file; empty when diagnostics go to the error output. -/
def logPath (m : Manifest) : Text := if m.log.file = [] then [] else m.resolve m.log.file

end Manifest

end StackVm
