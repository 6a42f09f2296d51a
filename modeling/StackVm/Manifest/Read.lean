/-
Manifests as settings files write them.

A setting is known by its exact name or, failing that, by its name in other
letter case.  Settings and tables of other names are passed over, and a known
setting of the wrong type spoils the file.
-/
import StackVm.Manifest.Basic
import StackVm.Text.Utf8
import StackVm.Toml.Table

namespace StackVm.Manifest

/-- The small letter that a character counts as when case is disregarded.  The long
s and the Kelvin sign are cases of ASCII letters. -/
def foldPoint (c : Nat) : Nat :=
  if 0x41 ≤ c ∧ c ≤ 0x5A then c + 0x20
  else if c = 0x17F then 0x73
  else if c = 0x212A then 0x6B
  else c

/-- The characters of a text with case disregarded. -/
def folded (t : Text) : List Nat := (Text.runes t).map fun r => foldPoint r.code

/-- The name among `names` that a key stands for. -/
def nameOf? (names : List String) (key : Text) : Option String :=
  match names.find? fun n => Text.ofString n = key with
  | some n => some n
  | none => names.find? fun n => folded n = folded key

/-- Reads the named entries of a table into a record, one after another. -/
def readEntries {α : Type} (names : List String) (set : String → Toml.Node → α → Option α)
    (a : α) : Toml.Table → Option α
  | [] => some a
  | (key, v) :: rest =>
    match nameOf? names key with
    | none => readEntries names set a rest
    | some name =>
      match set name v a with
      | none => none
      | some a => readEntries names set a rest

/-- The table that a value is. -/
def asTable : Toml.Node → Option Toml.Table
  | .table entries => some entries
  | _ => none

/-- The string that a value is. -/
def asString : Toml.Node → Option Text
  | .scalar (.string data) => some data
  | _ => none

/-- The integer that a value is. -/
def asInteger : Toml.Node → Option Int64
  | .scalar (.integer n) => some n
  | _ => none

/-- The truth value that a value is. -/
def asBoolean : Toml.Node → Option Bool
  | .scalar (.boolean b) => some b
  | _ => none

/-- Sets a setting of the project. -/
def setProject (name : String) (v : Toml.Node) (p : Project) : Option Project := do
  let s ← asString v
  match name with
  | "name" => some { p with name := s }
  | "version" => some { p with version := s }
  | _ => some { p with entry := s }

/-- Sets a limit of the machine. -/
def setMachine (name : String) (v : Toml.Node) (o : Machine.Options) : Option Machine.Options := do
  match name with
  | "max_frames" => return { o with maxFrames := ← asInteger v }
  | "stack_max" => return { o with stackMax := ← asInteger v }
  | _ => return { o with tracing := ← asBoolean v }

/-- Sets a setting of the heap. -/
def setHeap (name : String) (v : Toml.Node) (c : Config) : Option Config := do
  let n ← asInteger v
  match name with
  | "initial_threshold" => some { c with initialThreshold := n }
  | "growth_factor" => some { c with growthFactor := n }
  | "min_threshold" => some { c with minThreshold := n }
  | _ => some { c with maxObjects := n }

/-- Sets a setting of the log. -/
def setLog (name : String) (v : Toml.Node) (l : LogSettings) : Option LogSettings := do
  match name with
  | "verbosity" => return { l with verbosity := ← asInteger v }
  | _ => return { l with file := ← asString v }

/-- Reads a section of the manifest. -/
def setSection (name : String) (v : Toml.Node) (m : Manifest) : Option Manifest := do
  let t ← asTable v
  match name with
  | "project" =>
    return { m with
      project := ← readEntries ["name", "version", "entry"] setProject m.project t }
  | "vm" =>
    return { m with
      machine := ← readEntries ["max_frames", "stack_max", "trace"] setMachine m.machine t }
  | "gc" =>
    let names := ["initial_threshold", "growth_factor", "min_threshold", "max_objects"]
    return { m with heap := ← readEntries names setHeap m.heap t }
  | "store" =>
    return { m with storeFile := ← readEntries ["path"] (fun _ v _ => asString v) m.storeFile t }
  | _ => return { m with log := ← readEntries ["verbosity", "file"] setLog m.log t }

/-- The settings that a table gives. -/
def ofTable (dir : Text) (t : Toml.Table) : Option Manifest :=
  readEntries ["project", "vm", "gc", "store", "log"] setSection { dir } t

/-- Whether a table gives the least threshold, under exactly its name. -/
def givesMinThreshold (t : Toml.Table) : Bool :=
  match t.lookup (Text.ofString "gc") with
  | some (.table entries) => (entries.lookup (Text.ofString "min_threshold")).isSome
  | _ => false

end StackVm.Manifest
