/-
Running an image under the settings of a manifest, and listing one.
-/
import StackVm.Cli.Console
import StackVm.Image.Codec
import StackVm.Image.Listing
import StackVm.Machine.Interpret
import StackVm.Manifest.Basic

namespace StackVm.Cli

/-- Why an image file cannot be used. -/
inductive ImageFileError where
  | unreadable (error : PathError)
  | undecodable (error : Image.DecodeError)
  deriving DecidableEq, Repr

/-- The text of such a reason. -/
def ImageFileError.message : ImageFileError → Text
  | .unreadable error => error.message
  | .undecodable error => error.message

/-- Reads an image or a bare chunk from a file. -/
def readImage (fs : FileSystem) (path : Text) : Except ImageFileError Image := do
  let data ← (fs.read path).mapError .unreadable
  (Image.parse data).mapError .undecodable

/-- A program alone on a new heap: nothing but the machine itself holds objects. -/
def noHoldings : Holdings := fun _ => []

/-- The code that an outcome ends a program with. -/
def exitCodeOf : Outcome → ExitCode
  | .ok => .ok
  | .compileError => .data
  | .runtimeError => .software

/-- Ends a program that a fault cut short: running out of objects is reported, any
other fault ends the command. -/
def endFaulted (f : Fault) : CommandM ExitCode :=
  match f with
  | .exhausted _ _ => do
    printErr ("Fatal: " ++ f.message ++ "\n")
    return .software
  | _ => throw (.fault f)

/-- Takes over the input and the outputs of an execution. -/
def adopt (s : Execution) : CommandM Unit :=
  modify fun c => { c with input := s.input, out := s.out, err := s.err }

/-- Publishes the arguments and interprets the entry function. -/
def execute (steps : Nat) (entry : ObjectId) (argv : List Text) (s : Execution) :
    CommandM ExitCode :=
  match Exec.setArgs noHoldings argv s with
  | .error (.fault f) s => do adopt s; endFaulted f
  | .error (.raised _) s => do adopt s; throw (.fault .crash)
  | .ok () s =>
    match Exec.interpret noHoldings steps (some entry) s with
    | .done outcome s => do adopt s; return exitCodeOf outcome
    | .faulted f s => do adopt s; endFaulted f
    | .unfinished s => do adopt s; throw .unfinished

/-- Runs an image on a new heap with the program's name and arguments. -/
def runImage (world : World) (settings : Manifest) (img : Image) (program : Text)
    (args : List Text) : CommandM ExitCode := do
  let memory : Memory := { heap := Heap.create 0 settings.heap }
  match Image.load noHoldings img memory with
  | .error f _ => endFaulted f
  | .ok (.error e) _ => fail .data e.message
  | .ok (.ok entry) memory =>
    match Machine.create settings.machine memory with
    | .error f _ => endFaulted f
    | .ok machine memory =>
      let c ← get
      execute world.steps entry (program :: args)
        { memory, machine, input := c.input, out := c.out, err := c.err }

/-- Lists an image file. -/
def listImage (path : Text) : CommandM ExitCode := do
  match readImage (← get).fs path with
  | .error e => fail .data e.message
  | .ok img =>
    match img.listing { heap := Heap.create 0 .standard } with
    | .error f _ => throw (.fault f)
    | .ok (text, e) _ =>
      print text
      match e with
      | some e => fail .data e.message
      | none => return .ok

end StackVm.Cli
