/-
Running a function to its end.

An interpretation starts on an empty stack with the function itself in the first
slot, and goes on until the outermost call returns, an instruction fails or a
fault cuts it short.  The number of instructions is bounded by a parameter, as a
program may run for ever.
-/
import StackVm.Machine.Step

namespace StackVm

/-- How running a function ends. -/
inductive Interpretation where
  | done (outcome : Outcome) (s : Execution)
  /-- A fault cut it short; the state is the one of that moment. -/
  | faulted (f : Fault) (s : Execution)
  /-- The instructions allowed were used up. -/
  | unfinished (s : Execution)

namespace Exec

/-- The trace entry of a frame. -/
def traceEntry (m : Memory) (f : Frame) : TraceEntry :=
  match m.function? f.function with
  | none => ⟨[], 0⟩
  | some fn => ⟨fn.name, ((m.chunkOf? fn).map (·.lineAt (f.ip - 1))).getD 0⟩

/-- Ends an execution with an error: the error is reported, and the stack and all
frames are given up. -/
def abandon (s : Execution) (cause : RuntimeCause) : Execution :=
  let e : RuntimeError := ⟨cause, s.machine.frames.map (traceEntry s.memory)⟩
  { s with
    err := s.err ++ e.report
    machine := { s.machine with lastError := some (.runtime e), frames := [], stack := #[] } }

/-- Runs instructions until the execution ends. -/
def runWith (make : Allocator) : (fuel : Nat) → Execution → Interpretation
  | 0, s => .unfinished s
  | fuel + 1, s =>
    match step make s with
    | .ok .running s => runWith make fuel s
    | .ok .finished s => .done .ok s
    | .error (.raised cause) s => .done .runtimeError (abandon s cause)
    | .error (.fault f) s => .faulted f s

/-- Refuses to run a function. -/
def refuse (s : Execution) (e : MachineError) : Interpretation :=
  .done .compileError
    { s with
      err := s.err ++ ("Invalid bytecode: " ++ e.message ++ "\n" : Text)
      machine := { s.machine with lastError := some e } }

/-- The machine with nothing left of what it did before, its globals apart. -/
def restart (m : Machine) : Machine :=
  { m with frames := [], stack := #[], result := .nil, lastError := none }

/-- Puts a function on the empty stack and enters it. -/
def enter (id : ObjectId) : ExecM Unit := do
  modifyMachine fun m => { m with frames := [⟨id, 0, 0⟩] }
  let _ ← chunk
  push (.object id)

/-- Interprets a function as the outermost call, with a way to make objects. -/
def interpretWith (make : Allocator) (fuel : Nat) (fn : Option ObjectId) (s : Execution) :
    Interpretation :=
  if s.machine.closed then .faulted .machineClosed s
  else
    let s := { s with machine := restart s.machine }
    match fn with
    | none => refuse s .noFunction
    | some id =>
      let (memory, e) := s.memory.verify id
      let s := { s with memory }
      match e with
      | some e => refuse s (.invalid e)
      | none =>
        match enter id s with
        | .ok () s => runWith make fuel s
        | .error (.fault f) s => .faulted f s
        | .error (.raised cause) s => .done .runtimeError (abandon s cause)

/-- Interprets a function as the outermost call. -/
def interpret (others : Holdings) : (fuel : Nat) → Option ObjectId → Execution → Interpretation :=
  interpretWith (alloc others)

/-- The names of the argument array and of the argument count. -/
def argvName : Text := "argv"

@[inherit_doc argvName]
def argcName : Text := "argc"

/-- The same names in Dzongkha. -/
def argvNameDzongkha : Text := "ནང་འཇུག་ཐོ་"

@[inherit_doc argvNameDzongkha]
def argcNameDzongkha : Text := "ནང་འཇུག་གྲངས་"

/-- Binds a global. -/
def define (name : Text) (v : Value) : ExecM Unit :=
  modifyMachine fun m => { m with globals := m.globals.define name v }

/-- Publishes command line arguments, with a way to make objects.  The array is
bound first, so that it is held while its strings are made. -/
def setArgsWith (make : Allocator) (args : List Text) : ExecM Unit := do
  let argv ← make (.array #[])
  define argvName (.object argv)
  appendNames make argv args
  let argc := Value.int (Int64.ofNat args.length)
  define argcName argc
  define argvNameDzongkha (.object argv)
  define argcNameDzongkha argc

/-- Publishes command line arguments. -/
def setArgs (others : Holdings) : List Text → ExecM Unit := setArgsWith (alloc others)

end Exec

end StackVm
