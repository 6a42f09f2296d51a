/-
The machine: an operand stack, call frames, globals and limits, and what can go
wrong while it runs.
-/
import StackVm.Machine.Globals
import StackVm.Machine.Verify
import StackVm.Memory.Mark

namespace StackVm

/-- Why an instruction fails. -/
inductive RuntimeCause where
  | ranPastEnd (function : Text)
  /-- The operand stack is full. -/
  | operandOverflow
  /-- The frame limit is reached. -/
  | frameOverflow
  | underflow (op : Opcode)
  | unknownOpcode (byte : UInt8)
  | invalidLocal (slot : Nat)
  | undefinedVariable (name : Text)
  | notAddable
  | notNumbers
  | notNumber
  | divisionByZero
  | notCallable
  | wrongArity (expected : Int64) (given : Nat)
  | invalidCallee (error : VerifyError)
  | fieldNameNotString
  | indexNotInteger
  | outOfBounds (index : Int64) (length : Nat)
  | keyNotString
  | undefinedField (name : Text)
  | notIndexable
  | notIndexableArray
  | noFields
  | noSettableFields
  | noLength
  | pushNotArray
  | popNotArray
  | popEmpty
  | keysNotStruct
  | valuesNotStruct
  | notContainer
  deriving DecidableEq, Repr

/-- The text of a failure. -/
def RuntimeCause.message : RuntimeCause → Text
  | .ranPastEnd function => "Execution ran past the end of " ++ function ++ "."
  | .operandOverflow | .frameOverflow => "Stack overflow."
  | .underflow op => "Stack underflow in " ++ op.name ++ "."
  | .unknownOpcode byte => "Unknown opcode 0x" ++ Text.hexUpper 2 byte.toNat ++ "."
  | .invalidLocal slot => "Invalid local slot " ++ Text.ofNat slot ++ "."
  | .undefinedVariable name => "Undefined variable '" ++ name ++ "'."
  | .notAddable => "Operands must be two numbers or two strings."
  | .notNumbers => "Operands must be numbers."
  | .notNumber => "Operand must be a number."
  | .divisionByZero => "Division by zero."
  | .notCallable => "Can only call functions."
  | .wrongArity expected given =>
    "Expected " ++ Text.ofInt64 expected ++ " arguments but got " ++ Text.ofNat given ++ "."
  | .invalidCallee error => "Invalid bytecode in " ++ error.message ++ "."
  | .fieldNameNotString => "Struct field name must be a string."
  | .indexNotInteger => "Array index must be an integer."
  | .outOfBounds index length =>
    "Array index out of bounds: " ++ Text.ofInt64 index ++ " (length " ++ Text.ofNat length ++ ")."
  | .keyNotString => "Struct key must be a string."
  | .undefinedField name => "Undefined field '" ++ name ++ "'."
  | .notIndexable => "Can only index arrays and structs."
  | .notIndexableArray => "Can only index arrays."
  | .noFields => "Can only access fields on structs."
  | .noSettableFields => "Can only set fields on structs."
  | .noLength => "len() requires array, struct or string."
  | .pushNotArray => "push() requires array as first argument."
  | .popNotArray => "pop() requires array."
  | .popEmpty => "Cannot pop from empty array."
  | .keysNotStruct => "keys() requires a struct."
  | .valuesNotStruct => "values() requires a struct."
  | .notContainer => "contains() requires array or struct."

/-- One frame of the call stack of an error. -/
structure TraceEntry where
  /-- Empty for the top-level script. -/
  function : Text
  line : Int64
  deriving DecidableEq, Repr

/-- The text of a trace entry. -/
def TraceEntry.message (e : TraceEntry) : Text :=
  let place : Text := if e.function = [] then "script" else e.function ++ "()"
  "[line " ++ Text.ofInt64 e.line ++ "] in " ++ place

/-- A failed execution. -/
structure RuntimeError where
  cause : RuntimeCause
  /-- The frames that were active, innermost first. -/
  trace : List TraceEntry
  deriving DecidableEq, Repr

/-- The message and one line for each frame. -/
def RuntimeError.report (e : RuntimeError) : Text :=
  e.cause.message ++ [0x0A] ++ e.trace.flatMap fun entry => entry.message ++ [0x0A]

/-- The error behind an interpretation that did not succeed. -/
inductive MachineError where
  | noFunction
  | invalid (error : VerifyError)
  | runtime (error : RuntimeError)
  deriving DecidableEq, Repr

/-- The text of a machine error. -/
def MachineError.message : MachineError → Text
  | .noFunction => "no function to interpret"
  | .invalid error => error.message
  | .runtime error => error.cause.message

/-- How an interpretation ends. -/
inductive Outcome where
  | ok
  | compileError
  | runtimeError
  deriving DecidableEq, Repr

/-- The name of an outcome. -/
def Outcome.name : Outcome → Text
  | .ok => "ok"
  | .compileError => "compile error"
  | .runtimeError => "runtime error"

/-- The name an outcome code is shown under, whether or not an outcome has it. -/
def Outcome.nameOfCode (code : Int) : Text :=
  if code = 0 then Outcome.ok.name
  else if code = 1 then Outcome.compileError.name
  else if code = 2 then Outcome.runtimeError.name
  else "InterpretResult(" ++ Text.ofInt code ++ ")"

/-- An active call. -/
structure Frame where
  function : ObjectId
  /-- The offset of the next byte to execute. -/
  ip : Int
  /-- The stack index of the callee; locals and operands follow it. -/
  base : Nat
  deriving DecidableEq, Repr, Inhabited

/-- A stack machine. -/
structure Machine where
  /-- The root source under which the machine is registered on its heap. -/
  source : RootId
  /-- The operand stack, bottom first. -/
  stack : Array Value := #[]
  /-- The most values the stack may hold. -/
  stackMax : Nat
  /-- The active calls, innermost first. -/
  frames : List Frame := []
  /-- The most calls that may be active. -/
  maxFrames : Nat
  globals : Globals := {}
  /-- What the outermost call of the last successful interpretation returned. -/
  result : Value := .nil
  lastError : Option MachineError := none
  /-- Whether each instruction is written to the error output. -/
  tracing : Bool := false
  closed : Bool := false
  deriving Repr, Inhabited

namespace Machine

/-- The frame limit of a machine that nobody configured. -/
def standardFrames : Nat := 64

/-- The stack limit of a machine that nobody configured. -/
def standardStack : Nat := standardFrames * 256

/-- The limits of a machine; a limit that is not positive means the standard one. -/
structure Options where
  maxFrames : Int64 := 0
  stackMax : Int64 := 0
  tracing : Bool := false
  deriving DecidableEq, Repr, Inhabited

/-- A limit, or the standard one in its place. -/
def limitOr (standard : Nat) (n : Int64) : Nat := if 0 < n then n.toInt.toNat else standard

/-- The most values for which a stack can be set aside. -/
def largestStack : Nat := 0x100000000000

/-- Makes a machine and registers its roots; a stack that is too large to be set
aside is a fault. -/
def create (options : Options) : MemoryM Machine := do
  let stackMax := limitOr standardStack options.stackMax
  if largestStack < stackMax then throw .crash
  let m ← get
  let (roots, source) := m.heap.roots.add "vm"
  set { m with heap := { m.heap with roots } }
  return {
    source, stackMax
    maxFrames := limitOr standardFrames options.maxFrames
    tracing := options.tracing }

/-- Unregisters the roots of a machine, which cannot run from then on. -/
def close (machine : Machine) (m : Memory) : Memory × Machine :=
  if machine.closed then (m, machine)
  else
    ({ m with heap := { m.heap with roots := m.heap.roots.remove machine.source } },
      { machine with closed := true })

/-- The objects a machine keeps alive: those on its stack, the functions of its
frames from the outermost on, those of its globals and its last result. -/
def holds (machine : Machine) : List ObjectId :=
  referents machine.stack.toList ++ (machine.frames.map (·.function)).reverse ++
    referents machine.globals.values ++ referents [machine.result]

/-- What the root sources hold, this machine's own roots taken from its state. -/
def holdings (machine : Machine) (others : Holdings) : Holdings := fun id =>
  if id = machine.source then machine.holds.map .object else others id

end Machine

end StackVm
