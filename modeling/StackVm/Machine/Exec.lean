/-
The state a running machine works on, and the small steps that instructions are
made of: reading operands, pushing and popping, allocating.

A step stops the execution either with a cause, which becomes a runtime error, or
with a fault.  In both cases the state is the one reached so far.
-/
import StackVm.Machine.Basic
import StackVm.Machine.Input
import StackVm.Memory.Collect

namespace StackVm

/-- Everything an execution can change. -/
structure Execution where
  memory : Memory
  machine : Machine
  /-- The input that has not been read. -/
  input : Text := []
  out : Array UInt8 := #[]
  err : Array UInt8 := #[]
  deriving Inhabited

/-- Why an execution stops inside an instruction. -/
inductive Stop where
  | raised (cause : RuntimeCause)
  | fault (f : Fault)
  deriving DecidableEq, Repr

/-- Steps of an execution. -/
abbrev ExecM := EStateM Stop Execution

namespace Exec

/-- Stops with a cause. -/
def raise {α : Type} (cause : RuntimeCause) : ExecM α := throw (.raised cause)

/-- Stops because something outside its bounds is addressed. -/
def crash {α : Type} : ExecM α := throw (.fault .crash)

/-- The value that is there, or a crash. -/
def present {α : Type} : Option α → ExecM α
  | some a => pure a
  | none => crash

/-- Changes the machine. -/
def modifyMachine (f : Machine → Machine) : ExecM Unit :=
  modify fun s => { s with machine := f s.machine }

/-- Changes the content of an object. -/
def modifyPayload (id : ObjectId) (f : Payload → Payload) : ExecM Unit :=
  modify fun s => { s with memory := s.memory.modifyPayload id f }

/-- Writes to the output. -/
def print (t : Text) : ExecM Unit := modify fun s => { s with out := s.out ++ t }

/-- Writes to the error output. -/
def printErr (t : Text) : ExecM Unit := modify fun s => { s with err := s.err ++ t }

/-- The innermost frame. -/
def frame : ExecM Frame := do present (← get).machine.frames.head?

/-- The code that the innermost frame runs. -/
def chunk : ExecM Chunk := do
  let f ← frame
  let s ← get
  present ((s.memory.function? f.function).bind s.memory.chunkOf?)

/-- Changes the innermost frame. -/
def modifyFrame (f : Frame → Frame) : ExecM Unit :=
  modifyMachine fun m =>
    { m with
      frames := match m.frames with
        | [] => []
        | top :: callers => f top :: callers }

/-- Moves the innermost frame on. -/
def advance (n : Int) : ExecM Unit := modifyFrame fun f => { f with ip := f.ip + n }

/-- A byte of a code. -/
def byteAt (c : Chunk) (offset : Int) : ExecM UInt8 :=
  if offset < 0 then crash else present c.code[offset.toNat]?

/-- Reads the next operand byte. -/
def operand : ExecM Nat := do
  let b ← byteAt (← chunk) (← frame).ip
  advance 1
  return b.toNat

/-- Reads a 16-bit operand, high byte first. -/
def wideOperand : ExecM Nat := do
  let high ← operand
  let low ← operand
  return high * 256 + low

/-- Reads the operand that selects a constant, and the constant. -/
def constantOperand : ExecM Value := do
  let i ← operand
  present (← chunk).constants[i]?

/-- Reads the operand that selects a name. -/
def nameOperand : ExecM Text := do
  match ← constantOperand with
  | .object id => present ((← get).memory.string? id)
  | _ => crash

/-- Puts a value on the stack. -/
def push (v : Value) : ExecM Unit := do
  let m := (← get).machine
  if m.stack.size < m.stackMax then pure () else crash
  modifyMachine fun m => { m with stack := m.stack.push v }

/-- Takes the top value off the stack. -/
def pop : ExecM Value := do
  let v ← present (← get).machine.stack.back?
  modifyMachine fun m => { m with stack := m.stack.pop }
  return v

/-- The value `distance` below the top of the stack. -/
def peek (distance : Nat) : ExecM Value := do
  let stack := (← get).machine.stack
  if distance < stack.size then present stack[stack.size - 1 - distance]? else crash

/-- Replaces the top value. -/
def replaceTop (v : Value) : ExecM Unit := do
  let _ ← pop
  push v

/-- Shortens the stack. -/
def shrinkTo (size : Nat) : ExecM Unit := do
  if size ≤ (← get).machine.stack.size then pure () else crash
  modifyMachine fun m => { m with stack := m.stack.shrink size }

/-- Fails unless the innermost frame has `need` values above its callee. -/
def require (op : Opcode) (need : Nat) : ExecM Unit := do
  let f ← frame
  if (← get).machine.stack.size < f.base + 1 + need then raise (.underflow op)

/-- How the instructions make objects. -/
abbrev Allocator := Payload → ExecM ObjectId

/-- Allocates an object with everything the machine and the other root sources
hold kept alive. -/
def alloc (others : Holdings) : Allocator
  | payload, ⟨memory, machine, input, out, err⟩ =>
    match Memory.alloc (machine.holdings others) payload memory with
    | .ok id memory => .ok id ⟨memory, machine, input, out, err⟩
    | .error f memory => .error (.fault f) ⟨memory, machine, input, out, err⟩

end Exec

end StackVm
