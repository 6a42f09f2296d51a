/-
One instruction: what is checked before it, and what each opcode does.
-/
import StackVm.Machine.Builtins

namespace StackVm

/-- Whether an execution goes on after an instruction. -/
inductive Progress where
  | running
  | finished
  deriving DecidableEq, Repr

namespace Exec

/-- The line written for an instruction when tracing is on. -/
def traceLine (ip : Int) (byte : UInt8) (depth : Nat) : Text :=
  "[" ++ Text.hexLower 4 ip.toNat ++ "] " ++ Text.padRight 16 (Opcode.nameOfByte byte) ++
    " sp=" ++ Text.ofNat depth ++ "\n"

/-- Reads the next opcode byte.  The end of the code and a full stack are found
before it. -/
def fetch : ExecM UInt8 := do
  let f ← frame
  let c ← chunk
  if c.code.size ≤ f.ip then
    let fn ← present ((← get).memory.function? f.function)
    raise (.ranPastEnd fn.displayName)
  let depth := (← get).machine.stack.size
  if (← get).machine.stackMax ≤ depth then raise .operandOverflow
  let byte ← byteAt c f.ip
  if (← get).machine.tracing then printErr (traceLine f.ip byte depth)
  advance 1
  return byte

/-- Leaves the innermost frame with the top value as its result. -/
def ret : ExecM Progress := do
  let result ← pop
  let f ← frame
  modifyMachine fun m => { m with frames := m.frames.tail }
  if (← get).machine.frames.isEmpty then
    shrinkTo 0
    modifyMachine fun m => { m with result }
    push result
    return .finished
  else
    shrinkTo f.base
    push result
    return .running

/-- Pushes a slot of the frame. -/
def getLocal : ExecM Unit := do
  let slot ← operand
  match (← get).machine.stack[(← frame).base + slot]? with
  | some v => push v
  | none => raise (.invalidLocal slot)

/-- Copies the top value to a slot of the frame. -/
def setLocal : ExecM Unit := do
  let slot ← operand
  let i := (← frame).base + slot
  if (← get).machine.stack.size ≤ i then raise (.invalidLocal slot)
  let v ← peek 0
  modifyMachine fun m => { m with stack := m.stack.setIfInBounds i v }

/-- Pushes a global. -/
def getGlobal : ExecM Unit := do
  let name ← nameOperand
  let v ← modifyGet fun s =>
    let (v, globals) := s.machine.globals.get name
    (v, { s with machine := { s.machine with globals } })
  match v with
  | some v => push v
  | none => raise (.undefinedVariable name)

/-- Pops a value and binds it to a global. -/
def defineGlobal : ExecM Unit := do
  let name ← nameOperand
  let v ← pop
  modifyMachine fun m => { m with globals := m.globals.define name v }

/-- Copies the top value to a bound global. -/
def setGlobal : ExecM Unit := do
  let name ← nameOperand
  let v ← peek 0
  match (← get).machine.globals.set name v with
  | some globals => modifyMachine fun m => { m with globals }
  | none => raise (.undefinedVariable name)

/-- Compares the two top values. -/
def equal : ExecM Unit := do
  let b ← pop
  let a ← pop
  let same := (← get).memory.equal a b
  push (.bool same)

/-- Goes forward if the top value is falsey. -/
def jumpIfFalse : ExecM Unit := do
  let distance ← wideOperand
  if (← peek 0).isFalsey then advance distance

/-- Verifies a function before it is called. -/
def verifyCallee (id : ObjectId) : ExecM Unit := do
  let e ← modifyGet fun s =>
    let (memory, e) := s.memory.verify id
    (e, { s with memory })
  match e with
  | some e => raise (.invalidCallee e)
  | none => pure ()

/-- Calls the function below the arguments. -/
def call : ExecM Unit := do
  let argc ← operand
  require .call (argc + 1)
  match ← function? (← peek argc) with
  | none => raise .notCallable
  | some (id, f) =>
    if Int64.ofNat argc ≠ f.arity then raise (.wrongArity f.arity argc)
    let m := (← get).machine
    if m.maxFrames ≤ m.frames.length then raise .frameOverflow
    verifyCallee id
    let base := (← get).machine.stack.size - argc - 1
    modifyMachine fun m => { m with frames := ⟨id, 0, base⟩ :: m.frames }
    let _ ← chunk

/-- Executes the instruction whose opcode has just been read, a return apart. -/
def execute (make : Allocator) : Opcode → ExecM Unit
  | .ret => pure ()
  | .constant => do push (← constantOperand)
  | .pushNil => push .nil
  | .pushTrue => push (.bool true)
  | .pushFalse => push (.bool false)
  | .pop => do let _ ← pop
  | .getLocal => getLocal
  | .setLocal => setLocal
  | .getGlobal => getGlobal
  | .defineGlobal => defineGlobal
  | .setGlobal => setGlobal
  | .equal => equal
  | .greater => arithmetic fun a b => .bool (b < a)
  | .less => arithmetic fun a b => .bool (a < b)
  | .add => add make
  | .subtract => arithmetic fun a b => .int (a - b)
  | .multiply => arithmetic fun a b => .int (a * b)
  | .divide => divide
  | .logicalNot => do push (.bool (← pop).isFalsey)
  | .negate => negate
  | .print => do
    let v ← pop
    let text := (← get).memory.display v
    print (text ++ [0x0A])
  | .jump => do advance (← wideOperand)
  | .jumpIfFalse => jumpIfFalse
  | .loop => do
    let distance ← wideOperand
    advance (-distance)
  | .call => call
  | .buildArray => do
    let count ← operand
    require .buildArray count
    buildArray make count
  | .index => index
  | .indexSet => indexSet
  | .buildStruct => do
    let count ← operand
    require .buildStruct (2 * count)
    buildStruct make count
  | .getField => do getField (← nameOperand)
  | .setField => do setField (← nameOperand)
  | .length => length
  | .arrayPush => arrayPush
  | .arrayPop => arrayPop
  | .typeOf => typeOf make
  | .keys => keys make
  | .values => values make
  | .contains => contains
  | .input => input make

/-- Runs one instruction of the innermost frame. -/
def step (make : Allocator) : ExecM Progress := do
  let byte ← fetch
  match Opcode.ofByte? byte with
  | none => raise (.unknownOpcode byte)
  | some op =>
    match op.shape.pops with
    | none | some 0 => pure ()
    | some need => require op need
    if op = .ret then ret
    else
      execute make op
      return .running

end Exec

end StackVm
