/-
Checking code before it runs.

The code is decoded from its start, instruction after instruction.  Each one has
to have a known opcode and all its operands; a constant operand has to be inside
the pool, a name has to be a string, and a jump has to end inside the code or
right behind it.
-/
import StackVm.Chunk.Basic

namespace StackVm.Chunk

/-- Why a chunk may not run. -/
inductive CodeError where
  | unlinked (slots : List Nat)
  | unknownOpcode (offset : Nat) (byte : UInt8)
  | truncated (offset : Nat) (op : Opcode)
  | constantOutOfRange (offset : Nat) (op : Opcode) (index poolSize : Nat)
  | nameNotString (offset : Nat) (op : Opcode) (index : Nat) (type : ValueType)
  | targetOutside (offset : Nat) (op : Opcode) (target : Int)
  deriving DecidableEq, Repr

/-- The offset an error text starts with. -/
def offsetText (offset : Nat) : Text := "offset " ++ Text.hexUpper 4 offset ++ ": "

/-- The text of a code error. -/
def CodeError.message : CodeError → Text
  | .unlinked slots => "unlinked function constant: constants " ++ Text.bracketed slots
  | .unknownOpcode offset byte =>
    offsetText offset ++ "unknown opcode 0x" ++ Text.hexUpper 2 byte.toNat
  | .truncated offset op => offsetText offset ++ op.name ++ " truncated"
  | .constantOutOfRange offset op index poolSize =>
    offsetText offset ++ op.name ++ " constant " ++ Text.ofNat index ++
      " out of range (pool has " ++ Text.ofNat poolSize ++ ")"
  | .nameNotString offset op index type =>
    offsetText offset ++ op.name ++ " name constant " ++ Text.ofNat index ++ " is " ++
      type.name ++ ", want string"
  | .targetOutside offset op target =>
    offsetText offset ++ op.name ++ " target " ++ Text.hexUpperInt 4 target ++ " outside code"

/-- The opcode of the instruction at an offset, if the whole instruction is there. -/
def instructionAt (c : Chunk) (offset : Nat) (byte : UInt8) : Except CodeError Opcode :=
  match Opcode.ofByte? byte with
  | none => .error (.unknownOpcode offset byte)
  | some op =>
    if offset + op.size ≤ c.code.size then .ok op else .error (.truncated offset op)

/-- Checks the constant that the instruction at an offset refers to. -/
def checkConstant (typeOf : Value → ValueType) (c : Chunk) (op : Opcode) (offset : Nat) :
    Except CodeError Unit :=
  if op.usesConstant then
    let index := (c.code[offset + 1]?.getD 0).toNat
    match c.constants[index]? with
    | none => .error (.constantOutOfRange offset op index c.constants.size)
    | some v =>
      if op.usesName ∧ typeOf v ≠ .string then
        .error (.nameNotString offset op index (typeOf v))
      else .ok ()
  else .ok ()

/-- Checks the target of the instruction at an offset. -/
def checkTarget (c : Chunk) (op : Opcode) (offset : Nat) : Except CodeError Unit :=
  if op.isJump then
    let target := c.target op offset
    if target < 0 ∨ c.code.size < target then .error (.targetOutside offset op target)
    else .ok ()
  else .ok ()

/-- Checks the instructions from an offset on. -/
def validateFrom (typeOf : Value → ValueType) (c : Chunk) (offset : Nat) :
    Except CodeError Unit :=
  if h : offset < c.code.size then
    match c.instructionAt offset c.code[offset] with
    | .error e => .error e
    | .ok op =>
      match c.checkConstant typeOf op offset with
      | .error e => .error e
      | .ok () =>
        match c.checkTarget op offset with
        | .error e => .error e
        | .ok () => validateFrom typeOf c (offset + op.size)
  else .ok ()
termination_by c.code.size - offset
decreasing_by have := op.size_pos; omega

/-- Checks that a chunk is fully linked and that its code is well formed. -/
def validate (typeOf : Value → ValueType) (c : Chunk) : Except CodeError Unit :=
  if c.unlinked = [] then c.validateFrom typeOf 0 else .error (.unlinked c.unlinked)

/-- The offsets at which the instructions of a code start when it is decoded from
`offset` on, up to the first byte that is no whole instruction. -/
inductive Starts (c : Chunk) : Nat → Nat → Prop where
  | here {offset : Nat} : Starts c offset offset
  | next {offset start : Nat} {byte : UInt8} {op : Opcode} :
      c.code[offset]? = some byte → c.instructionAt offset byte = .ok op →
      Starts c (offset + op.size) start → Starts c offset start

end StackVm.Chunk
