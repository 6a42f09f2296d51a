/-
The instruction set: the opcodes with their byte codes, names, operand counts
and stack effects.  The byte codes are part of the chunk format.
-/
import StackVm.Text.Basic

namespace StackVm

/-- An instruction of the machine. -/
inductive Opcode where
  /-- Pops the result and leaves the frame. -/
  | ret
  /-- Pushes the constant with the operand's index. -/
  | constant
  /-- Pushes nil. -/
  | pushNil
  /-- Pushes true. -/
  | pushTrue
  /-- Pushes false. -/
  | pushFalse
  /-- Drops the top value. -/
  | pop
  /-- Pushes a slot of the frame. -/
  | getLocal
  /-- Copies the top value to a slot of the frame. -/
  | setLocal
  /-- Pushes a global. -/
  | getGlobal
  /-- Pops a value and binds it to a global. -/
  | defineGlobal
  /-- Copies the top value to a bound global. -/
  | setGlobal
  /-- Compares two values. -/
  | equal
  /-- Compares two integers. -/
  | greater
  /-- Compares two integers. -/
  | less
  /-- Adds two integers or joins two strings. -/
  | add
  /-- Subtracts. -/
  | subtract
  /-- Multiplies. -/
  | multiply
  /-- Divides, towards zero. -/
  | divide
  /-- Replaces a value by whether it is falsey. -/
  | logicalNot
  /-- Negates an integer. -/
  | negate
  /-- Pops a value and prints it. -/
  | print
  /-- Goes forward. -/
  | jump
  /-- Goes forward if the top value is falsey. -/
  | jumpIfFalse
  /-- Goes backward. -/
  | loop
  /-- Calls the function below the arguments. -/
  | call
  /-- Makes an array of the top values. -/
  | buildArray
  /-- Reads an array element or a struct field. -/
  | index
  /-- Writes an array element. -/
  | indexSet
  /-- Makes a struct of the top name and value pairs. -/
  | buildStruct
  /-- Reads a named field. -/
  | getField
  /-- Writes a named field. -/
  | setField
  /-- Replaces a collection or a string by its length. -/
  | length
  /-- Appends to an array. -/
  | arrayPush
  /-- Takes the last element off an array. -/
  | arrayPop
  /-- Replaces a value by the name of its type. -/
  | typeOf
  /-- Replaces a struct by the array of its names. -/
  | keys
  /-- Replaces a struct by the array of its values. -/
  | values
  /-- Looks a value up in an array or a name in a struct. -/
  | contains
  /-- Pushes the next input line, or nil at the end. -/
  | input
  deriving DecidableEq, Repr, Inhabited

namespace Opcode

/-- Every opcode in the order of the byte codes. -/
def all : Array Opcode :=
  #[.ret, .constant, .pushNil, .pushTrue, .pushFalse, .pop, .getLocal, .setLocal, .getGlobal,
    .defineGlobal, .setGlobal, .equal, .greater, .less, .add, .subtract, .multiply, .divide,
    .logicalNot, .negate, .print, .jump, .jumpIfFalse, .loop, .call, .buildArray, .index,
    .indexSet, .buildStruct, .getField, .setField, .length, .arrayPush, .arrayPop, .typeOf,
    .keys, .values, .contains, .input]

/-- How many opcodes there are. -/
def count : Nat := all.size

/-- The opcode with a byte code. -/
def ofByte? (b : UInt8) : Option Opcode := all[b.toNat]?

/-- What the machine knows about an instruction before it looks at its operands. -/
structure Shape where
  /-- The name used in listings and messages. -/
  name : String
  /-- How many values it needs above the callee slot; `none` if an operand says it. -/
  pops : Option Nat
  /-- How many values it leaves in their place. -/
  pushes : Nat
  /-- How many operand bytes follow the opcode. -/
  operands : Nat
  deriving DecidableEq, Repr

/-- The shape of each instruction. An instruction that only looks at the top of
the stack counts it as popped and pushed again. -/
def shape : Opcode → Shape
  | .ret => ⟨"RETURN", some 1, 0, 0⟩
  | .constant => ⟨"CONSTANT", some 0, 1, 1⟩
  | .pushNil => ⟨"NIL", some 0, 1, 0⟩
  | .pushTrue => ⟨"TRUE", some 0, 1, 0⟩
  | .pushFalse => ⟨"FALSE", some 0, 1, 0⟩
  | .pop => ⟨"POP", some 1, 0, 0⟩
  | .getLocal => ⟨"GET_LOCAL", some 0, 1, 1⟩
  | .setLocal => ⟨"SET_LOCAL", some 1, 1, 1⟩
  | .getGlobal => ⟨"GET_GLOBAL", some 0, 1, 1⟩
  | .defineGlobal => ⟨"DEFINE_GLOBAL", some 1, 0, 1⟩
  | .setGlobal => ⟨"SET_GLOBAL", some 1, 1, 1⟩
  | .equal => ⟨"EQUAL", some 2, 1, 0⟩
  | .greater => ⟨"GREATER", some 2, 1, 0⟩
  | .less => ⟨"LESS", some 2, 1, 0⟩
  | .add => ⟨"ADD", some 2, 1, 0⟩
  | .subtract => ⟨"SUBTRACT", some 2, 1, 0⟩
  | .multiply => ⟨"MULTIPLY", some 2, 1, 0⟩
  | .divide => ⟨"DIVIDE", some 2, 1, 0⟩
  | .logicalNot => ⟨"NOT", some 1, 1, 0⟩
  | .negate => ⟨"NEGATE", some 1, 1, 0⟩
  | .print => ⟨"PRINT", some 1, 0, 0⟩
  | .jump => ⟨"JUMP", some 0, 0, 2⟩
  | .jumpIfFalse => ⟨"JUMP_IF_FALSE", some 1, 1, 2⟩
  | .loop => ⟨"LOOP", some 0, 0, 2⟩
  | .call => ⟨"CALL", none, 1, 1⟩
  | .buildArray => ⟨"BUILD_ARRAY", none, 1, 1⟩
  | .index => ⟨"INDEX", some 2, 1, 0⟩
  | .indexSet => ⟨"INDEX_SET", some 3, 1, 0⟩
  | .buildStruct => ⟨"BUILD_STRUCT", none, 1, 1⟩
  | .getField => ⟨"GET_FIELD", some 1, 1, 1⟩
  | .setField => ⟨"SET_FIELD", some 2, 1, 1⟩
  | .length => ⟨"LEN", some 1, 1, 0⟩
  | .arrayPush => ⟨"PUSH", some 2, 1, 0⟩
  | .arrayPop => ⟨"POP_ARRAY", some 1, 1, 0⟩
  | .typeOf => ⟨"TYPE_OF", some 1, 1, 0⟩
  | .keys => ⟨"KEYS", some 1, 1, 0⟩
  | .values => ⟨"VALUES", some 1, 1, 0⟩
  | .contains => ⟨"CONTAINS", some 2, 1, 0⟩
  | .input => ⟨"INPUT", some 0, 1, 0⟩

/-- The byte code of an opcode. -/
def toByte : Opcode → UInt8
  | .ret => 0
  | .constant => 1
  | .pushNil => 2
  | .pushTrue => 3
  | .pushFalse => 4
  | .pop => 5
  | .getLocal => 6
  | .setLocal => 7
  | .getGlobal => 8
  | .defineGlobal => 9
  | .setGlobal => 10
  | .equal => 11
  | .greater => 12
  | .less => 13
  | .add => 14
  | .subtract => 15
  | .multiply => 16
  | .divide => 17
  | .logicalNot => 18
  | .negate => 19
  | .print => 20
  | .jump => 21
  | .jumpIfFalse => 22
  | .loop => 23
  | .call => 24
  | .buildArray => 25
  | .index => 26
  | .indexSet => 27
  | .buildStruct => 28
  | .getField => 29
  | .setField => 30
  | .length => 31
  | .arrayPush => 32
  | .arrayPop => 33
  | .typeOf => 34
  | .keys => 35
  | .values => 36
  | .contains => 37
  | .input => 38

/-- The name of an opcode. -/
def name (op : Opcode) : Text := op.shape.name

/-- How many operand bytes an opcode takes. -/
def operandCount (op : Opcode) : Nat := op.shape.operands

/-- How many bytes an instruction takes, opcode and operands together. -/
def size (op : Opcode) : Nat := 1 + op.operandCount

/-- Whether the operands are a 16-bit jump distance. -/
def isJump : Opcode → Bool
  | .jump | .jumpIfFalse | .loop => true
  | _ => false

/-- Whether the operand names a constant that has to be a string. -/
def usesName : Opcode → Bool
  | .getGlobal | .defineGlobal | .setGlobal | .getField | .setField => true
  | _ => false

/-- Whether the operand is an index of the constant pool. -/
def usesConstant (op : Opcode) : Bool := op = .constant || op.usesName

/-- The name a byte is listed under, whether or not it is an opcode. -/
def nameOfByte (b : UInt8) : Text :=
  match ofByte? b with
  | some op => op.name
  | none => "UNKNOWN(0x" ++ Text.hexUpper 2 b.toNat ++ ")"

/-- How many bytes a listing gives an instruction that starts with `b`. -/
def sizeOfByte (b : UInt8) : Nat :=
  match ofByte? b with
  | some op => op.size
  | none => 1

/-- The opcode with a name. -/
def ofName? (name : Text) : Option Opcode := all.find? fun op => op.name = name

theorem ofByte?_toByte (op : Opcode) : ofByte? op.toByte = some op := by
  cases op <;> rfl

theorem size_pos (op : Opcode) : 0 < op.size := by
  unfold size; omega

theorem sizeOfByte_pos (b : UInt8) : 0 < sizeOfByte b := by
  unfold sizeOfByte
  split
  · exact size_pos _
  · exact Nat.one_pos

end Opcode

end StackVm
