/-
The instructions on strings, arrays and structs.

Each one checks all its operands while they are still on the stack, and
allocates only while the stack holds every object it goes on to use.
-/
import StackVm.Machine.Exec

namespace StackVm.Exec

/-- The string a value is. -/
def string? (v : Value) : ExecM (Option Text) := do
  match v with
  | .object id => return (← get).memory.string? id
  | _ => return none

/-- The array a value is, with its identity. -/
def array? (v : Value) : ExecM (Option (ObjectId × Array Value)) := do
  match v with
  | .object id => return ((← get).memory.array? id).map (id, ·)
  | _ => return none

/-- The struct a value is, with its identity. -/
def struct? (v : Value) : ExecM (Option (ObjectId × Record)) := do
  match v with
  | .object id => return ((← get).memory.struct? id).map (id, ·)
  | _ => return none

/-- The function a value is, with its identity. -/
def function? (v : Value) : ExecM (Option (ObjectId × Function)) := do
  match v with
  | .object id => return ((← get).memory.function? id).map (id, ·)
  | _ => return none

/-- Replaces the two top values by one. -/
def replaceTwo (v : Value) : ExecM Unit := do
  let _ ← pop
  replaceTop v

/-- Joins two strings into a new one. -/
def join (make : Allocator) (a b : Value) : ExecM Unit := do
  match ← string? a, ← string? b with
  | some s, some t =>
    let id ← make (.string (s ++ t))
    replaceTwo (.object id)
  | _, _ => raise .notAddable

/-- Adds two integers or joins two strings. -/
def add (make : Allocator) : ExecM Unit := do
  let a ← peek 1
  let b ← peek 0
  match a, b with
  | .int x, .int y => replaceTwo (.int (x + y))
  | _, _ => join make a b

/-- Applies an operation to two integers. -/
def arithmetic (f : Int64 → Int64 → Value) : ExecM Unit := do
  match ← peek 1, ← peek 0 with
  | .int a, .int b => replaceTwo (f a b)
  | _, _ => raise .notNumbers

/-- Divides two integers, towards zero. -/
def divide : ExecM Unit := do
  match ← peek 1, ← peek 0 with
  | .int a, .int b => if b = 0 then raise .divisionByZero else replaceTwo (.int (a / b))
  | _, _ => raise .notNumbers

/-- Negates an integer. -/
def negate : ExecM Unit := do
  match ← peek 0 with
  | .int n => replaceTop (.int (-n))
  | _ => raise .notNumber

/-- The top `count` values of the stack, deepest first. -/
def topValues (count : Nat) : ExecM (Array Value) := do
  let stack := (← get).machine.stack
  if count ≤ stack.size then return stack.extract (stack.size - count) stack.size else crash

/-- Drops the top `count` values. -/
def dropValues (count : Nat) : ExecM Unit := do
  let size := (← get).machine.stack.size
  shrinkTo (size - count)

/-- Makes an array of the top `count` values. -/
def buildArray (make : Allocator) (count : Nat) : ExecM Unit := do
  let id ← make (.array (← topValues count))
  dropValues count
  push (.object id)

/-- Values taken as name and value pairs; `none` if a name is no string. -/
def pairs (m : Memory) : List Value → Option (List (Text × Value))
  | .object id :: v :: rest => do
    let name ← m.string? id
    let tail ← pairs m rest
    return (name, v) :: tail
  | [] => some []
  | _ => none

/-- The top `count` name and value pairs of the stack; `none` if a name is no string. -/
def topPairs (count : Nat) : ExecM (Option (List (Text × Value))) := do
  let values ← topValues (2 * count)
  return pairs (← get).memory values.toList

/-- Makes a struct of the top `count` name and value pairs, the first one deepest.
The names are checked before the struct is made and read afterwards. -/
def buildStruct (make : Allocator) (count : Nat) : ExecM Unit := do
  match ← topPairs count with
  | none => raise .fieldNameNotString
  | some _ =>
    let id ← make (.struct {})
    let fields ← present (← topPairs count)
    modifyPayload id fun _ => .struct (Record.ofPairs fields)
    dropValues (2 * count)
    push (.object id)

/-- The element with an index. -/
def elementAt (elements : Array Value) (key : Value) : ExecM Value := do
  match key with
  | .int i =>
    if 0 ≤ i.toInt ∧ i.toInt < elements.size then present elements[i.toInt.toNat]?
    else raise (.outOfBounds i elements.size)
  | _ => raise .indexNotInteger

/-- The field with a name. -/
def fieldAt (record : Record) (name : Text) : ExecM Value :=
  match record.get? name with
  | some v => pure v
  | none => raise (.undefinedField name)

/-- Reads an array element or a struct field. -/
def index : ExecM Unit := do
  let key ← peek 0
  let container ← peek 1
  match ← array? container with
  | some (_, elements) => replaceTwo (← elementAt elements key)
  | none =>
    match ← struct? container with
    | some (_, record) =>
      match ← string? key with
      | some name => replaceTwo (← fieldAt record name)
      | none => raise .keyNotString
    | none => raise .notIndexable

/-- Writes an array element. -/
def indexSet : ExecM Unit := do
  let value ← peek 0
  match ← array? (← peek 2) with
  | none => raise .notIndexableArray
  | some (id, elements) =>
    match ← peek 1 with
    | .int i =>
      if 0 ≤ i.toInt ∧ i.toInt < elements.size then
        modifyPayload id fun
          | .array elements => .array (elements.setIfInBounds i.toInt.toNat value)
          | p => p
        let _ ← pop
        replaceTwo value
      else raise (.outOfBounds i elements.size)
    | _ => raise .indexNotInteger

/-- Reads a named field. -/
def getField (name : Text) : ExecM Unit := do
  match ← struct? (← peek 0) with
  | some (_, record) => replaceTop (← fieldAt record name)
  | none => raise .noFields

/-- Writes a named field. -/
def setField (name : Text) : ExecM Unit := do
  let value ← peek 0
  match ← struct? (← peek 1) with
  | none => raise .noSettableFields
  | some (id, _) =>
    modifyPayload id fun
      | .struct record => .struct (record.set name value)
      | p => p
    replaceTwo value

/-- The length of an array or a struct, or of a string in characters. -/
def lengthOf : Payload → Option Nat
  | .array elements => some elements.size
  | .struct record => some record.size
  | .string data => some (Text.runeCount data)
  | .function _ => none

/-- Replaces a collection or a string by its length. -/
def length : ExecM Unit := do
  match ← peek 0 with
  | .object id =>
    match ((← get).memory.payload? id).bind lengthOf with
    | some n => replaceTop (.int (Int64.ofNat n))
    | none => raise .noLength
  | _ => raise .noLength

/-- Appends to an array. -/
def arrayPush : ExecM Unit := do
  let element ← peek 0
  match (← array? (← peek 1)).map (·.1) with
  | none => raise .pushNotArray
  | some id =>
    modifyPayload id fun
      | .array elements => .array (elements.push element)
      | p => p
    replaceTwo .nil

/-- Takes the last element off an array. -/
def arrayPop : ExecM Unit := do
  match (← array? (← peek 0)).map fun (id, elements) => (id, elements.back?) with
  | none => raise .popNotArray
  | some (_, none) => raise .popEmpty
  | some (id, some element) =>
    modifyPayload id fun
      | .array elements => .array elements.pop
      | p => p
    replaceTop element

/-- Replaces a value by the name of its type. -/
def typeOf (make : Allocator) : ExecM Unit := do
  let v ← peek 0
  let name := ((← get).memory.typeOf v).name
  let id ← make (.string name)
  replaceTop (.object id)

/-- Appends a new string for each name to an array. -/
def appendNames (make : Allocator) (id : ObjectId) : List Text → ExecM Unit
  | [] => pure ()
  | name :: rest => do
    let s ← make (.string name)
    modifyPayload id fun
      | .array elements => .array (elements.push (.object s))
      | p => p
    appendNames make id rest

/-- Replaces a struct by the array of its names.  The array stays on the stack
above the struct while the names are made. -/
def keys (make : Allocator) : ExecM Unit := do
  match ← struct? (← peek 0) with
  | none => raise .keysNotStruct
  | some (source, _) =>
    let id ← make (.array #[])
    push (.object id)
    let record ← present ((← get).memory.struct? source)
    appendNames make id record.names
    replaceTwo (.object id)

/-- Replaces a struct by the array of its values. -/
def values (make : Allocator) : ExecM Unit := do
  match ← struct? (← peek 0) with
  | none => raise .valuesNotStruct
  | some (_, record) =>
    let id ← make (.array record.values.toArray)
    replaceTop (.object id)

/-- Looks a value up in an array or a name in a struct. -/
def contains : ExecM Unit := do
  let needle ← peek 0
  let container ← peek 1
  match ← array? container with
  | some (_, elements) =>
    let m := (← get).memory
    let found := elements.any fun v => m.equal v needle
    replaceTwo (.bool found)
  | none =>
    match ← struct? container with
    | some (_, record) =>
      let found := (← string? needle).any record.contains
      replaceTwo (.bool found)
    | none => raise .notContainer

/-- Pushes the next input line, or nil at the end. -/
def input (make : Allocator) : ExecM Unit := do
  let line ← modifyGet fun s =>
    let (line, rest) := Input.nextLine s.input
    (line, { s with input := rest })
  match line with
  | none => push .nil
  | some line =>
    let id ← make (.string line)
    push (.object id)

end StackVm.Exec
