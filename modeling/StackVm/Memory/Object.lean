/-
Objects: what a heap holds.  An object is made free of any heap; once placed it
carries the heap, the slot and the generation it was placed at for ever, and a
sweep turns it from live to swept without touching its content.
-/
import StackVm.Record
import StackVm.Chunk.Basic

namespace StackVm

/-- The identity of a heap. -/
abbrev HeapId := Nat

/-- A function: its name, its arity and its code. -/
structure Function where
  /-- Empty for a top-level script. -/
  name : Text := []
  arity : Int64 := 0
  chunk : Option ChunkId := none
  /-- Whether the function has passed verification. -/
  verified : Bool := false
  deriving DecidableEq, Repr, Inhabited

/-- The name used in stack traces and messages. -/
def Function.displayName (f : Function) : Text := if f.name = [] then "script" else f.name

/-- The content of an object. -/
inductive Payload where
  | string (data : Text)
  | array (elements : Array Value)
  | struct (record : Record)
  | function (f : Function)
  deriving DecidableEq, Repr, Inhabited

/-- The kind of object a content makes. -/
def Payload.kind : Payload → Kind
  | .string _ => .string
  | .array _ => .array
  | .struct _ => .struct
  | .function _ => .function

/-- Where an object was placed. -/
structure Placement where
  heap : HeapId
  /-- The number of the slot, which its handle carries as a 32-bit word. -/
  slot : Nat
  generation : UInt32
  /-- Whether a sweep has reclaimed the object. -/
  swept : Bool := false
  deriving DecidableEq, Repr, Inhabited

/-- An object with its placement, which is missing until a heap takes it. -/
structure Object where
  payload : Payload
  placement : Option Placement := none
  deriving DecidableEq, Repr, Inhabited

/-- The kind of an object. -/
def Object.kind (o : Object) : Kind := o.payload.kind

/-- Whether a heap owns the object now. -/
def Object.isLive (o : Object) : Bool :=
  match o.placement with
  | some p => !p.swept
  | none => false

end StackVm
