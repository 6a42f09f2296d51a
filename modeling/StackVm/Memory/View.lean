/-
Views: values laid out as finite trees.  An object that is met again below itself
is shown by how far up it is, and collections are not followed below a fixed
depth.
-/
import StackVm.Memory.Heap

namespace StackVm

/-- A value as a finite tree. -/
inductive View where
  | nil
  | bool (b : Bool)
  | int (n : Int64)
  | native (address : UInt64)
  | string (data : Text)
  | array (elements : List View)
  | struct (fields : List (Text × View))
  | function (name : Text) (arity : Int64)
  /-- An object that is not live. -/
  | freed (kind : Kind)
  /-- An object that is met again this many levels below itself. -/
  | up (levels : Nat)
  /-- A collection that is too deep to be followed, with its size. -/
  | deep (kind : Kind) (size : Nat)

namespace View

/-- How many objects may be above a collection that is followed. -/
def maxDepth : Nat := 8

end View

namespace Memory

/-- The view of a value below the objects of `path`, the nearest one first, with
`depth` more levels to be followed. -/
def viewBelow (m : Memory) : (depth : Nat) → (path : List ObjectId) → Value → View
  | _, _, .nil => .nil
  | _, _, .int n => .int n
  | _, _, .bool b => .bool b
  | _, _, .native address => .native address
  | depth, path, .object id =>
    match m.objects[id]? with
    | none => .nil
    | some o =>
      if !o.isLive then .freed o.kind
      else
        match path.idxOf? id with
        | some i => .up (i + 1)
        | none =>
          match o.payload, depth with
          | .string data, _ => .string data
          | .function f, _ => .function f.name f.arity
          | .array elements, 0 => .deep .array elements.size
          | .struct record, 0 => .deep .struct record.size
          | .array elements, depth + 1 =>
            .array (elements.toList.map (m.viewBelow depth (id :: path)))
          | .struct record, depth + 1 =>
            .struct (record.fields.map fun f => (f.1, m.viewBelow depth (id :: path) f.2))

/-- The view of a value. -/
def view (m : Memory) (v : Value) : View := m.viewBelow View.maxDepth [] v

end Memory

end StackVm
