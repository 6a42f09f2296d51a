/-
The packed layout in which native code and the machine exchange values: a type
tag, a data word and an extra word.

A scalar travels in the data word.  A reference travels as the slot and the
generation of its object, so that native code never holds what the collector
cannot see.
-/
import StackVm.Memory.Collect

namespace StackVm

/-- A value in the packed layout. -/
structure Packed where
  tag : UInt8
  data : UInt64 := 0
  extra : Int64 := 0
  deriving DecidableEq, Repr

/-- Why a packed value stands for nothing. -/
inductive UnpackError where
  /-- No live object has the slot and the generation. -/
  | stale (type : ValueType) (slot : UInt64) (generation : Int64)
  /-- The object has another type than the tag says. -/
  | mismatch (slot : UInt64) (found : Kind) (wanted : ValueType)
  | unknownTag (tag : UInt8)
  deriving DecidableEq, Repr

/-- The text of an unpacking error. -/
def UnpackError.message : UnpackError → Text
  | .stale type slot generation =>
    "stale heap handle: " ++ type.name ++ " slot " ++ Text.ofNat slot.toNat ++
      " generation " ++ Text.ofInt64 generation
  | .mismatch slot found wanted =>
    "stale heap handle: slot " ++ Text.ofNat slot.toNat ++ " holds " ++ found.name ++
      ", want " ++ wanted.name
  | .unknownTag tag => "unknown value tag " ++ Text.ofNat tag.toNat

namespace Memory

/-- The packed form of a value. -/
def pack (m : Memory) (v : Value) : Packed :=
  let tag := (m.typeOf v).tag
  match v with
  | .nil => { tag }
  | .int n => { tag, data := n.toUInt64 }
  | .bool b => { tag, data := if b then 1 else 0 }
  | .native address => { tag, data := address }
  | .object id =>
    match m.objects[id]?.bind (·.placement) with
    | some p => { tag, data := UInt64.ofNat p.slot, extra := Int64.ofNat p.generation.toNat }
    | none => { tag }

/-- The object of type `type` that a packed reference names.  Only the low halves
of the two words are looked at. -/
def unpackReference (m : Memory) (type : ValueType) (p : Packed) : Except UnpackError Value :=
  match m.lookup p.data.toUInt32 p.extra.toUInt64.toUInt32 with
  | none => .error (.stale type p.data p.extra)
  | some id =>
    match m.objects[id]? with
    | none => .error (.stale type p.data p.extra)
    | some o =>
      if o.kind.type = type then .ok (.object id)
      else .error (.mismatch p.data o.kind type)

/-- The value that a packed form stands for. -/
def unpack (m : Memory) (p : Packed) : Except UnpackError Value :=
  match ValueType.ofTag? p.tag with
  | none => .error (.unknownTag p.tag)
  | some .nil => .ok .nil
  | some .int => .ok (.int p.data.toInt64)
  | some .bool => .ok (.bool (p.data ≠ 0))
  | some .native => .ok (.native p.data)
  | some type => m.unpackReference type p

end Memory

end StackVm
