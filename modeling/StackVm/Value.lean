/-
Runtime values.  Scalars are stored in the value itself; a string, an array, a
struct or a function is named by the identity of an object.
-/
import StackVm.Text.Utf8

namespace StackVm

/-- The identity of an object.  Identities are never reused. -/
abbrev ObjectId := Nat

/-- A runtime value. -/
inductive Value where
  | nil
  | int (n : Int64)
  | bool (b : Bool)
  /-- The address of native code, which the machine never enters. -/
  | native (address : UInt64)
  | object (id : ObjectId)
  deriving DecidableEq, Repr, Inhabited

/-- The object a value refers to, if it refers to one. -/
def Value.id? : Value → Option ObjectId
  | .object id => some id
  | _ => none

/-- Whether a value counts as false in a condition: only nil and false do. -/
def Value.isFalsey : Value → Bool
  | .nil => true
  | .bool b => !b
  | _ => false

/-- The type a program sees on a value. -/
inductive ValueType where
  | nil
  | int
  | bool
  | string
  | function
  | array
  | struct
  | native
  deriving DecidableEq, Repr, Inhabited

namespace ValueType

/-- Every type in the order of the type tags. -/
def all : Array ValueType := #[.nil, .int, .bool, .string, .function, .array, .struct, .native]

/-- The tag of a type in the packed layout. -/
def tag : ValueType → UInt8
  | .nil => 0
  | .int => 1
  | .bool => 2
  | .string => 3
  | .function => 4
  | .array => 5
  | .struct => 6
  | .native => 7

/-- The type with a tag. -/
def ofTag? (tag : UInt8) : Option ValueType := all[tag.toNat]?

/-- The name of a type. -/
def name : ValueType → Text
  | .nil => "nil"
  | .int => "int"
  | .bool => "bool"
  | .string => "string"
  | .function => "function"
  | .array => "array"
  | .struct => "struct"
  | .native => "native"

/-- The name a tag is shown under, whether or not a type has it. -/
def nameOfTag (tag : UInt8) : Text :=
  match ofTag? tag with
  | some t => t.name
  | none => "Type(" ++ Text.ofNat tag.toNat ++ ")"

theorem ofTag?_tag (t : ValueType) : ofTag? t.tag = some t := by
  cases t <;> rfl

end ValueType

/-- The kinds of object a heap holds. -/
inductive Kind where
  | string
  | array
  | struct
  | function
  deriving DecidableEq, Repr, Inhabited

namespace Kind

/-- Every kind in the order of the kind codes. -/
def all : Array Kind := #[.string, .array, .struct, .function]

/-- The type of the values that refer to an object of this kind. -/
def type : Kind → ValueType
  | .string => .string
  | .array => .array
  | .struct => .struct
  | .function => .function

/-- The name of a kind. -/
def name (k : Kind) : Text := k.type.name

/-- The name a kind code is shown under, whether or not a kind has it. -/
def nameOfCode (code : UInt8) : Text :=
  match all[code.toNat]? with
  | some k => k.name
  | none => "Kind(" ++ Text.ofNat code.toNat ++ ")"

end Kind

/-- An integer with Tibetan digits.  A minus sign stays as it is. -/
def tibetanNumeral (n : Int64) : Text :=
  (Text.ofInt64 n).flatMap fun b =>
    if 0x30 ≤ b ∧ b ≤ 0x39 then Text.encodeRune (0x0F20 + (b.toNat - 0x30)) else [b]

/-- The word printed for a truth value. -/
def truthWord (b : Bool) : Text := if b then "བདེན" else "རྫུན"

end StackVm
