/-
Canonical CBOR: every number in its shortest form and every length definite.
-/
import StackVm.Text.Endian

namespace StackVm.Cbor

/-- The start of an item of a major type with a number, in the shortest form. -/
def head (major n : Nat) : Text :=
  let first (info : Nat) : UInt8 := (32 * major + info).toUInt8
  if n < 24 then [first n]
  else if n < 0x100 then first 24 :: Text.bigEndian 1 n
  else if n < 0x10000 then first 25 :: Text.bigEndian 2 n
  else if n < 0x100000000 then first 26 :: Text.bigEndian 4 n
  else first 27 :: Text.bigEndian 8 n

/-- A natural number. -/
def nat (n : Nat) : Text := head 0 n

/-- A signed machine word. -/
def int (n : Int64) : Text :=
  match n.toInt with
  | .ofNat n => head 0 n
  | .negSucc n => head 1 n

/-- A byte string. -/
def bytes (t : Text) : Text := head 2 t.length ++ t

/-- A text, whose bytes are taken as they are. -/
def text (t : Text) : Text := head 3 t.length ++ t

/-- An array of encoded elements. -/
def array (elements : List Text) : Text := head 4 elements.length ++ elements.flatten

/-- A map of encoded keys and values, in the order given. -/
def map (entries : List (Text × Text)) : Text :=
  head 5 entries.length ++ entries.flatMap fun e => e.1 ++ e.2

/-- The null item. -/
def null : Text := [0xF6]

end StackVm.Cbor
