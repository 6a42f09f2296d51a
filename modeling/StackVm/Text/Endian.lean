/-
Numbers as bytes, in both byte orders, and counted reading of byte strings.
-/
import StackVm.Text.Basic

namespace StackVm.Text

/-- The `width` low bytes of a number, lowest first. -/
def littleEndian : (width n : Nat) → Text
  | 0, _ => []
  | width + 1, n => n.toUInt8 :: littleEndian width (n / 256)

/-- The number that bytes stand for, lowest first. -/
def fromLittleEndian : Text → Nat
  | [] => 0
  | b :: rest => b.toNat + 256 * fromLittleEndian rest

/-- The `width` low bytes of a number, highest first. -/
def bigEndian : (width n : Nat) → Text
  | 0, _ => []
  | width + 1, n => (n / 256 ^ width).toUInt8 :: bigEndian width n

/-- The number that bytes stand for, highest first. -/
def fromBigEndian (t : Text) : Nat := t.foldl (fun n b => n * 256 + b.toNat) 0

/-- The first `n` bytes and the rest, if there are that many. -/
def split? (n : Nat) (t : Text) : Option (Text × Text) :=
  let front := t.take n
  if front.length = n then some (front, t.drop n) else none

/-- A little-endian number of `width` bytes and the rest. -/
def number? (width : Nat) (t : Text) : Option (Nat × Text) :=
  (split? width t).map fun (bytes, rest) => (fromLittleEndian bytes, rest)

end StackVm.Text
