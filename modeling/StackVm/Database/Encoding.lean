/-
How a database writes texts.

A database that writes texts in two-byte units reads the bytes it is given as
characters first, in a way that never fails: a continuation byte on its own is the
character of its value, a sequence may have any number of continuation bytes, and
what is no character becomes the replacement character.
-/
import StackVm.Text.Utf8

namespace StackVm

/-- How a database writes texts. -/
inductive Encoding where
  /-- As the bytes they are. -/
  | utf8
  /-- In units of two bytes, the low byte first. -/
  | utf16le
  /-- In units of two bytes, the high byte first. -/
  | utf16be
  deriving DecidableEq, Repr

namespace Encoding

/-- The payload bits of the first byte of a sequence. -/
def leadBits (b : UInt8) : Nat :=
  if b < 0xE0 then b.toNat % 32
  else if b < 0xF0 then b.toNat % 16
  else if b < 0xF8 then b.toNat % 8
  else if b < 0xFC then b.toNat % 4
  else if b < 0xFE then b.toNat % 2
  else 0

/-- The number of different values of a code point while it is being read. -/
def pointRange : Nat := 0x100000000

/-- Whether no text has a code point: it is too short for its sequence, a surrogate, or
one of the two that are no characters. -/
def isRefused (code : Nat) : Bool :=
  code < 0x80 || (0xD800 ≤ code && code < 0xE000) || code = 0xFFFE || code = 0xFFFF

/-- The first code point of a text that starts with `a`, and how many bytes follow `a`
in it. -/
def pointAt (a : UInt8) (rest : Text) : Nat × Nat :=
  if a < 0xC0 then (a.toNat, 0)
  else
    let tails := rest.takeWhile Text.isTail
    let code := tails.foldl (fun c b => (c * 64 + Text.tailBits b) % pointRange) (leadBits a)
    (if isRefused code then Text.replacement else code, tails.length)

/-- The code points of a text, behind those read before, last one first. -/
def pointsInto (done : List Nat) : Text → List Nat
  | [] => done.reverse
  | a :: rest => pointsInto ((pointAt a rest).1 :: done) (rest.drop (pointAt a rest).2)
termination_by t => t.length
decreasing_by simp only [List.length_drop, List.length_cons]; omega

/-- The code points of a text. -/
def points (t : Text) : List Nat := pointsInto [] t

/-- The first code point that takes two units. -/
def firstPair : Nat := 0x10000

/-- The units of a code point. -/
def units (code : Nat) : List Nat :=
  if code < firstPair then [code]
  else [0xD800 + (code - firstPair) / 1024 % 1024, 0xDC00 + code % 1024]

/-- The code point that its units are read back as. -/
def readBack (code : Nat) : Nat :=
  if code < firstPair then code else firstPair + (code - firstPair) % 0x100000

/-- A text as it is read back from a database. -/
def kept (e : Encoding) (t : Text) : Text :=
  match e with
  | .utf8 => t
  | .utf16le | .utf16be => (points t).flatMap fun c => Text.encodeRune (readBack c)

/-- The bytes that a database writes for a text. -/
def bytes (e : Encoding) (t : Text) : Text :=
  match e with
  | .utf8 => t
  | .utf16le =>
    (points t).flatMap fun c => (units c).flatMap fun u => [u.toUInt8, (u / 256).toUInt8]
  | .utf16be =>
    (points t).flatMap fun c => (units c).flatMap fun u => [(u / 256).toUInt8, u.toUInt8]

/-- Whether one text comes before another in a database. -/
def before (e : Encoding) (a b : Text) : Bool := Text.before (e.bytes a) (e.bytes b)

/-- The encoding of a name; letter case does not matter. -/
def ofName? (name : Text) : Option Encoding :=
  let word := name.map Text.lowerByte
  if word = "utf8" ∨ word = "utf-8" then some .utf8
  else if word = "utf-16le" ∨ word = "utf16le" ∨ word = "utf-16" ∨ word = "utf16" then some .utf16le
  else if word = "utf-16be" ∨ word = "utf16be" then some .utf16be
  else none

end Encoding

end StackVm
