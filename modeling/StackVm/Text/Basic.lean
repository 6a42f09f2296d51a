/-
Byte texts and the number texts that listings and messages are made of.

A text is a list of bytes and need not be valid UTF-8: names, strings and error
messages all carry whatever bytes the program was given.
-/

namespace StackVm

/-- A byte string. -/
abbrev Text := List UInt8

namespace Text

/-- The UTF-8 bytes of a string. -/
def ofString (s : String) : Text := s.toUTF8.data.toList

instance : Coe String Text := ⟨ofString⟩

/-- The bytes of a list of ASCII characters. -/
def ofAscii (cs : List Char) : Text := cs.map fun c => c.toNat.toUInt8

/-- A natural number in decimal. -/
def ofNat (n : Nat) : Text := ofAscii (Nat.toDigits 10 n)

/-- An integer in decimal, with a minus sign when it is negative. -/
def ofInt : Int → Text
  | .ofNat n => ofNat n
  | .negSucc n => 0x2D :: ofNat (n + 1)

/-- A signed machine word in decimal. -/
def ofInt64 (n : Int64) : Text := ofInt n.toInt

/-- Puts `fill` in front of a text until it is `width` bytes long. -/
def padLeft (width : Nat) (fill : UInt8) (t : Text) : Text :=
  List.replicate (width - t.length) fill ++ t

/-- Puts spaces after a text until it is `width` bytes long. -/
def padRight (width : Nat) (t : Text) : Text :=
  t ++ List.replicate (width - t.length) 0x20

/-- The upper-case letter of an ASCII letter; every other byte is itself. -/
def upperByte (b : UInt8) : UInt8 := if 0x61 ≤ b ∧ b ≤ 0x7A then b - 0x20 else b

/-- The lower-case letter of an ASCII letter; every other byte is itself. -/
def lowerByte (b : UInt8) : UInt8 := if 0x41 ≤ b ∧ b ≤ 0x5A then b + 0x20 else b

/-- A number in lower-case hexadecimal, with zeros in front up to `width` digits. -/
def hexLower (width n : Nat) : Text := padLeft width 0x30 (ofAscii (Nat.toDigits 16 n))

/-- A number in upper-case hexadecimal, with zeros in front up to `width` digits. -/
def hexUpper (width n : Nat) : Text := (hexLower width n).map upperByte

/-- An integer in upper-case hexadecimal; a minus sign counts towards the width. -/
def hexUpperInt (width : Nat) : Int → Text
  | .ofNat n => hexUpper width n
  | .negSucc n => 0x2D :: hexUpper (width - 1) (n + 1)

/-- Two lower-case hexadecimal digits for each byte. -/
def hexBytes (t : Text) : Text := t.flatMap fun b => hexLower 2 b.toNat

/-- Texts with `sep` between each two of them. -/
def join (sep : Text) (ts : List Text) : Text := List.flatten (ts.intersperse sep)

/-- Numbers in square brackets with one space between each two of them. -/
def bracketed (ns : List Nat) : Text := 0x5B :: join [0x20] (ns.map ofNat) ++ [0x5D]

/-- The text after `front`, when the text starts with it. -/
def after? : (front t : Text) → Option Text
  | [], t => some t
  | _ :: _, [] => none
  | a :: front, b :: t => if a = b then after? front t else none

/-- What stands before the first `b`, and what stands after it if it is there. -/
def cut (b : UInt8) (t : Text) : Text × Option Text :=
  (t.takeWhile (· ≠ b), (t.dropWhile (· ≠ b)).tail?)

/-- The pieces of a text between the bytes `b`, behind the ones found before, last
one first; `current` is the piece being read, last byte first. -/
def piecesInto (b : UInt8) (done : List Text) (current : Text) : Text → List Text
  | [] => (current.reverse :: done).reverse
  | c :: rest =>
    if c = b then piecesInto b (current.reverse :: done) [] rest
    else piecesInto b done (c :: current) rest

/-- The pieces of a text between the bytes `b`. -/
def pieces (b : UInt8) (t : Text) : List Text := piecesInto b [] [] t

/-- Whether `a` comes before `b` in byte order, a proper initial part first. -/
def before : (a b : Text) → Bool
  | [], [] => false
  | [], _ :: _ => true
  | _ :: _, [] => false
  | x :: a, y :: b => if x = y then before a b else x < y

end Text

end StackVm
