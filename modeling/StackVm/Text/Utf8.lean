/-
Reading texts as UTF-8.

Every byte that does not belong to a well-formed sequence counts as one
replacement character.  Overlong forms, surrogates and values above 10FFFF are
not well-formed.
-/
import StackVm.Text.Basic

namespace StackVm.Text

/-- What one step of reading finds: a code point, or a byte that starts no sequence. -/
inductive Rune where
  | point (code : Nat)
  | stray (byte : UInt8)
  deriving DecidableEq, Repr

/-- The character shown for a stray byte. -/
def replacement : Nat := 0xFFFD

/-- The code point a rune counts as. -/
def Rune.code : Rune → Nat
  | .point c => c
  | .stray _ => replacement

/-- Whether a byte lies in a closed range. -/
def within (low high b : UInt8) : Bool := low ≤ b && b ≤ high

/-- Whether a byte can continue a sequence. -/
def isTail (b : UInt8) : Bool := within 0x80 0xBF b

/-- The six payload bits of a continuation byte. -/
def tailBits (b : UInt8) : Nat := b.toNat % 64

/-- The range the second byte of a sequence must lie in, given the first. -/
def secondRange (first : UInt8) : UInt8 × UInt8 :=
  if first = 0xE0 then (0xA0, 0xBF)
  else if first = 0xED then (0x80, 0x9F)
  else if first = 0xF0 then (0x90, 0xBF)
  else if first = 0xF4 then (0x80, 0x8F)
  else (0x80, 0xBF)

/-- The first rune of a text that starts with `a`, and how many bytes follow `a` in it. -/
def runeAt (a : UInt8) (rest : Text) : Rune × Nat :=
  let range := secondRange a
  if a < 0x80 then (.point a.toNat, 0)
  else if within 0xC2 0xDF a then
    match rest with
    | b :: _ =>
      if isTail b then (.point ((a.toNat % 32) * 64 + tailBits b), 1) else (.stray a, 0)
    | _ => (.stray a, 0)
  else if within 0xE0 0xEF a then
    match rest with
    | b :: c :: _ =>
      if within range.1 range.2 b && isTail c then
        (.point ((a.toNat % 16) * 4096 + tailBits b * 64 + tailBits c), 2)
      else (.stray a, 0)
    | _ => (.stray a, 0)
  else if within 0xF0 0xF4 a then
    match rest with
    | b :: c :: d :: _ =>
      if within range.1 range.2 b && isTail c && isTail d then
        (.point ((a.toNat % 8) * 262144 + tailBits b * 4096 + tailBits c * 64 + tailBits d), 3)
      else (.stray a, 0)
    | _ => (.stray a, 0)
  else (.stray a, 0)

/-- Reads runes until the text ends, behind the ones read before, last one first. -/
def runesInto (done : List Rune) : Text → List Rune
  | [] => done.reverse
  | a :: rest => runesInto ((runeAt a rest).1 :: done) (rest.drop (runeAt a rest).2)
termination_by t => t.length
decreasing_by simp only [List.length_drop, List.length_cons]; omega

/-- The runes of a text, in order. -/
def runes (t : Text) : List Rune := runesInto [] t

/-- How many characters a text has, each stray byte counting as one. -/
def runeCount (t : Text) : Nat := (runes t).length

/-- Whether a text is well-formed UTF-8. -/
def isUtf8 (t : Text) : Bool :=
  (runes t).all fun
    | .point _ => true
    | .stray _ => false

/-- The UTF-8 bytes of a code point. -/
def encodeRune (c : Nat) : Text :=
  let tail (n : Nat) : UInt8 := (0x80 + n % 64).toUInt8
  if c < 0x80 then [c.toUInt8]
  else if c < 0x800 then [(0xC0 + c / 64).toUInt8, tail c]
  else if c < 0x10000 then [(0xE0 + c / 4096).toUInt8, tail (c / 64), tail c]
  else [(0xF0 + c / 262144).toUInt8, tail (c / 4096), tail (c / 64), tail c]

/-- The small letter of a capital letter, of those that have one among the ASCII
letters. -/
def lowerPoint (c : Nat) : Nat :=
  if 0x41 ≤ c ∧ c ≤ 0x5A then c + 0x20
  else if c = 0x130 then 0x69
  else if c = 0x212A then 0x6B
  else c

/-- The text with small letters in place of capital ones, of those that have one among
the ASCII letters. -/
def lowered (t : Text) : Text := (runes t).flatMap fun r => encodeRune (lowerPoint r.code)

/-- The text with every stray byte replaced by the replacement character. -/
def ofRunes (rs : List Rune) : Text := rs.flatMap fun r => encodeRune r.code

end StackVm.Text
