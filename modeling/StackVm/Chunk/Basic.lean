/-
Chunks: the code of one function with its line table and its constant pool, and
the operations that build one.

Constants are kept once each: adding a value that the pool already holds gives
back its index.  Jumps are written with a placeholder distance and patched when
their target is reached.
-/
import StackVm.Opcode
import StackVm.Value

namespace StackVm

/-- The identity of a chunk.  Functions that share a chunk share its identity. -/
abbrev ChunkId := Nat

/-- The compiled code of one function. -/
structure Chunk where
  code : Array UInt8 := #[]
  /-- The source line of each code byte. -/
  lines : Array Int64 := #[]
  constants : Array Value := #[]
  /-- The strings a decoded chunk keeps pinned until it is released. -/
  owned : List ObjectId := []
  /-- The constant indices that await a function; they hold nil until it is linked. -/
  unlinked : List Nat := []
  deriving Repr, Inhabited

namespace Chunk

/-- Constant indices have to fit in one operand byte. -/
def maxConstants : Nat := 256

/-- Jump distances have to fit in two operand bytes. -/
def maxDistance : Int := 0xFFFF

/-- Why an emission is refused. -/
inductive EmitError where
  | tooManyConstants (index : Nat)
  /-- The distance, as the machine word it is worked out in. -/
  | jumpTooFar (distance : Int64)
  /-- The bytes to overwrite are not part of the code. -/
  | outsideCode
  deriving DecidableEq, Repr

/-- The text of an emission error. -/
def EmitError.message : EmitError → Text
  | .tooManyConstants index => "too many constants in one chunk: index " ++ Text.ofNat index
  | .jumpTooFar distance => "jump distance exceeds 16 bits: " ++ Text.ofInt64 distance
  | .outsideCode => "offset outside the code"

/-- Appends one byte and its line. -/
def write (c : Chunk) (b : UInt8) (line : Int64) : Chunk :=
  { c with code := c.code.push b, lines := c.lines.push line }

/-- Appends bytes that all belong to one line. -/
def writeAll (c : Chunk) (bytes : List UInt8) (line : Int64) : Chunk :=
  bytes.foldl (fun c b => c.write b line) c

/-- Appends an opcode byte with its operand bytes.  The instruction's offset is
the code size before. -/
def emit (c : Chunk) (op : UInt8) (operands : List UInt8) (line : Int64) : Chunk :=
  c.writeAll (op :: operands) line

/-- Adds a constant and gives its index; `same` says when two values are one constant. -/
def addConstant (same : Value → Value → Bool) (c : Chunk) (v : Value) : Chunk × Nat :=
  match c.constants.findIdx? (same · v) with
  | some i => (c, i)
  | none => ({ c with constants := c.constants.push v }, c.constants.size)

/-- Adds a constant and emits the instruction that pushes it.  The constant joins
the pool even when its index is too large to be emitted. -/
def emitConstant (same : Value → Value → Bool) (c : Chunk) (v : Value) (line : Int64) :
    Chunk × Except EmitError Nat :=
  let (c, index) := c.addConstant same v
  if index < maxConstants then
    (c.emit Opcode.constant.toByte [index.toUInt8] line, .ok c.code.size)
  else (c, .error (.tooManyConstants index))

/-- Overwrites a byte of the code. -/
def patch (c : Chunk) (offset : Int) (b : UInt8) : Except EmitError Chunk :=
  if 0 ≤ offset ∧ offset < c.code.size then
    .ok { c with code := c.code.setIfInBounds offset.toNat b }
  else .error .outsideCode

/-- The two bytes of a distance, high byte first. -/
def distanceBytes (distance : Int) : UInt8 × UInt8 :=
  ((distance.toNat / 256).toUInt8, distance.toNat.toUInt8)

/-- Emits a jump whose distance is still open.  The placeholder is at the code
size after it, less two. -/
def emitJump (c : Chunk) (op : UInt8) (line : Int64) : Chunk := c.emit op [0xFF, 0xFF] line

/-- Makes the jump with its distance at `placeholder` land on the end of the code. -/
def patchJump (c : Chunk) (placeholder : Int) : Except EmitError Chunk :=
  let distance := c.code.size - (placeholder + 2)
  if 0 ≤ distance ∧ distance ≤ maxDistance then do
    let (high, low) := distanceBytes distance
    let c ← c.patch placeholder high
    c.patch (placeholder + 1) low
  else .error (.jumpTooFar (Int64.ofInt distance))

/-- Emits a jump back to `start`. -/
def emitLoop (c : Chunk) (start : Int) (line : Int64) : Except EmitError Chunk :=
  let distance := c.code.size + 3 - start
  if 0 ≤ distance ∧ distance ≤ maxDistance then
    let (high, low) := distanceBytes distance
    .ok (c.emit Opcode.loop.toByte [high, low] line)
  else .error (.jumpTooFar (Int64.ofInt distance))

/-- The source line of a code byte, or 0 where the line table does not reach. -/
def lineAt (c : Chunk) (offset : Int) : Int64 :=
  if offset < 0 then 0 else c.lines[offset.toNat]?.getD 0

/-- The 16-bit number at an offset, high byte first, or 0 where the code ends before it. -/
def wordAt (c : Chunk) (offset : Nat) : Nat :=
  match c.code[offset]?, c.code[offset + 1]? with
  | some high, some low => high.toNat * 256 + low.toNat
  | _, _ => 0

/-- Where the jump instruction at `offset` goes when it is taken. -/
def target (c : Chunk) (op : Opcode) (offset : Nat) : Int :=
  let next : Int := offset + op.size
  let distance : Int := c.wordAt (offset + 1)
  if op = .loop then next - distance else next + distance

/-- Why a function cannot be linked. -/
inductive LinkError where
  | notUnlinked (index : Int)
  | noFunction (index : Int)
  deriving DecidableEq, Repr

/-- The text of a link error. -/
def LinkError.message : LinkError → Text
  | .notUnlinked index => "constant " ++ Text.ofInt index ++ " is not an unlinked function slot"
  | .noFunction index => "constant " ++ Text.ofInt index ++ ": nil function"

/-- Puts a function into an unlinked slot. -/
def link (c : Chunk) (index : Int) (fn : Option ObjectId) : Except LinkError Chunk :=
  if 0 ≤ index ∧ index.toNat ∈ c.unlinked then
    match fn with
    | none => .error (.noFunction index)
    | some id =>
      .ok { c with
        constants := c.constants.setIfInBounds index.toNat (.object id)
        unlinked := c.unlinked.erase index.toNat }
  else .error (.notUnlinked index)

end Chunk

end StackVm
