/-
The chunk format.

A written chunk is the magic, the sizes of the code, the constant table and the
line table as 32-bit numbers, the code, the lines as 32-bit numbers and the
constants, each after a tag byte.  All numbers are little-endian.  A function
constant is written as its tag alone.
-/
import StackVm.Memory.Heap
import StackVm.Text.Endian
import StackVm.Text.Quoted

namespace StackVm.Chunk

/-- A constant as it is written. -/
inductive WireConstant where
  | nil
  | string (data : Text)
  | int (n : Int64)
  | bool (b : Bool)
  /-- A function, of which only the place is kept. -/
  | function
  deriving DecidableEq, Repr

/-- A chunk as it is written. -/
structure Wire where
  code : Text
  lines : List Int32
  constants : List WireConstant
  deriving DecidableEq, Repr

/-- The first four bytes of every written chunk. -/
def magic : Text := "CHNK"

/-- How many bytes the magic and the three sizes take. -/
def headerSize : Nat := 16

/-- The bytes of a constant. -/
def WireConstant.encode : WireConstant → Text
  | .nil => [0]
  | .string data => 1 :: Text.littleEndian 4 data.length ++ data
  | .int n => 2 :: Text.littleEndian 8 n.toUInt64.toNat
  | .bool b => [3, if b then 1 else 0]
  | .function => [4]

/-- The bytes of a chunk. -/
def Wire.encode (w : Wire) : Text :=
  magic ++ Text.littleEndian 4 w.code.length ++ Text.littleEndian 4 w.constants.length ++
    Text.littleEndian 4 w.lines.length ++ w.code ++
    w.lines.flatMap (fun line => Text.littleEndian 4 line.toUInt32.toNat) ++
    w.constants.flatMap WireConstant.encode

/-- Why bytes are no written chunk. -/
inductive WireError where
  | shortHeader (size : Nat)
  | badMagic (found : Text)
  | shortCode (size pos : Nat)
  | shortLines (count pos : Nat)
  | shortConstants (count left : Nat)
  | noTag (index : Nat)
  | noLength (index : Nat)
  | shortString (index size : Nat)
  | shortConstant (index : Nat)
  | unknownTag (index : Nat) (tag : UInt8)
  | trailing (count : Nat)
  deriving DecidableEq, Repr

/-- Whether an error says that the bytes end early. -/
def WireError.isTruncation : WireError → Bool
  | .badMagic _ | .unknownTag _ _ | .trailing _ => false
  | _ => true

/-- The text of a format error. -/
def WireError.message : WireError → Text
  | .shortHeader size =>
    "unexpected end of chunk: need " ++ Text.ofNat headerSize ++ " header bytes, got " ++
      Text.ofNat size
  | .badMagic found =>
    "invalid chunk magic: expected " ++ Text.quoted magic ++ ", got " ++ Text.quoted found
  | .shortCode size pos =>
    "unexpected end of chunk reading code section: need " ++ Text.ofNat size ++
      " bytes at pos " ++ Text.ofNat pos
  | .shortLines count pos =>
    "unexpected end of chunk reading line table: need " ++ Text.ofNat count ++
      " entries at pos " ++ Text.ofNat pos
  | .shortConstants count left =>
    "unexpected end of chunk reading constants: " ++ Text.ofNat count ++ " declared, " ++
      Text.ofNat left ++ " bytes left"
  | .noTag index => "unexpected end of chunk reading constant " ++ Text.ofNat index ++ " tag"
  | .noLength index => "unexpected end of chunk reading constant " ++ Text.ofNat index ++ " length"
  | .shortString index size =>
    "unexpected end of chunk reading constant " ++ Text.ofNat index ++ ": need " ++
      Text.ofNat size ++ " bytes"
  | .shortConstant index => "unexpected end of chunk reading constant " ++ Text.ofNat index
  | .unknownTag index tag =>
    "constant " ++ Text.ofNat index ++ ": unknown tag 0x" ++ Text.hexUpper 2 tag.toNat
  | .trailing count => Text.ofNat count ++ " trailing bytes after chunk"

/-- Reads the constant with an index. -/
def WireConstant.read (index : Nat) : Text → Except WireError (WireConstant × Text)
  | [] => .error (.noTag index)
  | tag :: rest =>
    if tag = 0 then .ok (.nil, rest)
    else if tag = 1 then
      match Text.number? 4 rest with
      | none => .error (.noLength index)
      | some (size, rest) =>
        match Text.split? size rest with
        | none => .error (.shortString index size)
        | some (data, rest) => .ok (.string data, rest)
    else if tag = 2 then
      match Text.number? 8 rest with
      | none => .error (.shortConstant index)
      | some (n, rest) => .ok (.int (UInt64.ofNat n).toInt64, rest)
    else if tag = 3 then
      match rest with
      | [] => .error (.shortConstant index)
      | b :: rest => .ok (.bool (b ≠ 0), rest)
    else if tag = 4 then .ok (.function, rest)
    else .error (.unknownTag index tag)

/-- Reads `count` constants, the first of which has the given index, and then
expects the end.  On an error the constants before it are given all the same. -/
def readConstants : (count index : Nat) → Text → List WireConstant × Option WireError
  | 0, _, [] => ([], none)
  | 0, _, rest => ([], some (.trailing rest.length))
  | count + 1, index, t =>
    match WireConstant.read index t with
    | .error e => ([], some e)
    | .ok (constant, rest) =>
      let (constants, e) := readConstants count (index + 1) rest
      (constant :: constants, e)

/-- Reads `count` entries of a line table, behind the ones read before, last one first. -/
def readLinesInto (done : List Int32) : (count : Nat) → Text → Option (List Int32 × Text)
  | 0, t => some (done.reverse, t)
  | count + 1, t =>
    match Text.number? 4 t with
    | none => none
    | some (n, t) => readLinesInto ((UInt32.ofNat n).toInt32 :: done) count t

/-- Reads a line table of `count` entries. -/
def readLines (count : Nat) (t : Text) : Option (List Int32 × Text) := readLinesInto [] count t

/-- What reading gives: the error of the sections before the constants, or the
chunk with as many constants as could be read and the error that ended it. -/
abbrev Reading := Except WireError (Wire × Option WireError)

/-- Reads the three sections that follow the sizes. -/
def readSections (codeSize poolSize lineCount : Nat) (t : Text) : Reading :=
  match Text.split? codeSize t with
  | none => .error (.shortCode codeSize headerSize)
  | some (code, t) =>
    if t.length / 4 < lineCount then .error (.shortLines lineCount (headerSize + codeSize))
    else
      match readLines lineCount t with
      | none => .error (.shortLines lineCount (headerSize + codeSize))
      | some (lines, t) =>
        if t.length < poolSize then .error (.shortConstants poolSize t.length)
        else
          let (constants, e) := readConstants poolSize 0 t
          .ok (⟨code, lines, constants⟩, e)

/-- Reads a written chunk. -/
def read (t : Text) : Reading :=
  if t.length < headerSize then .error (.shortHeader t.length)
  else if t.take 4 ≠ magic then .error (.badMagic (t.take 4))
  else
    let size (i : Nat) := Text.fromLittleEndian ((t.drop (4 * i)).take 4)
    readSections (size 1) (size 2) (size 3) (t.drop headerSize)

/-- Reads a written chunk that is whole. -/
def Wire.decode (t : Text) : Except WireError Wire :=
  match read t with
  | .error e => .error e
  | .ok (_, some e) => .error e
  | .ok (w, none) => .ok w

/-- Why a chunk cannot be written. -/
inductive WriteError where
  | unwritable (index : Nat) (type : ValueType)
  deriving DecidableEq, Repr

/-- The text of a write error. -/
def WriteError.message : WriteError → Text
  | .unwritable index type =>
    "serialize constant " ++ Text.ofNat index ++ ": " ++ type.name ++
      " values cannot be serialized"

/-- The written form of a constant; arrays, structs and native code have none. -/
def wireConstant? (m : Memory) : Value → Option WireConstant
  | .nil => some .nil
  | .int n => some (.int n)
  | .bool b => some (.bool b)
  | .native _ => none
  | .object id =>
    match m.payload? id with
    | some (.string data) => some (.string data)
    | some (.function _) => some .function
    | _ => none

/-- The written form of constants, the first of which has the given index. -/
def wireConstants (m : Memory) (index : Nat) : List Value → Except WriteError (List WireConstant)
  | [] => .ok []
  | v :: rest =>
    match wireConstant? m v with
    | none => .error (.unwritable index (m.typeOf v))
    | some constant => do
      let constants ← wireConstants m (index + 1) rest
      return constant :: constants

/-- The written form of a chunk.  A slot that awaits a function is written as the
nil it holds. -/
def toWire (m : Memory) (c : Chunk) : Except WriteError Wire := do
  let constants ← wireConstants m 0 c.constants.toList
  return ⟨c.code.toList, c.lines.toList.map Int64.toInt32, constants⟩

/-- The bytes of a chunk. -/
def serialize (m : Memory) (c : Chunk) : Except WriteError Text := do
  let w ← c.toWire m
  return w.encode

end StackVm.Chunk
