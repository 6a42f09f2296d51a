/-
Listings: the text form of a chunk, one row for each instruction.  A row of an
instruction that the code cuts short takes all the bytes that are left.
-/
import StackVm.Memory.Heap
import StackVm.Text.Quoted

namespace StackVm.Chunk

/-- The longest string constant, in characters, that a listing shows whole. -/
def longestShown : Nat := 40

/-- How many characters of a longer string constant a listing shows. -/
def cutLength : Nat := 37

/-- A string constant in a listing: quoted, and cut when it is long. -/
def stringText (data : Text) : Text :=
  let rs := Text.runes data
  if longestShown < rs.length then Text.quoted (Text.ofRunes (rs.take cutLength)) ++ "..."
  else Text.quoted data

/-- The text of a constant: strings quoted, integers in decimal, all else as it is
printed. -/
def constantText (m : Memory) : Value → Text
  | .int n => Text.ofInt64 n
  | .object id =>
    match m.string? id with
    | some data => stringText data
    | none => m.display (.object id)
  | v => m.display v

/-- The name column of a row that has operands. -/
def nameColumn (op : Opcode) : Text := Text.padRight 16 op.name ++ " "

/-- The text of a whole instruction; `shown` renders a constant. -/
def instructionText (shown : Value → Text) (c : Chunk) (op : Opcode) (offset : Nat) :
    Text :=
  let operand := (c.code[offset + 1]?.getD 0).toNat
  if op.usesConstant then
    let value :=
      match c.constants[operand]? with
      | some v => shown v
      | none => "<out of range>"
    nameColumn op ++ Text.padLeft 3 0x20 (Text.ofNat operand) ++ " ; " ++ value
  else if op.isJump then nameColumn op ++ Text.hexUpperInt 4 (c.target op offset)
  else
    match op with
    | .getLocal | .setLocal => nameColumn op ++ "slot " ++ Text.ofNat operand
    | .call => nameColumn op ++ "argc " ++ Text.ofNat operand
    | .buildArray | .buildStruct => nameColumn op ++ "count " ++ Text.ofNat operand
    | _ => op.name

/-- One row of a listing: its text and how many bytes it covers. -/
def row (shown : Value → Text) (c : Chunk) (offset : Nat) : Text × Nat :=
  match c.code[offset]? with
  | none => ("<end of code>", 0)
  | some byte =>
    let size := Opcode.sizeOfByte byte
    if c.code.size < offset + size then
      (Opcode.nameOfByte byte ++ " <truncated>", c.code.size - offset)
    else
      match Opcode.ofByte? byte with
      | some op => (c.instructionText shown op offset, size)
      | none => (Opcode.nameOfByte byte, size)

theorem row_size_pos (shown : Value → Text) (c : Chunk) {offset : Nat}
    (h : offset < c.code.size) : 0 < (c.row shown offset).2 := by
  unfold row
  rw [Array.getElem?_eq_getElem h]
  dsimp only
  split
  · dsimp only; omega
  · split <;> exact Opcode.sizeOfByte_pos _

/-- The line column of a row: empty when the line is that of the byte before. -/
def lineColumn (c : Chunk) (offset : Nat) : Text :=
  if offset = 0 ∨ c.lineAt offset ≠ c.lineAt (offset - 1 : Int) then
    Text.padLeft 4 0x20 (Text.ofInt64 (c.lineAt offset))
  else "   |"

/-- The rows of a listing from an offset on, each with the offset it starts at. -/
def rowsFrom (shown : Value → Text) (c : Chunk) (offset : Nat) : List (Nat × Text) :=
  if _h : offset < c.code.size then
    (offset, (c.row shown offset).1) ::
      rowsFrom shown c (offset + (c.row shown offset).2)
  else []
termination_by c.code.size - offset
decreasing_by have := row_size_pos shown c _h; omega

/-- The listing of a chunk, headed by `name` unless that is empty. -/
def listing (shown : Value → Text) (c : Chunk) (name : Text) : Text :=
  let heading : Text := if name = [] then [] else "; === " ++ name ++ " ===\n"
  let counts : Text := "; " ++ Text.ofNat c.code.size ++ " bytes, " ++
    Text.ofNat c.constants.size ++ " constants\n"
  let constants : Text :=
    if c.constants.isEmpty then []
    else "; Constants:\n" ++ c.constants.toList.zipIdx.flatMap fun (v, i) =>
      (";   [" ++ Text.padLeft 3 0x20 (Text.ofNat i) ++ "] " ++ shown v ++ "\n" : Text)
  let unlinked : Text :=
    if c.unlinked = [] then []
    else "; Unlinked functions: " ++ Text.bracketed c.unlinked ++ "\n"
  let rows : Text := (c.rowsFrom shown 0).flatMap fun (offset, text) =>
    (Text.hexUpper 4 offset ++ " " ++ c.lineColumn offset ++ "  " ++ text ++ "\n" : Text)
  heading ++ counts ++ constants ++ unlinked ++ "\n; Code:\n" ++ rows

end StackVm.Chunk
