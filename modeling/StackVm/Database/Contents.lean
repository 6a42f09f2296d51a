/-
What a database holds, and the bytes of a file that holds it.
-/
import StackVm.Database.Encoding
import StackVm.Text.Endian

namespace StackVm

/-- A row of a database. -/
structure Row where
  name : Text
  digest : Text
  data : Text
  /-- When the row was written, in seconds since the start of 1970. -/
  updated : Nat := 0
  /-- The number of the row, larger than those of the rows that were there before it. -/
  number : Nat := 0
  deriving DecidableEq, Repr

/-- Puts a row among rows in ascending order of names, in place of one of its name. -/
def insertRow (before : Text → Text → Bool) (row : Row) : List Row → List Row
  | [] => [row]
  | r :: rest =>
    if r.name = row.name then row :: rest
    else if before row.name r.name then row :: r :: rest
    else r :: insertRow before row rest

/-- The row of a name. -/
def findRow (name : Text) (rows : List Row) : Option Row := rows.find? (·.name = name)

/-- The number of a row that is added to rows. -/
def nextNumber (rows : List Row) : Nat := rows.foldl (fun n r => max n r.number) 0 + 1

/-- What a database holds. -/
structure Contents where
  /-- Whether the table of images has been made. -/
  hasTable : Bool := false
  /-- How texts are written, settled when a table is made for the first time. -/
  encoding : Option Encoding := none
  /-- The rows of the table, in ascending order of names. -/
  rows : List Row := []
  /-- Whether changes go to a log first. -/
  isLogged : Bool := false
  /-- The size of its pages in bytes. -/
  pageSize : Nat := 4096
  /-- Whether a page says which other pages are in use, so that free ones can be given
  back. -/
  isCompact : Bool := false
  deriving DecidableEq, Repr, Inhabited

namespace Contents

/-- How texts are written. -/
def writing (c : Contents) : Encoding := c.encoding.getD .utf8

/-- The row of a name, which is looked up as it would be read back. -/
def find (c : Contents) (name : Text) : Option Row := findRow (c.writing.kept name) c.rows

/-- Puts a row under a name, in place of the one there. -/
def put (c : Contents) (name digest data : Text) (updated : Nat) : Contents :=
  let row : Row := ⟨c.writing.kept name, digest, data, updated, nextNumber c.rows⟩
  { c with rows := insertRow c.writing.before row c.rows }

/-- Leaves no row under a name. -/
def erase (c : Contents) (name : Text) : Contents :=
  { c with rows := c.rows.filter (·.name ≠ c.writing.kept name) }

/-- Makes the table; texts are written as `encoding` says if that is not settled yet. -/
def makeTable (c : Contents) (encoding : Encoding) : Contents :=
  { c with hasTable := true, encoding := c.encoding <|> some encoding }

/-- Leaves no table. -/
def dropTable (c : Contents) : Contents := { c with hasTable := false, rows := [] }

/-- The first bytes of every database. -/
def header : Text := "DRUK_IMAGES_V1\n"

/-- How many bytes a number takes in a database. -/
def numberSize : Nat := 8

/-- The bytes of a number. -/
def encodeNumber (n : Nat) : Text := Text.littleEndian numberSize n

/-- A text after its length. -/
def counted (t : Text) : Text := encodeNumber t.length ++ t

/-- The bytes of a row. -/
def encodeRow (row : Row) : Text :=
  counted row.name ++ counted row.digest ++ counted row.data ++ encodeNumber row.updated ++
    encodeNumber row.number

/-- The byte of a truth value. -/
def flag (b : Bool) : UInt8 := if b then 1 else 0

/-- The byte of a way to write texts. -/
def encodingByte : Option Encoding → UInt8
  | none => 0
  | some .utf8 => 1
  | some .utf16le => 2
  | some .utf16be => 3

/-- The way to write texts of a byte. -/
def encodingOf (b : UInt8) : Option Encoding :=
  if b = 1 then some .utf8
  else if b = 2 then some .utf16le
  else if b = 3 then some .utf16be
  else none

/-- The bytes of a database. -/
def encode (c : Contents) : Text :=
  header ++ [flag c.hasTable, encodingByte c.encoding, flag c.isLogged, flag c.isCompact] ++
    encodeNumber c.pageSize ++ c.rows.flatMap encodeRow

/-- Reads a text after its length. -/
def readCounted (t : Text) : Option (Text × Text) := do
  let (length, t) ← Text.number? numberSize t
  Text.split? length t

/-- Reads a row. -/
def readRow (t : Text) : Option (Row × Text) := do
  let (name, t) ← readCounted t
  let (digest, t) ← readCounted t
  let (data, t) ← readCounted t
  let (updated, t) ← Text.number? numberSize t
  let (number, t) ← Text.number? numberSize t
  return (⟨name, digest, data, updated, number⟩, t)

/-- Reads rows up to the end, behind those read before, last one first. -/
def readInto (done : List Row) : (fuel : Nat) → Text → Option (List Row)
  | 0, _ => none
  | fuel + 1, t =>
    if t = [] then some done.reverse
    else
      match readRow t with
      | none => none
      | some (row, rest) => readInto (row :: done) fuel rest

/-- What a file with the bytes of a database holds. -/
def decode (t : Text) : Option Contents := do
  match ← Text.after? header t with
  | hasTable :: encoding :: isLogged :: isCompact :: t =>
    let (pageSize, t) ← Text.number? numberSize t
    let rows ← readInto [] (t.length + 1) t
    return {
      hasTable := hasTable ≠ 0, encoding := encodingOf encoding, rows, isLogged := isLogged ≠ 0,
      pageSize, isCompact := isCompact ≠ 0 }
  | _ => none

end Contents

end StackVm
