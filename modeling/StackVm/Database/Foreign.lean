/-
Files of other programs that are taken for databases.

Such a file starts with a header of a hundred bytes.  If the header is in order, the
list of tables follows it; only an empty list is understood.
-/
import StackVm.Database.Contents
import StackVm.Database.Error

namespace StackVm.Foreign

/-- The first bytes of the header. -/
def magic : Text :=
  [0x53, 0x51, 0x4C, 0x69, 0x74, 0x65, 0x20, 0x66, 0x6F, 0x72, 0x6D, 0x61, 0x74, 0x20, 0x33, 0x00]

/-- The number that `count` bytes from a position on write, highest first; bytes after
the end count as zero. -/
def numberAt (data : Text) (position count : Nat) : Nat :=
  (List.range count).foldl (fun n i => n * 256 + ((data.drop (position + i)).head?.getD 0).toNat) 0

/-- Whether pages can have a size. -/
def isPageSize (n : Nat) : Bool := [512, 1024, 2048, 4096, 8192, 16384, 32768, 65536].contains n

/-- The size of the pages that a header gives. -/
def pageSize (data : Text) : Nat := numberAt data 16 1 * 256 + numberAt data 17 1 * 65536

/-- The number of pages that a file has. -/
def pagesOf (data : Text) : Nat :=
  let size := if isPageSize (pageSize data) then pageSize data else 4096
  (data.length + size - 1) / size

/-- The number of pages that a header gives; the file knows better if the header is out
of date. -/
def pagesGiven (data : Text) : Nat :=
  let n := numberAt data 28 4
  if n = 0 ∨ numberAt data 24 4 ≠ numberAt data 92 4 then pagesOf data else n

/-- The bytes of a page that can be used. -/
def usable (data : Text) : Nat := pageSize data - numberAt data 20 1

/-- Whether a header is in order. -/
def isHeader (data : Text) : Bool :=
  (Text.after? magic data).isSome && numberAt data 19 1 ≤ 2 &&
    numberAt data 21 1 = 64 && numberAt data 22 1 = 32 && numberAt data 23 1 = 32 &&
    isPageSize (pageSize data)

/-- Whether nothing may be written after a header. -/
def isReadOnly (data : Text) : Bool := 2 < numberAt data 18 1

/-- The newest form of the list of tables that is understood. -/
def newestForm : Nat := 4

/-- Whether the list of tables after a header is empty. -/
def isEmptyList (data : Text) : Bool := numberAt data 100 1 = 0x0D && numberAt data 103 2 = 0

/-- Whether an empty list gives its room as it is. -/
def hasRoom (data : Text) : Bool :=
  let top := if numberAt data 105 2 = 0 then 65536 else numberAt data 105 2
  let free := numberAt data 107 1 + top
  numberAt data 101 2 = 0 && 108 ≤ free && free ≤ usable data

/-- Whether a file counts as one without bytes. -/
def isEmpty (data : Text) : Bool := data.length ≤ 1

/-- What a file holds when it is taken for a database. -/
def contents (data : Text) : Except DatabaseError Contents :=
  if isEmpty data then .ok {}
  else if !isHeader data then .error .notDatabase
  else if pagesOf data < pagesGiven data then .error .malformed
  else if usable data < 480 then .error .notDatabase
  else if newestForm < numberAt data 47 1 then .error (.logic "unsupported file format")
  else if !isEmptyList data then .error .malformed
  else
    .ok {
      encoding := Contents.encodingOf (numberAt data 56 4 % 4).toUInt8
      isLogged := numberAt data 19 1 = 2
      pageSize := pageSize data }

end StackVm.Foreign
