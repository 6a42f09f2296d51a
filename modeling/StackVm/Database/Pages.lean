/-
How many pages a database takes.

The first page lists the tables.  The table and the list of its names each take a
page, or as many as their entries fill and one more above them.  What is too long
for its page continues on pages of its own.
-/
import StackVm.Database.Contents

namespace StackVm.Contents

/-- How many bytes a number takes that is written seven bits at a time. -/
def numberBytes (n : Nat) : Nat :=
  if n < 0x80 then 1 else if n < 0x4000 then 2 else if n < 0x200000 then 3
  else if n < 0x10000000 then 4 else 5

/-- How many bytes the number of a row takes in the list of names. -/
def rowNumberBytes (n : Nat) : Nat :=
  if n < 2 then 0 else if n < 0x80 then 1 else if n < 0x8000 then 2
  else if n < 0x800000 then 3 else 4

/-- The least part of an entry that stays on its page. -/
def leastPart (pageSize : Nat) : Nat := (pageSize - 12) * 32 / 255 - 23

/-- The bytes that an entry takes on its page, and the pages on which it continues. -/
structure Entry where
  bytes : Nat
  pages : Nat := 0

/-- The room of an entry of `size` bytes, of which at most `most` stay on the page. -/
def entryOf (pageSize most size : Nat) : Entry :=
  if size ≤ most then ⟨max 4 size, 0⟩
  else
    let least := leastPart pageSize
    let wanted := least + (size - least) % (pageSize - 4)
    let part := if wanted ≤ most then wanted else least
    ⟨part + 4, (size - part + pageSize - 5) / (pageSize - 4)⟩

/-- How many bytes a text takes. -/
def textBytes (c : Contents) (t : Text) : Nat := (c.writing.bytes t).length

/-- The room of a row in the table. -/
def tableEntry (c : Contents) (row : Row) : Entry :=
  let name := c.textBytes row.name
  let digest := c.textBytes row.digest
  let size := 10 + numberBytes (13 + 2 * name) + numberBytes (13 + 2 * digest) +
    numberBytes (12 + 2 * row.data.length) + name + digest + row.data.length
  let e := entryOf c.pageSize (c.pageSize - 35) size
  { e with bytes := e.bytes + numberBytes size + numberBytes row.number }

/-- The room of a row in the list of names. -/
def nameEntry (c : Contents) (row : Row) : Entry :=
  let name := c.textBytes row.name
  let size := 2 + numberBytes (13 + 2 * name) + name + rowNumberBytes row.number
  let e := entryOf c.pageSize ((c.pageSize - 12) * 64 / 255 - 23) size
  { e with bytes := e.bytes + numberBytes size }

/-- The pages that entries fill one after another, and the bytes on the last one. -/
def fill (room : Nat) (state : Nat × Nat) (e : Entry) : Nat × Nat :=
  let bytes := e.bytes + 2
  if state.2 + bytes ≤ room then (state.1, state.2 + bytes) else (state.1 + 1, bytes)

/-- The pages that entries take. -/
def pagesOf (pageSize : Nat) (entries : List Entry) : Nat :=
  let leaves := (entries.foldl (fill (pageSize - 8)) (1, 0)).1
  entries.foldl (fun n e => n + e.pages) (if leaves = 1 then 1 else leaves + 1)

/-- The pages that a database takes. -/
def pages (c : Contents) : Nat :=
  let byNumber := c.rows.mergeSort fun a b => a.number ≤ b.number
  1 + if c.hasTable then
    pagesOf c.pageSize (byNumber.map c.tableEntry) + pagesOf c.pageSize (c.rows.map c.nameEntry) +
      (if c.isCompact then 1 else 0)
  else 0

end StackVm.Contents
