/-
Tab-separated lines as columns.

A tab, or a vertical tab, ends a cell.  Every cell but the last of its line is
padded with spaces to the widest cell of its column and two spaces more, where a
column goes on for as many neighbouring lines as have a cell in it.  A form feed
ends a line and all columns.  Bytes between two bytes FF stand for themselves and
those two take no room.
-/
import StackVm.Text.Utf8

namespace StackVm.Text.Columns

/-- A cell and how many characters wide it is. -/
structure Cell where
  text : Text
  width : Nat
  deriving DecidableEq, Repr

/-- A line of cells. -/
structure Line where
  cells : List Cell := []
  /-- Whether all columns end after the line. -/
  closing : Bool := false
  deriving DecidableEq, Repr

/-- How far the cutting into cells has come. -/
structure Cutting where
  /-- The finished lines, last one first. -/
  lines : List Line := []
  /-- The finished cells of the line, last one first. -/
  cells : List Cell := []
  /-- The bytes of the cell, last one first. -/
  bytes : Text := []
  /-- How many protected parts the cell has. -/
  protectedParts : Nat := 0
  /-- Whether the next byte is protected. -/
  isProtecting : Bool := false

/-- The byte before and after protected bytes. -/
def guardByte : UInt8 := 0xFF

/-- Ends the cell. -/
def Cutting.endCell (c : Cutting) : Cutting :=
  let text := c.bytes.reverse
  { c with
    cells := ⟨text, runeCount text - 2 * c.protectedParts⟩ :: c.cells
    bytes := []
    protectedParts := 0 }

/-- Ends the line. -/
def Cutting.endLine (c : Cutting) (closing : Bool) : Cutting :=
  { c with lines := ⟨c.cells.reverse, closing⟩ :: c.lines, cells := [] }

/-- Takes one more byte. -/
def Cutting.take (c : Cutting) (b : UInt8) : Cutting :=
  if c.isProtecting then
    if b = guardByte then
      { c with
        bytes := b :: c.bytes
        protectedParts := c.protectedParts + 1
        isProtecting := false }
    else { c with bytes := b :: c.bytes }
  else if b = guardByte then { c with bytes := b :: c.bytes, isProtecting := true }
  else if b = 0x09 ∨ b = 0x0B then c.endCell
  else if b = 0x0A ∨ b = 0x0C then c.endCell.endLine (b = 0x0C)
  else { c with bytes := b :: c.bytes }

/-- The lines of a text.  The last one is what stands after the last line end. -/
def cut (t : Text) : List Line :=
  let c := t.foldl Cutting.take {}
  let c := if c.isProtecting then { c with protectedParts := c.protectedParts + 1 } else c
  let c := if c.bytes = [] then c else c.endCell
  (c.endLine false).lines.reverse

/-- How many spaces follow the widest cell of a column. -/
def padding : Nat := 2

/-- The width of the column with an index, as far as it goes on from the first line. -/
def columnWidth (index : Nat) : List Line → Nat
  | [] => 0
  | line :: rest =>
    match line.cells.drop index with
    | cell :: _ :: _ =>
      max (cell.width + padding) (if line.closing then 0 else columnWidth index rest)
    | _ => 0

/-- The widths of the columns at the first line, given those of the line before it. -/
def widths (above : List Nat) (lines : List Line) : List Nat :=
  let count := (lines.head?.map fun line => line.cells.length - 1).getD 0
  let kept := above.take count
  kept ++ (List.range' kept.length (count - kept.length)).map (columnWidth · lines)

/-- The cells of a line, padded to the widths of their columns. -/
def lineText : List Nat → List Cell → Text
  | _, [] => []
  | [], cells => cells.flatMap (·.text)
  | width :: rest, cell :: cells =>
    cell.text ++ List.replicate (width - cell.width) 0x20 ++ lineText rest cells

/-- The lines with line ends between them, given the widths of the columns above. -/
def linesText (above : List Nat) : List Line → Text
  | [] => []
  | [line] => lineText (widths above [line]) line.cells
  | line :: rest =>
    let here := widths above (line :: rest)
    lineText here line.cells ++ 0x0A :: linesText (if line.closing then [] else here) rest

end StackVm.Text.Columns

namespace StackVm.Text

/-- Lays tab-separated lines out in columns. -/
def inColumns (t : Text) : Text := Columns.linesText [] (Columns.cut t)

end StackVm.Text
