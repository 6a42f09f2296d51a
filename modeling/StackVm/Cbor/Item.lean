/-
CBOR data items: the tree of an encoded item, and reading one.

Reading follows the data model and not the shortest encoding: indefinite lengths
and long forms are accepted.  Nesting and the size of collections are limited.
-/
import StackVm.Text.Endian
import StackVm.Text.Utf8

namespace StackVm.Cbor

/-- A data item. -/
inductive Item where
  | uint (n : Nat)
  /-- The negative integer -1 - n. -/
  | negint (n : Nat)
  | bytes (data : Text)
  /-- A text, and whether all its pieces are well-formed UTF-8. -/
  | text (data : Text) (wellFormed : Bool)
  | array (elements : List Item)
  | map (entries : List (Item × Item))
  | tag (number : Nat) (content : Item)
  /-- A simple value; false, true, null and undefined are 20 to 23. -/
  | simple (n : Nat)
  /-- A floating-point number, whose value nobody asks for. -/
  | float

/-- The deepest nesting of arrays, maps and tags that is read. -/
def maxNesting : Nat := 32

/-- The most elements of an array and the most entries of a map that are read. -/
def maxElements : Nat := 131072

/-- The start of an item: its major type, its additional information and the
number that these give. -/
structure Head where
  major : Nat
  info : Nat
  value : Nat

/-- Reads a number of `width` bytes, highest first. -/
def readNumber (width : Nat) (t : Text) : Option (Nat × Text) :=
  (Text.split? width t).map fun (bytes, rest) => (Text.fromBigEndian bytes, rest)

/-- Reads the start of an item.  Integers and tags have no indefinite form, a break
is no item, and a simple value below 32 has no two-byte form. -/
def readHead : Text → Option (Head × Text)
  | [] => none
  | b :: rest =>
    let major := b.toNat / 32
    let info := b.toNat % 32
    if info < 24 then some (⟨major, info, info⟩, rest)
    else if info < 28 then do
      let (value, rest) ← readNumber (Nat.pow 2 (info - 24)) rest
      if major = 7 ∧ info = 24 ∧ value < 32 then none
      else some (⟨major, info, value⟩, rest)
    else if info = 31 ∧ 2 ≤ major ∧ major ≤ 5 then some (⟨major, info, info⟩, rest)
    else none

/-- Reads the pieces of an indefinite byte or text string up to the break. -/
def readPieces (major : Nat) (done : List Text) : (fuel : Nat) → Text → Option (List Text × Text)
  | 0, _ => none
  | _ + 1, [] => none
  | fuel + 1, b :: rest =>
    if b = 0xFF then some (done.reverse, rest)
    else do
      let (head, rest) ← readHead (b :: rest)
      if head.major ≠ major ∨ head.info = 31 then none
      else
        let (piece, rest) ← Text.split? head.value rest
        readPieces major (piece :: done) fuel rest

/-- Neighbours taken as pairs; `none` if one is left over. -/
def pairUp : List Item → Option (List (Item × Item))
  | [] => some []
  | k :: v :: rest => (pairUp rest).map ((k, v) :: ·)
  | [_] => none

/-- A byte string or a text made of pieces. -/
def ofPieces (major : Nat) (pieces : List Text) : Item :=
  if major = 2 then .bytes pieces.flatten
  else .text pieces.flatten (pieces.all Text.isUtf8)

/-- The item of major type 7 with a head. -/
def ofSimple (head : Head) : Item :=
  if 25 ≤ head.info then .float else .simple head.value

mutual

/-- Reads one item that stands below `depth` arrays, maps and tags.  `fuel` bounds
the number of calls. -/
def readItem : (fuel depth : Nat) → Text → Option (Item × Text)
  | 0, _, _ => none
  | fuel + 1, depth, t => do
    let (head, rest) ← readHead t
    match head.major with
    | 0 => return (.uint head.value, rest)
    | 1 => return (.negint head.value, rest)
    | 4 => do
      if maxNesting < depth + 1 then none
      else
        let (items, rest) ←
          if head.info = 31 then readUntilBreak fuel (depth + 1) [] rest
          else if maxElements < head.value then none
          else readMany fuel (depth + 1) head.value [] rest
        if maxElements < items.length then none else return (.array items, rest)
    | 5 => do
      if maxNesting < depth + 1 then none
      else
        let (items, rest) ←
          if head.info = 31 then readUntilBreak fuel (depth + 1) [] rest
          else if maxElements < head.value then none
          else readMany fuel (depth + 1) (2 * head.value) [] rest
        let entries ← pairUp items
        if maxElements < entries.length then none else return (.map entries, rest)
    | 6 => do
      let nested : Bool := rest.head?.any fun b => b.toNat / 32 == 6
      if nested ∧ maxNesting < depth + 1 then none
      else
        let (content, rest) ← readItem fuel (if nested then depth + 1 else depth) rest
        return (.tag head.value content, rest)
    | 7 => return (ofSimple head, rest)
    | major => do
      let (pieces, rest) ←
        if head.info = 31 then readPieces major [] (rest.length + 1) rest
        else (Text.split? head.value rest).map fun (piece, rest) => ([piece], rest)
      return (ofPieces major pieces, rest)

/-- Reads a number of items, behind the ones read before, last one first. -/
def readMany : (fuel depth count : Nat) → List Item → Text → Option (List Item × Text)
  | _, _, 0, done, t => some (done.reverse, t)
  | 0, _, _ + 1, _, _ => none
  | fuel + 1, depth, count + 1, done, t => do
    let (item, t) ← readItem fuel depth t
    readMany fuel depth count (item :: done) t

/-- Reads items up to a break, behind the ones read before, last one first. -/
def readUntilBreak : (fuel depth : Nat) → List Item → Text → Option (List Item × Text)
  | 0, _, _, _ => none
  | _ + 1, _, _, [] => none
  | fuel + 1, depth, done, b :: rest => do
    if b = 0xFF then return (done.reverse, rest)
    else
      let (item, rest) ← readItem fuel depth (b :: rest)
      readUntilBreak fuel depth (item :: done) rest

end

/-- The one item that bytes encode. -/
def decode (t : Text) : Option Item :=
  match readItem (2 * t.length + 2) 0 t with
  | some (item, []) => some item
  | _ => none

end StackVm.Cbor
