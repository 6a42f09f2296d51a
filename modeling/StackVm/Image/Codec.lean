/-
The encoded form of images: CBOR maps with small integer keys.

An image has the version, the entry and the functions under 1, 2 and 3; a
function has its name, arity, chunk and links under 1, 2, 3 and 4.  Reading is
lenient about the encoding and strict about types.  A null leaves a field as it
was, and other keys are ignored.
-/
import StackVm.Cbor.Item
import StackVm.Cbor.Encode
import StackVm.Chunk.Wire
import StackVm.Image.Basic

namespace StackVm.Image

/-- A function in canonical CBOR; an empty link table is left out. -/
def encodeFunction (f : FunctionImage) : Text :=
  let fields : List (Text × Text) :=
    [(Cbor.nat 1, Cbor.text f.name), (Cbor.nat 2, Cbor.int f.arity),
      (Cbor.nat 3, (f.chunk.map Cbor.bytes).getD Cbor.null)]
  let links : List (Text × Text) :=
    f.links.map fun (slot, target) => (Cbor.nat slot.toNat, Cbor.int target)
  Cbor.map (if f.links = [] then fields else fields ++ [(Cbor.nat 4, Cbor.map links)])

/-- An image in canonical CBOR. -/
def encode (img : Image) : Text :=
  Cbor.map
    [(Cbor.nat 1, Cbor.int img.version), (Cbor.nat 2, Cbor.int img.entry),
      (Cbor.nat 3,
        (img.functions.map fun fs => Cbor.array (fs.map encodeFunction)).getD Cbor.null)]

section Reading

open Cbor

/-- Whether a tag with a fixed meaning has the content it asks for. -/
def isAdmissible (number : Nat) (content : Item) : Bool :=
  match number, content with
  | 0, .text _ _ => true
  | 0, _ => false
  | 1, .uint _ | 1, .negint _ | 1, .float => true
  | 1, _ => false
  | 2, .bytes _ | 3, .bytes _ => true
  | 2, _ | 3, _ => false
  | _, _ => true

/-- The integer an item is; `old` if it is null.  Simple values count as their
numbers, and the two bignum tags as the number they make. -/
def asInteger (old : Int) : Item → Option Int
  | .uint n => some n
  | .negint n => some (-1 - (n : Int))
  | .simple n => if n = 22 ∨ n = 23 then some old else if n = 20 ∨ n = 21 then none else some n
  | .tag 2 (.bytes b) => some (Text.fromBigEndian b)
  | .tag 3 (.bytes b) => some (-1 - (Text.fromBigEndian b : Int))
  | .tag number content => if isAdmissible number content then asInteger old content else none
  | _ => none

/-- The machine word an item is. -/
def asInt64 (old : Int64) (item : Item) : Option Int64 := do
  let n ← asInteger old.toInt item
  if Int64.minValue.toInt ≤ n ∧ n ≤ Int64.maxValue.toInt then some (Int64.ofInt n) else none

/-- The byte an item is. -/
def asByte (old : UInt8) (item : Item) : Option UInt8 := do
  let n ← asInteger old.toNat item
  if 0 ≤ n ∧ n < 256 then some n.toNat.toUInt8 else none

/-- The text an item is. -/
def asText (old : Text) : Item → Option Text
  | .text data wellFormed => if wellFormed then some data else none
  | .simple n => if n = 22 ∨ n = 23 then some old else none
  | .tag 2 _ | .tag 3 _ => none
  | .tag number content => if isAdmissible number content then asText old content else none
  | _ => none

/-- The byte string an item is: a byte string or an array of bytes; missing if it
is null. -/
def asBytes : Item → Option (Option Text)
  | .bytes data => some (some data)
  | .array elements => (elements.mapM (asByte 0)).map some
  | .simple n => if n = 22 ∨ n = 23 then some none else none
  | .tag 2 (.bytes data) | .tag 3 (.bytes data) => some (some data)
  | .tag number content => if isAdmissible number content then asBytes content else none
  | _ => none

/-- The links that map entries make.  A null key or target repeats the one of the
entry before. -/
def linksOf (links : Links) (slot : UInt8) (target : Int64) : List (Item × Item) → Option Links
  | [] => some links
  | (k, v) :: rest => do
    let slot ← asByte slot k
    let target ← asInt64 target v
    linksOf (links.insert slot target) slot target rest

/-- The link table an item is. -/
def asLinks : Item → Option Links
  | .map entries => linksOf [] 0 0 entries
  | .simple n => if n = 22 ∨ n = 23 then some [] else none
  | .tag 2 _ | .tag 3 _ => none
  | .tag number content => if isAdmissible number content then asLinks content else none
  | _ => none

/-- What a map key selects. -/
inductive Key where
  | field (n : Nat)
  | unknown
  deriving DecidableEq

/-- Reads a map key: a small integer, or the same integer as a text.  Other
integers and texts select nothing. -/
def asKey : Item → Option Key
  | .uint n => some (.field n)
  | .negint n => if n < 0x8000000000000000 then some .unknown else none
  | .text data wellFormed =>
    if !wellFormed then none
    else
      match data with
      | [b] => if 0x31 ≤ b ∧ b ≤ 0x39 then some (.field (b.toNat - 0x30)) else some .unknown
      | _ => some .unknown
  | _ => none

/-- Reads the fields of a structure one after another.  Of a field that comes
twice the first one counts. -/
def readFields {α : Type} (set : Nat → Item → α → Option α) (found : List Nat) (a : α) :
    List (Item × Item) → Option α
  | [] => some a
  | (k, v) :: rest => do
    match ← asKey k with
    | .unknown => readFields set found a rest
    | .field n =>
      if n ∈ found then readFields set found a rest
      else
        let a ← set n v a
        readFields set (n :: found) a rest

/-- Sets one field of a function. -/
def setFunctionField (n : Nat) (v : Item) (f : FunctionImage) : Option FunctionImage :=
  match n with
  | 1 => (asText f.name v).map fun name => { f with name }
  | 2 => (asInt64 f.arity v).map fun arity => { f with arity }
  | 3 => (asBytes v).map fun chunk => { f with chunk }
  | 4 => (asLinks v).map fun links => { f with links }
  | _ => some f

/-- The function an item is. -/
def asFunction : Item → Option FunctionImage
  | .map entries => readFields setFunctionField [] {} entries
  | .simple n => if n = 22 ∨ n = 23 then some {} else none
  | .tag 2 _ | .tag 3 _ => none
  | .tag number content => if isAdmissible number content then asFunction content else none
  | _ => none

/-- The function list an item is; missing if it is null. -/
def asFunctions : Item → Option (Option (List FunctionImage))
  | .array elements => (elements.mapM asFunction).map some
  | .simple n => if n = 22 ∨ n = 23 then some none else none
  | .tag 2 _ | .tag 3 _ => none
  | .tag number content => if isAdmissible number content then asFunctions content else none
  | _ => none

/-- Sets one field of an image. -/
def setField (n : Nat) (v : Item) (img : Image) : Option Image :=
  match n with
  | 1 => (asInt64 img.version v).map fun version => { img with version }
  | 2 => (asInt64 img.entry v).map fun entry => { img with entry }
  | 3 => (asFunctions v).map fun functions => { img with functions }
  | _ => some img

/-- The image an item is. -/
def asImage : Item → Option Image
  | .map entries => readFields setField [] {} entries
  | .simple n => if n = 22 ∨ n = 23 then some {} else none
  | .tag 2 _ | .tag 3 _ => none
  | .tag number content => if isAdmissible number content then asImage content else none
  | _ => none

end Reading

/-- Why bytes are no encoded image. -/
inductive DecodeError where
  | malformed
  | version (found : Int64)
  deriving DecidableEq, Repr

/-- The text of a decoding error. -/
def DecodeError.message : DecodeError → Text
  | .malformed => "image: unmarshal: malformed image"
  | .version found =>
    "image: unsupported version " ++ Text.ofInt64 found ++ " (want " ++
      Text.ofInt64 formatVersion ++ ")"

/-- Reads an encoded image. -/
def decode (t : Text) : Except DecodeError Image :=
  match (Cbor.decode t).bind asImage with
  | none => .error .malformed
  | some img => if img.version = formatVersion then .ok img else .error (.version img.version)

/-- Reads an encoded image or a bare chunk. -/
def parse (t : Text) : Except DecodeError Image :=
  if (Text.after? Chunk.magic t).isSome then .ok (ofChunk [] t) else decode t

end StackVm.Image
