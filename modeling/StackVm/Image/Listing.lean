/-
Listings of whole images.  A constant that links to a function is shown by the
name of that function.
-/
import StackVm.Chunk.Listing
import StackVm.Image.Load

namespace StackVm.Image

/-- Why an image cannot be listed; the listings before the failure still count. -/
inductive ListingError where
  | badChunk (index : Nat) (error : Chunk.WireError)
  | missingTarget (index : Nat) (slot : UInt8) (target : Int64)
  | badLink (index : Nat) (error : Chunk.LinkError)
  deriving DecidableEq, Repr

/-- The text of a listing error. -/
def ListingError.message : ListingError → Text
  | .badChunk index error => "function " ++ Text.ofNat index ++ ": " ++ error.message
  | .missingTarget index slot target =>
    "function " ++ Text.ofNat index ++ ": constant " ++ Text.ofNat slot.toNat ++
      " links to missing function " ++ Text.ofInt64 target
  | .badLink index error => "function " ++ Text.ofNat index ++ ": " ++ error.message

/-- The function image with an index. -/
def functionAt? (img : Image) (index : Int64) : Option FunctionImage :=
  if 0 ≤ index.toInt then img.functionList[index.toInt.toNat]? else none

/-- Puts a function without code into each slot that a link table names. -/
def linkStubs (img : Image) (index : Nat) (c : Chunk) :
    Links → MemoryM (Except ListingError Chunk)
  | [] => return .ok c
  | (slot, target) :: rest => do
    match img.functionAt? target with
    | none => return .error (.missingTarget index slot target)
    | some callee =>
      let chunk ← modifyGet fun m => let (m, id) := m.addChunk {}; (id, m)
      let stub ← Memory.alloc (fun _ => [])
        (.function { name := callee.name, arity := callee.arity, chunk := some chunk })
      Memory.pin stub
      match c.link slot.toNat (some stub) with
      | .error e => return .error (.badLink index e)
      | .ok c => linkStubs img index c rest

/-- The heading of a function's listing. -/
def listingName (img : Image) (index : Nat) (f : FunctionImage) : Text :=
  let name : Text := if f.name = [] then "script" else f.name
  let entry : Text := if img.entry.toInt = index then " (entry)" else []
  name ++ "/" ++ Text.ofInt64 f.arity ++ entry

/-- The listing of one function. -/
def functionListing (img : Image) (index : Nat) (f : FunctionImage) :
    MemoryM (Except ListingError Text) := do
  match ← Chunk.deserialize (fun _ => []) f.bytes with
  | .error e => return .error (.badChunk index e)
  | .ok c =>
    match ← linkStubs img index c f.links with
    | .error e => return .error e
    | .ok c =>
      let m ← get
      return .ok (c.listing (Chunk.constantText m) (img.listingName index f) ++ "\n")

/-- The listings of functions, the first of which has the given index, behind those
made before, last one first; the first failure ends them. -/
def listingsInto (img : Image) (done : List Text) :
    (index : Nat) → List FunctionImage → MemoryM (Text × Option ListingError)
  | _, [] => return (done.reverse.flatten, none)
  | index, f :: rest => do
    match ← img.functionListing index f with
    | .error e => return (done.reverse.flatten, some e)
    | .ok t => listingsInto img (t :: done) (index + 1) rest

/-- The listings of all functions of an image, or of those before the first that
cannot be listed. -/
def listing (img : Image) : MemoryM (Text × Option ListingError) :=
  img.listingsInto [] 0 img.functionList

end StackVm.Image
