/-
Loading an image: every function is rebuilt on the heap and put into the constant
slots that its link tables name.

While the functions are being made they are pinned; at the end all pins are taken
off and the entry function alone is pinned for the caller.
-/
import StackVm.Chunk.Load
import StackVm.Image.Basic

namespace StackVm.Image

/-- Why an image cannot be loaded. -/
inductive LoadError where
  | noFunctions
  | entryOutOfRange (entry : Int64) (count : Nat)
  | badChunk (index : Nat) (name : Text) (error : Chunk.WireError)
  | missingTarget (index : Nat) (name : Text) (slot : UInt8) (target : Int64)
  | badLink (index : Nat) (name : Text) (error : Chunk.LinkError)
  | unlinked (index : Nat) (name : Text) (slots : List Nat)
  deriving DecidableEq, Repr

/-- How a message names a function. -/
def functionLabel (index : Nat) (name : Text) : Text :=
  "image: function " ++ Text.ofNat index ++ " (" ++ name ++ ")"

/-- The text of a load error. -/
def LoadError.message : LoadError → Text
  | .noFunctions => "image: no functions"
  | .entryOutOfRange entry count =>
    "image: entry " ++ Text.ofInt64 entry ++ " out of range (" ++ Text.ofNat count ++ " functions)"
  | .badChunk index name error => functionLabel index name ++ ": " ++ error.message
  | .missingTarget index name slot target =>
    functionLabel index name ++ " constant " ++ Text.ofNat slot.toNat ++
      " links to missing function " ++ Text.ofInt64 target
  | .badLink index name error => functionLabel index name ++ ": " ++ error.message
  | .unlinked index name slots =>
    functionLabel index name ++ " constants " ++ Text.bracketed slots ++
      ": unlinked function constant"

/-- Runs an operation and then changes the memory, whether or not it ended in a fault. -/
def ensuring {α : Type} (act : MemoryM α) (cleanup : Memory → Memory) : MemoryM α := fun m =>
  match act m with
  | .ok a m => .ok a (cleanup m)
  | .error f m => .error f (cleanup m)

/-- A function that has been made, with its chunk. -/
structure Loaded where
  function : ObjectId
  chunk : ChunkId

/-- The function with an index. -/
def at? (loaded : Array Loaded) (index : Int64) : Option Loaded :=
  if 0 ≤ index.toInt then loaded[index.toInt.toNat]? else none

/-- Fills the slots of a chunk from a link table. -/
def linkAll (loaded : Array Loaded) (index : Nat) (name : Text) (c : Chunk) :
    Links → Except LoadError Chunk
  | [] => if c.unlinked = [] then .ok c else .error (.unlinked index name c.unlinked)
  | (slot, target) :: rest =>
    match at? loaded target with
    | none => .error (.missingTarget index name slot target)
    | some callee =>
      match c.link slot.toNat (some callee.function) with
      | .error e => .error (.badLink index name e)
      | .ok c => linkAll loaded index name c rest

/-- Links the functions one after another, the first of which has the given index. -/
def linkFunctions (loaded : Array Loaded) (m : Memory) :
    (index : Nat) → List FunctionImage → Except LoadError Memory
  | _, [] => .ok m
  | index, f :: rest => do
    match loaded[index]? with
    | none => return m
    | some target =>
      let c ← linkAll loaded index f.name (m.chunks[target.chunk]?.getD {}) f.links
      linkFunctions loaded (m.setChunk target.chunk c) (index + 1) rest

/-- Links all functions and pins the entry. -/
def finish (img : Image) (loaded : Array Loaded) : MemoryM (Except LoadError ObjectId) := do
  match linkFunctions loaded (← get) 0 img.functionList with
  | .error e => return .error e
  | .ok m =>
    set m
    match at? loaded img.entry with
    | none => return .error (.entryOutOfRange img.entry loaded.size)
    | some entry =>
      Memory.pin entry.function
      return .ok entry.function

/-- Makes one function and pins it. -/
def loadFunction (holdings : Holdings) (index : Nat) (f : FunctionImage) :
    MemoryM (Except LoadError Loaded) := do
  match ← Chunk.deserialize holdings f.bytes with
  | .error e => return .error (.badChunk index f.name e)
  | .ok c =>
    let chunk ← modifyGet fun m => let (m, id) := m.addChunk c; (id, m)
    let function ← Memory.alloc holdings
      (.function { name := f.name, arity := f.arity, chunk := some chunk })
    Memory.pin function
    return .ok ⟨function, chunk⟩

/-- Makes the functions one after another and then links them; whatever happens
from then on, each function made gives back its pins. -/
def loadAll (holdings : Holdings) (img : Image) (loaded : Array Loaded) :
    List FunctionImage → MemoryM (Except LoadError ObjectId)
  | [] => finish img loaded
  | f :: rest => do
    match ← loadFunction holdings loaded.size f with
    | .error e => return .error e
    | .ok l =>
      ensuring (loadAll holdings img (loaded.push l) rest) fun m =>
        (m.release l.chunk).unpin l.function

/-- Loads an image and gives its entry function, pinned. -/
def load (holdings : Holdings) (img : Image) : MemoryM (Except LoadError ObjectId) :=
  let count := img.functionList.length
  if count = 0 then return .error .noFunctions
  else if img.entry.toInt < 0 ∨ count ≤ img.entry.toInt then
    return .error (.entryOutOfRange img.entry count)
  else loadAll holdings img #[] img.functionList

end StackVm.Image
