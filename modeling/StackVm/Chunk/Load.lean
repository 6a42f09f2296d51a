/-
Bringing written chunks back into memory.  Each string constant becomes a new
string that stays pinned until the chunk is released.
-/
import StackVm.Chunk.Wire
import StackVm.Memory.Collect

namespace StackVm.Chunk

/-- Adds a constant that has been read to a chunk. -/
def addRead (holdings : Holdings) (c : Chunk) : WireConstant → MemoryM Chunk
  | .nil => return { c with constants := c.constants.push .nil }
  | .int n => return { c with constants := c.constants.push (.int n) }
  | .bool b => return { c with constants := c.constants.push (.bool b) }
  | .function => return { c with
      constants := c.constants.push .nil
      unlinked := c.unlinked ++ [c.constants.size] }
  | .string data => do
    let id ← Memory.alloc holdings (.string data)
    Memory.pin id
    return { c with constants := c.constants.push (.object id), owned := c.owned ++ [id] }

/-- Adds constants one after another. -/
def addReads (holdings : Holdings) (c : Chunk) : List WireConstant → MemoryM Chunk
  | [] => return c
  | constant :: rest => do
    let c ← c.addRead holdings constant
    c.addReads holdings rest

/-- Drops the pins a chunk holds on its strings. -/
def dropOwned (c : Chunk) (m : Memory) : Memory := c.owned.foldl Memory.unpin m

/-- Reads a written chunk into memory.  When the bytes turn out to be wrong, the
strings read so far are released. -/
def deserialize (holdings : Holdings) (t : Text) : MemoryM (Except WireError Chunk) :=
  match read t with
  | .error e => return .error e
  | .ok (w, e) => do
    let start : Chunk := { code := w.code.toArray, lines := (w.lines.map Int32.toInt64).toArray }
    let c ← start.addReads holdings w.constants
    match e with
    | some e =>
      modify c.dropOwned
      return .error e
    | none => return .ok c

end StackVm.Chunk

/-- Releases the strings of a chunk: from now on they live as long as something
reaches them. -/
def StackVm.Memory.release (m : StackVm.Memory) (id : StackVm.ChunkId) : StackVm.Memory :=
  match m.chunks[id]? with
  | none => m
  | some c => (c.dropOwned m).setChunk id { c with owned := [] }
