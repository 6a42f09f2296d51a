/-
The heap and the memory around it.

A heap is an arena of slots: each allocation takes a free slot or appends a new
one, and each slot counts its uses in a generation.  Root sources are registered
by name; what they hold is asked for when a collection runs.  The memory joins
one heap with the objects and the chunks that exist, those of other heaps
included.
-/
import StackVm.Memory.Config
import StackVm.Memory.Object

namespace StackVm

/-- The identity of a root source.  Identities are never reused on one heap. -/
abbrev RootId := Nat

/-- A registered root source. -/
structure RootSource where
  id : RootId
  name : Text
  deriving DecidableEq, Repr

/-- The registered root sources, in order of registration. -/
structure RootSet where
  /-- How many sources have been registered so far. -/
  issued : Nat := 0
  sources : List RootSource := []
  deriving Repr, Inhabited

namespace RootSet

/-- Registers a source and gives the identity that removes it. -/
def add (r : RootSet) (name : Text) : RootSet × RootId :=
  (⟨r.issued + 1, r.sources ++ [⟨r.issued + 1, name⟩]⟩, r.issued + 1)

/-- Whether a source is registered. -/
def contains (r : RootSet) (id : RootId) : Bool := r.sources.any (·.id = id)

/-- Unregisters a source. -/
def remove (r : RootSet) (id : RootId) : RootSet :=
  { r with sources := r.sources.filter (·.id ≠ id) }

/-- The names in order of registration. -/
def names (r : RootSet) : List Text := r.sources.map (·.name)

end RootSet

/-- One step of a root source when it is asked what it holds. -/
inductive Hold where
  /-- The source holds an object. -/
  | object (id : ObjectId)
  /-- The source tries to allocate, which a running collection refuses. -/
  | allocation
  deriving DecidableEq, Repr

/-- What each root source holds at a moment. -/
abbrev Holdings := RootId → List Hold

/-- A heap. -/
structure Heap where
  id : HeapId
  config : Config
  /-- The object in each slot. -/
  slots : Array (Option ObjectId) := #[]
  /-- How often each slot has been used. -/
  generations : Array UInt32 := #[]
  /-- The empty slots; the last one is used first. -/
  free : Array Nat := #[]
  /-- The mark of each slot; no slot is marked between collections. -/
  marks : Array Bool := #[]
  /-- How many slots hold an object. -/
  live : Nat := 0
  /-- The live count at which an allocation collects first. -/
  threshold : Int64
  roots : RootSet := {}
  /-- The pinned objects with how often each is pinned. -/
  pins : List (ObjectId × Nat) := []
  collections : Nat := 0
  /-- How many objects all collections have reclaimed. -/
  freed : Nat := 0
  deriving Repr, Inhabited

/-- An empty heap. -/
def Heap.create (id : HeapId) (config : Config) : Heap :=
  { id, config := config.normalized, threshold := config.normalized.initialThreshold }

/-- How often an object is pinned. -/
def Heap.pinCount (h : Heap) (id : ObjectId) : Nat := (h.pins.lookup id).getD 0

/-- Everything that exists, seen from one heap. -/
structure Memory where
  heap : Heap
  /-- Every object ever made; an object's identity is its index. -/
  objects : Array Object := #[]
  /-- Every chunk ever made; a chunk's identity is its index. -/
  chunks : Array Chunk := #[]
  deriving Repr, Inhabited

/-- A condition that ends an operation on the spot, with the memory as it is. -/
inductive Fault where
  /-- The object limit is reached even after a collection. -/
  | exhausted (live : Nat) (max : Int64)
  /-- A root or an object refers to an object that this heap does not own. -/
  | foreign (kind : Kind)
  /-- A root or an object refers to an object that has been swept. -/
  | swept (kind : Kind) (slot : Nat)
  | placedTwice (kind : Kind)
  | allocationInCollection
  | foreignPin (kind : Kind)
  | machineClosed
  /-- The host would fail: something outside its bounds was addressed. -/
  | crash
  deriving DecidableEq, Repr

/-- The text of a fault; a crash has none. -/
def Fault.message : Fault → Text
  | .exhausted live max =>
    "gc: heap exhausted: " ++ Text.ofNat live ++ " live objects (max " ++ Text.ofInt64 max ++ ")"
  | .foreign kind => "gc: " ++ kind.name ++ " object does not belong to this heap"
  | .swept kind slot =>
    "gc: reached collected " ++ kind.name ++ " object in slot " ++ Text.ofNat slot
  | .placedTwice kind => "gc: " ++ kind.name ++ " object allocated twice"
  | .allocationInCollection => "gc: allocation during collection"
  | .foreignPin kind => "gc: pinning " ++ kind.name ++ " object from another heap"
  | .machineClosed => "vm: Interpret on closed VM"
  | .crash => []

/-- Operations on the memory that a fault can cut short. -/
abbrev MemoryM := EStateM Fault Memory

namespace Memory

/-- The content of an object. -/
def payload? (m : Memory) (id : ObjectId) : Option Payload := m.objects[id]?.map (·.payload)

/-- The string an object is. -/
def string? (m : Memory) (id : ObjectId) : Option Text :=
  match m.objects[id]? with
  | some ⟨.string data, _⟩ => some data
  | _ => none

/-- The array an object is. -/
def array? (m : Memory) (id : ObjectId) : Option (Array Value) :=
  match m.objects[id]? with
  | some ⟨.array elements, _⟩ => some elements
  | _ => none

/-- The struct an object is. -/
def struct? (m : Memory) (id : ObjectId) : Option Record :=
  match m.objects[id]? with
  | some ⟨.struct record, _⟩ => some record
  | _ => none

/-- The function an object is. -/
def function? (m : Memory) (id : ObjectId) : Option Function :=
  match m.objects[id]? with
  | some ⟨.function f, _⟩ => some f
  | _ => none

/-- The code of a function. -/
def chunkOf? (m : Memory) (f : Function) : Option Chunk := f.chunk.bind (m.chunks[·]?)

/-- Changes the content of an object. -/
def modifyPayload (m : Memory) (id : ObjectId) (f : Payload → Payload) : Memory :=
  { m with objects := m.objects.modify id fun o => { o with payload := f o.payload } }

/-- Adds a chunk and gives its identity. -/
def addChunk (m : Memory) (c : Chunk) : Memory × ChunkId :=
  ({ m with chunks := m.chunks.push c }, m.chunks.size)

/-- Replaces a chunk. -/
def setChunk (m : Memory) (id : ChunkId) (c : Chunk) : Memory :=
  { m with chunks := m.chunks.setIfInBounds id c }

/-- The type of a value. -/
def typeOf (m : Memory) : Value → ValueType
  | .nil => .nil
  | .int _ => .int
  | .bool _ => .bool
  | .native _ => .native
  | .object id =>
    match m.objects[id]? with
    | some o => o.kind.type
    | none => .nil

/-- Whether two values are equal: scalars and strings by content, all other
objects by identity. -/
def equal (m : Memory) : Value → Value → Bool
  | .object a, .object b =>
    a == b ||
      match m.string? a, m.string? b with
      | some s, some t => s == t
      | _, _ => false
  | v, w => v == w

/-- The text printed for a value. -/
def display (m : Memory) : Value → Text
  | .nil => "nil"
  | .int n => tibetanNumeral n
  | .bool b => truthWord b
  | .native _ => "<native>"
  | .object id =>
    match m.payload? id with
    | some (.string data) => data
    | some (.array elements) => "[array:" ++ Text.ofNat elements.size ++ "]"
    | some (.struct record) => "\x7bstruct:" ++ Text.ofNat record.size ++ "\x7d"
    | some (.function f) => if f.name = [] then "<script>" else "<fn " ++ f.name ++ ">"
    | none => "<unknown>"

end Memory

end StackVm
