/-
Collection and allocation.

A collection marks everything that the root sources and the pins reach and
sweeps the rest.  An allocation collects first when the live count has reached
the threshold, and once more at most when the object limit is reached.
-/
import StackVm.Memory.Mark

namespace StackVm.Memory

/-- The occupied slots that are not marked, in ascending order. -/
def condemned (h : Heap) (marks : Array Bool) : List Nat :=
  (List.range h.slots.size).filter fun i =>
    (h.slots[i]?.getD none).isSome && !(marks[i]?.getD false)

/-- The objects in given slots. -/
def occupants (h : Heap) (slots : List Nat) : List ObjectId :=
  slots.filterMap fun i => h.slots[i]?.getD none

/-- Turns an object from live to swept. -/
def sweepObject (o : Object) : Object :=
  { o with placement := o.placement.map fun p => { p with swept := true } }

/-- Empties slots one after another. -/
def emptySlots (slots : Array (Option ObjectId)) (emptied : List Nat) :
    Array (Option ObjectId) :=
  emptied.foldl (fun slots i => slots.setIfInBounds i none) slots

/-- How many slots hold an object and are marked. -/
def survivorCount (h : Heap) (marks : Array Bool) : Nat :=
  (List.range h.slots.size).countP fun i =>
    (h.slots[i]?.getD none).isSome && marks[i]?.getD false

/-- Empties the slots that are not marked and clears the marks. -/
def sweepHeap (h : Heap) (marks : Array Bool) : Heap :=
  let gone := condemned h marks
  let live := survivorCount h marks
  { h with
    slots := emptySlots h.slots gone
    free := h.free ++ gone
    marks := Array.replicate h.slots.size false
    live
    threshold := h.config.nextThreshold live
    collections := h.collections + 1
    freed := h.freed + (h.live - live) }

/-- Reclaims every object whose slot is not marked. -/
def sweep (m : Memory) (marks : Array Bool) : Memory :=
  let gone := occupants m.heap (condemned m.heap marks)
  { m with
    objects := gone.foldl (fun os id => os.modify id sweepObject) m.objects
    heap := sweepHeap m.heap marks }

/-- Runs a full collection.  A fault cuts it short in the middle of marking.  The memory that
comes with the fault is the one before the collection: that some slots are marked by then, and
that the heap still takes itself to be collecting, is left out, since such a fault ends the run. -/
def collect (holdings : Holdings) : MemoryM Unit := fun m =>
  match m.markPhase holdings with
  | .ok marks => .ok () (m.sweep marks)
  | .error e => .error e m

/-- Takes a slot for the object `id`, the last free one if there is any, and
counts its use.  Slot numbers do not wrap here as 32-bit words do: the table would need more
than 2^32 slots, and grows only while all that it has are occupied. -/
def takeSlot (h : Heap) (id : ObjectId) : Heap × Placement :=
  match h.free.back? with
  | some slot =>
    let generation := h.generations[slot]?.getD 0 + 1
    ({ h with
      slots := h.slots.setIfInBounds slot (some id)
      generations := h.generations.setIfInBounds slot generation
      free := h.free.pop
      live := h.live + 1 }, ⟨h.id, slot, generation, false⟩)
  | none =>
    let slot := h.slots.size
    ({ h with
      slots := h.slots.push (some id)
      generations := h.generations.push 1
      marks := h.marks.push false
      live := h.live + 1 }, ⟨h.id, slot, 1, false⟩)

/-- Gives the object `id` a slot of the heap. -/
def occupy : Memory → ObjectId → Memory
  | ⟨heap, objects, chunks⟩, id =>
    let (heap, placement) := takeSlot heap id
    ⟨heap, objects.modify id fun o => { o with placement := some placement }, chunks⟩

/-- Makes room for one more object: collects if the threshold is reached, or else
if the object limit is, and fails if the limit is still reached then. -/
def makeRoom (holdings : Holdings) : MemoryM Unit := do
  let due := (fun h : Heap => decide (h.threshold ≤ Int64.ofNat h.live)) (← get).heap
  if due then collect holdings
  if (fun h : Heap => h.config.isFull h.live) (← get).heap then
    if !due then collect holdings
    let h := (← get).heap
    if h.config.isFull h.live then throw (.exhausted h.live h.config.maxObjects)

/-- Places an object that no heap has taken yet. -/
def place (holdings : Holdings) (id : ObjectId) : MemoryM Unit := do
  match (← get).objects[id]? with
  | some ⟨payload, some _⟩ => throw (.placedTwice payload.kind)
  | _ => pure ()
  makeRoom holdings
  modify fun m => m.occupy id

/-- Makes an object and places it on the heap. -/
def alloc (holdings : Holdings) (payload : Payload) : MemoryM ObjectId := do
  let id ← modifyGet fun m => (m.objects.size, { m with objects := m.objects.push ⟨payload, none⟩ })
  place holdings id
  return id

/-- Keeps an object alive until a matching unpin.  Pins nest. -/
def pin (id : ObjectId) : MemoryM Unit := do
  match (← get).objects[id]? with
  | none => throw .crash
  | some o =>
    if o.placement.map (·.heap) = some (← get).heap.id then
      modify fun m => { m with heap := { m.heap with pins := addPin id m.heap.pins } }
    else throw (.foreignPin o.kind)
where
  /-- Counts one more pin. -/
  addPin (id : ObjectId) : List (ObjectId × Nat) → List (ObjectId × Nat)
    | [] => [(id, 1)]
    | (x, n) :: rest => if x = id then (x, n + 1) :: rest else (x, n) :: addPin id rest

/-- Takes one pin off; the last one removes the entry. -/
def dropPin (id : ObjectId) : List (ObjectId × Nat) → List (ObjectId × Nat)
  | [] => []
  | (x, n) :: rest =>
    if x = id then if n ≤ 1 then rest else (x, n - 1) :: rest else (x, n) :: dropPin id rest

/-- Releases one pin of an object.  An object that is not pinned stays as it is. -/
def unpin (m : Memory) (id : ObjectId) : Memory :=
  { m with heap := { m.heap with pins := dropPin id m.heap.pins } }

/-- Whether an object is pinned. -/
def isPinned (m : Memory) (id : ObjectId) : Bool := 0 < m.heap.pinCount id

/-- The object that a slot and generation name, if it has not been swept. -/
def lookup (m : Memory) (slot generation : UInt32) : Option ObjectId :=
  match m.heap.slots[slot.toNat]? with
  | some (some id) =>
    if m.heap.generations[slot.toNat]? = some generation then some id else none
  | _ => none

end StackVm.Memory
