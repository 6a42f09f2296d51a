/-
Marking: finding the objects that the roots reach.

The worklist holds the objects that are marked and not yet traced.  Every object
is marked at most once, so marks that are still open plus the length of the
worklist go down by one with each object traced.
-/
import StackVm.Memory.Heap

namespace StackVm

/-- The progress of a mark phase. -/
structure Marking where
  marks : Array Bool
  /-- The marked objects that have not been traced; the first one is next. -/
  gray : List ObjectId
  deriving Repr

namespace Marking

/-- How many slots are not marked. -/
def unmarked (s : Marking) : Nat := s.marks.count false

/-- What is left to do at most: the slots still to be marked and the objects still
to be traced. -/
def work (s : Marking) : Nat := s.unmarked + s.gray.length

/-- Marks a slot and queues its object, unless the slot is marked already. -/
def visit (s : Marking) (id : ObjectId) (slot : Nat) : Marking :=
  if s.marks[slot]? = some false then
    ⟨s.marks.setIfInBounds slot true, id :: s.gray⟩
  else s

/-- Marks an object of `heap`. -/
def mark (objects : Array Object) (heap : HeapId) (s : Marking) (id : ObjectId) :
    Except Fault Marking :=
  match objects[id]? with
  | none => .ok s
  | some o =>
    match o.placement with
    | none => .error (.foreign o.kind)
    | some p =>
      if p.heap ≠ heap then .error (.foreign o.kind)
      else if p.swept then .error (.swept o.kind p.slot)
      else .ok (s.visit id p.slot)

/-- Marks objects one after another. -/
def markAll (objects : Array Object) (heap : HeapId) :
    Marking → List ObjectId → Except Fault Marking
  | s, [] => .ok s
  | s, id :: rest =>
    match s.mark objects heap id with
    | .error e => .error e
    | .ok t => markAll objects heap t rest

theorem count_set_true {marks : Array Bool} {slot : Nat} (h : marks[slot]? = some false) :
    (marks.setIfInBounds slot true).count false + 1 = marks.count false := by
  obtain ⟨hlt, hget⟩ := Array.getElem?_eq_some_iff.1 h
  have hpos : 0 < marks.count false :=
    Array.count_pos_iff.2 (hget ▸ Array.getElem_mem hlt)
  rw [Array.setIfInBounds, dif_pos hlt, Array.count_set]
  simp only [hget]
  simp
  omega

theorem work_visit (s : Marking) (id : ObjectId) (slot : Nat) :
    (s.visit id slot).work = s.work := by
  unfold visit
  split
  · next h =>
    have := count_set_true h
    simp only [work, unmarked, List.length_cons]
    omega
  · rfl

theorem work_mark {objects : Array Object} {heap : HeapId} {s t : Marking} {id : ObjectId}
    (h : s.mark objects heap id = .ok t) : t.work = s.work := by
  unfold mark at h
  split at h
  · cases h; rfl
  · split at h
    · cases h
    · split at h
      · cases h
      · split at h
        · cases h
        · cases h
          exact work_visit ..

theorem work_markAll {objects : Array Object} {heap : HeapId} {s t : Marking}
    {ids : List ObjectId} (h : markAll objects heap s ids = .ok t) : t.work = s.work := by
  induction ids generalizing s with
  | nil => cases h; rfl
  | cons id rest ih =>
    unfold markAll at h
    split at h
    · cases h
    · next _ hmark => rw [ih h, work_mark hmark]

end Marking

/-- The objects that a list of values refers to, in order. -/
def referents (vs : List Value) : List ObjectId := vs.filterMap Value.id?

/-- The objects an object refers to: the elements of an array, the fields of a
struct, the constants of a function's code. -/
def Payload.references (chunks : Array Chunk) : Payload → List ObjectId
  | .string _ => []
  | .array elements => referents elements.toList
  | .struct record => referents record.values
  | .function f =>
    match f.chunk.bind (chunks[·]?) with
    | some c => referents c.constants.toList
    | none => []

/-- The objects that the object `id` refers to. -/
def Memory.references (m : Memory) (id : ObjectId) : List ObjectId :=
  match m.objects[id]? with
  | some o => o.payload.references m.chunks
  | none => []

namespace Marking

/-- Traces the worklist until it is empty. -/
def drain (m : Memory) : Marking → Except Fault Marking
  | ⟨marks, []⟩ => .ok ⟨marks, []⟩
  | ⟨marks, id :: rest⟩ =>
    match _ht : markAll m.objects m.heap.id ⟨marks, rest⟩ (m.references id) with
    | .error e => .error e
    | .ok t => drain m t
termination_by s => s.work
decreasing_by
  rw [work_markAll _ht]
  simp only [work, unmarked, List.length_cons]
  omega

/-- Marks what a root source holds. -/
def markHolds (objects : Array Object) (heap : HeapId) :
    Marking → List Hold → Except Fault Marking
  | s, [] => .ok s
  | _, .allocation :: _ => .error .allocationInCollection
  | s, .object id :: rest =>
    match s.mark objects heap id with
    | .error e => .error e
    | .ok t => markHolds objects heap t rest

end Marking

namespace Memory

/-- Everything the registered root sources hold, source by source. -/
def rootHolds (m : Memory) (holdings : Holdings) : List Hold :=
  m.heap.roots.sources.flatMap fun source => holdings source.id

/-- The marks after the mark phase: first the root sources, then the pins, then
everything that these reach. -/
def markPhase (m : Memory) (holdings : Holdings) : Except Fault (Array Bool) := do
  let s ← Marking.markHolds m.objects m.heap.id ⟨m.heap.marks, []⟩ (m.rootHolds holdings)
  let s ← Marking.markAll m.objects m.heap.id s (m.heap.pins.map (·.1))
  let s ← s.drain m
  return s.marks

end Memory

end StackVm
