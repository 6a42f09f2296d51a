/-
Ownership and reachability.  A heap owns the objects it has placed and not swept;
a reachable object is one that is anchored by a root source or a pin, or that a
reachable object refers to.  In a well-formed memory the occupied slots and the
owned objects correspond one to one.
-/
import Mathlib.Data.Set.Card
import StackVm.Proofs.Slots

namespace StackVm

/-- The holdings of root sources that mark objects and do nothing else. -/
def Holdings.of (held : RootId → List ObjectId) : Holdings := fun id => (held id).map .object

namespace Memory

/-- Where an object was placed. -/
def placement? (m : Memory) (id : ObjectId) : Option Placement :=
  m.objects[id]?.bind (·.placement)

/-- The heap has placed the object there and has not reclaimed it. -/
structure Places (m : Memory) (id : ObjectId) (p : Placement) : Prop where
  found : m.placement? id = some p
  heap : p.heap = m.heap.id
  unswept : p.swept = false

/-- The object is live and belongs to the heap. -/
def Owns (m : Memory) (id : ObjectId) : Prop := ∃ p, m.Places id p

/-- A root source or a pin keeps the object alive by itself. -/
def Anchored (m : Memory) (holdings : Holdings) (id : ObjectId) : Prop :=
  Hold.object id ∈ m.rootHolds holdings ∨ id ∈ m.heap.pins.map (·.1)

/-- What can be reached from given objects through references. -/
inductive Reaches (m : Memory) (start : ObjectId → Prop) : ObjectId → Prop
  | start {id : ObjectId} : start id → Reaches m start id
  | reference {id other : ObjectId} :
      Reaches m start id → other ∈ m.references id → Reaches m start other

/-- What the root sources and the pins keep alive. -/
abbrev Reachable (m : Memory) (holdings : Holdings) : ObjectId → Prop :=
  m.Reaches (m.Anchored holdings)

/-- A set that contains the start and is closed under references contains
everything that is reached. -/
theorem Reaches.subset {m : Memory} {start closed : ObjectId → Prop}
    (hstart : ∀ id, start id → closed id)
    (hclosed : ∀ id, closed id → ∀ other ∈ m.references id, closed other) {id : ObjectId}
    (hid : m.Reaches start id) : closed id := by
  induction hid with
  | start h => exact hstart _ h
  | reference _ hmem ih => exact hclosed _ ih _ hmem

/-- Objects without references reach nothing but themselves. -/
theorem Reaches.of_leaves {m : Memory} {start : ObjectId → Prop}
    (hleaf : ∀ id, start id → m.references id = []) {id : ObjectId} (hid : m.Reaches start id) :
    start id := by
  refine hid.subset (fun _ h => h) fun i hi other hother => ?_
  rw [hleaf i hi] at hother
  cases hother

/-- Memories with the same references reach the same objects. -/
theorem reaches_congr {m n : Memory} (hrefs : ∀ id, n.references id = m.references id)
    (start : ObjectId → Prop) : n.Reaches start = m.Reaches start := by
  funext id
  refine propext ⟨fun hid => hid.subset (fun i hi => .start hi) fun i hi other hother => ?_,
    fun hid => hid.subset (fun i hi => .start hi) fun i hi other hother => ?_⟩
  · exact hi.reference (hrefs i ▸ hother)
  · exact hi.reference ((hrefs i).symm ▸ hother)

/-- The slot table and the placements of the objects say the same. -/
structure WellFormed (m : Memory) : Prop where
  tidy : m.heap.Tidy
  occupied : ∀ slot id, m.heap.occupant slot = some id →
    ∃ p, m.Places id p ∧ p.slot = slot ∧ m.heap.generations[slot]? = some p.generation
  placed : ∀ id p, m.Places id p → m.heap.occupant p.slot = some id

theorem Places.unique {m : Memory} {id : ObjectId} {p q : Placement} (hp : m.Places id p)
    (hq : m.Places id q) : p = q :=
  Option.some.inj (hp.found.symm.trans hq.found)

theorem lt_size_of_placement? {m : Memory} {id : ObjectId} {p : Placement}
    (hp : m.placement? id = some p) : id < m.objects.size := by
  by_contra hlt
  rw [placement?, Array.getElem?_eq_none (Nat.le_of_not_lt hlt)] at hp
  cases hp

theorem Owns.lt_size {m : Memory} {id : ObjectId} (hown : m.Owns id) : id < m.objects.size := by
  obtain ⟨p, hp⟩ := hown
  exact lt_size_of_placement? hp.found

theorem not_owns_of_unplaced {m : Memory} {id : ObjectId} (hid : m.placement? id = none) :
    ¬ m.Owns id := by
  rintro ⟨p, hp⟩
  rw [hp.found] at hid
  cases hid

theorem WellFormed.owns_of_occupant {m : Memory} (hm : m.WellFormed) {slot : Nat} {id : ObjectId}
    (hocc : m.heap.occupant slot = some id) : m.Owns id := by
  obtain ⟨p, hp, _⟩ := hm.occupied slot id hocc
  exact ⟨p, hp⟩

/-- No two slots hold the same object. -/
theorem WellFormed.slot_unique {m : Memory} (hm : m.WellFormed) {i j : Nat} {id : ObjectId}
    (hi : m.heap.occupant i = some id) (hj : m.heap.occupant j = some id) : i = j := by
  obtain ⟨p, hp, hpi, _⟩ := hm.occupied i id hi
  obtain ⟨q, hq, hqj, _⟩ := hm.occupied j id hj
  rw [← hpi, ← hqj, hp.unique hq]

theorem WellFormed.of_placements {m n : Memory} (hm : m.WellFormed) (hheap : n.heap = m.heap)
    (hplacement : ∀ id p, p.heap = m.heap.id →
      (n.placement? id = some p ↔ m.placement? id = some p)) : n.WellFormed := by
  have hplaces : ∀ id p, n.Places id p ↔ m.Places id p := by
    intro id p
    constructor
    · rintro ⟨hfound, hid, hunswept⟩
      rw [hheap] at hid
      exact ⟨(hplacement id p hid).1 hfound, hid, hunswept⟩
    · rintro ⟨hfound, hid, hunswept⟩
      exact ⟨(hplacement id p hid).2 hfound, hheap ▸ hid, hunswept⟩
  constructor
  · rw [hheap]
    exact hm.tidy
  · intro slot id hocc
    rw [hheap] at hocc ⊢
    obtain ⟨p, hp, hslot, hgen⟩ := hm.occupied slot id hocc
    exact ⟨p, (hplaces id p).2 hp, hslot, hgen⟩
  · intro id p hp
    rw [hheap]
    exact hm.placed id p ((hplaces id p).1 hp)

/-- Pins and root sources are no part of the slot table. -/
theorem WellFormed.with_anchors {m : Memory} (hm : m.WellFormed) (roots : RootSet)
    (pins : List (ObjectId × Nat)) :
    WellFormed { m with heap := { m.heap with roots, pins } } where
  tidy := ⟨hm.tidy.generations, hm.tidy.marks, hm.tidy.free_nodup, hm.tidy.mem_free,
    hm.tidy.live⟩
  occupied slot id hocc := by
    obtain ⟨p, hp, hslot, hgen⟩ := hm.occupied slot id hocc
    exact ⟨p, ⟨hp.found, hp.heap, hp.unswept⟩, hslot, hgen⟩
  placed id p hp := hm.placed id p ⟨hp.found, hp.heap, hp.unswept⟩

theorem create_wellFormed {objects : Array Object} (id : HeapId) (config : Config)
    (chunks : Array Chunk)
    (hforeign : ∀ o ∈ objects, ∀ p, o.placement = some p → p.heap ≠ id) :
    WellFormed ⟨Heap.create id config, objects, chunks⟩ := by
  refine ⟨Heap.create_tidy id config, ?_, ?_⟩
  · intro slot i hocc
    simp [Heap.occupant, Heap.create] at hocc
  · intro i p hp
    obtain ⟨o, ho, hplacement⟩ := Option.bind_eq_some_iff.1 hp.found
    exact absurd hp.heap (hforeign o (Array.mem_of_getElem? ho) p hplacement)

/-- The live count is the number of objects that the heap owns. -/
theorem WellFormed.ncard_owns {m : Memory} (hm : m.WellFormed) :
    {id | m.Owns id}.ncard = m.heap.live := by
  have hnodup : ((List.range m.heap.slots.size).filterMap m.heap.occupant).Nodup :=
    List.nodup_range.filterMap fun i j id hi hj => hm.slot_unique hi hj
  have hmem : {id | m.Owns id} =
      (((List.range m.heap.slots.size).filterMap m.heap.occupant).toFinset : Set ObjectId) := by
    ext id
    simp only [Set.mem_ofPred_eq, List.coe_toFinset, List.mem_filterMap, List.mem_range]
    constructor
    · rintro ⟨p, hp⟩
      have hocc := hm.placed id p hp
      exact ⟨p.slot, Heap.lt_size_of_occupant hocc, hocc⟩
    · rintro ⟨slot, _, hocc⟩
      exact hm.owns_of_occupant hocc
  rw [hmem, Set.ncard_coe_finset, List.toFinset_card_of_nodup hnodup,
    List.length_filterMap_eq_countP, hm.tidy.live]
  rfl

theorem finite_owns (m : Memory) : {id | m.Owns id}.Finite :=
  (Set.finite_lt_nat m.objects.size).subset fun _ hown => hown.lt_size

/-! ### Taking a slot -/

theorem takeSlot_heapId (h : Heap) (id : ObjectId) : (takeSlot h id).1.id = h.id := by
  unfold takeSlot
  split <;> rfl

theorem occupy_eq (m : Memory) (id : ObjectId) :
    m.occupy id = ⟨(takeSlot m.heap id).1,
      m.objects.modify id fun o => { o with placement := some (takeSlot m.heap id).2 },
      m.chunks⟩ := rfl

theorem placement?_occupy {m : Memory} {id : ObjectId} (hid : id < m.objects.size)
    (i : ObjectId) : (m.occupy id).placement? i =
      if i = id then some (takeSlot m.heap id).2 else m.placement? i := by
  rw [occupy_eq, placement?, placement?, Array.getElem?_modify]
  by_cases hi : id = i
  · subst hi
    rw [if_pos rfl, if_pos rfl, Array.getElem?_eq_getElem hid]
    rfl
  · rw [if_neg hi, if_neg (Ne.symm hi)]

/-- An object that has not been placed yet is owned once it occupies a slot. -/
theorem places_occupy {m : Memory} (hm : m.WellFormed) {id : ObjectId}
    (hid : id < m.objects.size) : (m.occupy id).Places id (takeSlot m.heap id).2 := by
  have htaken := takeSlot_taken hm.tidy id
  have hheap : (m.occupy id).heap.id = m.heap.id := takeSlot_heapId ..
  exact ⟨by rw [placement?_occupy hid, if_pos rfl], htaken.heap.trans hheap.symm,
    htaken.unswept⟩

theorem places_occupy_of_ne {m : Memory} {id : ObjectId} (hid : id < m.objects.size)
    {i : ObjectId} (hi : i ≠ id) (p : Placement) :
    (m.occupy id).Places i p ↔ m.Places i p := by
  have hheap : (m.occupy id).heap.id = m.heap.id := takeSlot_heapId ..
  have hfound : (m.occupy id).placement? i = m.placement? i := by
    rw [placement?_occupy hid, if_neg hi]
  constructor
  · intro hp
    exact ⟨hfound ▸ hp.found, hp.heap.trans hheap, hp.unswept⟩
  · intro hp
    exact ⟨hfound.trans hp.found, hp.heap.trans hheap.symm, hp.unswept⟩

/-- Occupying a slot keeps the memory well formed. -/
theorem WellFormed.occupy {m : Memory} (hm : m.WellFormed) {id : ObjectId}
    (hid : id < m.objects.size) (hnew : ¬ m.Owns id) : (m.occupy id).WellFormed := by
  have htaken := takeSlot_taken hm.tidy id
  have hself := places_occupy hm hid
  constructor
  · exact takeSlot_tidy hm.tidy id
  · intro slot i hocc
    have hocc' : (takeSlot m.heap id).1.occupant slot = some i := hocc
    have hgen := htaken.generation slot
    rw [htaken.occupant slot] at hocc'
    split at hocc'
    · next hslot =>
      rw [if_pos hslot] at hgen
      cases hocc'
      exact ⟨_, hself, hslot.symm, hgen⟩
    · next hslot =>
      rw [if_neg hslot] at hgen
      obtain ⟨p, hp, hpslot, hpgen⟩ := hm.occupied slot i hocc'
      have hi : i ≠ id := fun heq => hnew (heq ▸ ⟨p, hp⟩)
      exact ⟨p, (places_occupy_of_ne hid hi p).2 hp, hpslot, hgen.trans hpgen⟩
  · intro i p hp
    have hocc := htaken.occupant p.slot
    by_cases hi : i = id
    · subst hi
      rw [hp.unique hself] at hocc ⊢
      rw [if_pos rfl] at hocc
      exact hocc
    · have hold := hm.placed i p ((places_occupy_of_ne hid hi p).1 hp)
      have hslot : p.slot ≠ (takeSlot m.heap id).2.slot := by
        intro heq
        rw [heq, htaken.vacant] at hold
        cases hold
      rw [if_neg hslot] at hocc
      exact hocc.trans hold

/-! ### Sweeping -/

theorem getElem?_sweepAll (objects : Array Object) (gone : List ObjectId) (id : ObjectId) :
    (gone.foldl (fun os i => os.modify i sweepObject) objects)[id]? =
      if id ∈ gone then objects[id]?.map sweepObject else objects[id]? := by
  have htwice : ∀ o : Object, sweepObject (sweepObject o) = sweepObject o := by
    rintro ⟨payload, _ | p⟩ <;> rfl
  induction gone generalizing objects with
  | nil => rfl
  | cons i rest ih =>
    rw [List.foldl_cons, ih, Array.getElem?_modify]
    by_cases hi : i = id
    · subst hi
      cases objects[i]? <;> simp [htwice]
    · simp [hi, Ne.symm hi]

theorem mem_occupants_condemned {h : Heap} {marks : Array Bool} {id : ObjectId} :
    id ∈ occupants h (condemned h marks) ↔
      ∃ slot, h.occupant slot = some id ∧ marks[slot]? ≠ some true := by
  simp only [occupants, List.mem_filterMap, mem_condemned]
  constructor
  · rintro ⟨slot, ⟨_, hmark⟩, hocc⟩
    exact ⟨slot, hocc, hmark⟩
  · rintro ⟨slot, hocc, hmark⟩
    exact ⟨slot, ⟨by rw [hocc]; rfl, hmark⟩, hocc⟩

theorem getElem?_sweep (m : Memory) (marks : Array Bool) (id : ObjectId) :
    (m.sweep marks).objects[id]? =
      if id ∈ occupants m.heap (condemned m.heap marks) then m.objects[id]?.map sweepObject
      else m.objects[id]? :=
  getElem?_sweepAll ..

theorem size_sweep (m : Memory) (marks : Array Bool) :
    (m.sweep marks).objects.size = m.objects.size := by
  change ((occupants m.heap (condemned m.heap marks)).foldl
    (fun os i => os.modify i sweepObject) m.objects).size = m.objects.size
  generalize m.objects = objects
  induction occupants m.heap (condemned m.heap marks) generalizing objects with
  | nil => rfl
  | cons i rest ih => rw [List.foldl_cons, ih, Array.size_modify]

/-- A sweep keeps exactly the owned objects whose slots are marked. -/
theorem WellFormed.places_sweep {m : Memory} (hm : m.WellFormed) (marks : Array Bool)
    (id : ObjectId) (p : Placement) :
    (m.sweep marks).Places id p ↔ m.Places id p ∧ marks[p.slot]? = some true := by
  have hobject := getElem?_sweep m marks id
  have hgone := @mem_occupants_condemned m.heap marks id
  constructor
  · rintro ⟨hfound, hheap, hunswept⟩
    rw [placement?, hobject] at hfound
    split at hfound
    · rw [Option.bind_map, Option.bind_eq_some_iff] at hfound
      obtain ⟨o, _, hp⟩ := hfound
      obtain ⟨q, _, rfl⟩ := Option.map_eq_some_iff.1 hp
      cases hunswept
    · next hkept =>
      have hp : m.Places id p := ⟨hfound, hheap, hunswept⟩
      refine ⟨hp, ?_⟩
      by_contra hmark
      exact hkept (hgone.2 ⟨p.slot, hm.placed id p hp, hmark⟩)
  · rintro ⟨hp, hmark⟩
    have hkept : id ∉ occupants m.heap (condemned m.heap marks) := by
      intro hmem
      obtain ⟨slot, hocc, hunmarked⟩ := hgone.1 hmem
      obtain ⟨q, hq, rfl, _⟩ := hm.occupied slot id hocc
      exact hunmarked (hp.unique hq ▸ hmark)
    rw [if_neg hkept] at hobject
    exact ⟨by rw [placement?, hobject]; exact hp.found, hp.heap, hp.unswept⟩

/-- Sweeping keeps the memory well formed, whatever is marked. -/
theorem WellFormed.sweep {m : Memory} (hm : m.WellFormed) (marks : Array Bool) :
    (m.sweep marks).WellFormed := by
  constructor
  · exact sweepHeap_tidy hm.tidy marks
  · intro slot id hocc
    have hocc' : (sweepHeap m.heap marks).occupant slot = some id := hocc
    rw [occupant_sweepHeap] at hocc'
    split at hocc'
    · next hmark =>
      obtain ⟨p, hp, hslot, hgen⟩ := hm.occupied slot id hocc'
      exact ⟨p, (hm.places_sweep marks id p).2 ⟨hp, hslot ▸ hmark⟩, hslot, hgen⟩
    · cases hocc'
  · intro id p hp
    obtain ⟨hold, hmark⟩ := (hm.places_sweep marks id p).1 hp
    have hocc : (sweepHeap m.heap marks).occupant p.slot = some id := by
      rw [occupant_sweepHeap, if_pos hmark]
      exact hm.placed id p hold
    exact hocc

end Memory

end StackVm
