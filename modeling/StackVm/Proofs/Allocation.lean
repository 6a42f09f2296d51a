/-
Collection and allocation as wholes.  A collection keeps exactly the reachable
objects where every reachable object is owned; an allocation collects at most
once, and fails exactly when the reachable objects alone reach the object limit.
-/
import StackVm.Proofs.Marking
import StackVm.Proofs.Stateful

namespace StackVm.Memory

/-- Fails when the object limit is reached. -/
def checkRoom (m : Memory) : EStateM.Result Fault Memory Unit :=
  if m.heap.config.isFull m.heap.live then
    .error (.exhausted m.heap.live m.heap.config.maxObjects) m
  else .ok () m

/-- An allocation collects at most once: when the threshold or the limit is reached. -/
theorem makeRoom_eq (holdings : Holdings) (m : Memory) :
    makeRoom holdings m =
      if m.heap.threshold ≤ Int64.ofNat m.heap.live ∨ m.heap.config.isFull m.heap.live then
        match collect holdings m with
        | .ok _ n => checkRoom n
        | .error e n => .error e n
      else .ok () m := by
  simp only [makeRoom, checkRoom, bind_apply, get_apply, branch_apply, pure_apply, throw_apply]
  by_cases hdue : m.heap.threshold ≤ Int64.ofNat m.heap.live
  · simp only [hdue, decide_true, if_true, true_or]
    cases collect holdings m with
    | error e n => rfl
    | ok a n => cases hfull : n.heap.config.isFull n.heap.live <;> simp
  · by_cases hfull : m.heap.config.isFull m.heap.live
    · simp only [hdue, hfull, decide_false, Bool.not_false, if_true, or_true, Bool.false_eq_true,
        if_false]
      cases collect holdings m <;> rfl
    · simp [hdue, hfull]

/-! ### Collections -/

theorem references_eq (m : Memory) (id : ObjectId) :
    m.references id = ((m.payload? id).map (·.references m.chunks)).getD [] := by
  rw [references, payload?]
  cases m.objects[id]? <;> rfl

theorem payload?_sweep (m : Memory) (marks : Array Bool) (id : ObjectId) :
    (m.sweep marks).payload? id = m.payload? id := by
  rw [payload?, payload?, getElem?_sweep]
  split
  · rw [Option.map_map]
    rfl
  · rfl

theorem placement?_sweep_eq_none {m : Memory} {marks : Array Bool} {id : ObjectId}
    (hid : m.placement? id = none) : (m.sweep marks).placement? id = none := by
  rw [placement?] at hid ⊢
  rw [getElem?_sweep]
  split
  · rw [Option.bind_map]
    refine Option.bind_eq_none_iff.2 fun o ho => ?_
    rw [ho] at hid
    exact Option.map_eq_none_iff.2 hid
  · exact hid

/-- What neither an allocation nor a collection changes about a heap. -/
structure SameRoots (h t : Heap) : Prop where
  id : t.id = h.id
  config : t.config = h.config
  roots : t.roots = h.roots
  pins : t.pins = h.pins

/-- What some collections leave of a memory: everything the roots reach is as it
was, and what is reclaimed keeps its content. -/
structure Kept (holdings : Holdings) (m n : Memory) : Prop where
  wellFormed : n.WellFormed
  same : SameRoots m.heap n.heap
  chunks : n.chunks = m.chunks
  size : n.objects.size = m.objects.size
  payload : ∀ id, n.payload? id = m.payload? id
  object : ∀ id, m.Reachable holdings id → n.objects[id]? = m.objects[id]?
  unplaced : ∀ id, m.placement? id = none → n.placement? id = none

theorem Kept.refl {holdings : Holdings} {m : Memory} (hm : m.WellFormed) : Kept holdings m m :=
  ⟨hm, ⟨rfl, rfl, rfl, rfl⟩, rfl, rfl, fun _ => rfl, fun _ _ => rfl, fun _ h => h⟩

section

variable {m : Memory} {held : RootId → List ObjectId} {marks : Array Bool}

/-- A sweep after tracing keeps exactly the owned objects that were reached. -/
theorem Traced.places_sweep (hm : m.WellFormed) {start : ObjectId → Prop}
    (hmarks : m.Traced start marks) (id : ObjectId) (p : Placement) :
    (m.sweep marks).Places id p ↔ m.Places id p ∧ m.Reaches start id := by
  rw [hm.places_sweep]
  constructor
  · rintro ⟨hp, hmark⟩
    obtain ⟨other, hocc, hreach⟩ := (hmarks.mark p.slot).1 hmark
    rw [hm.placed id p hp] at hocc
    cases hocc
    exact ⟨hp, hreach⟩
  · rintro ⟨hp, hreach⟩
    exact ⟨hp, (hmarks.mark p.slot).2 ⟨id, hm.placed id p hp, hreach⟩⟩

theorem Traced.owns_sweep (hm : m.WellFormed) {start : ObjectId → Prop}
    (hmarks : m.Traced start marks) (id : ObjectId) :
    (m.sweep marks).Owns id ↔ m.Owns id ∧ m.Reaches start id := by
  simp only [Owns, hmarks.places_sweep hm, exists_and_right]

/-- An object that a sweep leaves with the heap is left as it was. -/
theorem getElem?_sweep_of_reaches {start : ObjectId → Prop}
    (hmarks : m.Traced start marks) {id : ObjectId} (hid : m.Reaches start id) :
    (m.sweep marks).objects[id]? = m.objects[id]? := by
  rw [getElem?_sweep, if_neg]
  rw [mem_occupants_condemned]
  rintro ⟨slot, hocc, hmark⟩
  exact hmark ((hmarks.mark slot).2 ⟨id, hocc, hid⟩)

/-- An object that the heap does not own is not touched by a sweep. -/
theorem getElem?_sweep_of_not_owns (hm : m.WellFormed) (marks : Array Bool) {id : ObjectId}
    (hid : ¬ m.Owns id) : (m.sweep marks).objects[id]? = m.objects[id]? := by
  rw [getElem?_sweep, if_neg]
  rw [mem_occupants_condemned]
  rintro ⟨slot, hocc, _⟩
  exact hid (hm.owns_of_occupant hocc)

theorem Traced.kept (hm : m.WellFormed) {holdings : Holdings}
    (hmarks : m.Traced (m.Anchored holdings) marks) : Kept holdings m (m.sweep marks) where
  wellFormed := hm.sweep marks
  same := ⟨rfl, rfl, rfl, rfl⟩
  chunks := rfl
  size := size_sweep m marks
  payload := payload?_sweep m marks
  object _ hid := getElem?_sweep_of_reaches hmarks hid
  unplaced _ hid := placement?_sweep_eq_none hid

/-- A collection succeeds where everything reachable is owned. -/
theorem collect_traced (hm : m.WellFormed)
    (hown : ∀ id, m.Reachable (.of held) id → m.Owns id) :
    ∃ marks, m.Traced (m.Anchored (.of held)) marks ∧
      collect (.of held) m = .ok () (m.sweep marks) := by
  have hanchors : (· ∈ m.anchors held) = m.Anchored (.of held) :=
    funext fun _ => propext mem_anchors
  have hvisits : ∀ id, m.Reaches (· ∈ m.anchors held) id → m.Owns id := hanchors ▸ hown
  obtain ⟨marks, htrace, hmarks⟩ := traceFrom_traced hm hvisits
  exact ⟨marks, hanchors ▸ hmarks, by rw [collect, markPhase_of, htrace]⟩

/-- After a collection the live count is the number of reachable objects. -/
theorem Traced.live (hm : m.WellFormed)
    (hown : ∀ id, m.Reachable (.of held) id → m.Owns id)
    (hmarks : m.Traced (m.Anchored (.of held)) marks) :
    (m.sweep marks).heap.live = {id | m.Reachable (.of held) id}.ncard := by
  rw [← (hm.sweep marks).ncard_owns]
  congr 1
  ext id
  exact (hmarks.owns_sweep hm id).trans ⟨fun h => h.2, fun h => ⟨hown id h, h⟩⟩

/-! ### Allocations -/

end

/-- A new object that no heap has placed. -/
def add (m : Memory) (payload : Payload) : Memory :=
  { m with objects := m.objects.push ⟨payload, none⟩ }

theorem placement?_add (m : Memory) (payload : Payload) (id : ObjectId) :
    (m.add payload).placement? id = m.placement? id := by
  rw [placement?, placement?, add, Array.getElem?_push]
  split
  · next heq =>
    rw [heq, Array.getElem?_eq_none (Nat.le_refl _)]
    rfl
  · rfl

theorem placement?_add_size (m : Memory) (payload : Payload) :
    (m.add payload).placement? m.objects.size = none := by
  rw [placement?_add, placement?, Array.getElem?_eq_none (Nat.le_refl _)]
  rfl

theorem WellFormed.add {m : Memory} (hm : m.WellFormed) (payload : Payload) :
    (m.add payload).WellFormed :=
  hm.of_placements rfl fun id p _ => by rw [placement?_add]

theorem place_eq {holdings : Holdings} {m : Memory} {id : ObjectId}
    (hid : m.placement? id = none) :
    place holdings id m = match makeRoom holdings m with
      | .ok _ n => .ok () (n.occupy id)
      | .error e n => .error e n := by
  have hnone : ∀ o, m.objects[id]? = some o → o.placement = none := by
    intro o ho
    rw [placement?, ho] at hid
    exact hid
  rw [place]
  simp only [bind_apply, get_apply]
  cases ho : m.objects[id]? with
  | none =>
    simp only [bind_apply, modify_apply]
    cases makeRoom holdings m <;> rfl
  | some o =>
    obtain ⟨payload, placement⟩ := o
    have hplacement : placement = none := hnone _ ho
    subst hplacement
    simp only [bind_apply, modify_apply]
    cases makeRoom holdings m <;> rfl

theorem alloc_eq (holdings : Holdings) (payload : Payload) (m : Memory) :
    alloc holdings payload m = match place holdings m.objects.size (m.add payload) with
      | .ok _ n => .ok m.objects.size n
      | .error e n => .error e n := by
  rw [alloc, bind_apply, modifyGet_apply]
  simp only [bind_apply, pure_apply, add]
  cases place holdings m.objects.size { m with objects := m.objects.push ⟨payload, none⟩ } <;> rfl

section

variable {m : Memory} {held : RootId → List ObjectId}

/-- The number of reachable objects alone reaches the object limit. -/
def Exhausts (m : Memory) (holdings : Holdings) : Prop :=
  m.heap.config.isFull {id | m.Reachable holdings id}.ncard = true

theorem isFull_mono {c : Config} {n k : Nat} (hn : c.isFull n = true) (hle : n ≤ k) :
    c.isFull k = true := by
  simp only [Config.isFull, Bool.and_eq_true, decide_eq_true_eq] at hn ⊢
  exact ⟨hn.1, hn.2.trans (Int.ofNat_le.2 hle)⟩

/-- Making room collects or does not, and fails exactly when the reachable objects
reach the limit. -/
theorem makeRoom_cases (hm : m.WellFormed)
    (hown : ∀ id, m.Reachable (.of held) id → m.Owns id) :
    ∃ n, Kept (.of held) m n ∧
      ((¬ m.Exhausts (.of held) ∧ makeRoom (.of held) m = .ok () n) ∨
        (m.Exhausts (.of held) ∧ makeRoom (.of held) m = .error (.exhausted
          {id | m.Reachable (.of held) id}.ncard m.heap.config.maxObjects) n)) := by
  rw [makeRoom_eq]
  split
  · obtain ⟨marks, hmarks, hcollect⟩ := collect_traced hm hown
    refine ⟨m.sweep marks, hmarks.kept hm, ?_⟩
    have hconfig : (m.sweep marks).heap.config = m.heap.config := rfl
    rw [hcollect]
    simp only [checkRoom, hmarks.live hm hown, hconfig, Exhausts]
    by_cases hfull : m.heap.config.isFull {id | m.Reachable (.of held) id}.ncard
    · exact Or.inr ⟨hfull, by rw [if_pos hfull]⟩
    · exact Or.inl ⟨hfull, by rw [if_neg hfull]⟩
  · next hroom =>
    refine ⟨m, .refl hm, Or.inl ⟨fun hfull => hroom (Or.inr ?_), rfl⟩⟩
    refine isFull_mono hfull ?_
    rw [← hm.ncard_owns]
    exact Set.ncard_le_ncard hown m.finite_owns

theorem getElem?_add_of_lt (payload : Payload) {id : ObjectId} (hid : id < m.objects.size) :
    (m.add payload).objects[id]? = m.objects[id]? := by
  rw [add, Array.getElem?_push, if_neg (Nat.ne_of_lt hid)]

theorem payload?_add (m : Memory) (payload : Payload) (id : ObjectId) :
    (m.add payload).payload? id =
      if id = m.objects.size then some payload else m.payload? id := by
  rw [Memory.payload?, add, Array.getElem?_push, Memory.payload?]
  split <;> rfl

theorem payload?_occupy (m : Memory) (id i : ObjectId) :
    (m.occupy id).payload? i = m.payload? i := by
  rw [Memory.payload?, Memory.payload?, occupy_eq, Array.getElem?_modify]
  split
  · rw [Option.map_map]
    rfl
  · rfl

/-- A new object is not reached from the roots. -/
theorem reachable_add (payload : Payload) {holdings : Holdings}
    (hlt : ∀ id, m.Reachable holdings id → id < m.objects.size) :
    (m.add payload).Reachable holdings = m.Reachable holdings := by
  have hrefs : ∀ id, m.Reachable holdings id →
      (m.add payload).references id = m.references id := by
    intro id hid
    rw [references, references, getElem?_add_of_lt payload (hlt id hid)]
    rfl
  funext id
  refine propext ⟨fun hid => hid.subset (fun i hi => .start hi) fun i hi other hother => ?_,
    fun hid => ?_⟩
  · exact hi.reference (hrefs i hi ▸ hother)
  · induction hid with
    | start h => exact .start h
    | reference hi hother ih => exact ih.reference ((hrefs _ hi).symm ▸ hother)

/-- What an attempt to allocate leaves of a memory, whether or not it succeeds. -/
structure Grown (holdings : Holdings) (payload : Payload) (m n : Memory) : Prop where
  wellFormed : n.WellFormed
  same : SameRoots m.heap n.heap
  chunks : n.chunks = m.chunks
  size : n.objects.size = m.objects.size + 1
  payload : ∀ id, n.payload? id = if id = m.objects.size then some payload else m.payload? id
  object : ∀ id, m.Reachable holdings id → n.objects[id]? = m.objects[id]?

theorem Kept.grown {payload : Payload} {holdings : Holdings} {n : Memory}
    (hlt : ∀ id, m.Reachable holdings id → id < m.objects.size)
    (h : Kept holdings (m.add payload) n) : Grown holdings payload m n where
  wellFormed := h.wellFormed
  same := h.same
  chunks := h.chunks
  size := by rw [h.size, add, Array.size_push]
  payload id := by rw [h.payload, payload?_add]
  object id hid := by
    rw [h.object id (reachable_add payload hlt ▸ hid), getElem?_add_of_lt payload (hlt id hid)]

theorem takeSlot_same (h : Heap) (id : ObjectId) : SameRoots h (takeSlot h id).1 := by
  unfold takeSlot
  split <;> exact ⟨rfl, rfl, rfl, rfl⟩

/-- The new object occupies a slot when the room has been made. -/
theorem Grown.occupy {payload : Payload} {holdings : Holdings} {n : Memory}
    (hlt : ∀ id, m.Reachable holdings id → id < m.objects.size)
    (h : Grown holdings payload m n) (hunplaced : n.placement? m.objects.size = none) :
    Grown holdings payload m (n.occupy m.objects.size) ∧
      (n.occupy m.objects.size).Owns m.objects.size := by
  have hid : m.objects.size < n.objects.size := by rw [h.size]; exact Nat.lt_succ_self _
  have hsame := takeSlot_same n.heap m.objects.size
  refine ⟨⟨h.wellFormed.occupy hid (not_owns_of_unplaced hunplaced), ?_, h.chunks, ?_, ?_, ?_⟩,
    _, places_occupy h.wellFormed hid⟩
  · exact ⟨hsame.id.trans h.same.id, hsame.config.trans h.same.config,
      hsame.roots.trans h.same.roots, hsame.pins.trans h.same.pins⟩
  · rw [occupy_eq, Array.size_modify, h.size]
  · intro id
    rw [payload?_occupy, h.payload]
  · intro id hreach
    rw [occupy_eq, Array.getElem?_modify, if_neg (Nat.ne_of_gt (hlt id hreach)),
      h.object id hreach]

/-- An allocation fails exactly when the reachable objects reach the limit; otherwise
the new object is owned, and in both cases everything reachable is as it was. -/
theorem alloc_cases (hm : m.WellFormed)
    (hown : ∀ id, m.Reachable (.of held) id → m.Owns id) (payload : Payload) :
    ∃ n, Grown (.of held) payload m n ∧
      ((¬ m.Exhausts (.of held) ∧ n.Owns m.objects.size ∧
          alloc (.of held) payload m = .ok m.objects.size n) ∨
        (m.Exhausts (.of held) ∧ alloc (.of held) payload m = .error (.exhausted
          {id | m.Reachable (.of held) id}.ncard m.heap.config.maxObjects) n)) := by
  have hlt : ∀ id, m.Reachable (.of held) id → id < m.objects.size :=
    fun id hid => (hown id hid).lt_size
  have hreach := reachable_add payload hlt
  have hownAdd : ∀ id, (m.add payload).Reachable (.of held) id → (m.add payload).Owns id := by
    intro id hid
    obtain ⟨p, hp⟩ := hown id (hreach ▸ hid)
    exact ⟨p, (placement?_add m payload id).trans hp.found, hp.heap, hp.unswept⟩
  -- The new object has no slot yet, and nothing that is reachable refers to it.
  have hunplaced := placement?_add_size m payload
  have hexhausts : (m.add payload).Exhausts (.of held) = m.Exhausts (.of held) := by
    rw [Exhausts, hreach]
    rfl
  obtain ⟨n, hkept, hroom⟩ := makeRoom_cases (hm.add payload) hownAdd
  rw [hexhausts, hreach] at hroom
  have hgrown := hkept.grown hlt
  rw [alloc_eq, place_eq hunplaced]
  rcases hroom with ⟨hfits, hroom⟩ | ⟨hfull, hroom⟩
  · obtain ⟨hoccupied, howns⟩ := hgrown.occupy hlt (hkept.unplaced _ hunplaced)
    exact ⟨n.occupy m.objects.size, hoccupied, Or.inl ⟨hfits, howns, by rw [hroom]⟩⟩
  · exact ⟨n, hgrown, Or.inr ⟨hfull, by rw [hroom]; rfl⟩⟩

end

end StackVm.Memory
