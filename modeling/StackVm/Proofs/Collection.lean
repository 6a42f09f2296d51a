/-
What a collection does.  On every memory that a run can reach, with every
reachable object owned, a collection succeeds, keeps exactly the reachable
objects in place and frees the slots of all others; the order in which root
sources and pins are visited makes no difference.
-/
import StackVm.Proofs.HeapRun

namespace StackVm.Memory

/-- The memory `n` is the memory `m` after a collection that keeps the objects of
`kept`. -/
structure CollectedTo (m : Memory) (kept : ObjectId → Prop) (n : Memory) : Prop where
  owns : ∀ id, n.Owns id ↔ m.Owns id ∧ kept id
  /-- Survivors keep their placement and their content. -/
  survivor : ∀ id, kept id → n.objects[id]? = m.objects[id]?
  slot : ∀ id p, kept id → m.Places id p → n.heap.occupant p.slot = some id
  generations : n.heap.generations = m.heap.generations
  /-- An object that does not belong to the heap is not touched. -/
  foreign : ∀ id, ¬ m.Owns id → n.objects[id]? = m.objects[id]?
  chunks : n.chunks = m.chunks
  /-- The slots that become empty are appended to the free ones in ascending order. -/
  free : ∃ swept : List Nat, n.heap.free = m.heap.free ++ swept ∧ swept.Pairwise (· < ·) ∧
    ∀ slot, slot ∈ swept ↔ ∃ id, m.heap.occupant slot = some id ∧ ¬ kept id
  live : n.heap.live = {id | kept id}.ncard
  freed : n.heap.freed = m.heap.freed + {id | m.Owns id ∧ ¬ kept id}.ncard
  marks : ∀ mark ∈ n.heap.marks, mark = false

/-- The same memory with its root sources and its pins in another order. -/
def inOrder (m : Memory) (sources : List RootSource) (pins : List (ObjectId × Nat)) : Memory :=
  { m with heap := { m.heap with roots := { m.heap.roots with sources }, pins } }

theorem mem_condemned_iff {m : Memory} {start : ObjectId → Prop} {marks : Array Bool}
    (hmarks : m.Traced start marks) (slot : Nat) :
    slot ∈ condemned m.heap marks ↔
      ∃ id, m.heap.occupant slot = some id ∧ ¬ m.Reaches start id := by
  rw [mem_condemned, Ne, hmarks.mark]
  constructor
  · rintro ⟨hsome, hunmarked⟩
    obtain ⟨id, hocc⟩ := Option.isSome_iff_exists.1 hsome
    exact ⟨id, hocc, fun hid => hunmarked ⟨id, hocc, hid⟩⟩
  · rintro ⟨id, hocc, hid⟩
    refine ⟨by rw [hocc]; rfl, ?_⟩
    rintro ⟨other, hother, hreach⟩
    rw [hocc] at hother
    cases hother
    exact hid hreach

/-- A sweep after tracing the anchored objects is a collection of the rest. -/
theorem Traced.collectedTo {m : Memory} {held : RootId → List ObjectId} {marks : Array Bool}
    (hm : m.WellFormed) (hown : ∀ id, m.Reachable (.of held) id → m.Owns id)
    (hmarks : m.Traced (m.Anchored (.of held)) marks) :
    m.CollectedTo (m.Reachable (.of held)) (m.sweep marks) where
  owns := hmarks.owns_sweep hm
  survivor _ hid := getElem?_sweep_of_reaches hmarks hid
  slot id p hid hp :=
    (hm.sweep marks).placed id p ((hmarks.places_sweep hm id p).2 ⟨hp, hid⟩)
  generations := rfl
  foreign _ hid := getElem?_sweep_of_not_owns hm marks hid
  chunks := rfl
  free := ⟨condemned m.heap marks, rfl, condemned_sorted m.heap marks,
    mem_condemned_iff hmarks⟩
  live := hmarks.live hm hown
  freed := by
    have hsplit : {id | m.Owns id ∧ ¬ m.Reachable (.of held) id} =
        {id | m.Owns id} \ {id | m.Reachable (.of held) id} := rfl
    have hlive : survivorCount m.heap marks = {id | m.Reachable (.of held) id}.ncard :=
      hmarks.live hm hown
    have hsub : {id | m.Reachable (.of held) id} ⊆ {id | m.Owns id} := hown
    rw [hsplit, Set.ncard_sdiff hsub (m.finite_owns.subset hsub), hm.ncard_owns, ← hlive]
    rfl
  marks mark hmark := by
    have hclear : mark ∈ Array.replicate m.heap.slots.size false := hmark
    exact Array.eq_of_mem_replicate hclear

theorem anchored_inOrder {m : Memory} {sources : List RootSource}
    {pins : List (ObjectId × Nat)} (held : RootId → List ObjectId)
    (hsources : sources.Perm m.heap.roots.sources) (hpins : pins.Perm m.heap.pins) :
    (m.inOrder sources pins).Anchored (.of held) = m.Anchored (.of held) := by
  funext id
  have hholds : Hold.object id ∈ (m.inOrder sources pins).rootHolds (.of held) ↔
      Hold.object id ∈ m.rootHolds (.of held) :=
    (hsources.flatMap_right _).mem_iff
  have hpinned : id ∈ (m.inOrder sources pins).heap.pins.map (·.1) ↔
      id ∈ m.heap.pins.map (·.1) := (hpins.map _).mem_iff
  exact propext (or_congr hholds hpinned)

/-- Visiting root sources and pins in another order leaves the same memory. -/
theorem collect_inOrder {m : Memory} {held : RootId → List ObjectId} {marks : Array Bool}
    (hm : m.WellFormed) (hown : ∀ id, m.Reachable (.of held) id → m.Owns id)
    (hmarks : m.Traced (m.Anchored (.of held)) marks) {sources : List RootSource}
    {pins : List (ObjectId × Nat)} (hsources : sources.Perm m.heap.roots.sources)
    (hpins : pins.Perm m.heap.pins) :
    collect (.of held) (m.inOrder sources pins) =
      .ok () ((m.sweep marks).inOrder sources pins) := by
  have hwf : (m.inOrder sources pins).WellFormed := hm.with_anchors _ _
  have hreach : (m.inOrder sources pins).Reachable (.of held) = m.Reachable (.of held) := by
    rw [Reachable, anchored_inOrder held hsources hpins]
    exact reaches_congr (m := m) (n := m.inOrder sources pins) (fun _ => rfl) _
  have hown' : ∀ id, (m.inOrder sources pins).Reachable (.of held) id →
      (m.inOrder sources pins).Owns id := by
    intro id hid
    obtain ⟨p, hp⟩ := hown id (hreach ▸ hid)
    exact ⟨p, hp.found, hp.heap, hp.unswept⟩
  obtain ⟨others, hothers, hcollect⟩ := collect_traced hwf hown'
  have hsame : m.Traced (m.Anchored (.of held)) others := by
    refine ⟨hothers.size, fun slot => (hothers.mark slot).trans ?_⟩
    rw [show (m.inOrder sources pins).Reaches ((m.inOrder sources pins).Anchored (.of held)) =
      m.Reachable (.of held) from hreach]
    exact Iff.rfl
  rw [hcollect, hsame.unique hmarks]
  rfl

/-- A collection is exact: it ends well, an object is live afterwards if and only if
it was live and reachable before, and the order of the roots does not matter. -/
theorem collect_exact {m : Memory} (hm : m.Reached) (held : RootId → List ObjectId)
    (hown : ∀ id, m.Reachable (.of held) id → m.Owns id) :
    ∃ n, collect (.of held) m = .ok () n ∧ m.CollectedTo (m.Reachable (.of held)) n ∧
      ∀ sources pins, sources.Perm m.heap.roots.sources → pins.Perm m.heap.pins →
        collect (.of held) (m.inOrder sources pins) = .ok () (n.inOrder sources pins) := by
  have hwf := hm.wellFormed
  obtain ⟨marks, hmarks, hcollect⟩ := collect_traced hwf hown
  refine ⟨m.sweep marks, hcollect, hmarks.collectedTo hwf hown, fun sources pins hs hp => ?_⟩
  exact collect_inOrder hwf hown hmarks hs hp

/-- A heap with two arrays that hold each other and a string that nothing holds; one
of the arrays is pinned. -/
def cycleSample : Memory where
  heap := { Heap.create 0 .standard with
    slots := #[some 0, some 1, some 2]
    generations := #[1, 1, 1]
    marks := #[false, false, false]
    live := 3
    pins := [(0, 1)] }
  objects := #[⟨.array #[.object 1], some ⟨0, 0, 1, false⟩⟩,
    ⟨.array #[.object 0], some ⟨0, 1, 1, false⟩⟩, ⟨.string [], some ⟨0, 2, 1, false⟩⟩]

/-- The sample is what three allocations and a pin make of a new heap. -/
theorem cycleSample_reached : cycleSample.Reached :=
  have hnew : Reached ⟨Heap.create 0 .standard, #[], #[]⟩ := .create 0 .standard #[] (by simp)
  have hfirst := hnew.step (.alloc (.of fun _ => []) (.array #[.object 1]) (Or.inl ⟨_, rfl⟩))
  have hsecond := hfirst.step (.alloc (.of fun _ => []) (.array #[.object 0]) (Or.inl ⟨_, rfl⟩))
  have hthird := hsecond.step (.alloc (.of fun _ => []) (.string []) (Or.inl ⟨_, rfl⟩))
  hthird.step (.pin 0 rfl)

theorem cycleSample_owns (id : ObjectId) (hid : cycleSample.Reachable (.of fun _ => []) id) :
    cycleSample.Owns id := by
  have hstart : ∀ i, cycleSample.Anchored (.of fun _ => []) i → i = 0 ∨ i = 1 := by
    intro i hi
    exact Or.inl (by simpa [Anchored, rootHolds, cycleSample, Heap.create] using hi)
  have hclosed : ∀ i, i = 0 ∨ i = 1 → ∀ other ∈ cycleSample.references i,
      other = 0 ∨ other = 1 := by
    rintro i (rfl | rfl) other hother
    · exact Or.inr (List.mem_singleton.1 hother)
    · exact Or.inl (List.mem_singleton.1 hother)
  rcases hid.subset hstart hclosed with rfl | rfl
  · exact ⟨⟨0, 0, 1, false⟩, rfl, rfl, rfl⟩
  · exact ⟨⟨0, 1, 1, false⟩, rfl, rfl, rfl⟩

/-- The pinned cycle survives a collection of the sample. -/
theorem collect_exact_cycleSample :
    cycleSample.Reached ∧
      (∀ id, cycleSample.Reachable (.of fun _ => []) id → cycleSample.Owns id) ∧
      ∃ n, collect (.of fun _ => []) cycleSample = .ok () n ∧
        cycleSample.CollectedTo (cycleSample.Reachable (.of fun _ => [])) n := by
  obtain ⟨n, hcollect, hkept, _⟩ :=
    collect_exact cycleSample_reached (fun _ => []) cycleSample_owns
  exact ⟨cycleSample_reached, cycleSample_owns, n, hcollect, hkept⟩

end StackVm.Memory
