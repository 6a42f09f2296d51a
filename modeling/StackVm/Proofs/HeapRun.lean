/-
Runs of a heap.  A run starts with an empty heap and goes on with allocations,
collections, pins and root sources in any order; between these the program may
rewrite objects and chunks as it likes, and other heaps may do the same.  The
memory is well formed after every run.
-/
import StackVm.Proofs.Allocation

namespace StackVm.Memory

/-- An operation has ended with this memory: it has succeeded or found the heap
exhausted. -/
def EndsWith {α : Type} (r : EStateM.Result Fault Memory α) (n : Memory) : Prop :=
  (∃ a, r = .ok a n) ∨ ∃ live max, r = .error (.exhausted live max) n

/-- One step of a run of the heap of a memory.  A fault other than exhaustion is the end
of the run. -/
inductive Step : Memory → Memory → Prop
  /-- Objects and chunks are made and rewritten, but what this heap has placed stays
  where it is. -/
  | edit {m n : Memory} : n.heap = m.heap →
      (∀ id p, p.heap = m.heap.id → (n.placement? id = some p ↔ m.placement? id = some p)) →
      Step m n
  | alloc {m n : Memory} (holdings : Holdings) (payload : Payload) :
      EndsWith (Memory.alloc holdings payload m) n → Step m n
  | place {m n : Memory} (holdings : Holdings) (id : ObjectId) : id < m.objects.size →
      EndsWith (Memory.place holdings id m) n → Step m n
  | collect {m n : Memory} (holdings : Holdings) :
      Memory.collect holdings m = .ok () n → Step m n
  | pin {m n : Memory} (id : ObjectId) : Memory.pin id m = .ok () n → Step m n
  | unpin {m : Memory} (id : ObjectId) : Step m (m.unpin id)
  | addRoot {m : Memory} (name : Text) :
      Step m { m with heap := { m.heap with roots := (m.heap.roots.add name).1 } }
  | removeRoot {m : Memory} (id : RootId) :
      Step m { m with heap := { m.heap with roots := m.heap.roots.remove id } }

/-- The memories that a run of a new heap can end with. -/
inductive Reached : Memory → Prop
  | create {objects : Array Object} (id : HeapId) (config : Config) (chunks : Array Chunk) :
      (∀ o ∈ objects, ∀ p, o.placement = some p → p.heap ≠ id) →
      Reached ⟨Heap.create id config, objects, chunks⟩
  | step {m n : Memory} : Reached m → Step m n → Reached n

theorem collect_state {holdings : Holdings} {m n : Memory}
    (h : collect holdings m = .ok () n) : ∃ marks, n = m.sweep marks := by
  rw [collect] at h
  split at h
  · next marks _ =>
    cases h
    exact ⟨marks, rfl⟩
  · cases h

/-- Making room leaves the memory as it is or collects. -/
theorem makeRoom_collects {holdings : Holdings} {m n : Memory}
    (h : EndsWith (makeRoom holdings m) n) : n = m ∨ collect holdings m = .ok () n := by
  rw [makeRoom_eq] at h
  split at h
  · cases hcollect : collect holdings m with
    | ok a k =>
      rw [hcollect] at h
      simp only [checkRoom] at h
      split at h <;> rcases h with ⟨_, h⟩ | ⟨_, _, h⟩ <;> cases h <;> exact Or.inr rfl
    | error e k =>
      rw [collect] at hcollect
      split at hcollect
      · cases hcollect
      · next hmark =>
        cases hcollect
        rw [collect, hmark] at h
        rcases h with ⟨_, h⟩ | ⟨_, _, h⟩ <;> cases h
        exact Or.inl rfl
  · rcases h with ⟨_, h⟩ | ⟨_, _, h⟩ <;> cases h
    exact Or.inl rfl

theorem makeRoom_state {holdings : Holdings} {m n : Memory}
    (h : EndsWith (makeRoom holdings m) n) : n = m ∨ ∃ marks, n = m.sweep marks :=
  (makeRoom_collects h).imp_right collect_state

/-- Placing an object makes room first, and then at most takes a slot for it. -/
theorem place_collects {holdings : Holdings} {m n : Memory} {id : ObjectId}
    (h : EndsWith (Memory.place holdings id m) n) :
    m.placement? id = none ∧
      ∃ k, (k = m ∨ collect holdings m = .ok () k) ∧ (n = k ∨ n = k.occupy id) := by
  cases hplacement : m.placement? id with
  | some p =>
    obtain ⟨o, ho, hp⟩ := Option.bind_eq_some_iff.1 hplacement
    obtain ⟨payload, placement⟩ := o
    have hp' : placement = some p := hp
    subst hp'
    rw [Memory.place] at h
    simp only [bind_apply, get_apply, ho, throw_apply] at h
    rcases h with ⟨_, h⟩ | ⟨_, _, h⟩ <;> cases h
  | none =>
    rw [place_eq hplacement] at h
    cases hroom : makeRoom holdings m with
    | error e k =>
      rw [hroom] at h
      rcases h with ⟨_, h⟩ | ⟨live, max, h⟩ <;> cases h
      exact ⟨rfl, _, makeRoom_collects (Or.inr ⟨live, max, hroom⟩), Or.inl rfl⟩
    | ok a k =>
      rw [hroom] at h
      rcases h with ⟨_, h⟩ | ⟨_, _, h⟩ <;> cases h
      exact ⟨rfl, _, makeRoom_collects (Or.inl ⟨a, hroom⟩), Or.inr rfl⟩

theorem place_state {holdings : Holdings} {m n : Memory} {id : ObjectId}
    (h : EndsWith (Memory.place holdings id m) n) :
    m.placement? id = none ∧
      ∃ k, (k = m ∨ ∃ marks, k = m.sweep marks) ∧ (n = k ∨ n = k.occupy id) := by
  obtain ⟨hplacement, k, hk, hn⟩ := place_collects h
  exact ⟨hplacement, k, hk.imp_right collect_state, hn⟩

/-- An allocation ends as the placement of its new object does. -/
theorem place_of_alloc {holdings : Holdings} {payload : Payload} {m n : Memory}
    (h : EndsWith (Memory.alloc holdings payload m) n) :
    EndsWith (Memory.place holdings m.objects.size (m.add payload)) n := by
  rw [alloc_eq] at h
  cases hplace : Memory.place holdings m.objects.size (m.add payload) with
  | ok a k =>
    rw [hplace] at h
    rcases h with ⟨_, h⟩ | ⟨_, _, h⟩ <;> cases h
    exact Or.inl ⟨a, rfl⟩
  | error e k =>
    rw [hplace] at h
    rcases h with ⟨_, h⟩ | ⟨live, max, h⟩ <;> cases h
    exact Or.inr ⟨live, max, rfl⟩

/-- An allocation leaves the memory well formed, whether or not it succeeds. -/
theorem WellFormed.place {holdings : Holdings} {m n : Memory} (hm : m.WellFormed)
    {id : ObjectId} (hid : id < m.objects.size)
    (h : EndsWith (Memory.place holdings id m) n) : n.WellFormed := by
  obtain ⟨hplacement, k, rfl | ⟨marks, rfl⟩, rfl | rfl⟩ := place_state h
  · exact hm
  · exact hm.occupy hid (not_owns_of_unplaced hplacement)
  · exact hm.sweep marks
  · exact (hm.sweep marks).occupy ((size_sweep m marks).symm ▸ hid)
      (not_owns_of_unplaced (placement?_sweep_eq_none hplacement))

/-- A pin that is taken changes nothing but the pins. -/
theorem pin_state {m n : Memory} {id : ObjectId} (h : Memory.pin id m = .ok () n) :
    n = { m with heap := { m.heap with pins := pin.addPin id m.heap.pins } } := by
  simp only [Memory.pin, bind_apply, get_apply] at h
  cases ho : m.objects[id]? with
  | none =>
    rw [ho] at h
    cases h
  | some o =>
    rw [ho] at h
    simp only [bind_apply, get_apply, branch_apply, modify_apply, throw_apply] at h
    split at h <;> cases h
    rfl

theorem Step.wellFormed {m n : Memory} (h : Step m n) (hm : m.WellFormed) : n.WellFormed := by
  cases h with
  | edit hheap hplacement => exact hm.of_placements hheap hplacement
  | alloc holdings payload h =>
    have hsize : m.objects.size < (m.add payload).objects.size := by simp [add]
    exact (hm.add payload).place hsize (place_of_alloc h)
  | place holdings id hid h => exact hm.place hid h
  | collect holdings h =>
    obtain ⟨marks, rfl⟩ := collect_state h
    exact hm.sweep marks
  | pin id h =>
    rw [pin_state h]
    exact hm.with_anchors m.heap.roots _
  | unpin id => exact hm.with_anchors m.heap.roots _
  | addRoot name => exact hm.with_anchors _ m.heap.pins
  | removeRoot id => exact hm.with_anchors _ m.heap.pins

/-- The memory is well formed after every run. -/
theorem Reached.wellFormed {m : Memory} (h : m.Reached) : m.WellFormed := by
  induction h with
  | create id config chunks hforeign => exact create_wellFormed id config chunks hforeign
  | step _ hstep ih => exact hstep.wellFormed ih

end StackVm.Memory
