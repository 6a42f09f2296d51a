/-
The accounts of a heap.  A run counts the allocations that succeed in it.  After every run
the columns of the slot table agree with each other and with the objects, what was allocated
is live or freed, and the threshold and the live count keep to the policy.
-/
import StackVm.Proofs.HeapRun

namespace StackVm.Memory

/-- A new heap with a policy, in a memory none of whose objects it has placed. -/
structure Fresh (config : Config) (m : Memory) : Prop where
  heap : m.heap = Heap.create m.heap.id config
  unplaced : ∀ id p, m.placement? id = some p → p.heap ≠ m.heap.id

/-- Objects and chunks have been made and rewritten, and pins and root sources may have
changed; objects stay of their kind, and those that the heap has placed stay where they are. -/
structure Rewrites (m n : Memory) : Prop where
  heap : ∃ roots pins, n.heap = { m.heap with roots, pins }
  placement : ∀ id p, p.heap = m.heap.id →
    (n.placement? id = some p ↔ m.placement? id = some p)
  kind : ∀ (id : ObjectId) (o : Object), m.objects[id]? = some o →
    ∃ o', n.objects[id]? = some o' ∧ o'.kind = o.kind

/-- A run from the memory `l`, with the number of allocations that have succeeded in it.
It goes on after an exhausted heap, but not after any other fault. -/
inductive Runs (l : Memory) : Nat → Memory → Prop
  | start : Runs l 0 l
  /-- The program rewrites objects and chunks, which the heap takes no part in. -/
  | edit {count : Nat} {m n : Memory} : Runs l count m → n.heap = m.heap → Rewrites m n →
      Runs l count n
  | alloc {count : Nat} {m n : Memory} (holdings : Holdings) (payload : Payload) {id : ObjectId} :
      Runs l count m → Memory.alloc holdings payload m = .ok id n → Runs l (count + 1) n
  | allocExhausted {count live : Nat} {max : Int64} {m n : Memory} (holdings : Holdings)
      (payload : Payload) : Runs l count m →
      Memory.alloc holdings payload m = .error (.exhausted live max) n → Runs l count n
  | place {count : Nat} {m n : Memory} (holdings : Holdings) (id : ObjectId) :
      Runs l count m → id < m.objects.size → Memory.place holdings id m = .ok () n →
      Runs l (count + 1) n
  | placeExhausted {count live : Nat} {max : Int64} {m n : Memory} (holdings : Holdings)
      (id : ObjectId) : Runs l count m → id < m.objects.size →
      Memory.place holdings id m = .error (.exhausted live max) n → Runs l count n
  | collect {count : Nat} {m n : Memory} (holdings : Holdings) : Runs l count m →
      Memory.collect holdings m = .ok () n → Runs l count n
  | pin {count : Nat} {m n : Memory} (id : ObjectId) : Runs l count m →
      Memory.pin id m = .ok () n → Runs l count n
  | unpin {count : Nat} {m : Memory} (id : ObjectId) : Runs l count m →
      Runs l count (m.unpin id)
  | addRoot {count : Nat} {m : Memory} (name : Text) : Runs l count m →
      Runs l count { m with heap := { m.heap with roots := (m.heap.roots.add name).1 } }
  | removeRoot {count : Nat} {m : Memory} (id : RootId) : Runs l count m →
      Runs l count { m with heap := { m.heap with roots := m.heap.roots.remove id } }

/-- What runs consist of: rewriting, sweeps with whatever marks, and slots taken below the
object limit. -/
inductive Changes (l : Memory) : Nat → Memory → Prop
  | none : Changes l 0 l
  | rewrite {count : Nat} {m n : Memory} : Changes l count m → Rewrites m n → Changes l count n
  | sweep {count : Nat} {m : Memory} (marks : Array Bool) : Changes l count m →
      Changes l count (m.sweep marks)
  | occupy {count : Nat} {m : Memory} {id : ObjectId} : Changes l count m →
      id < m.objects.size → m.placement? id = Option.none →
      m.heap.config.isFull m.heap.live = false → Changes l (count + 1) (m.occupy id)

variable {l m n : Memory} {count more : Nat} {config : Config}

/-- Pins and root sources change alone. -/
theorem rewrites_anchors (m : Memory) (roots : RootSet) (pins : List (ObjectId × Nat)) :
    Rewrites m { m with heap := { m.heap with roots, pins } } where
  heap := ⟨roots, pins, rfl⟩
  placement _ _ _ := Iff.rfl
  kind _ o ho := ⟨o, ho, rfl⟩

/-- A new object is no more than rewriting until it is placed. -/
theorem rewrites_add (m : Memory) (payload : Payload) : Rewrites m (m.add payload) where
  heap := ⟨m.heap.roots, m.heap.pins, rfl⟩
  placement id p _ := by rw [placement?_add]
  kind id o ho := by
    have hlt := (Array.getElem?_eq_some_iff.1 ho).1
    exact ⟨o, (getElem?_add_of_lt payload hlt).trans ho, rfl⟩

/-- Room has been made without filling the heap, by a sweep or as it was. -/
theorem makeRoom_ok {holdings : Holdings} {u : Unit} (h : makeRoom holdings m = .ok u n) :
    (n = m ∨ ∃ marks, n = m.sweep marks) ∧ n.heap.config.isFull n.heap.live = false := by
  refine ⟨makeRoom_state (Or.inl ⟨u, h⟩), ?_⟩
  rw [makeRoom_eq] at h
  split at h
  · split at h
    · next k _ =>
      rw [checkRoom] at h
      split at h
      · cases h
      · next hfits =>
        cases h
        exact Bool.eq_false_iff.2 hfits
    · cases h
  · next hfits =>
    cases h
    exact Bool.eq_false_iff.2 fun hfull => hfits (Or.inr hfull)

/-- A sweep that may not have been needed. -/
theorem Changes.maybe_sweep (h : Changes l count m) (hn : n = m ∨ ∃ marks, n = m.sweep marks) :
    Changes l count n := by
  rcases hn with rfl | ⟨marks, rfl⟩
  · exact h
  · exact h.sweep marks

/-- A placement that succeeds is a sweep at most and a slot taken below the limit. -/
theorem Changes.place (h : Changes l count m) {holdings : Holdings} {id : ObjectId}
    (hid : id < m.objects.size) (hplace : Memory.place holdings id m = .ok () n) :
    Changes l (count + 1) n := by
  have hunplaced := (place_state (Or.inl ⟨(), hplace⟩)).1
  rw [place_eq hunplaced] at hplace
  split at hplace
  · next k hroom =>
    cases hplace
    obtain ⟨hk, hfits⟩ := makeRoom_ok hroom
    have hchanges := h.maybe_sweep hk
    rcases hk with rfl | ⟨marks, rfl⟩
    · exact hchanges.occupy hid hunplaced hfits
    · exact hchanges.occupy ((size_sweep m marks).symm ▸ hid)
        (placement?_sweep_eq_none hunplaced) hfits
  · cases hplace

/-- A placement that finds the heap exhausted is a sweep at most. -/
theorem Changes.placeExhausted (h : Changes l count m) {holdings : Holdings} {id : ObjectId}
    {live : Nat} {max : Int64}
    (hplace : Memory.place holdings id m = .error (.exhausted live max) n) :
    Changes l count n := by
  have hunplaced := (place_state (Or.inr ⟨live, max, hplace⟩)).1
  rw [place_eq hunplaced] at hplace
  split at hplace
  · cases hplace
  · next hroom =>
    cases hplace
    exact h.maybe_sweep (makeRoom_state (Or.inr ⟨live, max, hroom⟩))

/-- An allocation is the placement of a new object. -/
theorem place_of_alloc_ok {holdings : Holdings} {payload : Payload} {id : ObjectId}
    (h : Memory.alloc holdings payload m = .ok id n) :
    Memory.place holdings m.objects.size (m.add payload) = .ok () n := by
  rw [alloc_eq] at h
  split at h
  · next hplace =>
    cases h
    exact hplace
  · cases h

theorem place_of_alloc_error {holdings : Holdings} {payload : Payload} {e : Fault}
    (h : Memory.alloc holdings payload m = .error e n) :
    Memory.place holdings m.objects.size (m.add payload) = .error e n := by
  rw [alloc_eq] at h
  split at h
  · cases h
  · next hplace =>
    cases h
    exact hplace

/-- Every run consists of such changes. -/
theorem Runs.changes (h : Runs l count m) : Changes l count m := by
  induction h with
  | start => exact .none
  | edit _ _ hrewrites ih => exact ih.rewrite hrewrites
  | alloc holdings payload _ halloc ih =>
    refine (ih.rewrite (rewrites_add _ payload)).place ?_ (place_of_alloc_ok halloc)
    simp [add]
  | allocExhausted holdings payload _ halloc ih =>
    exact (ih.rewrite (rewrites_add _ payload)).placeExhausted (place_of_alloc_error halloc)
  | place holdings id _ hid hplace ih => exact ih.place hid hplace
  | placeExhausted holdings id _ _ hplace ih => exact ih.placeExhausted hplace
  | collect holdings _ hcollect ih => exact ih.maybe_sweep (Or.inr (collect_state hcollect))
  | pin id _ hpin ih =>
    rw [pin_state hpin]
    exact ih.rewrite (rewrites_anchors _ _ _)
  | unpin id _ ih => exact ih.rewrite (rewrites_anchors _ _ _)
  | addRoot name _ ih => exact ih.rewrite (rewrites_anchors _ _ _)
  | removeRoot id _ ih => exact ih.rewrite (rewrites_anchors _ _ _)

/-! ### Accounts -/

/-- What every change keeps: the slot table agrees with the objects, each allocated object
is live or freed, the policy is kept, and there are no more slots than it takes. -/
structure Accounts (config : Config) (m : Memory) (count : Nat) : Prop where
  wellFormed : m.WellFormed
  configured : m.heap.config = config.normalized
  balance : count = m.heap.live + m.heap.freed
  threshold : config.normalized.initialThreshold ≤ m.heap.threshold
  limit : 0 < config.maxObjects → (m.heap.live : Int) ≤ config.maxObjects.toInt
  slots : m.heap.slots.size ≤ count
  slotsLimit : 0 < config.maxObjects → (m.heap.slots.size : Int) ≤ config.maxObjects.toInt

theorem Fresh.accounts (h : Fresh config m) : Accounts config m 0 := by
  obtain ⟨heap, objects, chunks⟩ := m
  obtain ⟨hheap, hunplaced⟩ := h
  simp only at hheap
  have hforeign : ∀ o ∈ objects, ∀ p, o.placement = some p → p.heap ≠ heap.id := by
    intro o ho p hp
    obtain ⟨id, hid⟩ := Array.mem_iff_getElem?.1 ho
    exact hunplaced id p (Option.bind_eq_some_iff.2 ⟨o, hid, hp⟩)
  have hlimit : 0 < config.maxObjects → (0 : Int) ≤ config.maxObjects.toInt := fun hpos =>
    Int.le_of_lt (Int64.lt_iff_toInt_lt.1 hpos)
  constructor
  case wellFormed => exact hheap ▸ create_wellFormed heap.id config chunks hforeign
  all_goals rw [hheap]
  case configured => rfl
  case balance => rfl
  case threshold => exact Int64.le_refl _
  case limit => exact hlimit
  case slots => exact Nat.le_refl _
  case slotsLimit => exact hlimit

theorem Accounts.rewrite (h : Accounts config m count) (hn : Rewrites m n) :
    Accounts config n count := by
  obtain ⟨roots, pins, hheap⟩ := hn.heap
  have hwf := (h.wellFormed.with_anchors roots pins).of_placements (n := n) hheap hn.placement
  constructor
  case wellFormed => exact hwf
  all_goals rw [hheap]
  case configured => exact h.configured
  case balance => exact h.balance
  case threshold => exact h.threshold
  case limit => exact h.limit
  case slots => exact h.slots
  case slotsLimit => exact h.slotsLimit

/-- No threshold is below the first one. -/
theorem le_nextThreshold (c : Config) (live : Nat) : c.initialThreshold ≤ c.nextThreshold live := by
  simp only [Config.nextThreshold]
  split
  · exact Int64.le_refl _
  · split
    · next h => exact Int64.le_of_lt h
    · exact Int64.le_refl _

/-- A sweep leaves as many objects live as were before at most. -/
theorem survivorCount_le (h : Heap) (marks : Array Bool) :
    survivorCount h marks ≤ h.occupiedCount :=
  List.countP_mono_left fun _ _ hslot => (Bool.and_eq_true_iff.1 hslot).1

theorem Accounts.sweep (h : Accounts config m count) (marks : Array Bool) :
    Accounts config (m.sweep marks) count := by
  have hle : survivorCount m.heap marks ≤ m.heap.live :=
    h.wellFormed.tidy.live ▸ survivorCount_le m.heap marks
  have hlive : (m.sweep marks).heap.live = survivorCount m.heap marks := rfl
  have hfreed : (m.sweep marks).heap.freed =
      m.heap.freed + (m.heap.live - survivorCount m.heap marks) := rfl
  have hslots : (m.sweep marks).heap.slots.size = m.heap.slots.size := size_emptySlots ..
  refine ⟨h.wellFormed.sweep marks, h.configured, ?_, ?_, fun hpos => ?_, ?_, ?_⟩
  · rw [hlive, hfreed, h.balance]
    omega
  · rw [← h.configured]
    exact le_nextThreshold _ _
  · rw [hlive]
    exact (Int.ofNat_le.2 hle).trans (h.limit hpos)
  · rw [hslots]
    exact h.slots
  · rw [hslots]
    exact h.slotsLimit

/-- What taking a slot leaves alone, and how it counts. -/
theorem takeSlot_counts (h : Heap) (id : ObjectId) :
    (takeSlot h id).1.live = h.live + 1 ∧ (takeSlot h id).1.freed = h.freed ∧
      (takeSlot h id).1.threshold = h.threshold := by
  unfold takeSlot
  split <;> exact ⟨rfl, rfl, rfl⟩

theorem Accounts.occupy (h : Accounts config m count) {id : ObjectId} (hid : id < m.objects.size)
    (hunplaced : m.placement? id = none) (hfits : m.heap.config.isFull m.heap.live = false) :
    Accounts config (m.occupy id) (count + 1) := by
  obtain ⟨hlive, hfreed, hthreshold⟩ := takeSlot_counts m.heap id
  have hsize : (m.occupy id).heap.slots.size = m.heap.slots.size ∨
      (m.occupy id).heap.slots.size = m.heap.live + 1 := size_takeSlot h.wellFormed.tidy id
  have hbalance := h.balance
  have hroom : 0 < config.maxObjects → (m.heap.live : Int) < config.maxObjects.toInt := by
    intro hpos
    have hmax : m.heap.config.maxObjects = config.maxObjects := by rw [h.configured]; rfl
    simpa [Config.isFull, hmax, hpos] using hfits
  refine ⟨h.wellFormed.occupy hid (not_owns_of_unplaced hunplaced), ?_, ?_, ?_, ?_, ?_, ?_⟩
  · exact (takeSlot_same m.heap id).config.trans h.configured
  · rw [occupy_eq, hlive, hfreed]
    omega
  · rw [occupy_eq, hthreshold]
    exact h.threshold
  · intro hpos
    have hlt := hroom hpos
    rw [occupy_eq, hlive]
    omega
  · have hslots := h.slots
    omega
  · intro hpos
    have hlt := hroom hpos
    have hslots := h.slotsLimit hpos
    omega

theorem Changes.accounts (hl : Accounts config l more) (h : Changes l count m) :
    Accounts config m (more + count) := by
  induction h with
  | none => exact hl
  | rewrite _ hn ih => exact ih.rewrite hn
  | sweep marks _ ih => exact ih.sweep marks
  | occupy _ hid hunplaced hfits ih => exact ih.occupy hid hunplaced hfits

/-- How a heap represents what it holds, after a number of successful allocations. -/
structure Represents (config : Config) (m : Memory) (count : Nat) : Prop where
  free_nodup : m.heap.free.toList.Nodup
  /-- The free slots are exactly the empty ones. -/
  free : ∀ slot : Nat, slot ∈ m.heap.free ↔ m.heap.slots[slot]? = some none
  generations : m.heap.generations.size = m.heap.slots.size
  marks : m.heap.marks.size = m.heap.slots.size
  unmarked : ∀ mark ∈ m.heap.marks, mark = false
  /-- The object in a slot carries the heap, the slot and its generation. -/
  header : ∀ (slot : Nat) (id : ObjectId), m.heap.slots[slot]? = some (some id) →
    ∃ o generation, m.heap.generations[slot]? = some generation ∧ m.objects[id]? = some o ∧
      o.placement = some ⟨m.heap.id, slot, generation, false⟩
  /-- No object is in two slots. -/
  once : ∀ (slot other : Nat) (id : ObjectId), m.heap.slots[slot]? = some (some id) →
    m.heap.slots[other]? = some (some id) → slot = other
  live : m.heap.live = m.heap.slots.countP Option.isSome
  balance : count = m.heap.live + m.heap.freed
  threshold : config.normalized.initialThreshold ≤ m.heap.threshold
  limit : 0 < config.maxObjects → (m.heap.live : Int) ≤ config.maxObjects.toInt
  /-- There are no more slots than allocations and than objects at once. -/
  slots : m.heap.slots.size ≤ count
  slotsLimit : 0 < config.maxObjects → (m.heap.slots.size : Int) ≤ config.maxObjects.toInt
  /-- The number of a slot is a 32-bit word, which holds it exactly as long as there have been no
  more allocations, or are no more objects allowed, than there are words. -/
  words : count ≤ 2 ^ 32 ∨ 0 < config.maxObjects ∧ config.maxObjects.toInt ≤ 2 ^ 32 →
    ∀ slot < m.heap.slots.size, (UInt32.ofNat slot).toNat = slot

theorem occupant_eq_some {h : Heap} {slot : Nat} {id : ObjectId} :
    h.occupant slot = some id ↔ h.slots[slot]? = some (some id) := by
  rw [Heap.occupant]
  cases h.slots[slot]? <;> simp

/-- The count over slot numbers is the count over slots. -/
theorem occupiedCount_eq (h : Heap) : h.occupiedCount = h.slots.countP Option.isSome := by
  rw [Heap.occupiedCount, ← Array.countP_toList]
  have hlist : h.slots.toList = (List.range h.slots.size).map fun slot => h.occupant slot := by
    refine List.ext_getElem? fun i => ?_
    rw [Array.getElem?_toList, List.getElem?_map]
    by_cases hi : i < h.slots.size
    · simp [Heap.occupant, hi]
    · simp [hi]
  rw [hlist, List.countP_map]
  rfl

theorem Accounts.represents (h : Accounts config m count) : Represents config m count where
  free_nodup := h.wellFormed.tidy.free_nodup
  free slot := by
    rw [h.wellFormed.tidy.mem_free, Heap.occupant]
    by_cases hslot : slot < m.heap.slots.size <;> simp [hslot]
  generations := h.wellFormed.tidy.generations
  marks := by rw [h.wellFormed.tidy.marks, Array.size_replicate]
  unmarked mark hmark := by
    rw [h.wellFormed.tidy.marks] at hmark
    exact Array.eq_of_mem_replicate hmark
  header slot id hslot := by
    obtain ⟨⟨heap, place, generation, swept⟩, ⟨hfound, hheap, hunswept⟩, hplace, hgeneration⟩ :=
      h.wellFormed.occupied slot id (occupant_eq_some.2 hslot)
    obtain ⟨o, ho, hplacement⟩ := Option.bind_eq_some_iff.1 hfound
    cases hheap
    cases hplace
    cases hunswept
    exact ⟨o, generation, hgeneration, ho, hplacement⟩
  once slot other id hslot hother :=
    h.wellFormed.slot_unique (occupant_eq_some.2 hslot) (occupant_eq_some.2 hother)
  live := h.wellFormed.tidy.live.trans (occupiedCount_eq m.heap)
  balance := h.balance
  threshold := h.threshold
  limit := h.limit
  slots := h.slots
  slotsLimit := h.slotsLimit
  words hfew slot hslot := by
    refine UInt32.toNat_ofNat_of_lt' ?_
    rcases hfew with hcount | ⟨hpos, hmax⟩
    · exact hslot.trans_le (h.slots.trans hcount)
    · have hslots := h.slotsLimit hpos
      have hsize : UInt32.size = 2 ^ 32 := rfl
      omega

/-- After every run of a new heap its columns agree with each other and with the objects,
what was allocated is live or freed, and the policy is kept. -/
theorem runs_represents {config : Config} {l m : Memory} {count : Nat} (hl : Fresh config l)
    (hrun : Runs l count m) : Represents config m count := by
  have haccounts := hrun.changes.accounts hl.accounts
  rw [Nat.zero_add] at haccounts
  exact haccounts.represents

/-- A heap for one object that holds a string. -/
def limitSampleStart : Memory where
  heap := { Heap.create 0 { maxObjects := 1 } with
    slots := #[some 0]
    generations := #[1]
    marks := #[false]
    live := 1 }
  objects := #[⟨.string [], some ⟨0, 0, 1, false⟩⟩]

/-- The string was swept, the next one took its slot and is pinned, and a third one found the
heap exhausted. -/
def limitSample : Memory where
  heap := { limitSampleStart.heap with
    slots := #[some 1]
    generations := #[2]
    pins := [(1, 1)]
    collections := 2
    freed := 1 }
  objects := #[⟨.string [], some ⟨0, 0, 1, true⟩⟩, ⟨.string [], some ⟨0, 0, 2, false⟩⟩,
    ⟨.string [], none⟩]

/-- The sample before the allocation that finds the heap exhausted. -/
def limitSampleFull : Memory where
  heap := { limitSample.heap with collections := 1 }
  objects := limitSample.objects.pop

theorem limitSample_fresh :
    Fresh { maxObjects := 1 } ⟨Heap.create 0 { maxObjects := 1 }, #[], #[]⟩ :=
  ⟨rfl, fun id p hp => by simp [placement?] at hp⟩

theorem limitSampleStart_runs :
    Runs ⟨Heap.create 0 { maxObjects := 1 }, #[], #[]⟩ 1 limitSampleStart :=
  Runs.start.alloc (.of fun _ => []) (.string []) rfl

/-- The string is swept and its slot is taken again. -/
theorem limitSampleStart_alloc : alloc (.of fun _ => []) (.string []) limitSampleStart =
    .ok 1 { limitSampleFull with heap := { limitSampleFull.heap with pins := [] } } := by
  have hmarks : (limitSampleStart.add (.string [])).markPhase (.of fun _ => []) =
      .ok #[false] := by
    change (Marking.drain _ _ >>= _) = _
    rw [drain_nil]
    rfl
  rw [alloc_eq, place_eq rfl, makeRoom_eq, if_pos (by decide), collect, hmarks]
  rfl

/-- The pinned string is kept, so that there is no slot. -/
theorem limitSampleFull_alloc : alloc (.of fun _ => []) (.string []) limitSampleFull =
    .error (.exhausted 1 1) limitSample := by
  have hmarks : (limitSampleFull.add (.string [])).markPhase (.of fun _ => []) =
      .ok #[true] := by
    change (Marking.drain _ ⟨_, [1]⟩ >>= _) = _
    rw [drain_cons rfl, drain_nil]
    rfl
  rw [alloc_eq, place_eq rfl, makeRoom_eq, if_pos (by decide), collect, hmarks]
  rfl

theorem limitSample_runs (h : Runs l count limitSampleStart) :
    Runs l (count + 1) limitSample := by
  have hsecond := h.alloc (.of fun _ => []) (.string []) limitSampleStart_alloc
  have hpinned : Runs l (count + 1) limitSampleFull := hsecond.pin 1 rfl
  exact hpinned.allocExhausted (.of fun _ => []) (.string []) limitSampleFull_alloc

/-- Two allocations have succeeded in the run of the sample; one object is live and one is
freed. -/
theorem runs_represents_limitSample :
    Fresh { maxObjects := 1 } ⟨Heap.create 0 { maxObjects := 1 }, #[], #[]⟩ ∧
      Runs ⟨Heap.create 0 { maxObjects := 1 }, #[], #[]⟩ 2 limitSample ∧
      Represents { maxObjects := 1 } limitSample 2 :=
  have hrun := limitSample_runs limitSampleStart_runs
  ⟨limitSample_fresh, hrun, runs_represents limitSample_fresh hrun⟩

end StackVm.Memory
