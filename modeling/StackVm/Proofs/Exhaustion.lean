/-
When a heap is exhausted.  Whatever the thresholds are and whatever garbage there is, an object is
refused exactly when the reachable objects alone reach the object limit; it is left as it was, on
the heap that one collection leaves.
-/
import StackVm.Proofs.Accounts

namespace StackVm.Memory

variable {m n : Memory} {held : RootId → List ObjectId} {id : ObjectId}

theorem collections_sweep (m : Memory) (marks : Array Bool) :
    (m.sweep marks).heap.collections = m.heap.collections + 1 := rfl

theorem collections_of_collect {holdings : Holdings} (h : collect holdings m = .ok () n) :
    n.heap.collections = m.heap.collections + 1 := by
  obtain ⟨marks, rfl⟩ := collect_state h
  exact collections_sweep m marks

theorem collections_occupy (m : Memory) (id : ObjectId) :
    (m.occupy id).heap.collections = m.heap.collections := by
  rw [occupy_eq, takeSlot]
  split <;> rfl

theorem exhausts_iff {holdings : Holdings} (hmax : 0 < m.heap.config.maxObjects) :
    m.Exhausts holdings ↔
      m.heap.config.maxObjects.toInt ≤ {i | m.Reachable holdings i}.ncard := by
  rw [Exhausts, Config.isFull, decide_eq_true hmax, Bool.true_and, decide_eq_true_iff]

/-- Reachable objects that reach the limit are found by one collection, and by no more. -/
theorem makeRoom_of_exhausts (hm : m.WellFormed)
    (hown : ∀ i, m.Reachable (.of held) i → m.Owns i) (hfull : m.Exhausts (.of held)) :
    ∃ n, collect (.of held) m = .ok () n ∧ makeRoom (.of held) m = .error
      (.exhausted {i | m.Reachable (.of held) i}.ncard m.heap.config.maxObjects) n := by
  have hlive : m.heap.config.isFull m.heap.live = true := by
    refine isFull_mono hfull ?_
    rw [← hm.ncard_owns]
    exact Set.ncard_le_ncard hown m.finite_owns
  obtain ⟨marks, hmarks, hcollect⟩ := collect_traced hm hown
  have hconfig : (m.sweep marks).heap.config = m.heap.config := rfl
  refine ⟨_, hcollect, ?_⟩
  rw [makeRoom_eq, if_pos (Or.inr hlive), hcollect]
  simp only [checkRoom, hmarks.live hm hown, hconfig]
  exact if_pos hfull

/-- Where the reachable objects leave room, it is made with one collection at most. -/
theorem makeRoom_of_not_exhausts (hm : m.WellFormed)
    (hown : ∀ i, m.Reachable (.of held) i → m.Owns i) (hroom : ¬ m.Exhausts (.of held)) :
    ∃ n, (n = m ∨ collect (.of held) m = .ok () n) ∧ makeRoom (.of held) m = .ok () n := by
  obtain ⟨n, -, ⟨-, hmake⟩ | ⟨hfull, -⟩⟩ := makeRoom_cases hm hown
  · exact ⟨n, makeRoom_collects (Or.inl ⟨(), hmake⟩), hmake⟩
  · exact absurd hfull hroom

/-- An object without a slot gets one where the reachable objects leave room. -/
theorem place_of_not_exhausts (hm : m.WellFormed)
    (hown : ∀ i, m.Reachable (.of held) i → m.Owns i) (hid : id < m.objects.size)
    (hunplaced : m.placement? id = none) (hroom : ¬ m.Exhausts (.of held)) :
    ∃ k, (k = m ∨ collect (.of held) m = .ok () k) ∧
      place (.of held) id m = .ok () (k.occupy id) ∧ (k.occupy id).Owns id := by
  obtain ⟨k, hk, hmake⟩ := makeRoom_of_not_exhausts hm hown hroom
  have hready : k.WellFormed ∧ id < k.objects.size := by
    rcases hk with rfl | hcollect
    · exact ⟨hm, hid⟩
    · obtain ⟨marks, rfl⟩ := collect_state hcollect
      exact ⟨hm.sweep marks, (size_sweep m marks).symm ▸ hid⟩
  refine ⟨k, hk, ?_, _, places_occupy hready.1 hready.2⟩
  rw [place_eq hunplaced, hmake]

/-- An object without a slot is refused where the reachable objects reach the limit. -/
theorem place_of_exhausts (hm : m.WellFormed)
    (hown : ∀ i, m.Reachable (.of held) i → m.Owns i) (hunplaced : m.placement? id = none)
    (hfull : m.Exhausts (.of held)) :
    ∃ n, collect (.of held) m = .ok () n ∧ n.placement? id = none ∧
      place (.of held) id m = .error
        (.exhausted {i | m.Reachable (.of held) i}.ncard m.heap.config.maxObjects) n := by
  obtain ⟨n, hcollect, hmake⟩ := makeRoom_of_exhausts hm hown hfull
  refine ⟨n, hcollect, ?_, ?_⟩
  · obtain ⟨marks, rfl⟩ := collect_state hcollect
    exact placement?_sweep_eq_none hunplaced
  · rw [place_eq hunplaced, hmake]

theorem Reached.run (hm : m.Reached) (h : Relation.ReflTransGen Step m n) : n.Reached := by
  induction h with
  | refl => exact hm
  | tail _ hstep ih => exact ih.step hstep

/-- Exhaustion is exact: a new object is refused if and only if the reachable objects alone reach
the limit.  One collection is run at most.  A refused object has no place, the heap is the one that
a collection leaves, and later the object is taken as soon as fewer objects are reachable. -/
theorem place_exhausted_iff (hm : m.Reached) (hmax : 0 < m.heap.config.maxObjects)
    (hown : ∀ i, m.Reachable (.of held) i → m.Owns i) (hid : id < m.objects.size)
    (hunplaced : m.placement? id = none) :
    ((∃ live max n, place (.of held) id m = .error (.exhausted live max) n) ↔
      m.heap.config.maxObjects.toInt ≤ {i | m.Reachable (.of held) i}.ncard) ∧
    (∀ n, place (.of held) id m = .ok () n → n.Owns id ∧
      (n = m.occupy id ∨ ∃ k, collect (.of held) m = .ok () k ∧ n = k.occupy id) ∧
      n.heap.collections ≤ m.heap.collections + 1) ∧
    ∀ e n, place (.of held) id m = .error e n →
      e = .exhausted {i | m.Reachable (.of held) i}.ncard m.heap.config.maxObjects ∧
      collect (.of held) m = .ok () n ∧ n.heap.collections = m.heap.collections + 1 ∧
      n.placement? id = none ∧
      ∀ k held', Relation.ReflTransGen Step n k →
        id < k.objects.size → k.placement? id = none →
        (∀ i, k.Reachable (.of held') i → k.Owns i) →
        {i | k.Reachable (.of held') i}.ncard < k.heap.config.maxObjects.toInt →
        ∃ o, place (.of held') id k = .ok () o ∧ o.Owns id := by
  have hwf := hm.wellFormed
  rw [← exhausts_iff hmax]
  by_cases hfull : m.Exhausts (.of held)
  · obtain ⟨n, hcollect, hleft, hplace⟩ := place_of_exhausts hwf hown hunplaced hfull
    rw [hplace]
    refine ⟨iff_of_true ⟨_, _, _, rfl⟩ hfull, ?_, ?_⟩
    · rintro _ ⟨⟩
    rintro _ _ ⟨⟩
    refine ⟨rfl, hcollect, collections_of_collect hcollect, hleft, ?_⟩
    intro k held' hrun hidk hunplacedk hownk hroom
    have hk : k.Reached := (hm.step (.collect _ hcollect)).run hrun
    have hnot : ¬ k.Exhausts (.of held') := by
      rw [Exhausts, Config.isFull, Bool.and_eq_true, not_and, decide_eq_true_iff,
        decide_eq_true_iff]
      exact fun _ => Int.not_le.2 hroom
    obtain ⟨o, -, hplaced, howns⟩ := place_of_not_exhausts hk.wellFormed hownk hidk hunplacedk hnot
    exact ⟨_, hplaced, howns⟩
  · obtain ⟨k, hk, hplace, howns⟩ := place_of_not_exhausts hwf hown hid hunplaced hfull
    rw [hplace]
    refine ⟨iff_of_false ?_ hfull, ?_, ?_⟩
    · rintro ⟨_, _, _, ⟨⟩⟩
    · rintro _ ⟨⟩
      rw [collections_occupy]
      rcases hk with rfl | hcollect
      · exact ⟨howns, Or.inl rfl, Nat.le_succ _⟩
      · exact ⟨howns, Or.inr ⟨k, hcollect, rfl⟩, Nat.le_of_eq (collections_of_collect hcollect)⟩
    · rintro _ _ ⟨⟩

/-- The full heap for one object, beside one more string that has no slot. -/
def limitSampleWaiting : Memory := limitSampleFull.add (.string [])

theorem limitSampleWaiting_reached : limitSampleWaiting.Reached :=
  have hnew : Reached ⟨Heap.create 0 { maxObjects := 1 }, #[], #[]⟩ := .create 0 _ #[] (by simp)
  have hfirst : limitSampleStart.Reached :=
    hnew.step (.alloc (.of fun _ => []) (.string []) (Or.inl ⟨_, rfl⟩))
  have hsecond := hfirst.step (.alloc (.of fun _ => []) (.string [])
    (Or.inl ⟨_, limitSampleStart_alloc⟩))
  have hpinned : limitSampleFull.Reached := hsecond.step (.pin 1 rfl)
  hpinned.step (.edit rfl fun i p _ => by rw [limitSampleWaiting, placement?_add])

/-- The pinned string is all that is reached. -/
theorem reachable_limitSampleWaiting (i : ObjectId) :
    limitSampleWaiting.Reachable (.of fun _ => []) i ↔ i = 1 := by
  have hstart : ∀ i, limitSampleWaiting.Anchored (.of fun _ => []) i ↔ i = 1 := by
    intro i
    simp [Anchored, rootHolds, limitSampleWaiting, add, limitSampleFull, limitSample,
      limitSampleStart, Heap.create]
  constructor
  · intro hi
    refine hi.subset (fun i hi => (hstart i).1 hi) ?_
    rintro _ rfl other hother
    cases hother
  · intro hi
    exact .start ((hstart i).2 hi)

/-- The string without a slot is refused; once the other one is not pinned any more, it is taken. -/
theorem place_exhausted_iff_limitSampleWaiting :
    limitSampleWaiting.Reached ∧ 0 < limitSampleWaiting.heap.config.maxObjects ∧
      (∀ i, limitSampleWaiting.Reachable (.of fun _ => []) i → limitSampleWaiting.Owns i) ∧
      2 < limitSampleWaiting.objects.size ∧ limitSampleWaiting.placement? 2 = none ∧
      ∃ n, place (.of fun _ => []) 2 limitSampleWaiting = .error (.exhausted 1 1) n ∧
        collect (.of fun _ => []) limitSampleWaiting = .ok () n ∧
        ∃ o, place (.of fun _ => []) 2 (n.unpin 1) = .ok () o ∧ o.Owns 2 := by
  have hown : ∀ i, limitSampleWaiting.Reachable (.of fun _ => []) i →
      limitSampleWaiting.Owns i := by
    intro i hi
    cases (reachable_limitSampleWaiting i).1 hi
    exact ⟨⟨0, 0, 2, false⟩, rfl, rfl, rfl⟩
  have hcount : {i | limitSampleWaiting.Reachable (.of fun _ => []) i}.ncard = 1 := by
    rw [Set.ncard_eq_one]
    exact ⟨1, Set.ext reachable_limitSampleWaiting⟩
  obtain ⟨hraises, -, hrefused⟩ := place_exhausted_iff
    limitSampleWaiting_reached (by decide) hown (show 2 < _ by decide) rfl
  rw [hcount] at hraises hrefused
  obtain ⟨live, max, n, hplace⟩ := hraises.2 (by decide)
  obtain ⟨herror, hcollect, -, hleft, hlater⟩ := hrefused _ _ hplace
  rw [herror] at hplace
  have hn : n = limitSample := by
    have halloc := limitSampleFull_alloc
    rw [alloc_eq] at halloc
    rw [show place _ limitSampleFull.objects.size (limitSampleFull.add _) = _ from hplace] at halloc
    cases halloc
    rfl
  subst hn
  have hnothing : ∀ i, ¬ (limitSample.unpin 1).Reachable (.of fun _ => []) i := by
    intro i hi
    refine @Reaches.subset _ _ (fun _ => False) (fun i hi => ?_) (fun _ h => h.elim) i hi
    simp [Anchored, rootHolds, unpin, dropPin, limitSample, limitSampleStart, Heap.create] at hi
  refine ⟨limitSampleWaiting_reached, by decide, hown, by decide, rfl, _, hplace, hcollect, ?_⟩
  refine hlater (limitSample.unpin 1) (fun _ => []) (.single (.unpin 1)) (by decide) rfl
    (fun i hi => absurd hi (hnothing i)) ?_
  rw [show {i | (limitSample.unpin 1).Reachable (.of fun _ => []) i} = ∅ from
    Set.eq_empty_of_forall_notMem hnothing, Set.ncard_empty]
  decide

end StackVm.Memory
