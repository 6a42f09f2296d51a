/-
Survival.  A mark phase that ends well has met nothing foreign and nothing swept, so the
collection keeps every object that the roots reach, whatever else the memory holds.  What
a pinned object reaches therefore stays with the heap for as long as the pin is there.
-/
import StackVm.Proofs.Pins

namespace StackVm.Memory

/-- The invariant of a mark phase that may still come upon an object it cannot mark: a
marked object waits, is due, or has all its references marked. -/
structure Closing (m : Memory) (due : ObjectId → Prop) (s : Marking) : Prop where
  size : s.marks.size = m.heap.slots.size
  traced : ∀ id, m.Marked s.marks id → id ∈ s.gray ∨ due id ∨
    ∀ other ∈ m.references id, other < m.objects.size → m.Marked s.marks other

/-- Marking some objects has led from one progress to another. -/
structure Marks (m : Memory) (due added : ObjectId → Prop) (s t : Marking) : Prop where
  closing : m.Closing due t
  kept : ∀ i, m.Marked s.marks i → m.Marked t.marks i
  added : ∀ id, added id → id < m.objects.size → m.Marked t.marks id

variable {m n : Memory} {due added : ObjectId → Prop} {s t : Marking} {holdings : Holdings}
  {id entry : ObjectId}

theorem lt_size_of_mem_references {other : ObjectId} (h : other ∈ m.references id) :
    id < m.objects.size := by
  by_contra hge
  rw [references, Array.getElem?_eq_none (Nat.le_of_not_lt hge)] at h
  cases h

/-- What is marked without an error is owned, or it is no object. -/
theorem mark_ok (h : s.mark m.objects m.heap.id id = .ok t) :
    (m.objects.size ≤ id ∧ t = s) ∨ ∃ p, m.Places id p ∧ t = s.visit id p.slot := by
  rw [Marking.mark] at h
  split at h
  · next hnone =>
    cases h
    exact Or.inl ⟨Array.getElem?_eq_none_iff.1 hnone, rfl⟩
  · next o ho =>
    split at h
    · cases h
    · next p hp =>
      split at h
      · cases h
      · next hheap =>
        split at h
        · cases h
        · next hswept =>
          cases h
          refine Or.inr ⟨p, ⟨?_, not_not.1 hheap, Bool.eq_false_iff.2 hswept⟩, rfl⟩
          rw [placement?, ho]
          exact hp

theorem Closing.mark (hm : m.WellFormed) (hs : m.Closing due s)
    (h : s.mark m.objects m.heap.id id = .ok t) : m.Marks due (· = id) s t := by
  rcases mark_ok h with ⟨hge, rfl⟩ | ⟨p, hp, rfl⟩
  · exact ⟨hs, fun _ hi => hi, fun i hi hlt => absurd (hi ▸ hlt) (Nat.not_lt.2 hge)⟩
  · have hslot : p.slot < s.marks.size :=
      hs.size ▸ Heap.lt_size_of_occupant (hm.placed id p hp)
    have hmarked := marked_visit hm hp hslot
    refine ⟨⟨?_, fun i hi => ?_⟩, fun i hi => (hmarked i).2 (Or.inl hi),
      fun i hi _ => (hmarked i).2 (Or.inr hi)⟩
    · rw [← hs.size, Marking.visit]
      split
      · exact Array.size_setIfInBounds
      · rfl
    · rw [mem_gray_visit]
      by_cases hfresh : i = id ∧ s.marks[p.slot]? = some false
      · exact Or.inl (Or.inr hfresh)
      · have hold : m.Marked s.marks i := by
          rcases (hmarked i).1 hi with hold | rfl
          · exact hold
          · exact ⟨p, hp, mark_eq_true hslot fun hget => hfresh ⟨rfl, hget⟩⟩
        rcases hs.traced i hold with hgray | hdue | hrefs
        · exact Or.inl (Or.inl hgray)
        · exact Or.inr (Or.inl hdue)
        · exact Or.inr (Or.inr fun other hother hlt =>
            (hmarked other).2 (Or.inl (hrefs other hother hlt)))

/-- Marking goes on after marking. -/
theorem Marks.trans {more : ObjectId → Prop} {u : Marking} (h : m.Marks due added s t)
    (h' : m.Marks due more t u) : m.Marks due (fun id => added id ∨ more id) s u where
  closing := h'.closing
  kept i hi := h'.kept i (h.kept i hi)
  added i hi hlt := by
    rcases hi with hfirst | hmore
    · exact h'.kept i (h.added i hfirst hlt)
    · exact h'.added i hmore hlt

theorem Marks.of_iff {more : ObjectId → Prop} (h : m.Marks due added s t)
    (hiff : ∀ id, more id → added id) : m.Marks due more s t :=
  ⟨h.closing, h.kept, fun i hi => h.added i (hiff i hi)⟩

theorem Closing.markAll (hm : m.WellFormed) {ids : List ObjectId} (hs : m.Closing due s)
    (h : Marking.markAll m.objects m.heap.id s ids = .ok t) : m.Marks due (· ∈ ids) s t := by
  induction ids generalizing s with
  | nil =>
    cases h
    exact ⟨hs, fun _ hi => hi, nofun⟩
  | cons id rest ih =>
    rw [Marking.markAll] at h
    split at h
    · cases h
    · next hmark =>
      have hfirst := hs.mark hm hmark
      exact (hfirst.trans (ih hfirst.closing h)).of_iff fun i hi => List.mem_cons.1 hi

theorem Closing.markHolds (hm : m.WellFormed) {holds : List Hold} (hs : m.Closing due s)
    (h : Marking.markHolds m.objects m.heap.id s holds = .ok t) :
    m.Marks due (.object · ∈ holds) s t := by
  induction holds generalizing s with
  | nil =>
    cases h
    exact ⟨hs, fun _ hi => hi, nofun⟩
  | cons hold rest ih =>
    cases hold with
    | allocation => cases h
    | object id =>
      rw [Marking.markHolds] at h
      split at h
      · cases h
      · next hmark =>
        have hfirst := hs.mark hm hmark
        refine (hfirst.trans (ih hfirst.closing h)).of_iff fun i hi => ?_
        exact (List.mem_cons.1 hi).imp_left Hold.object.inj

/-- Tracing that ends well leaves nothing waiting and nothing due. -/
theorem Closing.drain (hm : m.WellFormed) (hs : m.Closing (fun _ => False) s)
    (h : Marking.drain m s = .ok t) :
    m.Marks (fun _ => False) (fun _ => False) s t ∧ t.gray = [] := by
  induction s using Marking.drain.induct m with
  | case1 marks =>
    rw [drain_nil] at h
    cases h
    exact ⟨⟨hs, fun _ hi => hi, fun _ hi => hi.elim⟩, rfl⟩
  | case2 marks id rest e herror =>
    rw [Marking.drain] at h
    split at h
    · cases h
    · next hmark =>
      rw [herror] at hmark
      cases hmark
  | case3 marks id rest u hmark ih =>
    rw [drain_cons hmark] at h
    have hpopped : m.Closing (· = id) ⟨marks, rest⟩ := by
      refine ⟨hs.size, fun i hi => ?_⟩
      rcases hs.traced i hi with hgray | hdue | hrefs
      · exact (List.mem_cons.1 hgray).elim (fun heq => Or.inr (Or.inl heq)) Or.inl
      · exact hdue.elim
      · exact Or.inr (Or.inr hrefs)
    have hmarks := hpopped.markAll hm hmark
    have hclosing : m.Closing (fun _ => False) u := by
      refine ⟨hmarks.closing.size, fun i hi => ?_⟩
      rcases hmarks.closing.traced i hi with hgray | rfl | hrefs
      · exact Or.inl hgray
      · exact Or.inr (Or.inr hmarks.added)
      · exact Or.inr (Or.inr hrefs)
    obtain ⟨hrest, hempty⟩ := ih hclosing h
    have hkept : ∀ i, m.Marked marks i → m.Marked t.marks i :=
      fun i hi => hrest.kept i (hmarks.kept i hi)
    exact ⟨⟨hrest.closing, hkept, fun _ hi => hi.elim⟩, hempty⟩

/-- A mark phase that ends well has marked every object that the roots reach. -/
theorem marked_of_markPhase (hm : m.WellFormed) {marks : Array Bool}
    (h : m.markPhase holdings = .ok marks) (hid : m.Reachable holdings id)
    (hlt : id < m.objects.size) : m.Marked marks id := by
  have hinit : m.Closing (fun _ => False) ⟨m.heap.marks, []⟩ := by
    refine ⟨by rw [hm.tidy.marks, Array.size_replicate], fun i hi => ?_⟩
    obtain ⟨p, -, hmark⟩ := hi
    rw [hm.tidy.marks, Array.getElem?_replicate] at hmark
    split at hmark <;> cases hmark
  simp only [markPhase, bind, Except.bind] at h
  split at h
  · cases h
  · next s hholds =>
    split at h
    · cases h
    · next t hpins =>
      split at h
      · cases h
      · next u hdrain =>
        cases h
        have hrooted := hinit.markHolds hm hholds
        have hanchored := hrooted.trans (hrooted.closing.markAll hm hpins)
        obtain ⟨htraced, hempty⟩ := hanchored.closing.drain hm hdrain
        induction hid with
        | start hanchor => exact htraced.kept _ (hanchored.added _ hanchor hlt)
        | reference _ hother ih =>
          rcases htraced.closing.traced _ (ih (lt_size_of_mem_references hother)) with
            hgray | hdue | hrefs
          · rw [hempty] at hgray
            cases hgray
          · exact hdue.elim
          · exact hrefs _ hother hlt

/-- A collection that ends well keeps every object that the roots reach. -/
theorem owns_of_collect (hm : m.WellFormed) (h : collect holdings m = .ok () n)
    (hid : m.Reachable holdings id) (hlt : id < m.objects.size) : n.Owns id := by
  rw [collect] at h
  split at h
  · next marks hphase =>
    cases h
    obtain ⟨p, hp, hmark⟩ := marked_of_markPhase hm hphase hid hlt
    exact ⟨p, (hm.places_sweep marks id p).2 ⟨hp, hmark⟩⟩
  · cases h

/-! ### Runs -/

/-- What a pinned object reaches is reached from the roots. -/
theorem reachable_of_pinned (hpin : 0 < m.heap.pinCount entry) (hid : m.Reaches (· = entry) id)
    (holdings : Holdings) : m.Reachable holdings id := by
  refine hid.subset (fun i hi => ?_) fun _ hi _ hother => hi.reference hother
  subst hi
  exact .start (Or.inr (mem_keys_of_pinCount_pos hpin))

theorem owns_occupy (hown : m.Owns id) {new : ObjectId} (hnew : new < m.objects.size)
    (hne : id ≠ new) : (m.occupy new).Owns id := by
  obtain ⟨p, hp⟩ := hown
  exact ⟨p, (places_occupy_of_ne hnew hne p).2 hp⟩

/-- An attempt to place an object keeps what a pinned object reaches. -/
theorem owns_of_place (hm : m.WellFormed) {new : ObjectId} (hnew : new < m.objects.size)
    (h : EndsWith (Memory.place holdings new m) n) (hpin : 0 < m.heap.pinCount entry)
    (hid : m.Reaches (· = entry) id) (hown : m.Owns id) : n.Owns id := by
  obtain ⟨hunplaced, k, hk, hn⟩ := place_collects h
  have hne : id ≠ new := by
    rintro rfl
    exact not_owns_of_unplaced hunplaced hown
  have hkept : k.Owns id ∧ new < k.objects.size := by
    rcases hk with rfl | hcollect
    · exact ⟨hown, hnew⟩
    · refine ⟨owns_of_collect hm hcollect (reachable_of_pinned hpin hid _) hown.lt_size, ?_⟩
      obtain ⟨marks, rfl⟩ := collect_state hcollect
      rwa [size_sweep]
  rcases hn with rfl | rfl
  · exact hkept.1
  · exact owns_occupy hkept.1 hkept.2 hne

/-- A new object takes part in nothing. -/
theorem reaches_add {start : ObjectId → Prop} (payload : Payload) (hid : m.Reaches start id) :
    (m.add payload).Reaches start id := by
  refine hid.subset (fun i hi => .start hi) fun i hi other hother => hi.reference ?_
  rwa [references, getElem?_add_of_lt payload (lt_size_of_mem_references hother)]

/-- A step of a run keeps what a pinned object reaches. -/
theorem Step.owns (h : Step m n) (hm : m.WellFormed) (hpin : 0 < m.heap.pinCount entry)
    (hid : m.Reaches (· = entry) id) (hown : m.Owns id) : n.Owns id := by
  have hanchors : ∀ (roots : RootSet) (pins : List (ObjectId × Nat)),
      Owns { m with heap := { m.heap with roots, pins } } id := by
    intro roots pins
    obtain ⟨p, hp⟩ := hown
    exact ⟨p, hp.found, hp.heap, hp.unswept⟩
  cases h with
  | edit hheap hplacement =>
    obtain ⟨p, hp⟩ := hown
    exact ⟨p, (hplacement id p hp.heap).2 hp.found, hheap ▸ hp.heap, hp.unswept⟩
  | alloc holdings payload halloc =>
    obtain ⟨p, hp⟩ := hown
    refine owns_of_place (hm.add payload) (by simp [add]) (place_of_alloc halloc) hpin
      (reaches_add payload hid) ⟨p, ?_, hp.heap, hp.unswept⟩
    rw [placement?_add]
    exact hp.found
  | place holdings new hnew hplace => exact owns_of_place hm hnew hplace hpin hid hown
  | collect holdings hcollect =>
    exact owns_of_collect hm hcollect (reachable_of_pinned hpin hid _) hown.lt_size
  | pin id hpinned =>
    rw [pin_state hpinned]
    exact hanchors _ _
  | unpin id => exact hanchors _ _
  | addRoot name => exact hanchors _ _
  | removeRoot id => exact hanchors _ _

/-- A run along which an object is reached from a pinned one, up to the last step. -/
inductive Retains (entry id : ObjectId) (m : Memory) : Memory → Prop
  | start : Retains entry id m m
  | step {k n : Memory} : Retains entry id m k → 0 < k.heap.pinCount entry →
      k.Reaches (· = entry) id → Step k n → Retains entry id m n

theorem Retains.wellFormed (h : Retains entry id m n) (hm : m.WellFormed) : n.WellFormed := by
  induction h with
  | start => exact hm
  | step _ _ _ hstep ih => exact hstep.wellFormed ih

/-- What a pinned object reaches stays with the heap until the pin is dropped. -/
theorem Retains.owns (h : Retains entry id m n) (hm : m.WellFormed) (hown : m.Owns id) :
    n.Owns id := by
  induction h with
  | start => exact hown
  | step hbefore hpin hid hstep ih =>
    exact hstep.owns (hbefore.wellFormed hm) hpin hid ih

end StackVm.Memory
