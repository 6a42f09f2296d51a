/-
The mark phase.  Its invariant: only reached objects are marked, what waits in
the worklist is marked, and a marked object that no longer waits has all its
references marked.  With the worklist empty the marks are exactly the reachable
objects, so they do not depend on the order in which the roots were visited.
-/
import StackVm.Proofs.Ownership

namespace StackVm.Memory

/-- The slot of the object is marked. -/
def Marked (m : Memory) (marks : Array Bool) (id : ObjectId) : Prop :=
  ∃ p, m.Places id p ∧ marks[p.slot]? = some true

/-- The invariant of the mark phase.  The references of a `due` object are still
to be marked. -/
structure Progress (m : Memory) (reach due : ObjectId → Prop) (s : Marking) : Prop where
  size : s.marks.size = m.heap.slots.size
  sound : ∀ slot, s.marks[slot]? = some true →
    ∃ id, m.heap.occupant slot = some id ∧ reach id
  gray : ∀ id ∈ s.gray, m.Marked s.marks id
  traced : ∀ id, m.Marked s.marks id →
    id ∈ s.gray ∨ due id ∨ ∀ other ∈ m.references id, m.Marked s.marks other

theorem Marked.reach {m : Memory} {reach due : ObjectId → Prop} {s : Marking}
    (hm : m.WellFormed) (hs : m.Progress reach due s) {id : ObjectId}
    (hid : m.Marked s.marks id) : reach id := by
  obtain ⟨p, hp, hmark⟩ := hid
  obtain ⟨other, hocc, hreach⟩ := hs.sound p.slot hmark
  rw [hm.placed id p hp] at hocc
  cases hocc
  exact hreach

/-- An owned object is marked without an error. -/
theorem mark_of_places {m : Memory} {id : ObjectId} {p : Placement} (hp : m.Places id p)
    (s : Marking) : s.mark m.objects m.heap.id id = .ok (s.visit id p.slot) := by
  obtain ⟨o, ho, hplacement⟩ := Option.bind_eq_some_iff.1 hp.found
  have hplacement' : o.placement = some p := hplacement
  simp [Marking.mark, ho, hplacement', hp.heap, hp.unswept]

theorem mark_eq_true {marks : Array Bool} {slot : Nat} (hslot : slot < marks.size)
    (hmark : marks[slot]? ≠ some false) : marks[slot]? = some true := by
  rw [Array.getElem?_eq_getElem hslot] at hmark ⊢
  cases hget : marks[slot] with
  | true => rfl
  | false => exact absurd (congrArg some hget) hmark

theorem getElem?_visit {s : Marking} {id : ObjectId} {slot : Nat} (hslot : slot < s.marks.size)
    (i : Nat) : (s.visit id slot).marks[i]? = some true ↔ s.marks[i]? = some true ∨ i = slot := by
  unfold Marking.visit
  split
  · by_cases hi : slot = i
    · subst hi
      simp [hslot]
    · simp [hi, Ne.symm hi]
  · next hmark =>
    constructor
    · exact Or.inl
    · rintro (hold | rfl)
      · exact hold
      · exact mark_eq_true hslot hmark

theorem mem_gray_visit {s : Marking} {id : ObjectId} {slot : Nat} {i : ObjectId} :
    i ∈ (s.visit id slot).gray ↔ i ∈ s.gray ∨ i = id ∧ s.marks[slot]? = some false := by
  unfold Marking.visit
  split
  · next hmark =>
    rw [List.mem_cons, or_comm]
    simp [hmark]
  · next hmark => simp [hmark]

theorem marked_visit {m : Memory} {s : Marking} (hm : m.WellFormed)
    {id : ObjectId} {p : Placement} (hp : m.Places id p) (hslot : p.slot < s.marks.size)
    (i : ObjectId) : m.Marked (s.visit id p.slot).marks i ↔ m.Marked s.marks i ∨ i = id := by
  constructor
  · rintro ⟨q, hq, hmark⟩
    rcases (getElem?_visit hslot q.slot).1 hmark with hold | heq
    · exact Or.inl ⟨q, hq, hold⟩
    · have hocc := hm.placed i q hq
      rw [heq, hm.placed id p hp] at hocc
      exact Or.inr (Option.some.inj hocc).symm
  · rintro (⟨q, hq, hold⟩ | rfl)
    · exact ⟨q, hq, (getElem?_visit hslot q.slot).2 (Or.inl hold)⟩
    · exact ⟨p, hp, (getElem?_visit hslot p.slot).2 (Or.inr rfl)⟩

variable {m : Memory} {reach due : ObjectId → Prop}

/-- Marking one reached object. -/
theorem Progress.mark (hm : m.WellFormed) {s : Marking} (hs : m.Progress reach due s)
    {id : ObjectId} (hown : m.Owns id) (hreach : reach id) :
    ∃ t, s.mark m.objects m.heap.id id = .ok t ∧ m.Progress reach due t ∧
      ∀ i, m.Marked t.marks i ↔ m.Marked s.marks i ∨ i = id := by
  obtain ⟨p, hp⟩ := hown
  have hocc := hm.placed id p hp
  have hslot : p.slot < s.marks.size := hs.size ▸ Heap.lt_size_of_occupant hocc
  have hmarked := marked_visit hm hp hslot
  refine ⟨s.visit id p.slot, mark_of_places hp s, ?_, hmarked⟩
  constructor
  · rw [← hs.size]
    unfold Marking.visit
    split
    · exact Array.size_setIfInBounds
    · rfl
  · intro slot hmark
    rcases (getElem?_visit hslot slot).1 hmark with hold | rfl
    · exact hs.sound slot hold
    · exact ⟨id, hocc, hreach⟩
  · intro i hi
    rw [hmarked]
    rcases mem_gray_visit.1 hi with hold | ⟨heq, _⟩
    · exact Or.inl (hs.gray i hold)
    · exact Or.inr heq
  · intro i hi
    rw [mem_gray_visit]
    by_cases hfresh : i = id ∧ s.marks[p.slot]? = some false
    · exact Or.inl (Or.inr hfresh)
    · have hold : m.Marked s.marks i := by
        rcases (hmarked i).1 hi with hold | rfl
        · exact hold
        · exact ⟨p, hp, mark_eq_true hslot fun hget => hfresh ⟨rfl, hget⟩⟩
      rcases hs.traced i hold with hgray | hdue | hrefs
      · exact Or.inl (Or.inl hgray)
      · exact Or.inr (Or.inl hdue)
      · exact Or.inr (Or.inr fun other hother => (hmarked other).2 (Or.inl (hrefs other hother)))

/-- Marking reached objects one after another. -/
theorem Progress.markAll (hm : m.WellFormed) {s : Marking} (hs : m.Progress reach due s)
    {ids : List ObjectId} (hown : ∀ id ∈ ids, m.Owns id) (hreach : ∀ id ∈ ids, reach id) :
    ∃ t, Marking.markAll m.objects m.heap.id s ids = .ok t ∧ m.Progress reach due t ∧
      ∀ i, m.Marked t.marks i ↔ m.Marked s.marks i ∨ i ∈ ids := by
  induction ids generalizing s with
  | nil => exact ⟨s, rfl, hs, fun i => by simp⟩
  | cons id rest ih =>
    obtain ⟨t, hmark, ht, hmarked⟩ :=
      hs.mark hm (hown id List.mem_cons_self) (hreach id List.mem_cons_self)
    obtain ⟨u, hrest, hu, hmarkedRest⟩ := ih ht
      (fun i hi => hown i (List.mem_cons_of_mem id hi))
      (fun i hi => hreach i (List.mem_cons_of_mem id hi))
    refine ⟨u, by rw [Marking.markAll, hmark]; exact hrest, hu, fun i => ?_⟩
    rw [hmarkedRest, hmarked, List.mem_cons, or_assoc]

/-- The next object of the worklist is taken off and its references become due. -/
theorem Progress.popGray {marks : Array Bool} {id : ObjectId} {rest : List ObjectId}
    (hs : m.Progress reach (fun _ => False) ⟨marks, id :: rest⟩) :
    m.Progress reach (· = id) ⟨marks, rest⟩ := by
  refine ⟨hs.size, hs.sound, fun i hi => hs.gray i (List.mem_cons_of_mem id hi), ?_⟩
  intro i hi
  rcases hs.traced i hi with hgray | hdue | hrefs
  · rcases List.mem_cons.1 hgray with heq | hrest
    · exact Or.inr (Or.inl heq)
    · exact Or.inl hrest
  · exact hdue.elim
  · exact Or.inr (Or.inr hrefs)

/-- Once the references of the due object are marked nothing is due. -/
theorem Progress.discharge {id : ObjectId} {s : Marking} (hs : m.Progress reach (· = id) s)
    (hrefs : ∀ other ∈ m.references id, m.Marked s.marks other) :
    m.Progress reach (fun _ => False) s := by
  refine ⟨hs.size, hs.sound, hs.gray, fun i hi => ?_⟩
  rcases hs.traced i hi with hgray | rfl | hdone
  · exact Or.inl hgray
  · exact Or.inr (Or.inr hrefs)
  · exact Or.inr (Or.inr hdone)

theorem drain_nil (m : Memory) (marks : Array Bool) :
    Marking.drain m ⟨marks, []⟩ = .ok ⟨marks, []⟩ := by rw [Marking.drain]

theorem drain_cons {id : ObjectId} {rest : List ObjectId} {marks : Array Bool} {t : Marking}
    (h : Marking.markAll m.objects m.heap.id ⟨marks, rest⟩ (m.references id) = .ok t) :
    Marking.drain m ⟨marks, id :: rest⟩ = Marking.drain m t := by
  rw [Marking.drain]
  split
  · next herror =>
    rw [h] at herror
    cases herror
  · next u hmark =>
    rw [h] at hmark
    cases hmark
    rfl

/-- Tracing a closed set of owned objects ends without an error and with an empty
worklist. -/
theorem Progress.drain (hm : m.WellFormed) (hown : ∀ id, reach id → m.Owns id)
    (hclosed : ∀ id, reach id → ∀ other ∈ m.references id, reach other) {s : Marking}
    (hs : m.Progress reach (fun _ => False) s) :
    ∃ t, Marking.drain m s = .ok t ∧ m.Progress reach (fun _ => False) t ∧ t.gray = [] ∧
      ∀ i, m.Marked s.marks i → m.Marked t.marks i := by
  induction s using Marking.drain.induct m with
  | case1 marks => exact ⟨⟨marks, []⟩, drain_nil m marks, hs, rfl, fun _ hi => hi⟩
  | case2 marks id rest e herror =>
    have hreach : reach id := (hs.gray id List.mem_cons_self).reach hm hs
    have hrest : m.Progress reach (· = id) ⟨marks, rest⟩ := hs.popGray
    obtain ⟨t, hmark, _⟩ := hrest.markAll hm
      (fun other hother => hown other (hclosed id hreach other hother)) (hclosed id hreach)
    -- Only what is foreign or reclaimed cannot be marked, and nothing reachable is.
    rw [herror] at hmark
    cases hmark
  | case3 marks id rest t hmark ih =>
    have hreach : reach id := (hs.gray id List.mem_cons_self).reach hm hs
    have hrest : m.Progress reach (· = id) ⟨marks, rest⟩ := hs.popGray
    obtain ⟨t', hmark', ht, hmarked⟩ := hrest.markAll hm
      (fun other hother => hown other (hclosed id hreach other hother)) (hclosed id hreach)
    rw [hmark] at hmark'
    cases hmark'
    obtain ⟨u, hdrain, hu, hempty, hkept⟩ := ih
      (ht.discharge fun other hother => (hmarked other).2 (Or.inr hother))
    refine ⟨u, ?_, hu, hempty, fun i hi => hkept i ((hmarked i).2 (Or.inl hi))⟩
    rw [drain_cons hmark]
    exact hdrain

/-- The marks of exactly the objects that can be reached from given ones. -/
structure Traced (m : Memory) (start : ObjectId → Prop) (marks : Array Bool) : Prop where
  size : marks.size = m.heap.slots.size
  mark : ∀ slot, marks[slot]? = some true ↔
    ∃ id, m.heap.occupant slot = some id ∧ m.Reaches start id

/-- Two mark phases that start from the same objects set the same marks. -/
theorem Traced.unique {start : ObjectId → Prop} {marks others : Array Bool}
    (h : m.Traced start marks) (h' : m.Traced start others) : marks = others := by
  have hsize : marks.size = others.size := h.size.trans h'.size.symm
  refine Array.ext hsize fun slot hslot hslot' => ?_
  have hiff : marks[slot]? = some true ↔ others[slot]? = some true :=
    (h.mark slot).trans (h'.mark slot).symm
  rw [Array.getElem?_eq_getElem hslot, Array.getElem?_eq_getElem hslot'] at hiff
  cases hmark : marks[slot] <;> cases hother : others[slot] <;> simp_all

/-- The mark phase from a list of objects. -/
def traceFrom (m : Memory) (visits : List ObjectId) : Except Fault (Array Bool) := do
  let s ← Marking.markAll m.objects m.heap.id ⟨m.heap.marks, []⟩ visits
  let s ← s.drain m
  return s.marks

theorem traceFrom_traced (hm : m.WellFormed) {visits : List ObjectId}
    (hown : ∀ id, m.Reaches (· ∈ visits) id → m.Owns id) :
    ∃ marks, m.traceFrom visits = .ok marks ∧ m.Traced (· ∈ visits) marks := by
  let reach := m.Reaches (· ∈ visits)
  have hclosed : ∀ id, reach id → ∀ other ∈ m.references id, reach other :=
    fun _ hid _ hother => hid.reference hother
  have hinit : m.Progress reach (fun _ => False) ⟨m.heap.marks, []⟩ := by
    have hclear : ∀ slot : Nat, m.heap.marks[slot]? ≠ some true := by
      intro slot
      rw [hm.tidy.marks, Array.getElem?_replicate]
      split <;> simp
    exact ⟨by rw [hm.tidy.marks, Array.size_replicate], fun slot h => absurd h (hclear slot),
      fun id hid => absurd hid List.not_mem_nil, fun id ⟨p, _, h⟩ => absurd h (hclear p.slot)⟩
  obtain ⟨s, hmark, hs, hmarked⟩ := hinit.markAll hm
    (fun id (hid : id ∈ visits) => hown id (.start hid)) (fun id hid => .start hid)
  obtain ⟨t, hdrain, ht, hempty, hkept⟩ := hs.drain hm hown hclosed
  refine ⟨t.marks, ?_, ht.size, fun slot => ⟨ht.sound slot, ?_⟩⟩
  · simp only [traceFrom, hmark, bind, Except.bind, hdrain, pure, Except.pure]
  · rintro ⟨id, hocc, hreach⟩
    have hdone : m.Marked t.marks id := by
      refine hreach.subset (fun i hi => hkept i ((hmarked i).2 (Or.inr hi))) ?_
      intro i hi other hother
      rcases ht.traced i hi with hgray | hdue | hrefs
      · rw [hempty] at hgray
        cases hgray
      · exact hdue.elim
      · exact hrefs other hother
    obtain ⟨p, hp, hmark⟩ := hdone
    rwa [hm.slot_unique hocc (hm.placed id p hp)]

/-- What the root sources and the pins hold, in the order in which it is visited. -/
def anchors (m : Memory) (held : RootId → List ObjectId) : List ObjectId :=
  (m.heap.roots.sources.flatMap fun source => held source.id) ++ m.heap.pins.map (·.1)

theorem markHolds_map (objects : Array Object) (heap : HeapId) (s : Marking)
    (ids : List ObjectId) :
    Marking.markHolds objects heap s (ids.map .object) = Marking.markAll objects heap s ids := by
  induction ids generalizing s with
  | nil => rfl
  | cons id rest ih =>
    rw [List.map_cons, Marking.markHolds, Marking.markAll]
    cases s.mark objects heap id with
    | error e => rfl
    | ok t => exact ih t

theorem markAll_append (objects : Array Object) (heap : HeapId) (s : Marking)
    (ids more : List ObjectId) :
    Marking.markAll objects heap s (ids ++ more) =
      (Marking.markAll objects heap s ids).bind fun t => Marking.markAll objects heap t more := by
  induction ids generalizing s with
  | nil => rfl
  | cons id rest ih =>
    rw [List.cons_append, Marking.markAll, Marking.markAll]
    cases s.mark objects heap id with
    | error e => rfl
    | ok t => exact ih t

theorem rootHolds_of (m : Memory) (held : RootId → List ObjectId) :
    m.rootHolds (.of held) =
      (m.heap.roots.sources.flatMap fun source => held source.id).map .object := by
  rw [rootHolds, List.map_flatMap]
  rfl

theorem markPhase_of (m : Memory) (held : RootId → List ObjectId) :
    m.markPhase (.of held) = m.traceFrom (m.anchors held) := by
  rw [markPhase, rootHolds_of, markHolds_map, traceFrom, anchors, markAll_append]
  cases Marking.markAll m.objects m.heap.id ⟨m.heap.marks, []⟩
    (m.heap.roots.sources.flatMap fun source => held source.id) <;> rfl

theorem mem_anchors {held : RootId → List ObjectId} {id : ObjectId} :
    id ∈ m.anchors held ↔ m.Anchored (.of held) id := by
  rw [Anchored, rootHolds_of, anchors, List.mem_append]
  simp

end StackVm.Memory
