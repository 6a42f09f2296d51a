/-
Pins as counts.  Every pinned object has one entry in the list of pins, so taking a
pin off lowers its count by one; and pins that were put behind all others come off
without a trace.
-/
import StackVm.Proofs.HeapRun

namespace StackVm.Memory

theorem addPin_of_not_mem {id : ObjectId} {pins : List (ObjectId × Nat)}
    (hid : id ∉ pins.map (·.1)) : pin.addPin id pins = pins ++ [(id, 1)] := by
  induction pins with
  | nil => rfl
  | cons entry rest ih =>
    simp only [List.map_cons, List.mem_cons, not_or] at hid
    rw [pin.addPin, if_neg (Ne.symm hid.1), ih hid.2, List.cons_append]

/-- An object that the heap owns can be pinned. -/
theorem pin_of_owns {m : Memory} {id : ObjectId} (hown : m.Owns id) :
    Memory.pin id m =
      .ok () { m with heap := { m.heap with pins := pin.addPin id m.heap.pins } } := by
  obtain ⟨p, hp⟩ := hown
  obtain ⟨o, ho, hplacement⟩ := Option.bind_eq_some_iff.1 hp.found
  have hheap : o.placement.map (·.heap) = some m.heap.id := by
    rw [hplacement, Option.map_some, hp.heap]
  simp only [Memory.pin, bind_apply, get_apply, ho, branch_apply, modify_apply, if_pos hheap]

theorem mem_keys_addPin {id i : ObjectId} {pins : List (ObjectId × Nat)}
    (hi : i ∈ (pin.addPin id pins).map (·.1)) : i = id ∨ i ∈ pins.map (·.1) := by
  induction pins with
  | nil => simpa [pin.addPin] using hi
  | cons entry rest ih =>
    rw [pin.addPin] at hi
    split at hi
    · exact Or.inr hi
    · rcases List.mem_cons.1 hi with rfl | hi
      · exact Or.inr (List.mem_cons_self ..)
      · exact (ih hi).imp_right (List.mem_cons_of_mem _)

theorem nodup_keys_addPin {id : ObjectId} {pins : List (ObjectId × Nat)}
    (hpins : (pins.map (·.1)).Nodup) : ((pin.addPin id pins).map (·.1)).Nodup := by
  induction pins with
  | nil => simp [pin.addPin]
  | cons entry rest ih =>
    rw [List.map_cons, List.nodup_cons] at hpins
    rw [pin.addPin]
    split
    · exact List.nodup_cons.2 hpins
    · next hne =>
      refine List.nodup_cons.2 ⟨fun hmem => ?_, ih hpins.2⟩
      rcases mem_keys_addPin hmem with heq | hmem
      · exact hne heq
      · exact hpins.1 hmem

theorem keys_dropPin (id : ObjectId) (pins : List (ObjectId × Nat)) :
    ((dropPin id pins).map (·.1)).Sublist (pins.map (·.1)) := by
  induction pins with
  | nil => exact .slnil
  | cons entry rest ih =>
    rw [dropPin]
    split
    · split
      · exact List.sublist_cons_self ..
      · exact .refl _
    · exact ih.cons_cons _

/-- A step of a run takes or drops one pin at most. -/
theorem Step.pins_cases {m n : Memory} (h : Step m n) :
    n.heap.pins = m.heap.pins ∨ (∃ id, n.heap.pins = pin.addPin id m.heap.pins) ∨
      ∃ id, n.heap.pins = dropPin id m.heap.pins := by
  have hplaced : ∀ {holdings id} {k : Memory}, EndsWith (Memory.place holdings id k) n →
      n.heap.pins = k.heap.pins := by
    intro holdings id k h
    obtain ⟨-, l, rfl | ⟨marks, rfl⟩, rfl | rfl⟩ := place_state h
    · rfl
    · exact (takeSlot_same ..).pins
    · rfl
    · exact (takeSlot_same ..).pins
  cases h with
  | edit hheap _ => exact Or.inl (congrArg Heap.pins hheap)
  | alloc holdings payload h =>
    have hpins : n.heap.pins = (m.add payload).heap.pins := hplaced (place_of_alloc h)
    exact Or.inl hpins
  | place holdings id _ h => exact Or.inl (hplaced h)
  | collect holdings h =>
    obtain ⟨marks, rfl⟩ := collect_state h
    exact Or.inl rfl
  | pin id h =>
    rw [pin_state h]
    exact Or.inr (Or.inl ⟨id, rfl⟩)
  | unpin id => exact Or.inr (Or.inr ⟨id, rfl⟩)
  | addRoot name => exact Or.inl rfl
  | removeRoot id => exact Or.inl rfl

/-- Every pinned object has one entry. -/
theorem Step.pins_nodup {m n : Memory} (h : Step m n) (hm : (m.heap.pins.map (·.1)).Nodup) :
    (n.heap.pins.map (·.1)).Nodup := by
  rcases h.pins_cases with hpins | ⟨id, hpins⟩ | ⟨id, hpins⟩ <;> rw [hpins]
  · exact hm
  · exact nodup_keys_addPin hm
  · exact (keys_dropPin id _).nodup hm

theorem Reached.pins_nodup {m : Memory} (h : m.Reached) : (m.heap.pins.map (·.1)).Nodup := by
  induction h with
  | create id config chunks _ => exact List.nodup_nil
  | step _ hstep ih => exact hstep.pins_nodup ih

/-! ### Counts -/

theorem lookup_eq_none {id : ObjectId} {pins : List (ObjectId × Nat)}
    (hid : id ∉ pins.map (·.1)) : pins.lookup id = none := by
  refine List.lookup_eq_none_iff.2 fun entry hentry => ?_
  simpa using fun heq : id = entry.1 => hid (heq ▸ List.mem_map_of_mem hentry)

theorem pos_of_mem_addPin {id : ObjectId} {pins : List (ObjectId × Nat)}
    (hpins : ∀ entry ∈ pins, 0 < entry.2) : ∀ entry ∈ pin.addPin id pins, 0 < entry.2 := by
  induction pins with
  | nil => simp [pin.addPin]
  | cons first rest ih =>
    rw [List.forall_mem_cons] at hpins
    rw [pin.addPin]
    split
    · exact List.forall_mem_cons.2 ⟨Nat.succ_pos _, hpins.2⟩
    · exact List.forall_mem_cons.2 ⟨hpins.1, ih hpins.2⟩

theorem pos_of_mem_dropPin {id : ObjectId} {pins : List (ObjectId × Nat)}
    (hpins : ∀ entry ∈ pins, 0 < entry.2) : ∀ entry ∈ dropPin id pins, 0 < entry.2 := by
  induction pins with
  | nil => exact hpins
  | cons first rest ih =>
    rw [List.forall_mem_cons] at hpins
    rw [dropPin]
    split
    · split
      · exact hpins.2
      · next hcount => exact List.forall_mem_cons.2 ⟨by omega, hpins.2⟩
    · exact List.forall_mem_cons.2 ⟨hpins.1, ih hpins.2⟩

/-- An entry stands for one pin at least. -/
theorem Reached.pins_pos {m : Memory} (h : m.Reached) : ∀ entry ∈ m.heap.pins, 0 < entry.2 := by
  induction h with
  | create id config chunks _ => exact nofun
  | step _ hstep ih =>
    rcases hstep.pins_cases with hpins | ⟨id, hpins⟩ | ⟨id, hpins⟩ <;> rw [hpins]
    · exact ih
    · exact pos_of_mem_addPin ih
    · exact pos_of_mem_dropPin ih

theorem mem_keys_of_pinCount_pos {m : Memory} {id : ObjectId} (h : 0 < m.heap.pinCount id) :
    id ∈ m.heap.pins.map (·.1) := by
  by_contra hnot
  rw [Heap.pinCount, lookup_eq_none hnot] at h
  cases h

/-- The entries are those of the objects that are pinned. -/
theorem Reached.mem_keys_iff {m : Memory} (h : m.Reached) (id : ObjectId) :
    id ∈ m.heap.pins.map (·.1) ↔ 0 < m.heap.pinCount id := by
  refine ⟨fun hid => ?_, mem_keys_of_pinCount_pos⟩
  rw [Heap.pinCount]
  cases hlookup : m.heap.pins.lookup id with
  | none =>
    obtain ⟨entry, hentry, rfl⟩ := List.mem_map.1 hid
    simpa using List.lookup_eq_none_iff.1 hlookup entry hentry
  | some count =>
    obtain ⟨before, rest, hpins, -⟩ := List.lookup_eq_some_iff.1 hlookup
    exact h.pins_pos (id, count) (by simp [hpins])

theorem lookup_cons_of_ne {i x : ObjectId} (hne : i ≠ x) (n : Nat)
    (pins : List (ObjectId × Nat)) : ((x, n) :: pins).lookup i = pins.lookup i := by
  rw [List.lookup_cons, beq_false_of_ne hne]

/-- Releasing one pin lowers one count by one, down to zero. -/
theorem pinCount_unpin {m : Memory} (hm : (m.heap.pins.map (·.1)).Nodup) (id i : ObjectId) :
    (m.unpin id).heap.pinCount i = m.heap.pinCount i - if i = id then 1 else 0 := by
  simp only [unpin, Heap.pinCount]
  generalize m.heap.pins = pins at hm
  induction pins with
  | nil => simp [dropPin]
  | cons entry rest ih =>
    obtain ⟨x, n⟩ := entry
    rw [List.map_cons, List.nodup_cons] at hm
    by_cases hx : x = id
    · subst hx
      by_cases hi : i = x
      · subst hi
        by_cases hn : n ≤ 1
        · simp [dropPin, hn, lookup_eq_none hm.1]
        · simp [dropPin, hn]
      · by_cases hn : n ≤ 1 <;> simp [dropPin, hn, lookup_cons_of_ne hi, hi]
    · by_cases hi : i = x
      · subst hi
        simp [dropPin, hx]
      · simp only [dropPin, if_neg hx, lookup_cons_of_ne hi, ih hm.2]

/-- Taking one pin raises one count by one. -/
theorem lookup_addPin (id i : ObjectId) (pins : List (ObjectId × Nat)) :
    ((pin.addPin id pins).lookup i).getD 0 =
      (pins.lookup i).getD 0 + if i = id then 1 else 0 := by
  induction pins with
  | nil =>
    by_cases hi : i = id
    · simp [pin.addPin, hi]
    · simp [pin.addPin, lookup_cons_of_ne hi, hi]
  | cons entry rest ih =>
    obtain ⟨x, n⟩ := entry
    by_cases hx : x = id
    · subst hx
      by_cases hi : i = x
      · simp [pin.addPin, hi]
      · simp [pin.addPin, lookup_cons_of_ne hi, hi]
    · by_cases hi : i = x
      · subst hi
        simp [pin.addPin, hx]
      · simp only [pin.addPin, if_neg hx, lookup_cons_of_ne hi, ih]

/-- Releasing several pins lowers each count by how often its object is listed. -/
theorem pinCount_unpinAll {m : Memory} (hm : (m.heap.pins.map (·.1)).Nodup)
    (ids : List ObjectId) (i : ObjectId) :
    (ids.foldl unpin m).heap.pinCount i = m.heap.pinCount i - ids.count i := by
  induction ids generalizing m with
  | nil => rfl
  | cons id rest ih =>
    have hkeys : ((m.unpin id).heap.pins.map (·.1)).Nodup := (keys_dropPin id _).nodup hm
    rw [List.foldl_cons, ih hkeys, pinCount_unpin hm, List.count_cons]
    by_cases hi : i = id
    · subst hi
      simp
      omega
    · simp [hi, Ne.symm hi]

/-- Pins behind all others count for their own objects alone. -/
theorem lookup_append_pins (pins : List (ObjectId × Nat)) {fresh : List ObjectId} (i : ObjectId)
    (hfresh : ∀ id ∈ fresh, id ∉ pins.map (·.1)) :
    ((pins ++ fresh.map (·, 1)).lookup i).getD 0 =
      (pins.lookup i).getD 0 + if i ∈ fresh then 1 else 0 := by
  have hback : (fresh.map (·, 1)).lookup i = if i ∈ fresh then some 1 else none := by
    induction fresh with
    | nil => rfl
    | cons id rest ih =>
      have hrest := ih fun x hx => hfresh x (List.mem_cons_of_mem _ hx)
      by_cases hi : i = id
      · simp [hi]
      · rw [List.map_cons, lookup_cons_of_ne hi, hrest]
        simp [hi]
  rw [List.lookup_append, hback]
  by_cases hi : i ∈ fresh
  · simp [hi, lookup_eq_none (hfresh i hi)]
  · simp [hi]

/-- Pins that were put behind all others come off without a trace. -/
theorem pins_unpinAll {m : Memory} {pins : List (ObjectId × Nat)} {fresh : List ObjectId}
    (hfresh : ∀ id ∈ fresh, id ∉ pins.map (·.1))
    (hm : m.heap.pins = pins ++ fresh.map (·, 1)) :
    (fresh.foldl unpin m).heap.pins = pins := by
  induction fresh generalizing m with
  | nil => simpa using hm
  | cons id rest ih =>
    have hid := hfresh id (List.mem_cons_self ..)
    refine ih (fun i hi => hfresh i (List.mem_cons_of_mem _ hi)) ?_
    simp only [unpin, hm]
    clear hm ih hfresh
    induction pins with
    | nil => simp [dropPin]
    | cons entry pins ih =>
      simp only [List.map_cons, List.mem_cons, not_or] at hid
      simp only [List.cons_append, dropPin, if_neg (Ne.symm hid.1), List.cons.injEq, true_and]
      exact ih hid.2

end StackVm.Memory
