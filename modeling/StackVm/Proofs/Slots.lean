/-
The slot table of a heap.  A tidy table counts its occupied slots, lists exactly
its empty ones as free and carries no marks; taking a slot and sweeping leave a
tidy table tidy.
-/
import Mathlib.Data.List.Nodup
import StackVm.Memory.Collect

namespace StackVm

/-- The object in a slot. -/
def Heap.occupant (h : Heap) (slot : Nat) : Option ObjectId := h.slots[slot]?.getD none

/-- How many slots hold an object. -/
def Heap.occupiedCount (h : Heap) : Nat :=
  (List.range h.slots.size).countP fun slot => (h.occupant slot).isSome

/-- What the columns of a slot table have to do with each other while no
operation is under way. -/
structure Heap.Tidy (h : Heap) : Prop where
  generations : h.generations.size = h.slots.size
  marks : h.marks = Array.replicate h.slots.size false
  free_nodup : h.free.toList.Nodup
  mem_free : ∀ slot, slot ∈ h.free ↔ slot < h.slots.size ∧ h.occupant slot = none
  live : h.live = h.occupiedCount

theorem Heap.lt_size_of_occupant {h : Heap} {slot : Nat} {id : ObjectId}
    (hocc : h.occupant slot = some id) : slot < h.slots.size := by
  by_contra hlt
  rw [Heap.occupant, Array.getElem?_eq_none (Nat.le_of_not_lt hlt)] at hocc
  cases hocc

theorem Heap.create_tidy (id : HeapId) (config : Config) : (Heap.create id config).Tidy where
  generations := rfl
  marks := rfl
  free_nodup := List.nodup_nil
  mem_free slot := by simp [Heap.create]
  live := rfl

/-- Counting over a range goes up by one when one more number of it counts. -/
theorem countP_range_insert {n a : Nat} {p q : Nat → Bool} (ha : a < n)
    (hpa : p a = false) (hqa : q a = true) (hne : ∀ i, i ≠ a → q i = p i) :
    (List.range n).countP q = (List.range n).countP p + 1 := by
  induction n with
  | zero => exact absurd ha (Nat.not_lt_zero a)
  | succ n ih =>
    rw [List.range_succ, List.countP_append, List.countP_append]
    rcases Nat.lt_succ_iff_lt_or_eq.1 ha with hlt | rfl
    · have hn : q n = p n := hne n (by omega)
      have hlast : [n].countP q = [n].countP p := by simp only [List.countP_singleton, hn]
      rw [ih hlt, hlast]
      omega
    · have hsame : (List.range a).countP q = (List.range a).countP p :=
        List.countP_congr fun i hi => by
          rw [hne i (Nat.ne_of_lt (List.mem_range.1 hi))]
      rw [hsame, List.countP_singleton, List.countP_singleton, hpa, hqa]
      rfl

namespace Memory

/-- What giving a slot to the object `id` does to a slot table. -/
structure SlotTaken (h : Heap) (id : ObjectId) (t : Heap) (p : Placement) : Prop where
  heap : p.heap = h.id
  unswept : p.swept = false
  vacant : h.occupant p.slot = none
  occupant : ∀ slot, t.occupant slot = if slot = p.slot then some id else h.occupant slot
  generation : ∀ slot, t.generations[slot]? =
    if slot = p.slot then some p.generation else h.generations[slot]?

theorem takeSlot_taken {h : Heap} (hh : h.Tidy) (id : ObjectId) :
    SlotTaken h id (takeSlot h id).1 (takeSlot h id).2 := by
  unfold takeSlot
  split
  · next slot hback =>
    obtain ⟨hlt, hvacant⟩ := (hh.mem_free slot).1 (Array.mem_of_back? hback)
    have hgen : slot < h.generations.size := hh.generations ▸ hlt
    refine ⟨rfl, rfl, hvacant, fun i => ?_, fun i => ?_⟩
    · simp only [Heap.occupant, Array.getElem?_setIfInBounds]
      by_cases hi : i = slot
      · simp [hi, hlt]
      · simp [hi, Ne.symm hi]
    · rw [Array.getElem?_setIfInBounds]
      by_cases hi : i = slot
      · simp [hi, hgen]
      · simp [hi, Ne.symm hi]
  · refine ⟨rfl, rfl, ?_, fun i => ?_, fun i => ?_⟩
    · simp [Heap.occupant]
    · simp only [Heap.occupant, Array.getElem?_push]
      split <;> rfl
    · simp only [Array.getElem?_push, hh.generations]

/-- A slot is added only where every other one is occupied. -/
theorem size_takeSlot {h : Heap} (hh : h.Tidy) (id : ObjectId) :
    (takeSlot h id).1.slots.size = h.slots.size ∨
      (takeSlot h id).1.slots.size = h.live + 1 := by
  unfold takeSlot
  split
  · exact Or.inl Array.size_setIfInBounds
  · next hback =>
    have hnone : h.free = #[] := Array.back?_eq_none_iff.1 hback
    have hfull : h.occupiedCount = (List.range h.slots.size).length := by
      rw [Heap.occupiedCount, List.countP_eq_length]
      intro slot hslot
      by_contra hempty
      have hfree := (hh.mem_free slot).2 ⟨List.mem_range.1 hslot, by simpa using hempty⟩
      rw [hnone] at hfree
      exact absurd hfree (Array.not_mem_empty slot)
    rw [List.length_range, ← hh.live] at hfull
    exact Or.inr ((Array.size_push _).trans (congrArg (· + 1) hfull.symm))

/-- The last free slot of a tidy table is listed once. -/
theorem free_eq_push {h : Heap} (hh : h.Tidy) {slot : Nat} (hback : h.free.back? = some slot) :
    h.free.pop.toList.Nodup ∧ ∀ i, i ∈ h.free.pop ↔ i ∈ h.free ∧ i ≠ slot := by
  obtain ⟨front, hfront⟩ := Array.back?_eq_some_iff.1 hback
  have hnodup := hh.free_nodup
  rw [hfront, Array.toList_push, List.nodup_append_comm] at hnodup
  obtain ⟨hnot, hfrontNodup⟩ := List.nodup_cons.1 hnodup
  rw [hfront, Array.pop_push]
  refine ⟨hfrontNodup, fun i => ?_⟩
  rw [Array.mem_push]
  constructor
  · intro hi
    exact ⟨Or.inl hi, fun heq => hnot (heq ▸ hi.val)⟩
  · rintro ⟨hi | hi, hne⟩
    · exact hi
    · exact absurd hi hne

theorem takeSlot_tidy_of_free {h : Heap} (hh : h.Tidy) (id : ObjectId) {slot : Nat}
    (hback : h.free.back? = some slot) : (takeSlot h id).1.Tidy := by
  have htaken := takeSlot_taken hh id
  obtain ⟨hlt, hvacant⟩ := (hh.mem_free slot).1 (Array.mem_of_back? hback)
  obtain ⟨hnodup, hmem⟩ := free_eq_push hh hback
  simp only [takeSlot, hback] at htaken ⊢
  constructor
  · simp only [Array.size_setIfInBounds]
    exact hh.generations
  · simp only [Array.size_setIfInBounds]
    exact hh.marks
  · exact hnodup
  · intro i
    rw [htaken.occupant i, hmem, hh.mem_free, Array.size_setIfInBounds]
    by_cases hi : i = slot <;> simp [hi]
  · rw [Heap.occupiedCount, Array.size_setIfInBounds,
      countP_range_insert (p := fun i => (h.occupant i).isSome) hlt, hh.live]
    · rfl
    · simp [hvacant]
    · rw [htaken.occupant slot]
      simp
    · intro i hi
      rw [htaken.occupant i]
      simp [hi]

theorem takeSlot_tidy_of_full {h : Heap} (hh : h.Tidy) (id : ObjectId)
    (hback : h.free.back? = none) : (takeSlot h id).1.Tidy := by
  have htaken := takeSlot_taken hh id
  have hfree : h.free = #[] := Array.back?_eq_none_iff.1 hback
  simp only [takeSlot, hback] at htaken ⊢
  constructor
  · simp only [Array.size_push, hh.generations]
  · rw [hh.marks, Array.size_push, ← Array.replicate_succ]
  · rw [hfree]
    exact List.nodup_nil
  · intro i
    have hfull : ¬ (i < h.slots.size ∧ h.occupant i = none) := by
      rw [← hh.mem_free i, hfree]
      exact Array.not_mem_empty i
    rw [htaken.occupant i, hfree, Array.size_push]
    simp only [Array.not_mem_empty, false_iff]
    split
    · simp
    · next hi => exact fun hnone => hfull ⟨by omega, hnone.2⟩
  · have hold : (List.range h.slots.size).countP (fun i =>
        ((if i = h.slots.size then some id else h.occupant i) : Option ObjectId).isSome) =
        h.occupiedCount := by
      refine List.countP_congr fun i hi => ?_
      rw [if_neg (Nat.ne_of_lt (List.mem_range.1 hi))]
    rw [Heap.occupiedCount, Array.size_push, List.range_succ, List.countP_append,
      List.countP_singleton, funext htaken.occupant, hold, hh.live]
    simp

/-- Taking a slot leaves the table tidy. -/
theorem takeSlot_tidy {h : Heap} (hh : h.Tidy) (id : ObjectId) : (takeSlot h id).1.Tidy := by
  cases hback : h.free.back? with
  | none => exact takeSlot_tidy_of_full hh id hback
  | some slot => exact takeSlot_tidy_of_free hh id hback

theorem mem_condemned {h : Heap} {marks : Array Bool} {slot : Nat} :
    slot ∈ condemned h marks ↔ (h.occupant slot).isSome ∧ marks[slot]? ≠ some true := by
  have hmark : marks[slot]?.getD false = false ↔ marks[slot]? ≠ some true := by
    cases marks[slot]? with
    | none => simp
    | some mark => cases mark <;> simp
  have hlt : (h.occupant slot).isSome → slot < h.slots.size := fun hsome =>
    Heap.lt_size_of_occupant (Option.eq_some_of_isSome hsome)
  simp only [condemned, List.mem_filter, List.mem_range, Bool.and_eq_true, Bool.not_eq_true',
    hmark]
  exact ⟨fun hmem => hmem.2, fun hmem => ⟨hlt hmem.1, hmem⟩⟩

theorem condemned_sorted (h : Heap) (marks : Array Bool) :
    (condemned h marks).Pairwise (· < ·) :=
  List.Pairwise.sublist List.filter_sublist List.pairwise_lt_range

theorem getElem?_emptySlots (slots : Array (Option ObjectId)) (emptied : List Nat) (i : Nat) :
    (emptySlots slots emptied)[i]? = if i ∈ emptied then slots[i]?.map fun _ => none
      else slots[i]? := by
  unfold emptySlots
  induction emptied generalizing slots with
  | nil => rfl
  | cons slot rest ih =>
    rw [List.foldl_cons, ih, Array.getElem?_setIfInBounds]
    by_cases hslot : slot = i
    · subst hslot
      by_cases hlt : slot < slots.size <;> simp [hlt]
    · simp [hslot, Ne.symm hslot]

theorem size_emptySlots (slots : Array (Option ObjectId)) (emptied : List Nat) :
    (emptySlots slots emptied).size = slots.size := by
  unfold emptySlots
  induction emptied generalizing slots with
  | nil => rfl
  | cons slot rest ih => rw [List.foldl_cons, ih, Array.size_setIfInBounds]

theorem occupant_sweepHeap (h : Heap) (marks : Array Bool) (slot : Nat) :
    (sweepHeap h marks).occupant slot =
      if marks[slot]? = some true then h.occupant slot else none := by
  have hempty : (sweepHeap h marks).occupant slot =
      if slot ∈ condemned h marks then none else h.occupant slot := by
    simp only [Heap.occupant, sweepHeap, getElem?_emptySlots]
    split
    · cases h.slots[slot]? <;> rfl
    · rfl
  rw [hempty]
  simp only [mem_condemned]
  cases hocc : h.occupant slot with
  | none => simp
  | some id => by_cases hmark : marks[slot]? = some true <;> simp [hmark]

theorem survivorCount_eq (h : Heap) (marks : Array Bool) :
    survivorCount h marks = (sweepHeap h marks).occupiedCount := by
  have hsize : (sweepHeap h marks).slots.size = h.slots.size := size_emptySlots ..
  rw [Heap.occupiedCount, hsize]
  refine List.countP_congr fun slot _ => ?_
  rw [occupant_sweepHeap, Heap.occupant]
  cases marks[slot]? with
  | none => simp
  | some mark => cases mark <;> simp

/-- Sweeping leaves the table tidy, whatever is marked. -/
theorem sweepHeap_tidy {h : Heap} (hh : h.Tidy) (marks : Array Bool) :
    (sweepHeap h marks).Tidy := by
  have hsize : (sweepHeap h marks).slots.size = h.slots.size := size_emptySlots ..
  have hfree : ∀ slot, slot ∈ (sweepHeap h marks).free ↔
      slot ∈ h.free ∨ slot ∈ condemned h marks := by
    intro slot
    rw [sweepHeap, Array.mem_def, Array.toList_appendList, List.mem_append, Array.mem_def]
  constructor
  · rw [hsize]
    exact hh.generations
  · rw [hsize]
    rfl
  · have hdisjoint : h.free.toList.Disjoint (condemned h marks) := by
      intro slot hmem hgone
      have hnone := ((hh.mem_free slot).1 (Array.mem_def.2 hmem)).2
      have hsome := (mem_condemned.1 hgone).1
      rw [hnone] at hsome
      cases hsome
    rw [sweepHeap, Array.toList_appendList]
    exact List.Nodup.append hh.free_nodup
      (List.Pairwise.imp Nat.ne_of_lt (condemned_sorted h marks)) hdisjoint
  · intro slot
    rw [hfree, hh.mem_free, mem_condemned, hsize, occupant_sweepHeap]
    cases hocc : h.occupant slot with
    | none => simp
    | some id =>
      have hlt := Heap.lt_size_of_occupant hocc
      by_cases hmark : marks[slot]? = some true <;> simp [hmark, hlt]
  · exact survivorCount_eq h marks

end Memory

end StackVm
