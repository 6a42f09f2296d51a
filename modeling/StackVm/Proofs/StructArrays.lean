/-
The arrays that structs are listed in.  The strings for the names are made one after another, any
of which may collect, while the array that takes them is on the stack.
-/
import StackVm.Proofs.StructFields

namespace StackVm

open List (Forall₂)

/-- What an array holds after an object has been appended. -/
theorem mem_referents_push {xs : Array Value} {i id : ObjectId}
    (h : i ∈ referents (xs.push (.object id)).toList) : i ∈ referents xs.toList ∨ i = id := by
  rw [Array.toList_push, referents, List.filterMap_append, List.mem_append] at h
  exact h.imp_right List.mem_singleton.1

namespace Memory

variable {m n : Memory} {id a : ObjectId} {xs : Array Value}

theorem array?_eq_some : m.array? id = some xs ↔ m.payload? id = some (.array xs) := by
  rw [array?_eq]
  constructor
  · intro h
    split at h
    · next hp =>
      cases h
      exact hp
    · cases h
  · intro h
    rw [h]

theorem references_congr (hchunks : n.chunks = m.chunks) (h : n.payload? id = m.payload? id) :
    n.references id = m.references id := by
  rw [references_eq, references_eq, hchunks, h]

theorem payload?_modifyArray (m : Memory) (a : ObjectId) (f : Array Value → Array Value)
    (i : ObjectId) : (m.modifyArray a f).payload? i =
      if a = i then (m.payload? i).map fun
          | .array elements => .array (f elements)
          | p => p
      else m.payload? i :=
  payload?_modifyPayload m a _ i

/-- There are more objects, and all that were there but `a` have the contents they had. -/
structure GrowsBut (a : ObjectId) (m n : Memory) : Prop where
  size : m.objects.size ≤ n.objects.size
  payload : ∀ i < m.objects.size, i ≠ a → n.payload? i = m.payload? i

theorem GrowsBut.refl (a : ObjectId) (m : Memory) : m.GrowsBut a m where
  size := Nat.le_refl _
  payload _ _ _ := rfl

theorem GrowsBut.trans {o : Memory} (h : m.GrowsBut a n) (h' : n.GrowsBut a o) :
    m.GrowsBut a o where
  size := h.size.trans h'.size
  payload i hi hne := (h'.payload i (Nat.lt_of_lt_of_le hi h.size) hne).trans (h.payload i hi hne)

end Memory

namespace Exec

variable {s t : Execution} {others : Holdings} {held : RootId → List ObjectId} {a id : ObjectId}
  {xs below : Array Value} {r : Record}

/-- The state after one name has been made a string and appended. -/
theorem appended_ok {name : Text} {key : ObjectId} (hxs : s.memory.array? a = some xs)
    (h : alloc others (.string name) s = .ok key t) :
    key = s.memory.objects.size ∧
    (t.memory.modifyArray a (·.push (.object key))).array? a = some (xs.push (.object key)) ∧
    (t.memory.modifyArray a (·.push (.object key))).payload? key = some (.string name) ∧
    (t.memory.modifyArray a (·.push (.object key))).objects.size = s.memory.objects.size + 1 ∧
    s.memory.GrowsBut a (t.memory.modifyArray a (·.push (.object key))) := by
  obtain ⟨rfl, -, hsize, hpayload⟩ := Execution.alloc_ok h
  have ha := Memory.array?_eq_some.1 hxs
  have hlt := Memory.lt_size_of_payload? ha
  have hsize' : (t.memory.modifyArray a
      (·.push (.object s.memory.objects.size))).objects.size = s.memory.objects.size + 1 := by
    rw [← hsize]
    exact Array.size_modify
  refine ⟨rfl, ?_, ?_, hsize', by omega, fun i hi hne => ?_⟩
  · rw [Memory.array?_eq_some, Memory.payload?_modifyArray, if_pos rfl,
      Memory.payload?_of_added hpayload ha]
    rfl
  · rw [Memory.payload?_modifyArray, if_neg (Nat.ne_of_lt hlt), hpayload, if_pos rfl]
  · rw [Memory.payload?_modifyArray, if_neg (Ne.symm hne), hpayload, if_neg (Nat.ne_of_lt hi)]

/-- The names come behind what the array has, each as a new string. -/
theorem appendNames_ok {names : List Text} (hxs : s.memory.array? a = some xs)
    (h : appendNames (alloc others) a names s = .ok () t) :
    t = { s with memory := t.memory } ∧ s.memory.GrowsBut a t.memory ∧
    ∃ keys : List ObjectId,
      t.memory.array? a = some (xs ++ (keys.map Value.object).toArray) ∧
      Forall₂ (fun key name => t.memory.string? key = some name) keys names ∧
      keys.Nodup ∧ ∀ key ∈ keys, s.memory.objects.size ≤ key := by
  induction names generalizing s xs with
  | nil =>
    cases h
    exact ⟨rfl, .refl a _, [], by simpa using hxs, .nil, .nil, nofun⟩
  | cons name rest ih =>
    obtain ⟨key, u, halloc, hrest⟩ := bind_ok h
    obtain ⟨rfl, helements, hstring, hsize, hgrows⟩ := appended_ok hxs halloc
    let pushed : Execution :=
      { u with memory := u.memory.modifyArray a (·.push (.object s.memory.objects.size)) }
    have hrest' : appendNames (alloc others) a rest pushed = .ok () t := hrest
    obtain ⟨hsame, hgrows', keys, hlist, hstrings, hnodup, hfresh⟩ := ih helements hrest'
    have hlt := Memory.lt_size_of_payload? (Memory.array?_eq_some.1 hxs)
    have hlater : ∀ key ∈ keys, s.memory.objects.size + 1 ≤ key := fun key hkey =>
      hsize ▸ hfresh key hkey
    refine ⟨?_, hgrows.trans hgrows', s.memory.objects.size :: keys, ?_, .cons ?_ hstrings, ?_, ?_⟩
    · rw [hsame]
      dsimp only [pushed]
      rw [(Execution.alloc_ok halloc).2.1]
    · rw [hlist]
      simp
    · rw [Memory.string?_eq_some, hgrows'.payload _ (by rw [hsize]; exact Nat.lt_succ_self _)
        (Nat.ne_of_gt hlt)]
      exact hstring
    · exact List.nodup_cons.2 ⟨fun hmem => Nat.not_succ_le_self _ (hlater _ hmem), hnodup⟩
    · intro key hkey
      rcases List.mem_cons.1 hkey with rfl | hkey
      · exact Nat.le_refl _
      · exact Nat.le_of_succ_le (hlater key hkey)

/-- All names are appended where there is room for as many strings. -/
theorem appendNames_of_room {names : List Text} (hxs : s.memory.array? a = some xs)
    (hroom : s.HasRoom held names.length) :
    ∃ t, appendNames (alloc (.of held)) a names s = .ok () t := by
  induction names generalizing s xs with
  | nil => exact ⟨s, rfl⟩
  | cons name rest ih =>
    obtain ⟨m, hm, hnew, halloc⟩ := hroom.alloc (.string name)
    obtain ⟨-, helements, hstring, -, hgrows⟩ := appended_ok hxs halloc
    have hleft : Execution.HasRoom held rest.length { s with
        memory := m.modifyArray a (·.push (.object s.memory.objects.size)) } := by
      refine hroom.grow hm hnew rfl (fun i => m.placement?_modifyPayload a _ i) rfl
        (fun i hi => Or.inl (.start (Or.inl hi))) fun i hi j hj => ?_
      rcases hi with hi | rfl
      · by_cases hia : i = a
        · subst hia
          rw [Memory.references_eq, Memory.array?_eq_some.1 helements] at hj
          refine (mem_referents_push hj).imp_left fun hold => hi.reference ?_
          rw [Memory.references_eq, Memory.array?_eq_some.1 hxs]
          exact hold
        · have hsame : (m.modifyArray a (·.push (.object s.memory.objects.size))).references i =
              s.memory.references i :=
            Memory.references_congr hm.chunks (hgrows.payload i (hroom.owns hi).lt_size hia)
          exact Or.inl (hi.reference (hsame ▸ hj))
      · rw [Memory.references_eq, hstring] at hj
        cases hj
    obtain ⟨t, ht⟩ := ih helements hleft
    refine ⟨t, ?_⟩
    rw [appendNames, bind_apply, halloc]
    exact ht

/-! ### Whole instructions -/

/-- The names of a struct have become an array of new strings. -/
theorem keys_ok (h : s.machine.stack = below.push (.object id)) (hr : s.memory.struct? id = some r)
    (hok : keys (alloc others) s = .ok () t) :
    ∃ (a : ObjectId) (keys : List ObjectId), t.machine.stack = below.push (.object a) ∧
      t.memory.array? a = some (keys.map Value.object).toArray ∧
      Forall₂ (fun key name => t.memory.string? key = some name) keys r.names ∧
      keys.Nodup ∧ ∀ key ∈ keys, s.memory.objects.size ≤ key := by
  rw [keys, peek_zero_bind h, struct?_bind hr] at hok
  obtain ⟨a, u, halloc, hrest⟩ := bind_ok hok
  obtain ⟨rfl, hu, hsize, hpayload⟩ := Execution.alloc_ok halloc
  have hr' : u.memory.struct? id = some r :=
    Memory.struct?_eq_some.2 (Memory.payload?_of_added hpayload (Memory.struct?_eq_some.1 hr))
  have hempty : u.memory.array? s.memory.objects.size = some #[] := by
    rw [Memory.array?_eq_some, hpayload, if_pos rfl]
  have hstack : u.machine.stack = below.push (.object id) := by rw [hu, h]
  obtain ⟨_, pushed, hpush, hnames⟩ := bind_ok hrest
  rw [push_eq] at hpush
  split at hpush
  case isFalse => cases hpush
  case isTrue hroom =>
    cases hpush
    rw [hstack, Array.size_push] at hroom
    rw [get_bind_apply, hr', present_bind] at hnames
    obtain ⟨_, named, hnamed, htop⟩ := bind_ok hnames
    obtain ⟨hsame, -, keys, hlist, hstrings, hnodup, hfresh⟩ :=
      appendNames_ok (by exact hempty) hnamed
    have htwo : named.machine.stack =
        (below.push (.object id)).push (.object s.memory.objects.size) := by
      rw [hsame]
      exact congrArg (·.push (Value.object s.memory.objects.size)) hstack
    have hlimit : below.size < named.machine.stackMax := by
      rw [hsame]
      exact Nat.lt_of_succ_lt hroom
    rw [replaceTwo_apply htwo hlimit] at htop
    cases htop
    refine ⟨s.memory.objects.size, keys, rfl, ?_, hstrings, hnodup, fun key hkey => ?_⟩
    · rw [Array.empty_append] at hlist
      exact hlist
    · have hle : u.memory.objects.size ≤ key := hfresh key hkey
      exact Nat.le_of_succ_le (hsize.ge.trans hle)

/-- Nothing keeps the names from being listed where there is room for the array and a string for
each name. -/
theorem keys_of_room (h : s.machine.stack = below.push (.object id))
    (hdepth : s.machine.stack.size < s.machine.stackMax) (hr : s.memory.struct? id = some r)
    (hroom : s.HasRoom held (r.size + 1)) : ∃ t, keys (alloc (.of held)) s = .ok () t := by
  obtain ⟨m, hm, hnew, halloc⟩ := hroom.alloc (.array #[])
  obtain ⟨-, -, -, hpayload⟩ := Execution.alloc_ok halloc
  let pushed : Execution := Execution.withStack { s with memory := m }
    (s.machine.stack.push (.object s.memory.objects.size))
  have hr' : pushed.memory.struct? id = some r :=
    Memory.struct?_eq_some.2 (Memory.payload?_of_added hpayload (Memory.struct?_eq_some.1 hr))
  have hempty : pushed.memory.array? s.memory.objects.size = some #[] := by
    rw [Memory.array?_eq_some]
    exact (hpayload _).trans (if_pos rfl)
  have hleft : pushed.HasRoom held r.names.length := by
    have hcount : r.names.length = r.size := rfl
    rw [hcount]
    refine hroom.grow hm hnew rfl (fun _ => rfl) rfl (fun i hi => ?_) fun i hi j hj => ?_
    · rw [Machine.mem_holds] at hi
      rcases hi with hi | hi
      · exact (mem_referents_push hi).imp_left fun hold =>
          .start (Or.inl (Machine.mem_holds.2 (Or.inl hold)))
      · exact Or.inl (.start (Or.inl (Machine.mem_holds.2 (Or.inr hi))))
    · rcases hi with hi | rfl
      · have hsame : m.references i = s.memory.references i := Memory.references_congr hm.chunks
          ((hm.payload i).trans (if_neg (Nat.ne_of_lt (hroom.owns hi).lt_size)))
        exact Or.inl (hi.reference (hsame ▸ hj))
      · rw [Memory.references_eq, Memory.array?_eq_some.1 hempty] at hj
        cases hj
  obtain ⟨named, hnamed⟩ := appendNames_of_room hempty hleft
  obtain ⟨hsame, -⟩ := appendNames_ok hempty hnamed
  have hpush : push (.object s.memory.objects.size) { s with memory := m } = .ok () pushed :=
    (push_eq _ _).trans (if_pos hdepth)
  have htwo : named.machine.stack =
      (below.push (.object id)).push (.object s.memory.objects.size) := by
    rw [hsame, ← h]
    rfl
  have hlimit : below.size < named.machine.stackMax := by
    rw [hsame]
    rw [h, Array.size_push] at hdepth
    exact Nat.lt_of_succ_lt hdepth
  refine ⟨named.withStack (below.push (.object s.memory.objects.size)), ?_⟩
  rw [keys, peek_zero_bind h, struct?_bind hr]
  dsimp only
  rw [bind_apply, halloc]
  dsimp only
  rw [bind_apply, hpush]
  dsimp only
  rw [get_bind_apply, hr', present_bind, bind_apply, hnamed]
  exact replaceTwo_apply htwo hlimit _

/-- The values of a struct have become an array. -/
theorem values_ok (h : s.machine.stack = below.push (.object id))
    (hdepth : below.size < s.machine.stackMax) (hr : s.memory.struct? id = some r)
    (hok : values (alloc others) s = .ok () t) :
    ∃ a : ObjectId, t.machine.stack = below.push (.object a) ∧
      t.memory.array? a = some r.values.toArray := by
  rw [values, peek_zero_bind h, struct?_bind hr] at hok
  obtain ⟨a, u, halloc, htop⟩ := bind_ok hok
  obtain ⟨rfl, hu, -, hpayload⟩ := Execution.alloc_ok halloc
  have hstack : u.machine.stack = below.push (.object id) := by rw [hu, h]
  have hlimit : below.size < u.machine.stackMax := by rwa [hu]
  rw [replaceTop_apply hstack hlimit] at htop
  cases htop
  exact ⟨s.memory.objects.size, rfl, Memory.array?_eq_some.2 ((hpayload _).trans (if_pos rfl))⟩

theorem values_of_room (h : s.machine.stack = below.push (.object id))
    (hdepth : below.size < s.machine.stackMax) (hr : s.memory.struct? id = some r)
    (hroom : s.HasRoom held 1) : ∃ t, values (alloc (.of held)) s = .ok () t := by
  obtain ⟨m, -, -, halloc⟩ := hroom.alloc (.array r.values.toArray)
  refine ⟨Execution.withStack { s with memory := m }
    (below.push (.object s.memory.objects.size)), ?_⟩
  rw [values, peek_zero_bind h, struct?_bind hr]
  dsimp only
  rw [bind_apply, halloc]
  exact @replaceTop_apply { s with memory := m } _ _ h hdepth _

end Exec

end StackVm
