/-
Room on a heap.  Where the objects that can be reached leave room below the object limit, an
allocation succeeds, and it takes as much of the room as comes within reach.
-/
import StackVm.Proofs.ErrorPaths
import StackVm.Proofs.Watched

namespace StackVm

/-- Everything in reach is on the heap, and there may be `count` objects more. -/
structure Execution.HasRoom (held : RootId → List ObjectId) (count : Nat) (s : Execution) :
    Prop where
  sound : s.Sound (.of held)
  registered : (Ground.of held s).Registered
  limit : 0 < s.memory.heap.config.maxObjects →
    ({i | s.Reaches (Ground.of held s) i}.ncard : Int) + count ≤
      s.memory.heap.config.maxObjects.toInt

namespace Execution.HasRoom

variable {held : RootId → List ObjectId} {count left : Nat} {s t : Execution}

theorem carries (h : s.HasRoom held count) : (Ground.of held s).Carries s :=
  ⟨h.sound.wellFormed, rfl, rfl, rfl, rfl⟩

theorem owns (h : s.HasRoom held count) {i : ObjectId} (hi : s.Reaches (Ground.of held s) i) :
    s.memory.Owns i :=
  h.sound.owns i (h.carries.reachable h.registered ▸ hi)

/-- An allocation succeeds where there is room for one object. -/
theorem alloc (h : s.HasRoom held (count + 1)) (p : Payload) :
    ∃ m, s.memory.Grown (s.machine.holdings (.of held)) p m ∧ m.Owns s.memory.objects.size ∧
      Exec.alloc (.of held) p s = .ok s.memory.objects.size { s with memory := m } := by
  obtain ⟨m, hm, ⟨-, hnew, halloc⟩ | ⟨⟨hlimited, hfull⟩, -⟩⟩ :=
    h.carries.alloc h.registered (fun i hi => h.owns hi) p
  · exact ⟨m, hm, hnew, halloc⟩
  · have hroom := h.limit hlimited
    have hfull' : s.memory.heap.config.maxObjects.toInt ≤
      ({i | s.Reaches (Ground.of held s) i}.ncard : Int) := hfull
    omega

/-- The room that is left on the same ground, as objects come within reach and get out of it. -/
theorem of_ncard (h : s.HasRoom held count) (hcarries : (Ground.of held s).Carries t)
    (howns : ∀ i, t.Reaches (Ground.of held s) i → t.memory.Owns i)
    (hncard : {i | t.Reaches (Ground.of held s) i}.ncard + left ≤
      {i | s.Reaches (Ground.of held s) i}.ncard + count) : t.HasRoom held left := by
  have hground : Ground.of held t = { Ground.of held s with size := t.memory.objects.size } :=
    hcarries.of_eq
  have hregistered : (Ground.of held t).Registered := by
    rw [hground]
    exact h.registered
  have hcarries' : (Ground.of held t).Carries t := ⟨hcarries.wellFormed, rfl, rfl, rfl, rfl⟩
  -- The ground is the same but for the number of objects, which no reach depends on.
  have hreach : t.Reaches (Ground.of held t) = t.Reaches (Ground.of held s) := by
    rw [hground]
    rfl
  constructor
  case sound =>
    refine ⟨hcarries.wellFormed, fun i hi => howns i ?_⟩
    have hi' : t.Reaches (Ground.of held t) i := hcarries'.reachable hregistered ▸ hi
    rwa [hreach] at hi'
  case registered => exact hregistered
  case limit =>
    have hlimit : t.memory.heap.config.maxObjects = s.memory.heap.config.maxObjects :=
      hcarries.limit
    rw [hlimit, hreach]
    intro hlimited
    have hroom := h.limit hlimited
    omega

theorem finite (h : s.HasRoom held count) : {i | s.Reaches (Ground.of held s) i}.Finite :=
  (Set.finite_lt_nat s.memory.objects.size).subset fun _ hi => (h.owns hi).lt_size

/-- The same heap has the same room as long as nothing more is in reach. -/
theorem of_holds (h : s.HasRoom held count) (hmemory : t.memory = s.memory)
    (hsource : t.machine.source = s.machine.source)
    (hholds : ∀ i ∈ t.machine.holds, s.Reaches (Ground.of held s) i) : t.HasRoom held count := by
  have hsub : ∀ i, t.Reaches (Ground.of held s) i → s.Reaches (Ground.of held s) i := by
    intro i hi
    refine hi.subset (fun j hj => ?_) fun j hj other hother => ?_
    · exact hj.elim (hholds j) fun hj => .start (Or.inr hj)
    · rw [hmemory] at hother
      exact hj.reference hother
  have hcarries : (Ground.of held s).Carries t := by
    rw [Ground.of, ← hmemory, ← hsource]
    exact ⟨hmemory ▸ h.sound.wellFormed, rfl, rfl, rfl, rfl⟩
  refine h.of_ncard hcarries (fun i hi => ?_) ?_
  · rw [hmemory]
    exact h.owns (hsub i hi)
  · exact Nat.add_le_add_right (Set.ncard_le_ncard hsub h.finite) count

/-- An object that has been made takes room for one as it comes within reach. -/
theorem grow (h : s.HasRoom held (count + 1)) {p : Payload} {m : Memory}
    (hm : s.memory.Grown (s.machine.holdings (.of held)) p m) (hnew : m.Owns s.memory.objects.size)
    (hheap : t.memory.heap = m.heap) (hplacement : ∀ i, t.memory.placement? i = m.placement? i)
    (hsource : t.machine.source = s.machine.source)
    (hholds : ∀ i ∈ t.machine.holds,
      s.Reaches (Ground.of held s) i ∨ i = s.memory.objects.size)
    (hreferences : ∀ i, s.Reaches (Ground.of held s) i ∨ i = s.memory.objects.size →
      ∀ j ∈ t.memory.references i, s.Reaches (Ground.of held s) j ∨ j = s.memory.objects.size) :
    t.HasRoom held count := by
  have hsub : ∀ i, t.Reaches (Ground.of held s) i →
      s.Reaches (Ground.of held s) i ∨ i = s.memory.objects.size := fun i hi =>
    hi.subset (fun j hj => hj.elim (hholds j) fun hj => Or.inl (.start (Or.inr hj))) hreferences
  have hsame : t.memory.WellFormed ∧ ∀ i, m.Owns i → t.memory.Owns i :=
    ⟨hm.wellFormed.of_placements hheap fun i p _ => by rw [hplacement],
      fun i ⟨p, hp⟩ => ⟨p, (hplacement i).trans hp.found, hheap ▸ hp.heap, hp.unswept⟩⟩
  refine h.of_ncard ⟨hsame.1, hsource, ?_, ?_, ?_⟩ (fun i hi => hsame.2 i ?_) ?_
  · exact (congrArg Heap.roots hheap).trans hm.same.roots
  · exact (congrArg Heap.pins hheap).trans hm.same.pins
  · rw [hheap, hm.same.config]
    rfl
  · rcases hsub i hi with hi | rfl
    · exact hm.owns (h.carries.reachable h.registered ▸ hi) (h.owns hi)
    · exact hnew
  · have hle : {i | t.Reaches (Ground.of held s) i}.ncard ≤
        {i | s.Reaches (Ground.of held s) i}.ncard + 1 :=
      (Set.ncard_le_ncard (fun i hi => (hsub i hi).symm) (h.finite.insert _)).trans
        (Set.ncard_insert_le _ _)
    omega

end Execution.HasRoom

/-! ### The start of an instruction -/

theorem Machine.mem_holds_ahead {m : Machine} {n : Nat} {i : ObjectId}
    (hi : i ∈ (m.ahead n).holds) : i ∈ m.holds := by
  rw [Machine.mem_holds] at hi ⊢
  refine hi.imp_right (Or.imp_left ?_)
  rintro ⟨f, hf, rfl⟩
  rw [Machine.ahead] at hf
  cases hframes : m.frames with
  | nil =>
    rw [hframes] at hf
    cases hf
  | cons g callers =>
    rw [hframes, List.modifyHead_cons, List.mem_cons] at hf
    rcases hf with rfl | hf
    · exact ⟨g, List.mem_cons_self, rfl⟩
    · exact ⟨f, List.mem_cons_of_mem g hf, rfl⟩

theorem Machine.frames_of_ahead {m : Machine} {n : Nat} {f : Frame} {callers : List Frame}
    (h : (m.ahead n).frames = f :: callers) : ∃ g, m.frames = g :: callers ∧ g.base = f.base := by
  rw [Machine.ahead] at h
  cases hframes : m.frames with
  | nil =>
    rw [hframes] at h
    cases h
  | cons g rest =>
    rw [hframes] at h
    cases h
    exact ⟨g, rfl, rfl⟩

/-- An opcode is read with room on the stack, and nothing else has changed then but the error
output. -/
theorem Execution.fetch_of_opcode {s : Execution} {op : Opcode} (h : s.opcode? = some op) :
    s.machine.stack.size < s.machine.stackMax ∧ ∃ byte err, Opcode.ofByte? byte = some op ∧
      Exec.fetch s = .ok byte { s with err, machine := s.machine.ahead 1 } := by
  have hfetch := Exec.fetch_cases s
  rw [opcode?] at h
  rcases hfetch with hfetch | ⟨cause, -, hfetch⟩ | ⟨f, callers, c, n, byte, err, hs, hbyte, hfetch⟩
  · rw [hfetch] at h
    cases h
  · rw [hfetch] at h
    cases h
  · have hroom : s.machine.stack.size < s.machine.stackMax := by
      refine Nat.not_le.1 fun hfull => ?_
      have hinside : f.ip < c.code.size := by
        have hlt : n < c.code.size := (Array.getElem?_eq_some_iff.1 hbyte).1
        rw [hs.offset]
        exact Int.ofNat_lt.2 hlt
      cases hfetch.symm.trans (Exec.fetch_full hs.frames hs.code hinside hfull)
    rw [hfetch] at h
    exact ⟨hroom, byte, err, h, hfetch⟩

theorem Exec.step_of_fetch {s u : Execution} {byte : UInt8} {op : Opcode}
    (hfetch : fetch s = .ok byte u) (hop : Opcode.ofByte? byte = some op) (make : Allocator) :
    step make s = (demand op >>= fun _ => perform make op) u := by
  rw [step_eq, bind_apply, hfetch]
  dsimp only
  rw [hop]

/-- An instruction is carried out behind its opcode. -/
theorem Execution.step_of_opcode {s : Execution} {op : Opcode} (h : s.opcode? = some op)
    (make : Exec.Allocator) : s.machine.stack.size < s.machine.stackMax ∧
    ∃ err, Exec.step make s = (Exec.demand op >>= fun _ => Exec.perform make op)
      { s with err, machine := s.machine.ahead 1 } := by
  obtain ⟨hroom, byte, err, hop, hfetch⟩ := s.fetch_of_opcode h
  exact ⟨hroom, err, Exec.step_of_fetch hfetch hop make⟩

/-- Reading an opcode leaves the room on the heap. -/
theorem Execution.HasRoom.fetched {held : RootId → List ObjectId} {count : Nat} {s : Execution}
    (h : s.HasRoom held count) (input : Text) (err : Array UInt8) :
    Execution.HasRoom held count { s with err, input, machine := s.machine.ahead 1 } :=
  h.of_holds rfl rfl fun _ hi => .start (Or.inl (Machine.mem_holds_ahead hi))

end StackVm
