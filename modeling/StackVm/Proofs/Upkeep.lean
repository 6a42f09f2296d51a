/-
What running code leaves alone.  No instruction makes a function or changes one, but a call
has its callee verified.  So, as far as verification goes, a run does nothing to a memory
but verify functions, and only a verification that fails ends it.
-/
import StackVm.Proofs.Effects
import StackVm.Proofs.TwinAllocation

namespace StackVm

namespace Memory

variable {m n o : Memory} {id : ObjectId}

/-- Functions and chunks are the same, and all objects keep their kinds. -/
structure Keeps (m n : Memory) : Prop where
  chunks : n.chunks = m.chunks
  kind : ∀ {id p}, m.payload? id = some p → ∃ q, n.payload? id = some q ∧ q.kind = p.kind
  function : ∀ id, n.function? id = m.function? id

theorem Keeps.refl (m : Memory) : m.Keeps m := ⟨rfl, fun h => ⟨_, h, rfl⟩, fun _ => rfl⟩

theorem Keeps.trans (h : m.Keeps n) (h' : n.Keeps o) : m.Keeps o where
  chunks := h'.chunks.trans h.chunks
  kind hp := by
    obtain ⟨q, hq, hkind⟩ := h.kind hp
    obtain ⟨r, hr, hkind'⟩ := h'.kind hq
    exact ⟨r, hr, hkind'.trans hkind⟩
  function i := (h'.function i).trans (h.function i)

/-- The same contents, whatever has become of the heap. -/
theorem Keeps.of_payload? (hchunks : n.chunks = m.chunks)
    (hpayload : ∀ i, n.payload? i = m.payload? i) : m.Keeps n where
  chunks := hchunks
  kind hp := ⟨_, (hpayload _).trans hp, rfl⟩
  function i := by rw [function?_eq, function?_eq, hpayload]

theorem function_none_of_kind {p : Payload} (hkind : p.kind ≠ .function) :
    (match some p with
      | some (.function f) => some f
      | _ => none) = none := by
  cases p with
  | function f => exact absurd rfl hkind
  | _ => rfl

theorem Keeps.modifyPayload {change : Payload → Payload}
    (hkind : ∀ p, m.payload? id = some p → (change p).kind = p.kind)
    (hfunction : ∀ f, m.function? id = some f → change (.function f) = .function f) :
    m.Keeps (m.modifyPayload id change) where
  chunks := rfl
  kind := by
    intro i p hp
    rw [payload?_modifyPayload]
    split
    · next heq =>
      subst heq
      rw [hp]
      exact ⟨_, rfl, hkind p hp⟩
    · exact ⟨p, hp, rfl⟩
  function i := by
    rw [function?_eq, function?_eq, payload?_modifyPayload]
    by_cases hi : id = i
    · subst hi
      rw [if_pos rfl]
      cases hp : m.payload? id with
      | none => rfl
      | some p =>
        rw [Option.map_some]
        have hsame := hkind p hp
        cases p with
        | function f => rw [hfunction f (function?_eq_some.2 hp)]
        | _ =>
          refine function_none_of_kind fun heq => ?_
          cases hsame.symm.trans heq
    · rw [if_neg hi]

theorem Keeps.setFieldOf (m : Memory) (id : ObjectId) (name : Text) (v : Value) :
    m.Keeps (m.setFieldOf id name v) :=
  .modifyPayload (fun p _ => by cases p <;> rfl) fun _ _ => rfl

theorem Keeps.modifyArray (m : Memory) (id : ObjectId) (f : Array Value → Array Value) :
    m.Keeps (m.modifyArray id f) :=
  .modifyPayload (fun p _ => by cases p <;> rfl) fun _ _ => rfl

theorem Keeps.add (m : Memory) {payload : Payload} (hkind : payload.kind ≠ .function) :
    m.Keeps (m.add payload) where
  chunks := rfl
  kind hp := ⟨_, payload?_of_added (m.payload?_add payload) hp, rfl⟩
  function i := by
    rw [function?_eq, function?_eq, payload?_add]
    by_cases hi : i = m.objects.size
    · have hnone : m.payload? i = none := by
        rw [payload?, hi, Array.getElem?_eq_none (Nat.le_refl _)]
        rfl
      rw [if_pos hi, hnone]
      exact function_none_of_kind hkind
    · rw [if_neg hi]

/-- Making room changes no contents, whether or not it succeeds. -/
theorem payload?_after_makeRoom (m : Memory) (holdings : Holdings) :
    (stateAfter (makeRoom holdings m)).chunks = m.chunks ∧
      ∀ i, (stateAfter (makeRoom holdings m)).payload? i = m.payload? i := by
  have hcollect : (stateAfter (collect holdings m)).chunks = m.chunks ∧
      ∀ i, (stateAfter (collect holdings m)).payload? i = m.payload? i := by
    rw [collect]
    split
    · next marks _ => exact ⟨rfl, payload?_sweep m marks⟩
    · exact ⟨rfl, fun _ => rfl⟩
  rw [makeRoom_eq]
  split
  · cases hresult : collect holdings m with
    | error e n =>
      rw [hresult] at hcollect
      exact hcollect
    | ok a n =>
      rw [hresult] at hcollect
      dsimp only [checkRoom]
      split <;> exact hcollect
  · exact ⟨rfl, fun _ => rfl⟩

/-- An allocation adds its object and changes no contents, whether or not it succeeds. -/
theorem payload?_after_alloc (m : Memory) (holdings : Holdings) (payload : Payload) :
    (stateAfter (alloc holdings payload m)).chunks = m.chunks ∧
      ∀ i, (stateAfter (alloc holdings payload m)).payload? i = (m.add payload).payload? i := by
  have hroom := payload?_after_makeRoom (m.add payload) holdings
  rw [alloc_eq, place_eq (placement?_add_size m payload)]
  cases hresult : makeRoom holdings (m.add payload) with
  | error e n =>
    rw [hresult] at hroom
    exact hroom
  | ok a n =>
    rw [hresult] at hroom
    refine ⟨?_, fun i => (payload?_occupy n _ i).trans (hroom.2 i)⟩
    rw [stateAfter, occupy_eq]
    exact hroom.1

/-- An allocation that makes no function, whether or not it succeeds. -/
theorem Keeps.alloc (m : Memory) (holdings : Holdings) {payload : Payload}
    (hkind : payload.kind ≠ .function) :
    m.Keeps (stateAfter (Memory.alloc holdings payload m)) :=
  have hafter := payload?_after_alloc m holdings payload
  (Keeps.add m hkind).trans (.of_payload? hafter.1 hafter.2)

end Memory

/-- Functions and code are the same. -/
def Execution.Spares (s t : Execution) : Prop := s.memory.Keeps t.memory

namespace Execution

variable {s t : Execution} {others : Holdings} {id : ObjectId}

/-- What an allocation leaves, whether or not it succeeds. -/
theorem after_alloc (s : Execution) (others : Holdings) (p : Payload) :
    stateAfter (Exec.alloc others p s) = { s with
      memory := stateAfter (Memory.alloc (s.machine.holdings others) p s.memory) } := by
  cases hresult : Memory.alloc (s.machine.holdings others) p s.memory with
  | ok id m => rw [Exec.alloc_of_ok hresult, stateAfter, stateAfter]
  | error e m => rw [Exec.alloc_of_error hresult, stateAfter, stateAfter]

theorem Spares.alloc (s : Execution) (others : Holdings) {p : Payload}
    (hkind : p.kind ≠ .function) : s.Spares (stateAfter (Exec.alloc others p s)) := by
  rw [after_alloc]
  exact Memory.Keeps.alloc s.memory _ hkind

/-- A successful allocation makes one object and changes no other. -/
theorem alloc_ok {p : Payload} (h : Exec.alloc others p s = .ok id t) :
    id = s.memory.objects.size ∧ t = { s with memory := t.memory } ∧
      t.memory.objects.size = s.memory.objects.size + 1 ∧
      ∀ i, t.memory.payload? i =
        if i = s.memory.objects.size then some p else s.memory.payload? i := by
  cases halloc : Memory.alloc (s.machine.holdings others) p s.memory with
  | error e m =>
    rw [Exec.alloc_of_error halloc] at h
    cases h
  | ok i m =>
    rw [Exec.alloc_of_ok halloc] at h
    cases h
    obtain ⟨hid, _, hsize, hpayload⟩ := Memory.alloc_payload? halloc
    exact ⟨hid, rfl, hsize, hpayload⟩

/-- A struct that has just been made is no function, and stays a struct when it is filled. -/
theorem Spares.fill (r : Record) (h : Exec.alloc others (.struct {}) s = .ok id t) :
    s.Spares { t with memory := t.memory.modifyPayload id fun _ => .struct r } := by
  have hp : t.memory.payload? id = some (.struct {}) := by
    obtain ⟨rfl, -, -, hpayload⟩ := alloc_ok h
    exact (hpayload _).trans (if_pos rfl)
  have hmade : s.Spares t := by
    have hleft := Spares.alloc s others (Memory.struct_ne_function {})
    rwa [h] at hleft
  have hfill : t.memory.Keeps (t.memory.modifyPayload id fun _ => .struct r) := by
    refine .modifyPayload (fun q hq => ?_) fun f hf => ?_
    · cases hp.symm.trans hq
      rfl
    · cases hp.symm.trans (Memory.function?_eq_some.1 hf)
  exact Memory.Keeps.trans hmade hfill

end Execution

instance : Exec.Lenient Execution.Spares where
  refl s := .refl s.memory
  trans := .trans
  machine s _ := .refl s.memory
  out s _ := .refl s.memory
  err s _ := .refl s.memory
  array s id f := .modifyArray s.memory id f
  alloc := .alloc
  fill := .fill

/-- A computation that does not touch functions and code. -/
abbrev Exec.Quiet {α : Type} (x : ExecM α) : Prop := Leaves Execution.Spares x

theorem Exec.quiet_execute (others : Holdings) {op : Opcode} (hcall : op ≠ .call) :
    Quiet (execute (alloc others) op) :=
  leaves_execute others hcall (fun _ s id name v => .setFieldOf s.memory id name v)
    fun _ s _ => .refl s.memory

/-! ### Verifications -/

/-- A memory that has come about by verifications that are allowed, and by changes that do
not matter to them. -/
inductive Memory.History (allowed : Memory → ObjectId → Prop) (m : Memory) : Memory → Prop
  | start : History allowed m m
  | change {n o : Memory} : History allowed m n → n.Keeps o → History allowed m o
  | verify {n : Memory} {id : ObjectId} : History allowed m n → allowed n id →
      History allowed m (n.verify id).1

theorem Memory.History.trans {allowed : Memory → ObjectId → Prop} {m n o : Memory}
    (h : m.History allowed n) (h' : n.History allowed o) : m.History allowed o := by
  induction h' with
  | start => exact h
  | change _ hkeeps ih => exact ih.change hkeeps
  | verify _ hallowed ih => exact ih.verify hallowed

theorem Memory.Keeps.evolves {m n : Memory} (h : m.Keeps n) : m.Evolves n where
  chunks := h.chunks
  size := by
    by_contra hless
    -- Otherwise the object behind the end of the new memory would have lost its kind.
    have hlt : n.objects.size < m.objects.size := Nat.lt_of_not_le hless
    have hp : m.payload? n.objects.size = some m.objects[n.objects.size].payload := by
      rw [payload?, Array.getElem?_eq_getElem hlt]
      rfl
    obtain ⟨q, hq, -⟩ := h.kind hp
    rw [payload?, Array.getElem?_eq_none (Nat.le_refl _)] at hq
    cases hq
  kind := h.kind
  function hf := ⟨_, h.function _ ▸ hf, rfl, Or.inl⟩

theorem Memory.History.evolves {allowed : Memory → ObjectId → Prop} {m n : Memory}
    (h : m.History allowed n) : m.Evolves n := by
  induction h with
  | start => exact .refl m
  | change _ hkeeps ih => exact ih.trans hkeeps.evolves
  | verify _ _ ih => exact ih.trans (.verify _ _)

namespace Exec

variable {α β : Type} {allowed : Memory → ObjectId → Prop} {x : ExecM α} {f : α → ExecM β}

/-- A computation that does no more than verify functions, as far as verification goes.  It
stops where a verification fails that would not be allowed. -/
def Verifies (allowed : Memory → ObjectId → Prop) (x : ExecM α) : Prop :=
  ∀ s : Execution, s.memory.History allowed (stateAfter (x s)).memory ∨
    (∃ n id, ¬ allowed n id) ∧ ∃ e t, x s = .error (.raised (.invalidCallee e)) t

theorem Leaves.verifies (h : Quiet x) : Verifies allowed x :=
  fun s => Or.inl (.change .start (h s))

theorem Verifies.bind (hx : Verifies allowed x) (hf : ∀ a, Verifies allowed (f a)) :
    Verifies allowed (x >>= f) := by
  intro s
  rw [bind_apply]
  rcases hx s with hfirst | ⟨hnot, e, t, hstop⟩
  · cases hresult : x s with
    | error e t =>
      rw [hresult] at hfirst
      exact Or.inl hfirst
    | ok a t =>
      rw [hresult] at hfirst
      exact (hf a t).imp_left hfirst.trans
  · rw [hstop]
    exact Or.inr ⟨hnot, e, t, rfl⟩

variable (hallowed : ∀ n id, (n.verify id).2 = none → allowed n id)

include hallowed

theorem verifies_verifyCallee (id : ObjectId) : Verifies allowed (verifyCallee id) := by
  intro s
  rw [verifyCallee, bind_apply, modifyGet_apply]
  dsimp only
  by_cases h : allowed s.memory id
  · refine Or.inl ?_
    cases (s.memory.verify id).2 <;> exact .verify .start h
  · cases hresult : (s.memory.verify id).2 with
    | none => exact absurd (hallowed s.memory id hresult) h
    | some e => exact Or.inr ⟨⟨_, _, h⟩, e, _, rfl⟩

theorem verifies_call : Verifies allowed call := by
  refine leaves_operand.verifies.bind fun argc => (leaves_require _ _).verifies.bind fun _ =>
    (leaves_peek _).verifies.bind fun v => (leaves_function? v).verifies.bind fun callee => ?_
  split
  · exact (leaves_raise _).verifies
  · next id fn =>
    have henter : Verifies allowed (do
        verifyCallee id
        let base := (← get).machine.stack.size - argc - 1
        modifyMachine fun m => { m with frames := ⟨id, 0, base⟩ :: m.frames }
        let _ ← chunk) :=
      (verifies_verifyCallee hallowed id).bind fun _ => leaves_get.verifies.bind fun _ =>
        (leaves_modifyMachine _).verifies.bind fun _ =>
        (leaves_chunk.bind fun _ => leaves_pure _).verifies
    have hfree : Verifies allowed (do
        let m := (← get).machine
        if m.maxFrames ≤ m.frames.length then raise .frameOverflow
        verifyCallee id
        let base := (← get).machine.stack.size - argc - 1
        modifyMachine fun m => { m with frames := ⟨id, 0, base⟩ :: m.frames }
        let _ ← chunk) := by
      refine leaves_get.verifies.bind fun s => ?_
      dsimp only
      split
      · exact (leaves_raise _).verifies.bind fun _ => henter
      · exact henter
    dsimp only
    split
    · exact (leaves_raise _).verifies.bind fun _ => hfree
    · exact hfree

/-- An instruction verifies its callee if it is a call, and nothing otherwise. -/
theorem verifies_step (others : Holdings) : Verifies allowed (step (alloc others)) := by
  rw [step_eq]
  refine leaves_fetch.verifies.bind fun byte => ?_
  split
  · exact (leaves_raise _).verifies
  · next op _ =>
    refine (leaves_demand op).verifies.bind fun _ => ?_
    rw [perform]
    split
    · exact leaves_ret.verifies
    · refine Verifies.bind ?_ fun _ => (leaves_pure _).verifies
      by_cases hcall : op = .call
      · exact hcall ▸ verifies_call hallowed
      · exact (quiet_execute others hcall).verifies

omit hallowed in
theorem evolves_step (others : Holdings) (s : Execution) :
    s.memory.Evolves (stateAfter (step (alloc others) s)).memory := by
  have hverifies := verifies_step (fun _ _ _ => trivial) others s
  rcases hverifies with hhistory | ⟨⟨_, _, hnot⟩, _⟩
  · exact hhistory.evolves
  · exact absurd trivial hnot

end Exec

end StackVm
