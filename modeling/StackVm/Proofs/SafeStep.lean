/-
One instruction of a safe state.  In a safe state every frame stands at a boundary of
valid code, the frames lie one above the other on the stack, and no code that can be
called jumps between boundaries.  An instruction leaves a safe state or stops harmlessly.
-/
import StackVm.Proofs.Instruction
import StackVm.Proofs.Landing

namespace StackVm

open List (Forall₂)

/-- The frame stands at the start of an instruction of valid code, or at its end. -/
def Frame.Sits (m : Memory) (f : Frame) : Prop :=
  ∃ c n, (m.function? f.function).bind m.chunkOf? = some c ∧ c.validate m.typeOf = .ok () ∧
    c.Starts 0 n ∧ f.ip = n

/-- What holds between the instructions of a program. -/
structure Execution.Safe (scope : Scope) (s : Execution) : Prop where
  within : s.Within scope
  vetted : s.memory.Vetted scope.Has
  aligned : s.memory.Aligned scope.Has
  active : s.machine.frames ≠ []
  sits : ∀ f ∈ s.machine.frames, f.Sits s.memory
  /-- Each frame starts above its caller. -/
  ordered : s.machine.frames.Pairwise fun inner outer => outer.base < inner.base
  /-- The callee slots are on the stack. -/
  based : ∀ f ∈ s.machine.frames, f.base < s.machine.stack.size
  room : s.machine.stack.size ≤ s.machine.stackMax

theorem Frame.Sits.evolve {m n : Memory} {f : Frame} (h : f.Sits m) (hevolves : m.Evolves n) :
    f.Sits n := by
  obtain ⟨c, ip, hc, hvalid, hstarts, hip⟩ := h
  exact ⟨c, ip, hevolves.code hc, Chunk.validate_mono hevolves.typeOf_string hvalid, hstarts, hip⟩

namespace Stage

/-- What an instruction may rely on: valid code in a frame above safe callers. -/
structure Standing (g : Stage) : Prop where
  vetted : g.memory.Vetted g.scope.Has
  aligned : g.memory.Aligned g.scope.Has
  valid : g.chunk.validate g.memory.typeOf = .ok ()
  sits : ∀ f ∈ g.callers, f.Sits g.memory
  ordered : g.callers.Pairwise fun inner outer => outer.base < inner.base
  below : ∀ f ∈ g.callers, f.base < g.base

variable {g : Stage} {ip depth n : Nat} {s : Execution} {op : Opcode} {α : Type}
  {post : α → Execution → Prop}

/-- A frame that lands above safe callers is safe. -/
theorem Standing.safe (hs : g.Standing) (h : g.Lands s) : s.Safe g.scope := by
  obtain ⟨n, depth, hat, hstarts, hbase, hroom⟩ := h
  have hframes := hat.frames
  constructor
  case within => exact hat.within
  case vetted => exact hs.vetted.evolve hat.evolves
  case aligned => exact hs.aligned.evolve hat.evolves
  case active =>
    rw [hframes]
    exact List.cons_ne_nil _ _
  case sits =>
    intro f hf
    rw [hframes] at hf
    rcases List.mem_cons.1 hf with rfl | hf
    · have hvalid := Chunk.validate_mono hat.evolves.typeOf_string hs.valid
      exact ⟨g.chunk, n, hat.code, hvalid, hstarts, rfl⟩
    · exact (hs.sits f hf).evolve hat.evolves
  case ordered =>
    rw [hframes]
    exact List.pairwise_cons.2 ⟨fun f hf => hs.below f hf, hs.ordered⟩
  case based =>
    intro f hf
    rw [hframes] at hf
    rw [hat.depth]
    rcases List.mem_cons.1 hf with rfl | hf
    · exact hbase
    · exact Nat.lt_trans (hs.below f hf) hbase
  case room =>
    rw [hat.depth, hat.stackMax]
    exact hroom

theorem At.aligned (hs : g.Standing) (h : g.At ip depth s) : g.chunk.Aligned := by
  obtain ⟨f, hf, hc⟩ := Option.bind_eq_some_iff.1 h.code
  exact hs.aligned.evolve h.evolves _ f _ h.has_function hf hc

/-- The opcode is read at a boundary of the code, with room for one more value. -/
theorem Standing.fetch (hs : g.Standing) (h : g.At n depth s) (hstarts : g.chunk.Starts 0 n) :
    Meets (fun byte s' => ∃ op, g.Reads n op ∧ Opcode.ofByte? byte = some op ∧
      depth < g.stackMax ∧ g.At (n + 1) depth s') (Exec.fetch s) := by
  rw [Exec.fetch, h.frame_bind, h.chunk_bind]
  simp only [branch_apply, get_bind_apply, h.depth, h.stackMax]
  rcases Chunk.boundary_cases hs.valid hstarts with hend | ⟨hlt, op, hchecked⟩
  · obtain ⟨fn, hfn, _⟩ := Option.bind_eq_some_iff.1 h.code
    have hpast : (g.chunk.code.size : Int) ≤ n := by omega
    rw [if_pos hpast, hfn, present_bind]
    exact .stop (.raised nofun)
  · have hinside : ¬ (g.chunk.code.size : Int) ≤ n := by omega
    rw [if_neg hinside]
    split
    · exact .stop (.raised nofun)
    · next hfull =>
      obtain ⟨byte, hbyte, hinstruction⟩ := hchecked.decodes
      have hop := Chunk.Decodes.ofByte? ⟨byte, hbyte, hinstruction⟩ hbyte
      have hreads : g.Reads n op := ⟨hstarts, hchecked, hs.valid, h.aligned hs⟩
      have hpositive : ¬ (n : Int) < 0 := by omega
      have hnext : (n : Int) + 1 = (n + 1 : Nat) := rfl
      rw [Exec.byteAt, if_neg hpositive, Int.toNat_natCast, hbyte, present_bind, get_bind_apply,
        branch_apply]
      split
      · have hprinted := h.with_streams s.input s.out (s.err ++ Exec.traceLine n byte depth)
        rw [bind_apply, Exec.printErr, modify_apply]
        exact (hprinted.advance hnext).bind fun _ s' h' =>
          .ok ⟨op, hreads, hop, by omega, h'⟩
      · exact (h.advance hnext).bind fun _ s' h' => .ok ⟨op, hreads, hop, by omega, h'⟩

theorem At.bind_demand (h : g.At ip depth s) (hbase : g.base < depth) (op : Opcode)
    {f : Unit → ExecM α}
    (hnext : g.base + 1 + op.shape.pops.getD 0 ≤ depth → Meets post (f () s)) :
    Meets post ((Exec.demand op >>= f) s) := by
  rw [Exec.demand]
  rcases hpops : op.shape.pops with _ | _ | need
  · rw [hpops] at hnext
    exact hnext hbase
  · rw [hpops] at hnext
    exact hnext hbase
  · rw [hpops] at hnext
    exact h.bind_require op (need + 1) hnext

/-! ### Calls -/

theorem like_setVerified {scope : Scope} {m : Memory} (h : m.Like scope.same m)
    (id : ObjectId) : (m.setVerified id).Like scope.same (m.setVerified id) := by
  refine ⟨h.oneToOne, fun {i j} hij => ?_⟩
  obtain ⟨rfl, hi⟩ := hij
  have hpayload := h.payload ⟨rfl, hi⟩
  rw [Memory.setVerified, Memory.payload?_modifyPayload]
  split
  · refine rel_map hpayload fun p q hpq => ?_
    cases hpq with
    | function hf => exact .function ⟨hf.name, hf.arity, rfl, hf.code⟩
    | string data => exact .string data
    | array hxs => exact .array hxs
    | struct hr => exact .struct hr
  · exact hpayload

theorem like_verify {scope : Scope} {m : Memory} (h : m.Like scope.same m) (id : ObjectId) :
    (m.verify id).1.Like scope.same (m.verify id).1 := by
  have hall : ∀ (ids : List ObjectId) (m : Memory), m.Like scope.same m →
      (ids.foldl Memory.setVerified m).Like scope.same (ids.foldl Memory.setVerified m) := by
    intro ids
    induction ids with
    | nil => exact fun m h => h
    | cons id rest ih => exact fun m h => ih _ (like_setVerified h id)
  rw [Memory.verify_eq]
  split
  · exact h
  · exact hall _ _ h

theorem At.bind_verifyCallee (h : g.At ip depth s) {id : ObjectId} {fn : Function}
    (hvetted : s.memory.Vetted g.scope.Has) (hid : g.scope.Has id)
    (hfn : s.memory.function? id = some fn) {f : Unit → ExecM α}
    (hnext : ∀ s', g.At ip depth s' → s'.machine = s.machine →
      (∃ c, (s'.memory.function? id).bind s'.memory.chunkOf? = some c ∧
        c.validate s'.memory.typeOf = .ok ()) → Meets post (f () s')) :
    Meets post ((Exec.verifyCallee id >>= f) s) := by
  have hevolves := Memory.Evolves.verify s.memory id
  have hverified := h.with_memory (like_verify h.within.memory id) hevolves
  rw [Exec.verifyCallee, bind_assoc, bind_apply, modifyGet_apply]
  simp only
  cases herror : (s.memory.verify id).2 with
  | some e => exact meets_raise nofun
  | none =>
    obtain ⟨c, hc, hvalid⟩ := Memory.verify_passes hvetted hid hfn herror
    have hcode : (s.memory.function? id).bind s.memory.chunkOf? = some c := by
      rw [hfn]
      exact hc
    exact hnext _ hverified rfl
      ⟨c, hevolves.code hcode, Chunk.validate_mono hevolves.typeOf_string hvalid⟩

/-- The stage of the function `id` while its caller is to go on at `n`. -/
def callee (g : Stage) (n : Nat) (m : Memory) (id : ObjectId) (c : Chunk) (base : Nat) : Stage :=
  { g with
    memory := m
    function := id
    chunk := c
    base := base
    callers := ⟨g.function, n, g.base⟩ :: g.callers }

/-- A caller that is left at a boundary of its code waits safely. -/
theorem Standing.callee (hs : g.Standing) (h : g.At n depth s) (hstarts : g.chunk.Starts 0 n)
    {id : ObjectId} {c : Chunk} (hvalid : c.validate s.memory.typeOf = .ok ()) {base : Nat}
    (hbase : g.base < base) : (g.callee n s.memory id c base).Standing := by
  constructor
  case vetted => exact hs.vetted.evolve h.evolves
  case aligned => exact hs.aligned.evolve h.evolves
  case valid => exact hvalid
  case sits =>
    intro f hf
    rcases List.mem_cons.1 hf with rfl | hf
    · have hcaller := Chunk.validate_mono h.evolves.typeOf_string hs.valid
      exact ⟨g.chunk, n, h.code, hcaller, hstarts, rfl⟩
    · exact (hs.sits f hf).evolve h.evolves
  case ordered => exact List.pairwise_cons.2 ⟨fun f hf => hs.below f hf, hs.ordered⟩
  case below =>
    intro f hf
    rcases List.mem_cons.1 hf with rfl | hf
    · exact hbase
    · exact Nat.lt_trans (hs.below f hf) hbase

/-- A frame for a callee is at its first instruction. -/
theorem At.callee (h : g.At n depth s) {id : ObjectId} (hid : g.scope.Has id) {c : Chunk}
    (hcode : (s.memory.function? id).bind s.memory.chunkOf? = some c) (base : Nat) :
    (g.callee n s.memory id c base).At 0 depth { s with
      machine := { s.machine with
        frames := ⟨id, 0, base⟩ :: ⟨g.function, n, g.base⟩ :: g.callers } } := by
  have hframes : Forall₂ (Frame.Like g.scope.same)
      (⟨id, 0, base⟩ :: ⟨g.function, n, g.base⟩ :: g.callers)
      (⟨id, 0, base⟩ :: ⟨g.function, n, g.base⟩ :: g.callers) := by
    refine .cons ⟨⟨rfl, hid⟩, rfl, rfl⟩ ?_
    rw [← h.frames]
    exact h.within.machine.frames
  constructor
  case within => exact { h.within with machine := { h.within.machine with frames := hframes } }
  case evolves => exact .refl _
  case code => exact hcode
  case frames => rfl
  case stackMax => exact h.stackMax
  case depth => exact h.depth

/-- A call leaves its frame at the next instruction and the callee at its first. -/
theorem Standing.call (hs : g.Standing) (hr : g.Reads n .call) (h : g.At (n + 1) depth s)
    (hroom : depth < g.stackMax) : Meets (fun _ s' => s'.Safe g.scope) (Exec.call s) := by
  rw [Exec.call]
  refine hr.bind_operand h Nat.one_pos fun argc s h => h.bind_require _ _ fun hargs => ?_
  refine h.bind_peek (by omega) fun v hv => ?_
  refine At.bind_function? hv (meets_raise nofun) fun id fn hid hfn => ?_
  simp only [branch_apply]
  split
  · exact .stop (.raised nofun)
  simp only [get_bind_apply, branch_apply]
  split
  · exact .stop (.raised nofun)
  have hvetted := hs.vetted.evolve h.evolves
  refine h.bind_verifyCallee hvetted hid hfn fun s h _ hcallee => ?_
  obtain ⟨c, hcode, hvalid⟩ := hcallee
  have hstarts := hr.starts.snoc hr.checked.decodes
  have hbase : g.base < depth - argc - 1 := by omega
  have hstanding : (g.callee _ s.memory id c (depth - argc - 1)).Standing :=
    hs.callee h hstarts hvalid hbase
  have hentered := h.callee hid hcode (depth - argc - 1)
  have hbelow : depth - argc - 1 < depth := by omega
  simp only [get_bind_apply, h.depth, Exec.modifyMachine]
  rw [bind_apply, modify_apply]
  simp only [h.frames]
  rw [hentered.chunk_bind]
  exact .ok (hstanding.safe ⟨0, depth, hentered, .here, hbelow, Nat.le_of_lt hroom⟩)

/-! ### Returns -/

/-- The stage of a caller that has become the innermost frame. -/
theorem Standing.resume (hs : g.Standing) (h : g.At ip depth s) {f : Frame} {rest : List Frame}
    (hcallers : g.callers = f :: rest) :
    ∃ k : Stage, ∃ n, k.scope = g.scope ∧ k.base < g.base ∧ k.stackMax = g.stackMax ∧
      k.Standing ∧ k.chunk.Starts 0 n ∧
      k.At n depth { s with machine := { s.machine with frames := f :: rest } } := by
  have hsits := hs.sits
  have hordered := hs.ordered
  have hbelow := hs.below
  have hframes := h.within.machine.frames
  rw [h.frames, hcallers] at hframes
  rw [hcallers] at hsits hordered hbelow
  obtain ⟨c, n, hc, hvalid, hstarts, hip⟩ := (hsits f List.mem_cons_self).evolve h.evolves
  obtain ⟨hfirst, hrest⟩ := List.pairwise_cons.1 hordered
  let caller : Stage :=
    { g with
      memory := s.memory, function := f.function, chunk := c, base := f.base, callers := rest }
  refine ⟨caller, n, rfl, hbelow f List.mem_cons_self, rfl, ?_, hstarts, ?_⟩
  · constructor
    case vetted => exact hs.vetted.evolve h.evolves
    case aligned => exact hs.aligned.evolve h.evolves
    case valid => exact hvalid
    case sits => exact fun e he => (hsits e (List.mem_cons_of_mem _ he)).evolve h.evolves
    case ordered => exact hrest
    case below => exact hfirst
  · constructor
    case within =>
      cases hframes with
      | cons _ hlike =>
        exact { h.within with machine := { h.within.machine with frames := hlike } }
    case evolves => exact .refl _
    case code => exact hc
    case frames => rw [← hip]
    case stackMax => exact h.stackMax
    case depth => exact h.depth

/-- A return leaves the caller where it was, with one value more than its own. -/
theorem Standing.ret (hs : g.Standing) (h : g.At ip depth s)
    (hneed : g.base + 1 + 1 ≤ depth) (hroom : depth < g.stackMax) :
    Meets (fun progress s' => progress = .running → s'.Safe g.scope) (Exec.ret s) := by
  obtain ⟨k, rfl⟩ : ∃ k, depth = k + 1 := ⟨depth - 1, by omega⟩
  rw [Exec.ret]
  refine h.bind_pop fun result s h hresult => ?_
  rw [h.frame_bind, bind_apply, Exec.modifyMachine, modify_apply]
  simp only [get_bind_apply, branch_apply, h.frames, List.tail_cons]
  cases hcallers : g.callers with
  | nil =>
    -- The machine stops here, so that nothing has to be kept.
    simp only [List.isEmpty_nil, if_true]
    have hempty : (s.machine.stack.shrink 0).size < s.machine.stackMax := by
      rw [Array.size_shrink, h.stackMax]
      omega
    rw [shrinkTo_bind (Nat.zero_le _), bind_apply, Exec.modifyMachine, modify_apply]
    dsimp only
    rw [push_bind]
    · exact .ok fun hrunning => by cases hrunning
    · exact hempty
  | cons f rest =>
    obtain ⟨caller, n, hscope, hbase, hmax, hstanding, hstarts, hat⟩ := hs.resume h hcallers
    have hcovers : caller.Covers result := by
      rw [Covers, hscope]
      exact hresult
    simp only [List.isEmpty_cons, Bool.false_eq_true, if_false]
    refine hat.bind_shrinkTo (by omega) fun s' h' => ?_
    refine h'.bind_push (by omega) hcovers fun s'' h'' _ => .ok fun _ => ?_
    rw [← hscope]
    exact hstanding.safe ⟨n, _, h'', hstarts, by omega, by omega⟩

end Stage

/-! ### Whole instructions -/

variable {scope : Scope} {s : Execution}

/-- A safe state is on a stage. -/
theorem Execution.Safe.stage (h : s.Safe scope) :
    ∃ g : Stage, ∃ n, g.scope = scope ∧ g.Standing ∧ g.At n s.machine.stack.size s ∧
      g.chunk.Starts 0 n ∧ g.base < s.machine.stack.size := by
  have hsits := h.sits
  have hordered := h.ordered
  have hbased := h.based
  obtain ⟨f, callers, hframes⟩ := List.exists_cons_of_ne_nil h.active
  rw [hframes] at hsits hordered hbased
  obtain ⟨c, n, hc, hvalid, hstarts, hip⟩ := hsits f List.mem_cons_self
  obtain ⟨hfirst, hrest⟩ := List.pairwise_cons.1 hordered
  refine ⟨⟨scope, s.memory, f.function, c, f.base, callers, s.machine.stackMax⟩, n, rfl, ?_, ?_,
    hstarts, hbased f List.mem_cons_self⟩
  · constructor
    case vetted => exact h.vetted
    case aligned => exact h.aligned
    case valid => exact hvalid
    case sits => exact fun e he => hsits e (List.mem_cons_of_mem _ he)
    case ordered => exact hrest
    case below => exact hfirst
  · constructor
    case within => exact h.within
    case evolves => exact .refl _
    case code => exact hc
    case frames => rw [hframes, ← hip]
    case stackMax => rfl
    case depth => rfl

/-- One instruction of a safe state leaves a safe state, returns from the outermost frame
or stops harmlessly. -/
theorem Execution.Safe.step (h : s.Safe scope) (others : Holdings) :
    Meets (fun progress s' => progress = .running → s'.Safe scope)
      (Exec.step (Exec.alloc others) s) := by
  obtain ⟨g, n, rfl, hstanding, hat, hstarts, hbase⟩ := h.stage
  rw [Exec.step_eq]
  refine (hstanding.fetch hat hstarts).bind fun byte s' hfetched => ?_
  obtain ⟨op, hreads, hop, hroom, h'⟩ := hfetched
  rw [hop]
  refine h'.bind_demand hbase op fun hneed => ?_
  rw [Exec.perform]
  split
  · next hret =>
    subst hret
    exact hstanding.ret h' hneed hroom
  · next hret =>
    by_cases hcall : op = .call
    · subst hcall
      exact (hstanding.call hreads h' hroom).bind fun _ s'' hsafe => .ok fun _ => hsafe
    · exact (hreads.execute h' hneed hroom hret hcall others).bind fun _ s'' hlands =>
        .ok fun _ => hstanding.safe hlands

end StackVm
