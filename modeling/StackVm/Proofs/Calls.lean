/-
The calling convention.  A call enters its callee with the arguments on the stack.  While the
callee runs, with whatever it calls in turn, nothing changes below its slot; when it returns,
one value has come in the place of the callee and the arguments, and the caller goes on behind
the call.
-/
import StackVm.Proofs.Nesting

namespace StackVm

variable {s : Execution} {others : Holdings} {f : Frame} {callers : List Frame} {c : Chunk}
  {n slot : Nat} {argc b : UInt8} {id : ObjectId} {α : Type}

/-! ### Entering the callee -/

/-- The execution with other calls active. -/
def Execution.withFrames (s : Execution) (frames : List Frame) : Execution :=
  { s with machine := { s.machine with frames } }

/-- The frame some bytes further on in its code. -/
def Frame.ahead (f : Frame) (distance : Nat) : Frame := { f with ip := f.ip + distance }

/-- The innermost call runs the code `c` and is at `n` of it. -/
structure Execution.Executes (s : Execution) (f : Frame) (callers : List Frame) (c : Chunk)
    (n : Nat) : Prop where
  frames : s.machine.frames = f :: callers
  offset : f.ip = n
  code : (s.memory.function? f.function).bind s.memory.chunkOf? = some c

theorem Exec.frame_bind (hframes : s.machine.frames = f :: callers) (k : Frame → ExecM α) :
    (Exec.frame >>= k) s = k f s := by
  rw [Exec.frame, bind_assoc, get_bind_apply, hframes]
  rfl

theorem Exec.chunk_bind (hframes : s.machine.frames = f :: callers)
    (hcode : (s.memory.function? f.function).bind s.memory.chunkOf? = some c)
    (k : Chunk → ExecM α) : (Exec.chunk >>= k) s = k c s := by
  rw [Exec.chunk, bind_assoc, Exec.frame_bind hframes, bind_assoc, get_bind_apply, hcode]
  rfl

namespace Execution.Executes

theorem ahead (h : s.Executes f callers c n) :
    (s.withFrames (f.ahead 1 :: callers)).Executes (f.ahead 1) callers c (n + 1) :=
  ⟨rfl, congrArg (· + 1) h.offset, h.code⟩

theorem frame_bind (h : s.Executes f callers c n) (k : Frame → ExecM α) :
    (Exec.frame >>= k) s = k f s := Exec.frame_bind h.frames k

theorem chunk_bind (h : s.Executes f callers c n) (k : Chunk → ExecM α) :
    (Exec.chunk >>= k) s = k c s := Exec.chunk_bind h.frames h.code k

theorem byteAt_bind (h : s.Executes f callers c n) (hb : c.code[n]? = some b)
    (k : UInt8 → ExecM α) (t : Execution) : (Exec.byteAt c f.ip >>= k) t = k b t := by
  have hpositive : ¬ f.ip < 0 := by
    rw [h.offset]
    omega
  rw [Exec.byteAt, if_neg hpositive, h.offset, Int.toNat_natCast, hb, present_bind]

theorem advance_bind (h : s.Executes f callers c n) (k : Unit → ExecM α) :
    (Exec.advance 1 >>= k) s = k () (s.withFrames (f.ahead 1 :: callers)) := by
  rw [Exec.advance, Exec.modifyFrame, Exec.modifyMachine, bind_apply, modify_apply]
  simp only [h.frames]
  rfl

theorem operand_bind (h : s.Executes f callers c n) (hb : c.code[n]? = some b)
    (k : Nat → ExecM α) :
    (Exec.operand >>= k) s = k b.toNat (s.withFrames (f.ahead 1 :: callers)) := by
  simp only [Exec.operand, bind_assoc]
  rw [h.chunk_bind, h.frame_bind, h.byteAt_bind hb, h.advance_bind, pure_bind]

/-- With room on the stack, the next opcode is read. -/
theorem fetch (h : s.Executes f callers c n) (hb : c.code[n]? = some b)
    (hroom : s.machine.stack.size < s.machine.stackMax) :
    ∃ err, Exec.fetch s = .ok b ({ s with err }.withFrames (f.ahead 1 :: callers)) := by
  have hinside : ¬ (c.code.size : Int) ≤ f.ip := by
    have hlt : n < c.code.size := (Array.getElem?_eq_some_iff.1 hb).1
    rw [h.offset]
    omega
  rw [Exec.fetch, h.frame_bind, h.chunk_bind, if_neg hinside]
  simp only [get_bind_apply, branch_apply, if_neg (Nat.not_le.2 hroom), h.byteAt_bind hb]
  split
  · let traced : Execution :=
      { s with err := s.err ++ Exec.traceLine f.ip b s.machine.stack.size }
    have htraced : traced.Executes f callers c n := ⟨h.frames, h.offset, h.code⟩
    exact ⟨traced.err, htraced.advance_bind fun _ => pure b⟩
  · exact ⟨s.err, h.advance_bind fun _ => pure b⟩

end Execution.Executes

/-- Code that is not there is a crash. -/
theorem Exec.chunk_error {k : Chunk → ExecM α} (hk : ∀ c t e u, k c t ≠ .error e u)
    {e : Stop} {t : Execution} (h : (Exec.chunk >>= k) s = .error e t) : e = .fault .crash := by
  rw [Exec.chunk, Exec.frame] at h
  simp only [bind_assoc, get_bind_apply] at h
  cases hframe : s.machine.frames.head? with
  | none =>
    rw [hframe] at h
    cases h
    rfl
  | some f =>
    rw [hframe, present_bind, get_bind_apply] at h
    cases hcode : (s.memory.function? f.function).bind s.memory.chunkOf? with
    | none =>
      rw [hcode] at h
      cases h
      rfl
    | some c =>
      rw [hcode, present_bind] at h
      exact absurd h (hk c s e t)

/-- A function of matching arity lies below its arguments on top of the stack, above the
callee slot of the call that is active, and one more call may be active. -/
structure Execution.Callable (s : Execution) (base : Nat) (argc : UInt8) (id : ObjectId)
    (slot : Nat) : Prop where
  above : base < slot
  height : slot + argc.toNat + 1 = s.machine.stack.size
  callee : s.machine.stack[slot]? = some (.object id)
  arity : ∃ fn, s.memory.function? id = some fn ∧ Int64.ofNat argc.toNat = fn.arity
  free : s.machine.frames.length < s.machine.maxFrames

/-- Such a call stops only because of the callee's code. -/
theorem Execution.Executes.call_error (hs : s.Executes f callers c n)
    (hargc : c.code[n]? = some argc) (h : s.Callable f.base argc id slot) {e : Stop}
    {u : Execution} (hstop : Exec.call s = .error e u) :
    (∃ err, (s.memory.verify id).2 = some err ∧ e = .raised (.invalidCallee err)) ∨
      e = .fault .crash := by
  obtain ⟨fn, hfn, harity⟩ := h.arity
  let t := s.withFrames (f.ahead 1 :: callers)
  have ht : t.Executes (f.ahead 1) callers c (n + 1) := hs.ahead
  have hheight : slot + argc.toNat + 1 = t.machine.stack.size := h.height
  have habove : f.base < slot := h.above
  have hargs : ¬ t.machine.stack.size < (f.ahead 1).base + 1 + (argc.toNat + 1) := by
    have hbase : (f.ahead 1).base = f.base := rfl
    omega
  have hpeek : ∀ k : Value → ExecM Unit,
      (Exec.peek argc.toNat >>= k) t = k (.object id) t := by
    intro k
    have hcallee : t.machine.stack[t.machine.stack.size - 1 - argc.toNat]? =
        some (.object id) := by
      have hslot : t.machine.stack.size - 1 - argc.toNat = slot := by omega
      rw [hslot]
      exact h.callee
    rw [Exec.peek, bind_assoc, get_bind_apply, if_pos (by omega), hcallee, present_bind]
  have hfunction : ∀ k : Option (ObjectId × Function) → ExecM Unit,
      (Exec.function? (.object id) >>= k) t = k (some (id, fn)) t := by
    intro k
    have hfn' : t.memory.function? id = some fn := hfn
    rw [Exec.function?, bind_assoc, get_bind_apply, hfn']
    rfl
  have hfree : ¬ t.machine.maxFrames ≤ t.machine.frames.length := by
    have hlength : t.machine.frames.length = s.machine.frames.length := by
      rw [hs.frames]
      rfl
    rw [hlength]
    exact Nat.not_le.2 h.free
  rw [Exec.call, hs.operand_bind hargc, Exec.require, bind_assoc, ht.frame_bind, bind_assoc,
    get_bind_apply, if_neg hargs, pure_bind, hpeek, hfunction] at hstop
  dsimp only at hstop
  rw [if_neg (not_not.2 harity), get_bind_apply, if_neg hfree, Exec.verifyCallee_bind] at hstop
  have hmemory : t.memory = s.memory := rfl
  rw [hmemory] at hstop
  cases hverify : (s.memory.verify id).2 with
  | some err =>
    rw [hverify] at hstop
    cases hstop
    exact Or.inl ⟨err, rfl, rfl⟩
  | none =>
    rw [hverify] at hstop
    refine Or.inr (Exec.chunk_error (fun _ _ _ _ hpure => ?_) hstop)
    cases hpure

/-- The next instruction calls a function of matching arity, with frames to spare. -/
structure Execution.AboutToCall (s : Execution) (f : Frame) (callers : List Frame) (argc : UInt8)
    (id : ObjectId) (slot : Nat) : Prop where
  frames : s.machine.frames = f :: callers
  next : ∃ c n, s.Next c n .call ∧ c.code[n + 1]? = some argc
  callable : s.Callable f.base argc id slot

/-- The call is made unless the stack is full, the callee may not run or has no code. -/
theorem Execution.AboutToCall.step_error (h : s.AboutToCall f callers argc id slot)
    {make : Exec.Allocator} {e : Stop} {t : Execution} (hstop : Exec.step make s = .error e t) :
    s.machine.stackMax ≤ s.machine.stack.size ∨
      (∃ err, (s.memory.verify id).2 = some err ∧ e = .raised (.invalidCallee err)) ∨
      e = .fault .crash := by
  obtain ⟨c, n, ⟨⟨f', hf', hn, hc⟩, hop⟩, hargc⟩ := h.next
  rw [h.frames, List.head?_cons] at hf'
  cases hf'
  obtain ⟨byte, hbyte, hcall⟩ := Option.bind_eq_some_iff.1 hop
  by_cases hfull : s.machine.stackMax ≤ s.machine.stack.size
  · exact Or.inl hfull
  refine Or.inr ?_
  have hs : s.Executes f callers c n := ⟨h.frames, hn, hc⟩
  obtain ⟨err, hfetch⟩ := hs.fetch hbyte (Nat.not_le.1 hfull)
  let fetched : Execution := { s with err }.withFrames (f.ahead 1 :: callers)
  have hfetched : fetched.Executes (f.ahead 1) callers c (n + 1) := ⟨rfl, hs.ahead.offset, hc⟩
  have hfree : fetched.machine.frames.length < fetched.machine.maxFrames := by
    have hlength := h.callable.free
    rwa [h.frames] at hlength
  have hcallable : fetched.Callable (f.ahead 1).base argc id slot :=
    { h.callable with free := hfree }
  have hstep : Exec.step make s = (Exec.call >>= fun _ => pure .running) fetched := by
    rw [Exec.step_eq, bind_apply, hfetch]
    dsimp only
    rw [hcall]
    rfl
  rw [hstep, bind_apply] at hstop
  cases hresult : Exec.call fetched with
  | ok a u =>
    rw [hresult] at hstop
    cases hstop
  | error e' u =>
    rw [hresult] at hstop
    cases hstop
    exact hfetched.call_error hargc hcallable hresult

/-! ### While the callee runs -/

/-- The states a call goes through, from the one in which it has been entered on, as long as
more than `depth` calls are active. -/
inductive Execution.During (others : Holdings) (depth : Nat) (s : Execution) : Execution → Prop
  | start : During others depth s s
  | step {t u : Execution} : During others depth s t →
      Exec.step (Exec.alloc others) t = .ok .running u → depth < u.machine.frames.length →
      During others depth s u

/-- A call is active, with other calls inside it or none: its callers wait, and `below` lies
on the stack up to its callee slot. -/
structure Execution.Inside (s : Execution) (below : Array Value) (waiting : List Frame) :
    Prop where
  nested : s.Nested
  stack : ∃ rest, s.machine.stack = below ++ rest
  frames : ∃ inner outermost, s.machine.frames = inner ++ outermost :: waiting ∧
    outermost.base = below.size

/-- A call gives back a value: it was on top, and is now in the place of the callee slot. -/
structure Execution.Returns (s t : Execution) (below : Array Value) (waiting : List Frame) :
    Prop where
  instruction : ∃ c n, s.Next c n .ret
  frames : t.machine.frames = waiting
  stack : ∃ v, s.machine.stack.back? = some v ∧ t.machine.stack = below.push v

namespace Execution.Inside

variable {t : Execution} {below : Array Value} {waiting : List Frame} {progress : Progress}

theorem deeper (h : s.Inside below waiting) : waiting.length < s.machine.frames.length := by
  obtain ⟨inner, outermost, hframes, _⟩ := h.frames
  rw [hframes, List.length_append, List.length_cons]
  omega

/-- One instruction stays inside the call, or returns from it. -/
theorem step (h : s.Inside below waiting) (hwaiting : waiting ≠ [])
    (hstep : Exec.step (Exec.alloc others) s = .ok progress t) :
    progress = .running ∧ (t.Inside below waiting ∨ s.Returns t below waiting) := by
  obtain ⟨rest, hstack⟩ := h.stack
  obtain ⟨g, gs, hframes⟩ := List.exists_cons_of_ne_nil h.nested.called
  obtain ⟨inner, outermost, hinner, hslot⟩ := h.frames
  -- Either the call itself is the innermost one, or one that it waits for.
  have hsplit : g = outermost ∧ gs = waiting ∨
      ∃ between, gs = between ++ outermost :: waiting := by
    rw [hframes] at hinner
    cases inner with
    | nil => exact Or.inl (List.cons.inj hinner)
    | cons f between => exact Or.inr ⟨between, (List.cons.inj hinner).2⟩
  have hbase : below.size ≤ g.base := by
    rcases hsplit with ⟨rfl, _⟩ | ⟨between, rfl⟩
    · exact hslot.ge
    · have hlt := h.nested.callers_below hframes outermost
        (List.mem_append_right _ List.mem_cons_self)
      omega
  have hstays : ∀ f : Frame, f.base = g.base → ∃ inner outermost,
      f :: gs = inner ++ outermost :: waiting ∧ outermost.base = below.size := by
    intro f hf
    rcases hsplit with ⟨rfl, rfl⟩ | ⟨between, rfl⟩
    · exact ⟨[], f, rfl, hf.trans hslot⟩
    · exact ⟨f :: between, outermost, rfl, hslot⟩
  obtain ⟨u, c, n, op, rfl, hnext, _, hmoves⟩ := h.nested.step_ok hframes hstack hbase hstep
  have hnested : progress = .running → (u.over below).Nested := by
    rintro rfl
    exact hmoves.nested h.nested hframes hstack hbase
  cases hmoves with
  | goes _ _ hgoes =>
    obtain ⟨ip, depth, hat, _, _⟩ := hgoes
    refine ⟨rfl, Or.inl ⟨hnested rfl, ⟨_, rfl⟩, ?_⟩⟩
    obtain ⟨inner, outermost, hkept, hslot⟩ := hstays ⟨g.function, ip, g.base⟩ rfl
    exact ⟨inner, outermost, hat.frames.trans hkept, hslot⟩
  | @calls argc id _ _ _ _ _ _ hcalled =>
    refine ⟨rfl, Or.inl ⟨hnested rfl, ⟨_, rfl⟩, ?_⟩⟩
    obtain ⟨inner, outermost, hkept, hslot⟩ := hstays ⟨g.function, (n + 2 : Nat), g.base⟩ rfl
    exact ⟨_ :: inner, outermost, hcalled.trans (congrArg _ hkept), hslot⟩
  | @returns v _ _ hback hreturned _ _ hreplaced _ =>
    refine ⟨rfl, ?_⟩
    rcases hsplit with ⟨rfl, rfl⟩ | ⟨between, rfl⟩
    · refine Or.inr ⟨⟨c, n, hnext⟩, hreturned, v, ?_, ?_⟩
      · rw [hstack, Array.back?_append, hback]
        rfl
      · have hempty : (s.activation g gs).base - below.size = 0 := by
          rw [← hslot]
          exact Nat.sub_self _
        have hgone : rest.shrink 0 = #[] :=
          Array.eq_empty_of_size_eq_zero (by rw [Array.size_shrink, Nat.zero_min])
        rw [Execution.over, hreplaced, hempty, hgone, ← Array.push_append, Array.append_empty]
    · exact Or.inl ⟨hnested rfl, ⟨_, rfl⟩, between, outermost, hreturned, hslot⟩
  | finishes hnone =>
    rcases hsplit with ⟨_, rfl⟩ | ⟨between, rfl⟩
    · exact absurd hnone hwaiting
    · exact absurd hnone (List.append_ne_nil_of_right_ne_nil _ (List.cons_ne_nil _ _))

/-- Every state a call goes through is inside it. -/
theorem during (h : s.Inside below waiting) (hwaiting : waiting ≠ [])
    (hduring : s.During others waiting.length t) : t.Inside below waiting := by
  induction hduring with
  | start => exact h
  | step _ hstep hdeeper ih =>
    obtain ⟨_, hinside | hreturns⟩ := ih.step hwaiting hstep
    · exact hinside
    · rw [hreturns.frames] at hdeeper
      exact absurd hdeeper (Nat.lt_irrefl _)

end Execution.Inside

/-- A successful call leaves the callee at its start over its arguments, inside the caller. -/
theorem Execution.AboutToCall.enters (h : s.AboutToCall f callers argc id slot) (hs : s.Nested)
    {progress : Progress} {t : Execution}
    (hstep : Exec.step (Exec.alloc others) s = .ok progress t) :
    progress = .running ∧ t.machine.stack = s.machine.stack ∧
      t.machine.frames = ⟨id, 0, slot⟩ :: f.ahead Opcode.call.size :: callers := by
  obtain ⟨c, n, op, hnext, _, hmoves⟩ := hs.step_ok_whole h.frames hstep
  obtain ⟨c', n', hnext', hargc⟩ := h.next
  obtain ⟨rfl, rfl, rfl⟩ := hnext.unique hnext'
  obtain ⟨⟨f', hf', hoffset, _⟩, _⟩ := hnext
  rw [h.frames, List.head?_cons] at hf'
  cases hf'
  cases hmoves with
  | goes hcall => exact absurd rfl hcall
  | @calls argc' id' _ hargc' hcallee _ _ _ hcalled _ _ hkept =>
    cases hargc.symm.trans hargc'
    have hheight := h.callable.height
    have hslot : s.machine.stack.size - 1 - argc.toNat = slot := by omega
    rw [hslot, h.callable.callee] at hcallee
    cases hcallee
    have hbase : 0 + s.machine.stack.size - argc.toNat - 1 = slot := by omega
    have hahead : f.ahead Opcode.call.size = ⟨f.function, (n + 2 : Nat), f.base⟩ := by
      rw [Frame.ahead, hoffset]
      rfl
    rw [hbase] at hcalled
    rw [hahead]
    exact ⟨rfl, hkept, hcalled⟩

/-- The calling convention.  A call with frames to spare is made unless the stack is full or
the callee's code may not run.  From then on, whatever the callee does and calls, the slots
below its own keep their values and the frames below stay as they are, the caller behind its
call; and each instruction stays inside the call or is the return from it, which leaves one
value in the place of the callee and its arguments. -/
theorem Execution.Reached.calling_convention (h : s.Reached others)
    (hcall : s.AboutToCall f callers argc id slot) :
    (∀ e t, Exec.step (Exec.alloc others) s = .error e t →
      s.machine.stackMax ≤ s.machine.stack.size ∨
      (∃ err, (s.memory.verify id).2 = some err ∧ e = .raised (.invalidCallee err)) ∨
      s.Misreads) ∧
    ∀ progress entered, Exec.step (Exec.alloc others) s = .ok progress entered →
      progress = .running ∧
      entered.machine.stack = s.machine.stack ∧
      entered.machine.frames = ⟨id, 0, slot⟩ :: f.ahead Opcode.call.size :: callers ∧
      ∀ t, entered.During others s.machine.frames.length t →
        t.machine.stack.extract 0 slot = s.machine.stack.extract 0 slot ∧
        (∃ inner, inner ≠ [] ∧
          t.machine.frames = inner ++ f.ahead Opcode.call.size :: callers) ∧
        ∀ progress u, Exec.step (Exec.alloc others) t = .ok progress u →
          progress = .running ∧
          (s.machine.frames.length < u.machine.frames.length ∨
            t.Returns u (s.machine.stack.extract 0 slot) (f.ahead Opcode.call.size :: callers) ∧
              u.machine.stack.size + argc.toNat = s.machine.stack.size) := by
  have hnested := h.nested
  have hheight := hcall.callable.height
  have hdepth : s.machine.frames.length = (f.ahead Opcode.call.size :: callers).length := by
    rw [hcall.frames]
    rfl
  have hbelow : (s.machine.stack.extract 0 slot).size = slot := by
    rw [Array.size_extract]
    omega
  refine ⟨fun e t hstop => ?_, fun progress entered hstep => ?_⟩
  · rcases hcall.step_error hstop with hfull | hinvalid | rfl
    · exact Or.inl hfull
    · exact Or.inr (Or.inl hinvalid)
    · exact Or.inr (Or.inr (hnested.misreads_of_crash hstop))
  obtain ⟨rfl, hstack, hframes⟩ := hcall.enters hnested hstep
  refine ⟨rfl, hstack, hframes, fun t hduring => ?_⟩
  have hentered : entered.Inside (s.machine.stack.extract 0 slot)
      (f.ahead Opcode.call.size :: callers) := by
    refine ⟨hnested.step hstep, ⟨s.machine.stack.extract slot s.machine.stack.size, ?_⟩,
      [], ⟨id, 0, slot⟩, hframes, hbelow.symm⟩
    rw [hstack]
    exact extract_split _ (by omega)
  rw [hdepth] at hduring
  have hinside := hentered.during (List.cons_ne_nil _ _) hduring
  refine ⟨?_, ?_, fun progress u hstep => ?_⟩
  · obtain ⟨rest, hrest⟩ := hinside.stack
    have hnone : rest.extract (0 - slot) 0 = #[] := Array.extract_eq_empty_of_le (by omega)
    rw [hrest, Array.extract_append, Array.extract_eq_self_of_le hbelow.le, hbelow,
      Nat.sub_self, hnone, Array.append_empty]
  · obtain ⟨inner, outermost, hinner, _⟩ := hinside.frames
    exact ⟨inner ++ [outermost], List.append_ne_nil_of_right_ne_nil _ (List.cons_ne_nil _ _),
      hinner.trans (List.append_cons _ _ _)⟩
  · obtain ⟨hrunning, hu | hu⟩ := hinside.step (List.cons_ne_nil _ _) hstep
    · exact ⟨hrunning, Or.inl (hdepth ▸ hu.deeper)⟩
    · obtain ⟨v, _, hpush⟩ := hu.stack
      refine ⟨hrunning, Or.inr ⟨hu, ?_⟩⟩
      rw [hpush, Array.size_push, hbelow]
      omega

theorem callingSample_aboutToCall : callingSample.AboutToCall ⟨0, 3, 0⟩ [] 1 1 1 where
  frames := rfl
  next := ⟨_, 3, callingSample_next, rfl⟩
  callable := ⟨Nat.one_pos, rfl, rfl, ⟨_, rfl, rfl⟩, Nat.one_lt_two⟩

/-- The callee gives its argument back, in its own place. -/
theorem Execution.Reached.calling_convention_callingSample :
    callingSample.Reached (.of fun _ => []) ∧
      callingSample.AboutToCall ⟨0, 3, 0⟩ [] 1 1 1 ∧
      ∃ entered t u,
        Exec.step (Exec.alloc (.of fun _ => [])) callingSample = .ok .running entered ∧
        entered.During (.of fun _ => []) 1 t ∧
        Exec.step (Exec.alloc (.of fun _ => [])) t = .ok .running u ∧
        t.Returns u #[.object 0] [⟨0, 5, 0⟩] := by
  obtain ⟨_, hruns⟩ := callingSample_reached.calling_convention callingSample_aboutToCall
  refine ⟨callingSample_reached, callingSample_aboutToCall, _, _, _, rfl,
    .step .start rfl (Nat.lt_succ_self 1), rfl, ?_⟩
  obtain ⟨_, _, _, hduring⟩ := hruns _ _ rfl
  obtain ⟨_, _, hstep⟩ := hduring _ (.step .start rfl (Nat.lt_succ_self 1))
  obtain ⟨_, hdeeper | hreturns⟩ := hstep _ _ rfl
  · exact absurd hdeeper (Nat.lt_irrefl 1)
  · exact hreturns.1

end StackVm
