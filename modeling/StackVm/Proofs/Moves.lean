/-
What an instruction does to the calls and to the stack, whatever its code is: it goes on in
its own call, enters a callee, or returns.  Over two bottoms it does so alike, and it
addresses something outside its bounds only when its code cannot be read.
-/
import StackVm.Proofs.Instruction
import StackVm.Proofs.KeptInstructions

namespace StackVm

/-- The innermost call is at an instruction of its code. -/
structure Execution.Next (s : Execution) (c : Chunk) (n : Nat) (op : Opcode) : Prop where
  frame : ∃ f, s.machine.frames.head? = some f ∧ f.ip = n ∧
    (s.memory.function? f.function).bind s.memory.chunkOf? = some c
  opcode : c.code[n]?.bind Opcode.ofByte? = some op

/-- The code that is to be executed cannot be read: it is missing, the call is in front of
its start, an instruction does not find what it has to read, or a callee has no code. -/
inductive Execution.Misreads (s : Execution) : Prop
  | code {f : Frame} : s.machine.frames.head? = some f →
      (s.memory.function? f.function).bind s.memory.chunkOf? = none → Misreads s
  | offset {f : Frame} : s.machine.frames.head? = some f → f.ip < 0 → Misreads s
  | instruction {c : Chunk} {n : Nat} {op : Opcode} : s.Next c n op →
      c.Misreads s.memory.typeOf n op → Misreads s
  | callee {c : Chunk} {n : Nat} {argc : UInt8} {id : ObjectId} : s.Next c n .call →
      c.code[n + 1]? = some argc →
      s.machine.stack[s.machine.stack.size - 1 - argc.toNat]? = some (.object id) →
      (s.memory.function? id).bind s.memory.chunkOf? = none → Misreads s

/-- What the instruction `op` at `n` leaves of a stack with `height` more values below. -/
inductive Activation.Moves (g : Activation) (height : Nat) (c : Chunk) (n : Nat)
    (before : Array Value) : Opcode → Progress → Execution → Prop
  | goes {op : Opcode} {u : Execution} : op ≠ .call → op ≠ .ret → g.Goes height u →
      Moves g height c n before op .running u
  | calls {argc : UInt8} {id : ObjectId} {u : Execution} : c.code[n + 1]? = some argc →
      before[before.size - 1 - argc.toNat]? = some (.object id) →
      g.base + 1 + (argc.toNat + 1) ≤ height + before.size →
      height + before.size ≤ g.stackMax → g.callers.length + 1 < g.maxFrames →
      u.machine.frames = ⟨id, 0, height + before.size - argc.toNat - 1⟩ ::
        ⟨g.function, (n + 2 : Nat), g.base⟩ :: g.callers →
      u.machine.stackMax = g.stackMax → u.machine.maxFrames = g.maxFrames →
      u.machine.stack = before → Moves g height c n before .call .running u
  | returns {v : Value} {u : Execution} : g.callers ≠ [] → before.back? = some v →
      u.machine.frames = g.callers → u.machine.stackMax = g.stackMax →
      u.machine.maxFrames = g.maxFrames →
      u.machine.stack = (before.shrink (g.base - height)).push v →
      g.base < g.stackMax → Moves g height c n before .ret .running u
  | finishes {u : Execution} : g.callers = [] → Moves g height c n before .ret .finished u

theorem Activation.Moves.needs_call {g : Activation} {height : Nat} {c : Chunk} {n : Nat}
    {before : Array Value} {progress : Progress} {u : Execution}
    (h : g.Moves height c n before .call progress u) :
    g.base + 1 + Opcode.call.needs c.code[n + 1]? ≤ height + before.size := by
  cases h with
  | goes hcall => exact absurd rfl hcall
  | calls hargc _ hargs =>
    rw [hargc]
    exact hargs

theorem Exec.verifyCallee_bind {α : Type} (s : Execution) (id : ObjectId) (f : Unit → ExecM α) :
    (Exec.verifyCallee id >>= f) s = match (s.memory.verify id).2 with
      | some e => .error (.raised (.invalidCallee e)) { s with memory := (s.memory.verify id).1 }
      | none => f () { s with memory := (s.memory.verify id).1 } := by
  rw [Exec.verifyCallee, bind_assoc, bind_apply, modifyGet_apply]
  simp only
  cases (s.memory.verify id).2 <;> rfl

namespace Activation

variable {B : Bottoms} {excuse : Prop} {g : Activation} {ip : Int} {depth n : Nat}
  {u : Execution} {c : Chunk} {op : Opcode} {make make' : Exec.Allocator} {α : Type}
  {post : α → Execution → Prop}

/-! ### Calls -/

theorem At.bind_verifyCallee (h : g.At ip depth u) (id : ObjectId) {f f' : Unit → ExecM α}
    (hnext : ∀ v', v'.machine = u.machine → u.memory.Evolves v'.memory → g.At ip depth v' →
      B.Keep excuse post (f () (v'.over B.left)) (f' () (v'.over B.right))) :
    B.Keep excuse post ((Exec.verifyCallee id >>= f) (u.over B.left))
      ((Exec.verifyCallee id >>= f') (u.over B.right)) := by
  rw [Exec.verifyCallee_bind, Exec.verifyCallee_bind, Execution.over_memory, Execution.over_memory]
  cases (u.memory.verify id).2 with
  | some e => exact B.keep_raise (u := { u with memory := (u.memory.verify id).1 }) _
  | none =>
    let verified : Execution := { u with memory := (u.memory.verify id).1 }
    exact hnext verified rfl (.verify _ id) (h.with_machine rfl)

/-- A call leaves its own call behind the operand and enters the callee at its start. -/
theorem Reads.call (hr : g.Reads c n .call excuse depth u)
    (hcallee : ∀ (argc : UInt8) id, c.code[n + 1]? = some argc → argc.toNat + 1 ≤ depth →
      u.machine.stack[depth - 1 - argc.toNat]? = some (.object id) →
      (u.memory.function? id).bind u.memory.chunkOf? = none → excuse)
    (hbottom : B.height ≤ g.base + 1) (hroom : B.height + depth < g.stackMax) :
    B.Keep excuse (fun _ u' => g.Moves B.height c n u.machine.stack .call .running u')
      (Exec.call (u.over B.left)) (Exec.call (u.over B.right)) := by
  rw [Exec.call]
  refine hr.bind_operand Nat.one_pos fun argc v' hargc hstack hmemory h' => ?_
  refine h'.bind_require _ _ fun hargs => h'.bind_peek (by omega) fun v hv => ?_
  refine B.bind_function? v (B.keep_raise _) fun id fn hid hfn => ?_
  simp only [branch_apply]
  split
  · exact B.keep_raise _
  have hframes : ∀ xs : Array Value, (v'.over xs).machine.frames =
      ⟨g.function, (n + 2 : Nat), g.base⟩ :: g.callers := fun _ => h'.frames
  have hmax : ∀ xs : Array Value, (v'.over xs).machine.maxFrames = g.maxFrames :=
    fun _ => h'.maxFrames
  simp only [get_bind_apply, branch_apply, hframes, hmax, List.length_cons]
  split
  · exact B.keep_raise _
  refine h'.bind_verifyCallee id fun w hmachine hevolves h => ?_
  -- Here the new frame is made; that its function has code is found out last.
  let base := B.height + depth - argc.toNat - 1
  let entered : Execution := { w with machine := { w.machine with
    frames := ⟨id, 0, base⟩ :: ⟨g.function, (n + 2 : Nat), g.base⟩ :: g.callers } }
  let inner : Activation :=
    ⟨id, base, ⟨g.function, (n + 2 : Nat), g.base⟩ :: g.callers, g.stackMax, g.maxFrames⟩
  have hentered : inner.At 0 depth entered := ⟨rfl, h.stackMax, h.maxFrames, h.depth⟩
  have henter : ∀ xs : Array Value, xs.size = B.height →
      (do
        let base := (← get).machine.stack.size - argc.toNat - 1
        Exec.modifyMachine fun m => { m with frames := ⟨id, 0, base⟩ :: m.frames }
        let _ ← Exec.chunk : ExecM Unit) (w.over xs) =
      (Exec.chunk >>= fun _ => pure ()) (entered.over xs) := by
    intro xs hxs
    have hbefore : (w.over xs).machine.frames =
      ⟨g.function, (n + 2 : Nat), g.base⟩ :: g.callers := h.frames
    rw [get_bind_apply, h.size_over, hxs, bind_apply, Exec.modifyMachine, modify_apply]
    simp only [hbefore]
    rfl
  rw [henter _ rfl, henter _ B.level]
  have hcaller : v = .object id → u.machine.stack[depth - 1 - argc.toNat]? = some (.object id) :=
    fun hv' => by rw [← hstack, hv, hv']
  have hdeep : argc.toNat + 1 ≤ depth := by omega
  refine hentered.bind_chunk (fun hnone => hcallee argc id hargc hdeep (hcaller hid) ?_)
    fun c' _ => ?_
  · cases hcode : (u.memory.function? id).bind u.memory.chunkOf? with
    | none => rfl
    | some c'' =>
      have hkept := hevolves.code (hmemory.symm ▸ hcode)
      cases hnone.symm.trans hkept
  · have hsize : u.machine.stack.size = depth := by rw [← hstack, h'.depth]
    have hat : u.machine.stack[u.machine.stack.size - 1 - argc.toNat]? = some (.object id) := by
      rw [hsize]
      exact hcaller hid
    refine .ok (u := entered) (.calls hargc hat ?_ ?_ ?_ ?_ h.stackMax h.maxFrames ?_)
    · rw [hsize]
      exact hargs
    · rw [hsize]
      exact Nat.le_of_lt hroom
    · omega
    · rw [hsize]
    · exact (congrArg Machine.stack hmachine).trans hstack

/-! ### Returns -/

/-- A return gives up the stack down to its callee slot and leaves the result there. -/
theorem At.ret (h : g.At ip depth u) (hbottom : B.height ≤ g.base)
    (houter : g.callers = [] → B.height = 0) (hneed : g.base + 1 + 1 ≤ B.height + depth)
    (hroom : B.height + depth < g.stackMax) (c : Chunk) (n : Nat) :
    B.Keep excuse (fun progress u' => g.Moves B.height c n u.machine.stack .ret progress u')
      (Exec.ret (u.over B.left)) (Exec.ret (u.over B.right)) := by
  obtain ⟨k, rfl⟩ : ∃ k, depth = k + 1 := ⟨depth - 1, by omega⟩
  rw [Exec.ret]
  refine h.bind_pop fun result w hresult hstack _ h' => ?_
  rw [h'.frame_bind, h'.frame_bind]
  let left : Execution := { w with machine := { w.machine with frames := g.callers } }
  have hleave : ∀ xs : Array Value,
      (do
        Exec.modifyMachine fun m => { m with frames := m.frames.tail }
        if (← get).machine.frames.isEmpty then
          Exec.shrinkTo 0
          Exec.modifyMachine fun m => { m with result }
          Exec.push result
          return Progress.finished
        else
          Exec.shrinkTo g.base
          Exec.push result
          return Progress.running : ExecM Progress) (w.over xs) =
      (if g.callers.isEmpty then do
          Exec.shrinkTo 0
          Exec.modifyMachine fun m => { m with result }
          Exec.push result
          return Progress.finished
        else do
          Exec.shrinkTo g.base
          Exec.push result
          return Progress.running : ExecM Progress) (left.over xs) := by
    intro xs
    have hframes : (w.over xs).machine.frames = ⟨g.function, ip, g.base⟩ :: g.callers := h'.frames
    rw [bind_apply, Exec.modifyMachine, modify_apply]
    simp only [hframes, List.tail_cons, get_bind_apply]
    rfl
  rw [hleave, hleave]
  cases hcallers : g.callers with
  | nil =>
    -- The machine stops here, and nothing lies below the outermost call.
    have hheight := houter hcallers
    have hempty : (left.machine.stack.shrink 0).size < left.machine.stackMax := by
      rw [Array.size_shrink, Nat.zero_min, h'.stackMax]
      omega
    rw [Execution.over_of_empty hheight, Execution.over_of_empty (B.level.trans hheight)]
    simp only [List.isEmpty_nil, if_true]
    rw [shrinkTo_bind (Nat.zero_le _), bind_apply, Exec.modifyMachine, modify_apply]
    dsimp only
    rw [push_bind hempty]
    exact B.keep_of_empty hheight (.finishes hcallers)
  | cons f rest =>
    let caller : Activation := ⟨f.function, f.base, rest, g.stackMax, g.maxFrames⟩
    have hat : caller.At f.ip k left := ⟨hcallers, h'.stackMax, h'.maxFrames, h'.depth⟩
    obtain ⟨low, hlow⟩ : ∃ low, g.base = B.height + low := ⟨g.base - B.height, by omega⟩
    simp only [List.isEmpty_cons, Bool.false_eq_true, if_false, hlow]
    refine hat.bind_shrinkTo (by omega) fun v' hv' _ h'' => ?_
    have hfree : B.height + low < g.stackMax := by omega
    refine h''.bind_push hfree result fun v'' hv'' _ hpushed => .ok ?_
    refine .returns (v := result) (hcallers ▸ List.cons_ne_nil _ _) hresult ?_ hpushed.stackMax
      hpushed.maxFrames ?_ (by omega)
    · rw [hpushed.frames, hcallers]
    · have hlt : low < u.machine.stack.size := by
        rw [h.depth]
        omega
      have hshrunk : left.machine.stack.shrink low = u.machine.stack.shrink low := by
        rw [← shrink_pop hlt, ← hstack]
      rw [hv'', hv', hshrunk, hlow, Nat.add_sub_cancel_left]

/-! ### Whole instructions -/

theorem At.head (h : g.At ip depth u) (xs : Array Value) :
    (u.over xs).machine.frames.head? = some ⟨g.function, ip, g.base⟩ := by
  have hframes : (u.over xs).machine.frames = ⟨g.function, ip, g.base⟩ :: g.callers := h.frames
  rw [hframes, List.head?_cons]

/-- What is to be executed does not depend on the stack. -/
theorem At.next (h : g.At (n : Nat) depth u)
    (hcode : (u.memory.function? g.function).bind u.memory.chunkOf? = some c)
    (hop : c.code[n]?.bind Opcode.ofByte? = some op) (xs : Array Value) :
    (u.over xs).Next c n op :=
  ⟨⟨_, h.head xs, rfl, hcode⟩, hop⟩

/-- The opcode is read with room for one more value. -/
theorem At.fetch (h : g.At ip depth u) (hexcuse : (u.over B.left).Misreads → excuse) :
    B.Keep excuse (fun byte u' => ∃ c, ∃ n : Nat, ip = n ∧
        (u.memory.function? g.function).bind u.memory.chunkOf? = some c ∧
        c.code[n]? = some byte ∧ B.height + depth < g.stackMax ∧ u'.memory = u.memory ∧
        u'.machine.stack = u.machine.stack ∧ g.At (n + 1 : Nat) depth u')
      (Exec.fetch (u.over B.left)) (Exec.fetch (u.over B.right)) := by
  have hmax : ∀ xs : Array Value, (u.over xs).machine.stackMax = g.stackMax := fun _ => h.stackMax
  have hmissing : (u.memory.function? g.function).bind u.memory.chunkOf? = none → excuse :=
    fun hnone => hexcuse (.code (h.head _) hnone)
  rw [Exec.fetch, h.frame_bind, h.frame_bind]
  refine h.bind_chunk hmissing fun c hc => ?_
  simp only [branch_apply, get_bind_apply, h.size_over, hmax, Execution.over_memory]
  split
  · obtain ⟨fn, hfn, _⟩ := Option.bind_eq_some_iff.1 hc
    rw [hfn, present_bind, present_bind]
    exact B.keep_raise _
  next hinside =>
  rw [B.level]
  split
  · exact B.keep_raise _
  next hfull =>
  rw [Exec.byteAt]
  split
  · next hnegative => exact B.keep_crash (hexcuse (.offset (h.head _) hnegative))
  next hpositive =>
  obtain ⟨n, rfl⟩ : ∃ n : Nat, ip = n := ⟨ip.toNat, by omega⟩
  rw [Int.toNat_natCast]
  refine B.bind_present (fun hnone => ?_) fun byte hbyte => ?_
  · have hlt : n < c.code.size := by omega
    rw [Array.getElem?_eq_getElem hlt] at hnone
    cases hnone
  let traced : Execution := { u with err := u.err ++ Exec.traceLine n byte (B.height + depth) }
  have htraced : g.At n depth traced := h.with_machine rfl
  have hroom : B.height + depth < g.stackMax := by
    have hheight : B.left.size = B.height := rfl
    omega
  have hprint : ∀ (xs : Array Value) (k : Unit → ExecM UInt8),
      (Exec.printErr (Exec.traceLine n byte (B.left.size + depth)) >>= k) (u.over xs) =
        k () (traced.over xs) := fun _ _ => rfl
  rw [get_bind_apply, get_bind_apply, branch_apply, branch_apply]
  split
  · next htracing =>
    have htracing' : (u.over B.right).machine.tracing = true := htracing
    rw [if_pos htracing', hprint, hprint]
    refine htraced.bind_advance 1 fun v' hstack hmemory h' => .ok ?_
    exact ⟨c, n, rfl, hc, hbyte, hroom, hmemory, hstack, h'⟩
  · next htracing =>
    have htracing' : ¬ (u.over B.right).machine.tracing = true := htracing
    rw [if_neg htracing']
    refine h.bind_advance 1 fun v' hstack hmemory h' => .ok ?_
    exact ⟨c, n, rfl, hc, hbyte, hroom, hmemory, hstack, h'⟩

theorem At.bind_demand (h : g.At ip depth u) (hbase : g.base < B.height + depth) (op : Opcode)
    {f f' : Unit → ExecM α}
    (hnext : g.base + 1 + op.shape.pops.getD 0 ≤ B.height + depth →
      B.Keep excuse post (f () (u.over B.left)) (f' () (u.over B.right))) :
    B.Keep excuse post ((Exec.demand op >>= f) (u.over B.left))
      ((Exec.demand op >>= f') (u.over B.right)) := by
  rw [Exec.demand]
  rcases hpops : op.shape.pops with _ | _ | need
  · rw [hpops] at hnext
    exact hnext hbase
  · rw [hpops] at hnext
    exact hnext hbase
  · rw [hpops] at hnext
    exact h.bind_require op (need + 1) hnext

/-- One instruction over two bottoms that reach up to the callee slot of its call, and contain
it unless the instruction may address it. -/
theorem At.step (hmake : B.Agree make make') (h : g.At ip depth u)
    (hexcuse : (u.over B.left).Misreads → excuse) (hbottom : B.height ≤ g.base + 1)
    (hlocal : ∀ c n op, (u.over B.left).Next c n op → op.usesCallee = true → B.height ≤ g.base)
    (houter : g.callers = [] → g.base = 0) (hbase : g.base < B.height + depth) :
    B.Keep excuse (fun progress u' => ∃ c n op, (u.over B.left).Next c n op ∧
        g.base + 1 + op.needs c.code[n + 1]? ≤ B.height + depth ∧
        g.Moves B.height c n u.machine.stack op progress u')
      (Exec.step make (u.over B.left)) (Exec.step make' (u.over B.right)) := by
  rw [Exec.step_eq, Exec.step_eq]
  refine (h.fetch hexcuse).bind fun byte u' hfetched => ?_
  obtain ⟨c, n, rfl, hcode, hbyte, hroom, hmemory, hstack, h'⟩ := hfetched
  cases hopcode : Opcode.ofByte? byte with
  | none => exact B.keep_raise _
  | some op =>
    have hop : c.code[n]?.bind Opcode.ofByte? = some op := by
      rw [hbyte]
      exact hopcode
    have hnext := h.next hcode hop B.left
    have hreads : g.Reads c n op excuse depth u' := by
      refine ⟨h', hmemory ▸ hcode, fun hmisreads => hexcuse (.instruction hnext ?_)⟩
      rw [Execution.over_memory, ← hmemory]
      exact hmisreads
    refine h'.bind_demand hbase op fun hneed => ?_
    rw [Exec.perform, Exec.perform, ← hstack]
    split
    · next hret =>
      subst hret
      refine (h'.ret (hlocal c n _ hnext rfl) (fun hnil => ?_) hneed hroom c n).mono
        (fun _ _ hmoves => ⟨c, n, _, hnext, hneed, hmoves⟩) id
      have hle := hlocal c n _ hnext rfl
      rw [houter hnil] at hle
      exact Nat.eq_zero_of_le_zero hle
    · next hret =>
      by_cases hcall : op = .call
      · subst hcall
        refine (hreads.call (fun argc id hargc hdeep hid hnone => ?_) hbottom hroom).bind
          fun _ _ hmoves => .ok ⟨c, n, _, hnext, ?_, hmoves⟩
        · refine hexcuse (.callee hnext hargc ?_ (hmemory ▸ hnone))
          rw [h.size_over, Execution.over, Array.getElem?_append_right (by omega), ← hid, hstack]
          congr 1
          omega
        · rw [← h'.depth]
          exact hmoves.needs_call
      · refine (hreads.execute hmake hbottom (hlocal c n op hnext) hneed hroom hret hcall).bind
          fun _ _ hgoes => .ok ⟨c, n, op, hnext, hgoes.2, .goes hcall hret hgoes.1⟩

end Activation

end StackVm
