/-
Where instructions land.  An instruction of valid, aligned code finds its operands, its
constant and its name, and unless it calls or returns it leaves its frame at the start of
an instruction or at the end of the code.
-/
import StackVm.Proofs.StackEffects

namespace StackVm.Stage

/-- The opcode at `n` has been read: `n` is a boundary of valid, aligned code, and the
instruction there has been checked. -/
structure Reads (g : Stage) (n : Nat) (op : Opcode) : Prop where
  starts : g.chunk.Starts 0 n
  checked : Chunk.Checked g.memory.typeOf g.chunk n op
  valid : g.chunk.validate g.memory.typeOf = .ok ()
  aligned : g.chunk.Aligned

/-- The frame is at a boundary, with its callee slot on the stack. -/
def Lands (g : Stage) (s : Execution) : Prop :=
  ∃ n depth, g.At n depth s ∧ g.chunk.Starts 0 n ∧ g.base < depth ∧ depth ≤ g.stackMax

variable {g : Stage} {ip depth n : Nat} {s : Execution} {op : Opcode} {α : Type}
  {post : α → Execution → Prop}

/-! ### Operands -/

theorem At.bind_operand (h : g.At ip depth s) {byte : UInt8}
    (hbyte : g.chunk.code[ip]? = some byte) {f : Nat → ExecM α}
    (hnext : ∀ s', g.At (ip + 1) depth s' → Meets post (f byte.toNat s')) :
    Meets post ((Exec.operand >>= f) s) := by
  have hpositive : ¬ (ip : Int) < 0 := by omega
  rw [Exec.operand, bind_assoc, h.chunk_bind, bind_assoc, h.frame_bind, bind_assoc, Exec.byteAt,
    if_neg hpositive, Int.toNat_natCast, hbyte, present_bind, bind_assoc]
  exact (h.advance (by omega)).bind fun _ s' h' => hnext s' h'

theorem At.has_function (h : g.At ip depth s) : g.scope.Has g.function := by
  have hframes := h.within.machine.frames
  rw [h.frames] at hframes
  cases hframes with
  | cons htop _ => exact htop.function.2

theorem At.chunk_like (h : g.At ip depth s) : g.chunk.Like g.scope.same g.chunk :=
  rel_self (h.within.memory.code ⟨rfl, h.has_function⟩) h.code

theorem Reads.bind_operand (hr : g.Reads n op) (h : g.At (n + 1) depth s)
    (hcount : 0 < op.operandCount) {f : Nat → ExecM α}
    (hnext : ∀ i s', g.At (n + 2) depth s' → Meets post (f i s')) :
    Meets post ((Exec.operand >>= f) s) := by
  obtain ⟨byte, hbyte⟩ := hr.checked.decodes.operand hcount
  exact h.bind_operand hbyte fun s' h' => hnext _ s' h'

theorem Reads.bind_wideOperand (hr : g.Reads n op) (h : g.At (n + 1) depth s)
    (hcount : op.operandCount = 2) {f : Nat → ExecM α}
    (hnext : ∀ s', g.At (n + 3) depth s' → Meets post (f (g.chunk.wordAt (n + 1)) s')) :
    Meets post ((Exec.wideOperand >>= f) s) := by
  have hone : 1 ≤ op.operandCount := by omega
  have htwo : 2 ≤ op.operandCount := by omega
  obtain ⟨high, hhigh⟩ := hr.checked.decodes.operand hone
  obtain ⟨low, hlow⟩ := hr.checked.decodes.operand htwo
  have hword : g.chunk.wordAt (n + 1) = high.toNat * 256 + low.toNat := by
    rw [Chunk.wordAt, hhigh, hlow]
  rw [hword] at hnext
  rw [Exec.wideOperand]
  simp only [bind_assoc, pure_bind]
  exact h.bind_operand hhigh fun s' h' => h'.bind_operand hlow hnext

theorem Reads.bind_constantOperand (hr : g.Reads n op) (h : g.At (n + 1) depth s)
    (huses : op.usesConstant = true) {f : Value → ExecM α}
    (hnext : ∀ v s', g.At (n + 2) depth s' → g.Covers v →
      (op.usesName = true → g.memory.typeOf v = .string) → Meets post (f v s')) :
    Meets post ((Exec.constantOperand >>= f) s) := by
  obtain ⟨byte, hbyte⟩ := hr.checked.decodes.operand (Opcode.operandCount_pos huses)
  obtain ⟨v, hv, hname⟩ := hr.checked.constant_mem huses hbyte
  rw [Exec.constantOperand, bind_assoc]
  refine h.bind_operand hbyte fun s' h' => ?_
  rw [bind_assoc, h'.chunk_bind, hv, present_bind]
  exact hnext v s' h' (rel_self (h'.chunk_like.constants.getElem? _) hv) hname

theorem Reads.bind_nameOperand (hr : g.Reads n op) (h : g.At (n + 1) depth s)
    (huses : op.usesName = true) {f : Text → ExecM α}
    (hnext : ∀ name s', g.At (n + 2) depth s' → Meets post (f name s')) :
    Meets post ((Exec.nameOperand >>= f) s) := by
  have hconstant : op.usesConstant = true := by
    rw [Opcode.usesConstant, huses, Bool.or_true]
  rw [Exec.nameOperand, bind_assoc]
  refine hr.bind_constantOperand h hconstant fun v s' h' _ hstring => ?_
  have htype := h'.evolves.typeOf_string v (hstring huses)
  cases v with
  | object id =>
    obtain ⟨name, hname⟩ := Memory.string?_of_typeOf htype
    simp only [bind_assoc, get_bind_apply, hname, present_bind]
    exact hnext name s' h'
  | _ => cases htype

theorem At.bind_require (h : g.At ip depth s) (op : Opcode) (need : Nat) {f : Unit → ExecM α}
    (hnext : g.base + 1 + need ≤ depth → Meets post (f () s)) :
    Meets post ((Exec.require op need >>= f) s) := by
  rw [Exec.require, bind_assoc, h.frame_bind, bind_assoc, get_bind_apply, h.depth]
  by_cases hfew : depth < g.base + 1 + need
  · rw [if_pos hfew]
    exact meets_raise fun _ hcause => by cases hcause
  · rw [if_neg hfew]
    exact hnext (by omega)

/-! ### Ordinary instructions -/

theorem Reads.lands (hr : g.Reads n op) (h : g.At (n + op.size) depth s)
    (hbase : g.base < depth) (hroom : depth ≤ g.stackMax) : g.Lands s :=
  ⟨_, _, h, hr.starts.snoc hr.checked.decodes, hbase, hroom⟩

/-- An instruction lands that leaves one value in the place of those it needs. -/
theorem Reads.replaces (hr : g.Reads n op) (hip : ip = n + op.size) (h : g.At ip depth s)
    {need : Nat} (hneed : g.base + 1 + need ≤ depth) (hroom : depth < g.stackMax)
    {r : EStateM.Result Stop Execution Unit}
    (hr' : ∀ k, k + need < g.stackMax → g.At ip (k + need) s →
      Meets (fun _ s' => g.At ip (k + 1) s') r) :
    Meets (fun _ s' => g.Lands s') r := by
  obtain ⟨k, rfl⟩ : ∃ k, depth = k + need := ⟨depth - need, by omega⟩
  refine (hr' k hroom h).mono fun _ s' h' => ?_
  rw [hip] at h'
  exact hr.lands h' (by omega) (by omega)

theorem Reads.jumps (hr : g.Reads n op) (h : g.At (n + 3) depth s) (hjump : op.isJump = true)
    (hbase : g.base < depth) (hroom : depth ≤ g.stackMax) {distance : Int}
    (hdistance : (n + 3 : Int) + distance = g.chunk.target op n) :
    Meets (fun _ s' => g.Lands s') (Exec.advance distance s) := by
  obtain ⟨target, hstarts, htarget⟩ :=
    hr.aligned.target_starts hr.valid hr.starts hr.checked.decodes hjump
  have hto : ((n + 3 : Nat) : Int) + distance = target := by
    rw [← htarget, ← hdistance]
    rfl
  exact (h.advance hto).mono fun _ s' h' => ⟨target, depth, h', hstarts, hbase, hroom⟩

theorem Reads.getLocal (hr : g.Reads n .getLocal) (h : g.At (n + 1) depth s)
    (hbase : g.base < depth) (hroom : depth < g.stackMax) :
    Meets (fun _ s' => g.Lands s') (Exec.getLocal s) := by
  rw [Exec.getLocal]
  refine hr.bind_operand h Nat.one_pos fun slot s' h' => ?_
  have hvalue := h'.within.machine.stack.getElem? (g.base + slot)
  rw [get_bind_apply, h'.frame_bind]
  cases hv : s'.machine.stack[g.base + slot]? with
  | none => exact meets_raise nofun
  | some v =>
    exact (h'.push hroom (rel_self hvalue hv)).mono fun _ s'' h'' =>
      hr.lands h'' (by omega) (by omega)

theorem Reads.setLocal (hr : g.Reads n .setLocal) (h : g.At (n + 1) depth s)
    (hbase : g.base < depth) (hroom : depth < g.stackMax) :
    Meets (fun _ s' => g.Lands s') (Exec.setLocal s) := by
  rw [Exec.setLocal]
  refine hr.bind_operand h Nat.one_pos fun slot s' h' => ?_
  rw [h'.frame_bind]
  simp only [get_bind_apply, branch_apply]
  split
  · exact .stop (.raised nofun)
  · refine h'.bind_peek (by omega) fun v hv => ?_
    have hsize : (s'.machine.stack.setIfInBounds (g.base + slot) v).size = depth := by
      rw [Array.size_setIfInBounds, h'.depth]
    have hset := h'.with_stack (h'.within.machine.stack.setIfInBounds _ hv) hsize
    exact .ok (hr.lands hset hbase (by omega))

theorem Reads.getGlobal (hr : g.Reads n .getGlobal) (h : g.At (n + 1) depth s)
    (hbase : g.base < depth) (hroom : depth < g.stackMax) :
    Meets (fun _ s' => g.Lands s') (Exec.getGlobal s) := by
  rw [Exec.getGlobal]
  refine hr.bind_nameOperand h rfl fun name s' h' => ?_
  obtain ⟨hvalue, hglobals⟩ := h'.within.machine.globals.get name
  have hread := h'.with_globals hglobals
  rw [bind_apply, modifyGet_apply]
  simp only
  cases hv : (s'.machine.globals.get name).1 with
  | none => exact meets_raise nofun
  | some v =>
    exact (hread.push hroom (rel_self hvalue hv)).mono fun _ s'' h'' =>
      hr.lands h'' (by omega) (by omega)

theorem Reads.defineGlobal (hr : g.Reads n .defineGlobal) (h : g.At (n + 1) depth s)
    (hneed : g.base + 1 + 1 ≤ depth) (hroom : depth < g.stackMax) :
    Meets (fun _ s' => g.Lands s') (Exec.defineGlobal s) := by
  obtain ⟨k, rfl⟩ : ∃ k, depth = k + 1 := ⟨depth - 1, by omega⟩
  rw [Exec.defineGlobal]
  refine hr.bind_nameOperand h rfl fun name s' h' => h'.bind_pop fun v s'' h'' hv => ?_
  have hdefined := h''.with_globals (h''.within.machine.globals.define name hv)
  exact .ok (hr.lands hdefined (by omega) (by omega))

theorem Reads.setGlobal (hr : g.Reads n .setGlobal) (h : g.At (n + 1) depth s)
    (hbase : g.base < depth) (hroom : depth < g.stackMax) :
    Meets (fun _ s' => g.Lands s') (Exec.setGlobal s) := by
  rw [Exec.setGlobal]
  refine hr.bind_nameOperand h rfl fun name s' h' => h'.bind_peek (by omega) fun v hv => ?_
  have hset := h'.within.machine.globals.set name hv
  rw [get_bind_apply]
  cases hglobals : s'.machine.globals.set name v with
  | none => exact meets_raise nofun
  | some globals =>
    have hassigned := h'.with_globals (rel_self hset hglobals)
    exact .ok (hr.lands hassigned hbase (by omega))

theorem Reads.jumpIfFalse (hr : g.Reads n .jumpIfFalse) (h : g.At (n + 1) depth s)
    (hbase : g.base < depth) (hroom : depth < g.stackMax) :
    Meets (fun _ s' => g.Lands s') (Exec.jumpIfFalse s) := by
  rw [Exec.jumpIfFalse]
  refine hr.bind_wideOperand h rfl fun s' h' => h'.bind_peek (by omega) fun v _ => ?_
  rw [branch_apply]
  split
  · exact hr.jumps h' rfl hbase (by omega) rfl
  · exact .ok (hr.lands h' hbase (by omega))

/-- Every instruction but a call and a return lands in its own frame. -/
theorem Reads.execute (hr : g.Reads n op) (h : g.At (n + 1) depth s)
    (hneed : g.base + 1 + op.shape.pops.getD 0 ≤ depth) (hroom : depth < g.stackMax)
    (hret : op ≠ .ret) (hcall : op ≠ .call) (others : Holdings) :
    Meets (fun _ s' => g.Lands s') (Exec.execute (Exec.alloc others) op s) := by
  have hbase : g.base < depth := by omega
  cases op with
  | ret => exact absurd rfl hret
  | call => exact absurd rfl hcall
  | constant =>
    refine hr.bind_constantOperand h rfl fun v s' h' hv _ => ?_
    exact hr.replaces rfl h' hneed hroom fun k hk h => h.push (by omega) hv
  | pushNil => exact hr.replaces rfl h hneed hroom fun k hk h => h.push hk .nil
  | pushTrue => exact hr.replaces rfl h hneed hroom fun k hk h => h.push hk (.bool _)
  | pushFalse => exact hr.replaces rfl h hneed hroom fun k hk h => h.push hk (.bool _)
  | pop =>
    have hone : g.base + 1 + 1 ≤ depth := hneed
    obtain ⟨k, rfl⟩ : ∃ k, depth = k + 1 := ⟨depth - 1, by omega⟩
    exact h.bind_pop fun _ s' h' _ => .ok (hr.lands h' (by omega) (by omega))
  | getLocal => exact hr.getLocal h hbase hroom
  | setLocal => exact hr.setLocal h hbase hroom
  | getGlobal => exact hr.getGlobal h hbase hroom
  | defineGlobal => exact hr.defineGlobal h hneed hroom
  | setGlobal => exact hr.setGlobal h hbase hroom
  | equal =>
    refine hr.replaces rfl h hneed hroom fun k hk h => ?_
    exact h.bind_pop fun _ s' h' _ => h'.bind_pop fun _ s'' h'' _ => h''.push (by omega) (.bool _)
  | greater =>
    exact hr.replaces rfl h hneed hroom fun k hk h => h.arithmetic (by omega) fun _ _ => .bool _
  | less =>
    exact hr.replaces rfl h hneed hroom fun k hk h => h.arithmetic (by omega) fun _ _ => .bool _
  | add => exact hr.replaces rfl h hneed hroom fun k hk h => h.add (by omega) others
  | subtract =>
    exact hr.replaces rfl h hneed hroom fun k hk h => h.arithmetic (by omega) fun _ _ => .int _
  | multiply =>
    exact hr.replaces rfl h hneed hroom fun k hk h => h.arithmetic (by omega) fun _ _ => .int _
  | divide => exact hr.replaces rfl h hneed hroom fun k hk h => h.divide (by omega)
  | logicalNot =>
    refine hr.replaces rfl h hneed hroom fun k hk h => ?_
    exact h.bind_pop fun _ s' h' _ => h'.push (by omega) (.bool _)
  | negate => exact hr.replaces rfl h hneed hroom fun k hk h => h.negate (by omega)
  | print =>
    have hone : g.base + 1 + 1 ≤ depth := hneed
    obtain ⟨k, rfl⟩ : ∃ k, depth = k + 1 := ⟨depth - 1, by omega⟩
    refine h.bind_pop fun _ s' h' _ => ?_
    exact .ok (hr.lands (h'.with_streams _ _ _) (by omega) (by omega))
  | jump =>
    exact hr.bind_wideOperand h rfl fun s' h' => hr.jumps h' rfl hbase (by omega) rfl
  | jumpIfFalse => exact hr.jumpIfFalse h hbase hroom
  | loop =>
    exact hr.bind_wideOperand h rfl fun s' h' => hr.jumps h' rfl hbase (by omega) rfl
  | buildArray =>
    refine hr.bind_operand h Nat.one_pos fun count s' h' => h'.bind_require _ _ fun hcount => ?_
    exact hr.replaces rfl h' hcount hroom fun k hk h => h.buildArray (by omega) others
  | index => exact hr.replaces rfl h hneed hroom fun k hk h => h.index (by omega)
  | indexSet => exact hr.replaces rfl h hneed hroom fun k hk h => h.indexSet (by omega)
  | buildStruct =>
    refine hr.bind_operand h Nat.one_pos fun count s' h' => h'.bind_require _ _ fun hcount => ?_
    exact hr.replaces rfl h' hcount hroom fun k hk h => h.buildStruct (by omega) others
  | getField =>
    refine hr.bind_nameOperand h rfl fun name s' h' => ?_
    exact hr.replaces rfl h' hneed hroom fun k hk h => h.getField (by omega) name
  | setField =>
    refine hr.bind_nameOperand h rfl fun name s' h' => ?_
    exact hr.replaces rfl h' hneed hroom fun k hk h => h.setField (by omega) name
  | length => exact hr.replaces rfl h hneed hroom fun k hk h => h.length (by omega)
  | arrayPush => exact hr.replaces rfl h hneed hroom fun k hk h => h.arrayPush (by omega)
  | arrayPop => exact hr.replaces rfl h hneed hroom fun k hk h => h.arrayPop (by omega)
  | typeOf => exact hr.replaces rfl h hneed hroom fun k hk h => h.typeOf (by omega) others
  | keys => exact hr.replaces rfl h hneed hroom fun k hk h => h.keys hk others
  | values => exact hr.replaces rfl h hneed hroom fun k hk h => h.values (by omega) others
  | contains => exact hr.replaces rfl h hneed hroom fun k hk h => h.contains (by omega)
  | input => exact hr.replaces rfl h hneed hroom fun k hk h => h.input hk others

end StackVm.Stage
