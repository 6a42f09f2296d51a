/-
The instructions that go on in their own call, over two bottoms.  Each one needs the values
above its callee slot and neither reads nor changes what lies below them, an access to a
local apart.  It addresses something outside its bounds only when the code does not hold
what it has to read.
-/
import StackVm.Proofs.KeptBuiltins

namespace StackVm

/-- Whether an instruction may address the callee slot of its own call. -/
def Opcode.usesCallee : Opcode → Bool
  | .ret | .getLocal | .setLocal => true
  | _ => false

/-- How many values an instruction needs above the callee slot, its operand byte given. -/
def Opcode.needs : Opcode → Option UInt8 → Nat
  | .call, some argc => argc.toNat + 1
  | .buildArray, some count => count.toNat
  | .buildStruct, some count => 2 * count.toNat
  | op, _ => op.shape.pops.getD 0

/-- The code does not hold what the instruction at an offset has to read. -/
inductive Chunk.Misreads (typeOf : Value → ValueType) (c : Chunk) (offset : Nat)
    (op : Opcode) : Prop
  | operand {i : Nat} : i ≤ op.operandCount → c.code[offset + i]? = none →
      Misreads typeOf c offset op
  | constant {i : UInt8} : op.usesConstant = true → c.code[offset + 1]? = some i →
      c.constants[i.toNat]? = none → Misreads typeOf c offset op
  | name {i : UInt8} {v : Value} : op.usesName = true → c.code[offset + 1]? = some i →
      c.constants[i.toNat]? = some v → typeOf v ≠ .string → Misreads typeOf c offset op

namespace Activation

variable {B : Bottoms} {excuse : Prop} {g : Activation} {ip : Int} {depth n : Nat}
  {u : Execution} {c : Chunk} {op : Opcode} {make make' : Exec.Allocator} {α : Type}
  {post : α → Execution → Prop}

/-! ### Reading the code -/

theorem At.bind_chunk (h : g.At ip depth u)
    (hmissing : (u.memory.function? g.function).bind u.memory.chunkOf? = none → excuse)
    {f f' : Chunk → ExecM α}
    (hnext : ∀ c, (u.memory.function? g.function).bind u.memory.chunkOf? = some c →
      B.Keep excuse post (f c (u.over B.left)) (f' c (u.over B.right))) :
    B.Keep excuse post ((Exec.chunk >>= f) (u.over B.left))
      ((Exec.chunk >>= f') (u.over B.right)) := by
  have hchunk : ∀ (xs : Array Value) (k : Chunk → ExecM α), (Exec.chunk >>= k) (u.over xs) =
      (Exec.present ((u.memory.function? g.function).bind u.memory.chunkOf?) >>= k)
        (u.over xs) := by
    intro xs k
    rw [Exec.chunk, bind_assoc, h.frame_bind, bind_assoc, get_bind_apply, Execution.over_memory]
  rw [hchunk, hchunk]
  exact B.bind_present hmissing hnext

/-- The opcode at `n` has been read, and the call is behind it. -/
structure Reads (g : Activation) (c : Chunk) (n : Nat) (op : Opcode) (excuse : Prop)
    (depth : Nat) (u : Execution) : Prop where
  at_next : g.At (n + 1 : Nat) depth u
  code : (u.memory.function? g.function).bind u.memory.chunkOf? = some c
  excused : c.Misreads u.memory.typeOf n op → excuse

theorem At.bind_operand (h : g.At (n : Nat) depth u)
    (hcode : (u.memory.function? g.function).bind u.memory.chunkOf? = some c)
    (hmissing : c.code[n]? = none → excuse) {f f' : Nat → ExecM α}
    (hnext : ∀ byte v', c.code[n]? = some byte → v'.machine.stack = u.machine.stack →
      v'.memory = u.memory → g.At (n + 1 : Nat) depth v' →
      B.Keep excuse post (f byte.toNat (v'.over B.left)) (f' byte.toNat (v'.over B.right))) :
    B.Keep excuse post ((Exec.operand >>= f) (u.over B.left))
      ((Exec.operand >>= f') (u.over B.right)) := by
  have hpositive : ¬ (n : Int) < 0 := by omega
  simp only [Exec.operand, bind_assoc, pure_bind]
  refine h.bind_chunk (fun hnone => ?_) fun c' hc' => ?_
  · rw [hcode] at hnone
    cases hnone
  · rw [hcode] at hc'
    cases hc'
    rw [h.frame_bind, h.frame_bind, Exec.byteAt, if_neg hpositive, Int.toNat_natCast]
    refine B.bind_present hmissing fun byte hbyte => ?_
    exact h.bind_advance 1 fun v' hstack hmemory h' => hnext byte v' hbyte hstack hmemory h'

theorem Reads.bind_operand (hr : g.Reads c n op excuse depth u) (hcount : 0 < op.operandCount)
    {f f' : Nat → ExecM α}
    (hnext : ∀ byte v', c.code[n + 1]? = some byte → v'.machine.stack = u.machine.stack →
      v'.memory = u.memory → g.At (n + 2 : Nat) depth v' →
      B.Keep excuse post (f byte.toNat (v'.over B.left)) (f' byte.toNat (v'.over B.right))) :
    B.Keep excuse post ((Exec.operand >>= f) (u.over B.left))
      ((Exec.operand >>= f') (u.over B.right)) :=
  hr.at_next.bind_operand hr.code (fun hnone => hr.excused (.operand hcount hnone)) hnext

theorem Reads.bind_wideOperand (hr : g.Reads c n op excuse depth u)
    (hcount : op.operandCount = 2) {f f' : Nat → ExecM α}
    (hnext : ∀ word v', v'.machine.stack = u.machine.stack → v'.memory = u.memory →
      g.At (n + 3 : Nat) depth v' →
      B.Keep excuse post (f word (v'.over B.left)) (f' word (v'.over B.right))) :
    B.Keep excuse post ((Exec.wideOperand >>= f) (u.over B.left))
      ((Exec.wideOperand >>= f') (u.over B.right)) := by
  simp only [Exec.wideOperand, bind_assoc, pure_bind]
  refine hr.bind_operand (by omega) fun high v' _ hstack hmemory h' => ?_
  have hcode : (v'.memory.function? g.function).bind v'.memory.chunkOf? = some c :=
    hmemory ▸ hr.code
  have hmissing : c.code[n + 2]? = none → excuse :=
    fun hnone => hr.excused (.operand hcount.ge hnone)
  refine h'.bind_operand hcode hmissing fun low v'' _ hstack' hmemory' h'' => ?_
  exact hnext _ v'' (hstack'.trans hstack) (hmemory'.trans hmemory) h''

theorem Reads.bind_constantOperand (hr : g.Reads c n op excuse depth u)
    (huses : op.usesConstant = true) {f f' : Value → ExecM α}
    (hnext : ∀ byte v v', c.code[n + 1]? = some byte → c.constants[byte.toNat]? = some v →
      v'.machine.stack = u.machine.stack → v'.memory = u.memory → g.At (n + 2 : Nat) depth v' →
      B.Keep excuse post (f v (v'.over B.left)) (f' v (v'.over B.right))) :
    B.Keep excuse post ((Exec.constantOperand >>= f) (u.over B.left))
      ((Exec.constantOperand >>= f') (u.over B.right)) := by
  simp only [Exec.constantOperand, bind_assoc]
  refine hr.bind_operand (Opcode.operandCount_pos huses) fun i v' hi hstack hmemory h' => ?_
  refine h'.bind_chunk (fun hnone => ?_) fun c' hc' => ?_
  · rw [hmemory, hr.code] at hnone
    cases hnone
  · rw [hmemory, hr.code] at hc'
    cases hc'
    refine B.bind_present (fun hnone => hr.excused (.constant huses hi hnone)) fun v hv => ?_
    exact hnext i v v' hi hv hstack hmemory h'

theorem Reads.bind_nameOperand (hr : g.Reads c n op excuse depth u)
    (huses : op.usesName = true) {f f' : Text → ExecM α}
    (hnext : ∀ name v', v'.machine.stack = u.machine.stack → v'.memory = u.memory →
      g.At (n + 2 : Nat) depth v' →
      B.Keep excuse post (f name (v'.over B.left)) (f' name (v'.over B.right))) :
    B.Keep excuse post ((Exec.nameOperand >>= f) (u.over B.left))
      ((Exec.nameOperand >>= f') (u.over B.right)) := by
  have hconstant : op.usesConstant = true := by
    rw [Opcode.usesConstant, huses, Bool.or_true]
  rw [Exec.nameOperand, bind_assoc, bind_assoc]
  refine hr.bind_constantOperand hconstant fun i v v' hi hv hstack hmemory h' => ?_
  have hother : u.memory.typeOf v ≠ .string → excuse :=
    fun htype => hr.excused (.name huses hi hv htype)
  cases v with
  | object id =>
    simp only [bind_assoc, get_bind_apply, Execution.over_memory]
    refine B.bind_present (fun hnone => hother fun htype => ?_) fun name _ =>
      hnext name v' hstack hmemory h'
    obtain ⟨data, hdata⟩ := Memory.string?_of_typeOf htype
    rw [hmemory, hdata] at hnone
    cases hnone
  | nil => exact B.keep_crash (hother fun hstring => by cases hstring)
  | int i => exact B.keep_crash (hother fun hstring => by cases hstring)
  | bool b => exact B.keep_crash (hother fun hstring => by cases hstring)
  | native a => exact B.keep_crash (hother fun hstring => by cases hstring)

/-! ### Instructions that go on in their call -/

/-- The call goes on, with its callee slot on the stack. -/
def Goes (g : Activation) (height : Nat) (u : Execution) : Prop :=
  ∃ ip depth, g.At ip depth u ∧ g.base < height + depth ∧ height + depth ≤ g.stackMax

theorem At.goes (h : g.At ip depth u) (hbase : g.base < B.height + depth)
    (hroom : B.height + depth ≤ g.stackMax) : g.Goes B.height u :=
  ⟨ip, depth, h, hbase, hroom⟩

/-- An instruction goes on that leaves one value in the place of those it needs. -/
theorem At.replaces (h : g.At ip depth u) (hbottom : B.height ≤ g.base + 1) {need : Nat}
    (hneed : g.base + 1 + need ≤ B.height + depth) (hroom : B.height + depth < g.stackMax)
    {r r' : EStateM.Result Stop Execution Unit}
    (hr : ∀ k, B.height + (k + need) < g.stackMax → g.At ip (k + need) u →
      B.Keep excuse (fun _ u' => g.At ip (k + 1) u') r r') :
    B.Keep excuse (fun _ u' => g.Goes B.height u') r r' := by
  obtain ⟨k, rfl⟩ : ∃ k, depth = k + need := ⟨depth - need, by omega⟩
  exact (hr k hroom h).mono (fun _ _ h' => h'.goes (by omega) (by omega)) id

theorem At.advance (h : g.At ip depth u) (hbase : g.base < B.height + depth)
    (hroom : B.height + depth ≤ g.stackMax) (distance : Int) :
    B.Keep excuse (fun _ u' => g.Goes B.height u') (Exec.advance distance (u.over B.left))
      (Exec.advance distance (u.over B.right)) := by
  rw [← bind_pure (Exec.advance distance)]
  exact h.bind_advance distance fun v' _ _ h' => .ok (h'.goes hbase hroom)

/-- A local is a slot of the call, its callee slot included. -/
theorem Reads.getLocal (hr : g.Reads c n .getLocal excuse depth u) (hbottom : B.height ≤ g.base)
    (hbase : g.base < B.height + depth) (hroom : B.height + depth < g.stackMax) :
    B.Keep excuse (fun _ u' => g.Goes B.height u') (Exec.getLocal (u.over B.left))
      (Exec.getLocal (u.over B.right)) := by
  rw [Exec.getLocal]
  refine hr.bind_operand Nat.one_pos fun slot v' _ _ _ h' => ?_
  have hslot : ∀ xs : Array Value, xs.size = B.height →
      (v'.over xs).machine.stack[g.base + slot.toNat]? =
        v'.machine.stack[g.base + slot.toNat - B.height]? := by
    intro xs hxs
    rw [Execution.over, Array.getElem?_append_right (by omega), hxs]
  rw [get_bind_apply, get_bind_apply, h'.frame_bind, h'.frame_bind]
  simp only
  rw [hslot _ rfl, hslot _ B.level]
  cases v'.machine.stack[g.base + slot.toNat - B.height]? with
  | none => exact B.keep_raise _
  | some v => exact (h'.push hroom v).mono (fun _ _ h'' => h''.goes (by omega) (by omega)) id

theorem Reads.setLocal (hr : g.Reads c n .setLocal excuse depth u) (hbottom : B.height ≤ g.base)
    (hbase : g.base < B.height + depth) (hroom : B.height + depth < g.stackMax) :
    B.Keep excuse (fun _ u' => g.Goes B.height u') (Exec.setLocal (u.over B.left))
      (Exec.setLocal (u.over B.right)) := by
  rw [Exec.setLocal]
  refine hr.bind_operand Nat.one_pos fun slot v' _ _ _ h' => ?_
  have hset : ∀ (xs : Array Value) (v : Value), xs.size = B.height →
      (v'.over xs).machine.stack.setIfInBounds (g.base + slot.toNat) v =
        xs ++ v'.machine.stack.setIfInBounds (g.base + slot.toNat - B.height) v := by
    intro xs v hxs
    rw [Execution.over, Array.setIfInBounds_append_right (by omega), hxs]
  rw [h'.frame_bind, h'.frame_bind]
  simp only [get_bind_apply, branch_apply]
  rw [h'.size_over, h'.size_over, B.level]
  split
  · exact B.keep_raise _
  · refine h'.bind_peek (by omega) fun v _ => ?_
    let stack := v'.machine.stack.setIfInBounds (g.base + slot.toNat - B.height) v
    let written : Execution := { v' with machine := { v'.machine with stack } }
    have hsize : stack.size = depth := by
      rw [Array.size_setIfInBounds, h'.depth]
    have hwritten : g.At (n + 2 : Nat) depth written := h'.with_stack hsize
    rw [Exec.modifyMachine, modify_apply, modify_apply, hset _ _ rfl, hset _ _ B.level]
    exact .ok (u := written) (hwritten.goes hbase (by omega))

theorem Reads.getGlobal (hr : g.Reads c n .getGlobal excuse depth u)
    (hbase : g.base < B.height + depth) (hroom : B.height + depth < g.stackMax) :
    B.Keep excuse (fun _ u' => g.Goes B.height u') (Exec.getGlobal (u.over B.left))
      (Exec.getGlobal (u.over B.right)) := by
  rw [Exec.getGlobal]
  refine hr.bind_nameOperand rfl fun name v' _ _ h' => ?_
  let read : Execution :=
    { v' with machine := { v'.machine with globals := (v'.machine.globals.get name).2 } }
  have hread : g.At (n + 2 : Nat) depth read := ⟨h'.frames, h'.stackMax, h'.maxFrames, h'.depth⟩
  rw [bind_apply, bind_apply, modifyGet_apply, modifyGet_apply]
  have hglobals : ∀ xs : Array Value, (v'.over xs).machine.globals = v'.machine.globals :=
    fun _ => rfl
  dsimp only
  rw [hglobals, hglobals]
  cases (v'.machine.globals.get name).1 with
  | none => exact B.keep_raise (u := read) _
  | some v => exact (hread.push hroom v).mono (fun _ _ h'' => h''.goes (by omega) (by omega)) id

theorem Reads.defineGlobal (hr : g.Reads c n .defineGlobal excuse depth u)
    (hbottom : B.height ≤ g.base + 1) (hneed : g.base + 1 + 1 ≤ B.height + depth)
    (hroom : B.height + depth < g.stackMax) :
    B.Keep excuse (fun _ u' => g.Goes B.height u') (Exec.defineGlobal (u.over B.left))
      (Exec.defineGlobal (u.over B.right)) := by
  obtain ⟨k, rfl⟩ : ∃ k, depth = k + 1 := ⟨depth - 1, by omega⟩
  rw [Exec.defineGlobal]
  refine hr.bind_nameOperand rfl fun name v' _ _ h' => h'.bind_pop fun v v'' _ _ _ h'' => ?_
  let defined : Execution :=
    { v'' with machine := { v''.machine with globals := v''.machine.globals.define name v } }
  have hdefined : g.At (n + 2 : Nat) k defined :=
    ⟨h''.frames, h''.stackMax, h''.maxFrames, h''.depth⟩
  exact .ok (u := defined) (hdefined.goes (by omega) (by omega))

theorem Reads.setGlobal (hr : g.Reads c n .setGlobal excuse depth u)
    (hbottom : B.height ≤ g.base + 1) (hneed : g.base + 1 + 1 ≤ B.height + depth)
    (hroom : B.height + depth < g.stackMax) :
    B.Keep excuse (fun _ u' => g.Goes B.height u') (Exec.setGlobal (u.over B.left))
      (Exec.setGlobal (u.over B.right)) := by
  rw [Exec.setGlobal]
  refine hr.bind_nameOperand rfl fun name v' _ _ h' => h'.bind_peek (by omega) fun v _ => ?_
  rw [get_bind_apply, get_bind_apply]
  have hglobals : ∀ xs : Array Value, (v'.over xs).machine.globals = v'.machine.globals :=
    fun _ => rfl
  rw [hglobals, hglobals]
  cases v'.machine.globals.set name v with
  | none => exact B.keep_raise _
  | some globals =>
    let assigned : Execution := { v' with machine := { v'.machine with globals } }
    have hassigned : g.At (n + 2 : Nat) depth assigned :=
      ⟨h'.frames, h'.stackMax, h'.maxFrames, h'.depth⟩
    exact .ok (u := assigned) (hassigned.goes (by omega) (by omega))

theorem Reads.jumpIfFalse (hr : g.Reads c n .jumpIfFalse excuse depth u)
    (hbottom : B.height ≤ g.base + 1) (hneed : g.base + 1 + 1 ≤ B.height + depth)
    (hroom : B.height + depth < g.stackMax) :
    B.Keep excuse (fun _ u' => g.Goes B.height u') (Exec.jumpIfFalse (u.over B.left))
      (Exec.jumpIfFalse (u.over B.right)) := by
  rw [Exec.jumpIfFalse]
  refine hr.bind_wideOperand rfl fun word v' _ _ h' => h'.bind_peek (by omega) fun v _ => ?_
  rw [branch_apply, branch_apply]
  split
  · exact h'.advance (by omega) (by omega) _
  · exact .ok (h'.goes (by omega) (by omega))

/-- The call goes on after an instruction that found its operands above its callee slot. -/
def Fulfils (g : Activation) (height : Nat) (c : Chunk) (n : Nat) (op : Opcode) (depth : Nat)
    (u : Execution) : Prop :=
  g.Goes height u ∧ g.base + 1 + op.needs c.code[n + 1]? ≤ height + depth

theorem Reads.buildArray (hmake : B.Agree make make') (hr : g.Reads c n .buildArray excuse depth u)
    (hbottom : B.height ≤ g.base + 1) (hroom : B.height + depth < g.stackMax) :
    B.Keep excuse (fun _ u' => g.Fulfils B.height c n .buildArray depth u')
      (Exec.execute make .buildArray (u.over B.left))
      (Exec.execute make' .buildArray (u.over B.right)) := by
  refine hr.bind_operand Nat.one_pos fun count v' hcount _ _ h' => ?_
  refine h'.bind_require _ _ fun hneed => ?_
  refine (h'.replaces hbottom hneed hroom fun k hk h => h.buildArray hmake (by omega)).mono
    (fun _ _ hgoes => ⟨hgoes, ?_⟩) id
  rw [hcount]
  exact hneed

theorem Reads.buildStruct (hmake : B.Agree make make')
    (hr : g.Reads c n .buildStruct excuse depth u) (hbottom : B.height ≤ g.base + 1)
    (hroom : B.height + depth < g.stackMax) :
    B.Keep excuse (fun _ u' => g.Fulfils B.height c n .buildStruct depth u')
      (Exec.execute make .buildStruct (u.over B.left))
      (Exec.execute make' .buildStruct (u.over B.right)) := by
  refine hr.bind_operand Nat.one_pos fun count v' hcount _ _ h' => ?_
  refine h'.bind_require _ _ fun hneed => ?_
  refine (h'.replaces hbottom hneed hroom fun k hk h => h.buildStruct hmake (by omega)).mono
    (fun _ _ hgoes => ⟨hgoes, ?_⟩) id
  rw [hcount]
  exact hneed

/-- An instruction of fixed arity, a return apart, goes on in its call.  The bottom may reach
up to the callee slot, and contain it for an instruction that does not address it. -/
theorem Reads.executeFixed (hmake : B.Agree make make') (hr : g.Reads c n op excuse depth u)
    (hbottom : B.height ≤ g.base + 1)
    (hlocal : op.usesCallee = true → B.height ≤ g.base)
    (hneed : g.base + 1 + op.shape.pops.getD 0 ≤ B.height + depth)
    (hroom : B.height + depth < g.stackMax) (hret : op ≠ .ret) (hfixed : op.shape.pops ≠ none) :
    B.Keep excuse (fun _ u' => g.Goes B.height u') (Exec.execute make op (u.over B.left))
      (Exec.execute make' op (u.over B.right)) := by
  have hbase : g.base < B.height + depth := by omega
  have h := hr.at_next
  cases op with
  | ret => exact absurd rfl hret
  | call => exact absurd rfl hfixed
  | constant =>
    refine hr.bind_constantOperand rfl fun _ v v' _ _ _ _ h' => ?_
    exact h'.replaces hbottom hneed hroom fun k hk h => h.push hk v
  | pushNil => exact h.replaces hbottom hneed hroom fun k hk h => h.push hk _
  | pushTrue => exact h.replaces hbottom hneed hroom fun k hk h => h.push hk _
  | pushFalse => exact h.replaces hbottom hneed hroom fun k hk h => h.push hk _
  | pop =>
    have hone : g.base + 1 + 1 ≤ B.height + depth := hneed
    obtain ⟨k, rfl⟩ : ∃ k, depth = k + 1 := ⟨depth - 1, by omega⟩
    exact h.bind_pop fun _ v' _ _ _ h' => .ok (h'.goes (by omega) (by omega))
  | getLocal => exact hr.getLocal (hlocal rfl) hbase hroom
  | setLocal => exact hr.setLocal (hlocal rfl) hbase hroom
  | getGlobal => exact hr.getGlobal hbase hroom
  | defineGlobal => exact hr.defineGlobal hbottom hneed hroom
  | setGlobal => exact hr.setGlobal hbottom hneed hroom
  | equal =>
    refine h.replaces hbottom hneed hroom fun k hk h => ?_
    refine h.bind_pop fun _ v' _ _ _ h' => h'.bind_pop fun _ v'' _ _ _ h'' => ?_
    exact h''.push (by omega) _
  | greater => exact h.replaces hbottom hneed hroom fun k hk h => h.arithmetic (by omega) _
  | less => exact h.replaces hbottom hneed hroom fun k hk h => h.arithmetic (by omega) _
  | add => exact h.replaces hbottom hneed hroom fun k hk h => h.add hmake (by omega)
  | subtract => exact h.replaces hbottom hneed hroom fun k hk h => h.arithmetic (by omega) _
  | multiply => exact h.replaces hbottom hneed hroom fun k hk h => h.arithmetic (by omega) _
  | divide => exact h.replaces hbottom hneed hroom fun k hk h => h.divide (by omega)
  | logicalNot =>
    refine h.replaces hbottom hneed hroom fun k hk h => ?_
    exact h.bind_pop fun _ v' _ _ _ h' => h'.push (by omega) _
  | negate => exact h.replaces hbottom hneed hroom fun k hk h => h.negate (by omega)
  | print =>
    have hone : g.base + 1 + 1 ≤ B.height + depth := hneed
    obtain ⟨k, rfl⟩ : ∃ k, depth = k + 1 := ⟨depth - 1, by omega⟩
    refine h.bind_pop fun v v' _ _ _ h' => ?_
    let printed : Execution := { v' with out := v'.out ++ (v'.memory.display v ++ [0x0A]) }
    have hprinted : g.At (n + 1 : Nat) k printed := h'.with_machine rfl
    exact .ok (u := printed) (hprinted.goes (by omega) (by omega))
  | jump => exact hr.bind_wideOperand rfl fun _ v' _ _ h' => h'.advance hbase (by omega) _
  | jumpIfFalse => exact hr.jumpIfFalse hbottom hneed hroom
  | loop => exact hr.bind_wideOperand rfl fun _ v' _ _ h' => h'.advance hbase (by omega) _
  | buildArray => exact absurd rfl hfixed
  | index => exact h.replaces hbottom hneed hroom fun k hk h => h.index (by omega)
  | indexSet => exact h.replaces hbottom hneed hroom fun k hk h => h.indexSet (by omega)
  | buildStruct => exact absurd rfl hfixed
  | getField =>
    refine hr.bind_nameOperand rfl fun name v' _ _ h' => ?_
    exact h'.replaces hbottom hneed hroom fun k hk h => h.getField (by omega) name
  | setField =>
    refine hr.bind_nameOperand rfl fun name v' _ _ h' => ?_
    exact h'.replaces hbottom hneed hroom fun k hk h => h.setField (by omega) name
  | length => exact h.replaces hbottom hneed hroom fun k hk h => h.length (by omega)
  | arrayPush => exact h.replaces hbottom hneed hroom fun k hk h => h.arrayPush (by omega)
  | arrayPop => exact h.replaces hbottom hneed hroom fun k hk h => h.arrayPop (by omega)
  | typeOf => exact h.replaces hbottom hneed hroom fun k hk h => h.typeOf hmake (by omega)
  | keys => exact h.replaces hbottom hneed hroom fun k hk h => h.keys hmake hk
  | values => exact h.replaces hbottom hneed hroom fun k hk h => h.values hmake (by omega)
  | contains => exact h.replaces hbottom hneed hroom fun k hk h => h.contains (by omega)
  | input => exact h.replaces hbottom hneed hroom fun k hk h => h.input hmake hk

/-- Every instruction but a call and a return goes on in its call. -/
theorem Reads.execute (hmake : B.Agree make make') (hr : g.Reads c n op excuse depth u)
    (hbottom : B.height ≤ g.base + 1)
    (hlocal : op.usesCallee = true → B.height ≤ g.base)
    (hneed : g.base + 1 + op.shape.pops.getD 0 ≤ B.height + depth)
    (hroom : B.height + depth < g.stackMax) (hret : op ≠ .ret) (hcall : op ≠ .call) :
    B.Keep excuse (fun _ u' => g.Fulfils B.height c n op depth u')
      (Exec.execute make op (u.over B.left)) (Exec.execute make' op (u.over B.right)) := by
  by_cases harray : op = .buildArray
  · subst harray
    exact hr.buildArray hmake hbottom hroom
  by_cases hstruct : op = .buildStruct
  · subst hstruct
    exact hr.buildStruct hmake hbottom hroom
  have hneeds : op.needs c.code[n + 1]? = op.shape.pops.getD 0 := by
    cases op <;> first | rfl | contradiction
  have hfixed : op.shape.pops ≠ none := by
    cases op <;> first | contradiction | exact nofun
  refine (hr.executeFixed hmake hbottom hlocal hneed hroom hret hfixed).mono
    (fun _ _ hgoes => ⟨hgoes, ?_⟩) id
  rw [hneeds]
  exact hneed

end Activation

end StackVm
