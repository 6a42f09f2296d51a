/-
Instructions on the fields of structs, one equation each.  They find their operands on top of what
the innermost call has above its callee, and everything else they do follows from the record that
the struct holds.
-/
import StackVm.Proofs.Effects
import StackVm.Proofs.HeapRoom

namespace StackVm

/-- The innermost call has the operands `top`, the deepest first, and `below` is the rest of the
stack. -/
structure Execution.Offers (s : Execution) (below : Array Value) (top : List Value) : Prop where
  stack : s.machine.stack = below ++ top.toArray
  base : ∃ f callers, s.machine.frames = f :: callers ∧ f.base + 1 ≤ below.size

/-- The execution with another stack. -/
def Execution.withStack (s : Execution) (stack : Array Value) : Execution :=
  { s with machine := { s.machine with stack } }

/-- The name that the operand of the next instruction selects. -/
def Execution.operandName? (s : Execution) : Option Text :=
  match (Exec.fetch >>= fun _ => Exec.nameOperand) s with
  | .ok name _ => some name
  | .error _ _ => none

variable {s t u : Execution} {below : Array Value} {top : List Value} {v w : Value}

namespace Exec

variable {α : Type}

/-! ### The top of the stack -/

theorem peek_bind {distance : Nat} (hinside : distance < s.machine.stack.size)
    (hv : s.machine.stack[s.machine.stack.size - 1 - distance]? = some v) (k : Value → ExecM α) :
    (peek distance >>= k) s = k v s := by
  rw [peek, bind_assoc, get_bind_apply, if_pos hinside, hv, present_bind]

theorem peek_crash {distance : Nat} (h : s.machine.stack.size ≤ distance) (k : Value → ExecM α) :
    (peek distance >>= k) s = .error (.fault .crash) s := by
  rw [peek, bind_assoc, get_bind_apply, if_neg (Nat.not_lt.2 h)]
  rfl

theorem peek_zero_bind (h : s.machine.stack = below.push v) (k : Value → ExecM α) :
    (peek 0 >>= k) s = k v s := by
  refine peek_bind ?_ ?_ k
  · rw [h, Array.size_push]
    exact Nat.succ_pos _
  · rw [h, Array.size_push, Nat.sub_zero, Nat.add_sub_cancel, Array.getElem?_push_size]

theorem peek_one_bind (h : s.machine.stack = (below.push w).push v) (k : Value → ExecM α) :
    (peek 1 >>= k) s = k w s := by
  refine peek_bind ?_ ?_ k
  · rw [h, Array.size_push, Array.size_push]
    omega
  · rw [h, Array.size_push, Array.size_push, Nat.add_sub_cancel, Nat.add_sub_cancel,
      Array.getElem?_push, if_neg (by simp), Array.getElem?_push_size]

theorem pop_apply (h : s.machine.stack = below.push v) : pop s = .ok v (s.withStack below) := by
  rw [pop, get_bind_apply, h, Array.back?_push, present_bind, bind_apply, modifyMachine,
    modify_apply]
  dsimp only
  rw [h, Array.pop_push]
  rfl

theorem replaceTop_apply (h : s.machine.stack = below.push v)
    (hroom : below.size < s.machine.stackMax) (w : Value) :
    replaceTop w s = .ok () (s.withStack (below.push w)) := by
  rw [replaceTop, bind_apply, pop_apply h]
  exact (push_eq w _).trans (if_pos hroom)

theorem replaceTwo_apply (h : s.machine.stack = (below.push w).push v)
    (hroom : below.size < s.machine.stackMax) (x : Value) :
    replaceTwo x s = .ok () (s.withStack (below.push x)) := by
  rw [replaceTwo, bind_apply, pop_apply h]
  exact @replaceTop_apply (s.withStack (below.push w)) below w rfl hroom x

/-! ### Operands -/

theorem frame_state {f : Frame} (h : frame s = .ok f t) : t = s := by
  rw [frame, get_bind_apply] at h
  cases hf : s.machine.frames.head? with
  | none =>
    rw [hf] at h
    cases h
  | some f =>
    rw [hf] at h
    cases h
    rfl

theorem chunk_state {c : Chunk} (h : chunk s = .ok c t) : t = s := by
  obtain ⟨f, u, hf, h⟩ := bind_ok h
  cases frame_state hf
  rw [get_bind_apply] at h
  cases hc : (s.memory.function? f.function).bind s.memory.chunkOf? with
  | none =>
    rw [hc] at h
    cases h
  | some c =>
    rw [hc] at h
    cases h
    rfl

theorem present_state {a : Option α} {b : α} (h : present a s = .ok b t) : t = s := by
  cases a with
  | none => cases h
  | some a =>
    cases h
    rfl

theorem byteAt_state {c : Chunk} {offset : Int} {b : UInt8} (h : byteAt c offset s = .ok b t) :
    t = s := by
  rw [byteAt] at h
  split at h
  · cases h
  · exact present_state h

theorem operand_state {n : Nat} (h : operand s = .ok n t) :
    t = { s with machine := s.machine.ahead 1 } := by
  obtain ⟨c, _, hchunk, hrest⟩ := bind_ok h
  cases chunk_state hchunk
  obtain ⟨f, _, hframe, hread⟩ := bind_ok hrest
  cases frame_state hframe
  obtain ⟨b, _, hbyte, hmove⟩ := bind_ok hread
  cases byteAt_state hbyte
  rw [bind_apply, advance_one] at hmove
  cases hmove
  rfl

/-- A name is read without another change than moving on. -/
theorem nameOperand_state {name : Text} (h : nameOperand s = .ok name t) :
    t = { s with machine := s.machine.ahead 1 } := by
  obtain ⟨v, u, hconstant, hstring⟩ := bind_ok h
  have hu : u = { s with machine := s.machine.ahead 1 } := by
    obtain ⟨i, _, hoperand, hrest⟩ := bind_ok hconstant
    cases operand_state hoperand
    obtain ⟨c, _, hchunk, hpresent⟩ := bind_ok hrest
    cases chunk_state hchunk
    exact present_state hpresent
  cases v with
  | object id => exact (present_state hstring).trans hu
  | _ => cases hstring

theorem demand_of_offers {op : Opcode} (h : s.Offers below top)
    (hneed : op.shape.pops = some top.length) : demand op s = .ok () s := by
  obtain ⟨f, callers, hframes, hbase⟩ := h.base
  have hsize : s.machine.stack.size = below.size + top.length := by
    simp only [h.stack, Array.size_append, List.size_toArray]
  rw [demand, hneed]
  cases top with
  | nil => rfl
  | cons v rest =>
    rw [List.length_cons] at hsize
    change require op (rest.length + 1) s = _
    rw [require, frame_bind hframes, get_bind_apply, if_neg (by omega)]
    rfl

end Exec

namespace Execution

theorem Offers.push_one (h : s.Offers below [v]) : s.machine.stack = below.push v := h.stack

theorem Offers.push_two (h : s.Offers below [w, v]) : s.machine.stack = (below.push w).push v :=
  h.stack

/-- One operand leaves room for a value in its place. -/
theorem Offers.room_one (h : s.Offers below [v])
    (hroom : s.machine.stack.size < s.machine.stackMax) : below.size < s.machine.stackMax := by
  rw [h.push_one, Array.size_push] at hroom
  omega

theorem Offers.room_two (h : s.Offers below [w, v])
    (hroom : s.machine.stack.size < s.machine.stackMax) : below.size < s.machine.stackMax := by
  rw [h.push_two, Array.size_push, Array.size_push] at hroom
  omega

theorem Offers.ahead (h : s.Offers below top) (err : Array UInt8) (n : Nat) :
    Offers { s with err, machine := s.machine.ahead n } below top where
  stack := h.stack
  base := by
    obtain ⟨f, callers, hframes, hbase⟩ := h.base
    refine ⟨f.ahead n, callers, ?_, hbase⟩
    dsimp only [Machine.ahead]
    rw [hframes]
    rfl

/-- An instruction whose operands are there is carried out behind its opcode. -/
theorem Offers.step {op : Opcode} (h : s.Offers below top) (hop : s.opcode? = some op)
    (hneed : op.shape.pops = some top.length) (hret : op ≠ .ret) (make : Exec.Allocator) :
    s.machine.stack.size < s.machine.stackMax ∧ ∃ err,
    Exec.step make s = (Exec.execute make op >>= fun _ => pure Progress.running)
      { s with err, machine := s.machine.ahead 1 } := by
  obtain ⟨hroom, err, hstep⟩ := s.step_of_opcode hop make
  refine ⟨hroom, err, ?_⟩
  rw [hstep, bind_apply, Exec.demand_of_offers (h.ahead err 1) hneed]
  dsimp only
  rw [Exec.perform, if_neg hret]

/-- The name that an operand selects is read behind the opcode. -/
theorem Offers.step_name {op : Opcode} {name : Text} {act : Text → ExecM Unit}
    {make : Exec.Allocator} (h : s.Offers below top) (hop : s.opcode? = some op)
    (hneed : op.shape.pops = some top.length) (hname : s.operandName? = some name)
    (hexecute : Exec.execute make op = Exec.nameOperand >>= act) (hret : op ≠ .ret) :
    s.machine.stack.size < s.machine.stackMax ∧ ∃ err,
    Exec.step make s = (act name >>= fun _ => pure Progress.running)
      { s with err, machine := s.machine.ahead 2 } := by
  obtain ⟨hroom, byte, err, hbyte, hfetch⟩ := s.fetch_of_opcode hop
  have hread : Exec.nameOperand { s with err, machine := s.machine.ahead 1 } =
      .ok name { s with err, machine := s.machine.ahead 2 } := by
    rw [operandName?, bind_apply, hfetch] at hname
    dsimp only at hname
    split at hname
    · next name' t hresult =>
      cases hname
      rw [hresult, Exec.nameOperand_state hresult]
      dsimp only
      rw [Machine.ahead_ahead]
    · cases hname
  refine ⟨hroom, err, ?_⟩
  rw [Exec.step_of_fetch hfetch hbyte, bind_apply, Exec.demand_of_offers (h.ahead err 1) hneed]
  dsimp only
  rw [Exec.perform, if_neg hret, hexecute, bind_assoc, bind_apply, hread]

end Execution

/-! ### Fields -/

theorem Memory.array?_of_struct {m : Memory} {id : ObjectId} {r : Record}
    (h : m.struct? id = some r) : m.array? id = none := by
  rw [Memory.array?_eq, Memory.struct?_eq_some.1 h]

namespace Exec

variable {id key : ObjectId} {r : Record} {name : Text}

/-- What comes of looking a field up. -/
def lookUp (s : Execution) (below : Array Value) (name : Text) :
    Option Value → EStateM.Result Stop Execution Unit
  | some v => .ok () (s.withStack (below.push v))
  | none => .error (.raised (.undefinedField name)) s

theorem struct?_bind {α : Type} (hr : s.memory.struct? id = some r)
    (k : Option (ObjectId × Record) → ExecM α) :
    (struct? (.object id) >>= k) s = k (some (id, r)) s := by
  rw [struct?, bind_assoc, get_bind_apply, hr]
  rfl

theorem array?_bind_none {α : Type} (hr : s.memory.struct? id = some r)
    (k : Option (ObjectId × Array Value) → ExecM α) :
    (array? (.object id) >>= k) s = k none s := by
  rw [array?, bind_assoc, get_bind_apply, Memory.array?_of_struct hr]
  rfl

theorem string?_bind {α : Type} (hname : s.memory.string? key = some name)
    (k : Option Text → ExecM α) : (string? (.object key) >>= k) s = k (some name) s := by
  rw [string?, bind_assoc, get_bind_apply, hname]
  rfl

theorem getField_apply (h : s.machine.stack = below.push (.object id))
    (hroom : below.size < s.machine.stackMax) (hr : s.memory.struct? id = some r) (name : Text) :
    getField name s = lookUp s below name (r.get? name) := by
  rw [getField, peek_zero_bind h, struct?_bind hr]
  dsimp only
  rw [fieldAt]
  cases r.get? name with
  | none => rfl
  | some v => exact replaceTop_apply h hroom v

theorem index_apply (h : s.machine.stack = (below.push (.object id)).push (.object key))
    (hroom : below.size < s.machine.stackMax) (hr : s.memory.struct? id = some r)
    (hname : s.memory.string? key = some name) :
    index s = lookUp s below name (r.get? name) := by
  rw [index, peek_zero_bind h, peek_one_bind h, array?_bind_none hr]
  dsimp only
  rw [struct?_bind hr]
  dsimp only
  rw [string?_bind hname]
  dsimp only
  rw [fieldAt]
  cases r.get? name with
  | none => rfl
  | some v => exact replaceTwo_apply h hroom v

theorem contains_apply (h : s.machine.stack = (below.push (.object id)).push (.object key))
    (hroom : below.size < s.machine.stackMax) (hr : s.memory.struct? id = some r)
    (hname : s.memory.string? key = some name) :
    contains s = .ok () (s.withStack (below.push (.bool (r.contains name)))) := by
  rw [contains, peek_zero_bind h, peek_one_bind h, array?_bind_none hr]
  dsimp only
  rw [struct?_bind hr]
  dsimp only
  rw [string?_bind hname]
  exact replaceTwo_apply h hroom _

theorem length_apply (h : s.machine.stack = below.push (.object id))
    (hroom : below.size < s.machine.stackMax) (hr : s.memory.struct? id = some r) :
    length s = .ok () (s.withStack (below.push (.int (Int64.ofNat r.size)))) := by
  rw [length, peek_zero_bind h]
  dsimp only
  rw [get_bind_apply, Memory.struct?_eq_some.1 hr]
  exact replaceTop_apply h hroom _

theorem setField_apply (h : s.machine.stack = (below.push (.object id)).push v)
    (hroom : below.size < s.machine.stackMax) (hr : s.memory.struct? id = some r) (name : Text) :
    setField name s = .ok ()
      (Execution.withStack { s with memory := s.memory.setFieldOf id name v } (below.push v)) := by
  rw [setField, peek_zero_bind h, peek_one_bind h, struct?_bind hr]
  change replaceTwo v { s with memory := s.memory.setFieldOf id name v } = _
  exact @replaceTwo_apply { s with memory := s.memory.setFieldOf id name v } _ _ _ h hroom v

end Exec

end StackVm
