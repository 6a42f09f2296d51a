/-
What instructions leave alone.  Most of what an instruction does is looking, moving values on the
stack, printing and making objects that are no functions.  A relation between states that puts up
with this holds between the states before and after every instruction, but for a call that
verifies its callee, for a field that is set and for a line that is read.
-/
import StackVm.Proofs.Evolution
import StackVm.Proofs.Instruction

namespace StackVm

/-- The state that a result leaves. -/
def stateAfter {ε σ α : Type} : EStateM.Result ε σ α → σ
  | .ok _ s => s
  | .error _ s => s

theorem stateAfter_bind_pure {ε σ α β : Type} (x : EStateM ε σ α) (b : β) (s : σ) :
    stateAfter ((x >>= fun _ => pure b) s) = stateAfter (x s) := by
  rw [bind_apply]
  cases x s <;> rfl

/-- The memory with a field of a struct set. -/
def Memory.setFieldOf (m : Memory) (id : ObjectId) (name : Text) (v : Value) : Memory :=
  m.modifyPayload id fun
    | .struct record => .struct (record.set name v)
    | p => p

/-- The memory with the elements of an array changed. -/
def Memory.modifyArray (m : Memory) (id : ObjectId) (f : Array Value → Array Value) : Memory :=
  m.modifyPayload id fun
    | .array elements => .array (f elements)
    | p => p

namespace Exec

/-- The relation holds between a state and what looking, moving values, printing, changing arrays
and making objects leave of it. -/
class Lenient (R : Execution → Execution → Prop) : Prop where
  refl (s : Execution) : R s s
  trans {s t u : Execution} : R s t → R t u → R s u
  machine (s : Execution) (machine : Machine) : R s { s with machine }
  out (s : Execution) (out : Array UInt8) : R s { s with out }
  err (s : Execution) (err : Array UInt8) : R s { s with err }
  array (s : Execution) (id : ObjectId) (f : Array Value → Array Value) :
    R s { s with memory := s.memory.modifyArray id f }
  alloc (s : Execution) (others : Holdings) {p : Payload} (hkind : p.kind ≠ .function) :
    R s (stateAfter (Exec.alloc others p s))
  /-- A struct is filled after it has been made. -/
  fill {s t : Execution} {others : Holdings} {id : ObjectId} (r : Record) :
    Exec.alloc others (.struct {}) s = .ok id t →
    R s { t with memory := t.memory.modifyPayload id fun _ => .struct r }

variable {R : Execution → Execution → Prop} {α β : Type} {x : ExecM α} {f : α → ExecM β}

/-- The relation holds between the states before and after a computation. -/
def Leaves (R : Execution → Execution → Prop) (x : ExecM α) : Prop :=
  ∀ s : Execution, R s (stateAfter (x s))

variable [Lenient R]

/-- What comes next matters only in the states that the first part can leave. -/
theorem Leaves.bind_at {s : Execution} (hx : Leaves R x)
    (hf : ∀ a t, x s = .ok a t → R t (stateAfter (f a t))) : R s (stateAfter ((x >>= f) s)) := by
  have hfirst := hx s
  rw [bind_apply]
  cases hresult : x s with
  | error e t =>
    rw [hresult] at hfirst
    exact hfirst
  | ok a t =>
    rw [hresult] at hfirst
    exact Lenient.trans hfirst (hf a t hresult)

theorem Leaves.bind (hx : Leaves R x) (hf : ∀ a, Leaves R (f a)) : Leaves R (x >>= f) :=
  fun _ => hx.bind_at fun a t _ => hf a t

theorem leaves_pure (a : α) : Leaves R (pure a : ExecM α) := fun s => Lenient.refl s

theorem leaves_raise (cause : RuntimeCause) : Leaves R (raise cause : ExecM α) :=
  fun s => Lenient.refl s

theorem leaves_crash : Leaves R (crash : ExecM α) := fun s => Lenient.refl s

theorem leaves_get : Leaves R (get : ExecM Execution) := fun s => Lenient.refl s

theorem leaves_modifyMachine (f : Machine → Machine) : Leaves R (modifyMachine f) :=
  fun s => Lenient.machine s _

theorem leaves_modifyArray (id : ObjectId) (f : Array Value → Array Value) :
    Leaves R (modifyPayload id fun
      | .array elements => .array (f elements)
      | p => p) :=
  fun s => Lenient.array s id f

theorem leaves_present (a : Option α) : Leaves R (present a) := by
  cases a with
  | none => exact leaves_crash
  | some a => exact leaves_pure a

theorem leaves_makeString (others : Holdings) (data : Text) :
    Leaves R (alloc others (.string data)) :=
  fun s => Lenient.alloc s others (Memory.string_ne_function data)

theorem leaves_makeArray (others : Holdings) (elements : Array Value) :
    Leaves R (alloc others (.array elements)) :=
  fun s => Lenient.alloc s others (Memory.array_ne_function elements)

/-! ### Steps of instructions -/

theorem leaves_frame : Leaves R frame := leaves_get.bind fun _ => leaves_present _

theorem leaves_chunk : Leaves R chunk :=
  leaves_frame.bind fun _ => leaves_get.bind fun _ => leaves_present _

theorem leaves_advance (n : Int) : Leaves R (advance n) := fun s => Lenient.machine s _

theorem leaves_byteAt (c : Chunk) (offset : Int) : Leaves R (byteAt c offset) := by
  rw [byteAt]
  split
  · exact leaves_crash
  · exact leaves_present _

theorem leaves_operand : Leaves R operand :=
  leaves_chunk.bind fun _ => leaves_frame.bind fun _ => (leaves_byteAt _ _).bind fun _ =>
    (leaves_advance 1).bind fun _ => leaves_pure _

theorem leaves_wideOperand : Leaves R wideOperand :=
  leaves_operand.bind fun _ => leaves_operand.bind fun _ => leaves_pure _

theorem leaves_constantOperand : Leaves R constantOperand :=
  leaves_operand.bind fun _ => leaves_chunk.bind fun _ => leaves_present _

theorem leaves_nameOperand : Leaves R nameOperand := by
  refine leaves_constantOperand.bind fun v => ?_
  cases v with
  | object id => exact leaves_get.bind fun _ => leaves_present _
  | _ => exact leaves_crash

theorem leaves_push (v : Value) : Leaves R (push v) := by
  refine leaves_get.bind fun s => ?_
  dsimp only
  split
  · exact leaves_modifyMachine _
  · exact leaves_crash.bind fun _ => leaves_modifyMachine _

theorem leaves_pop : Leaves R pop :=
  leaves_get.bind fun _ => (leaves_present _).bind fun _ =>
    (leaves_modifyMachine _).bind fun _ => leaves_pure _

theorem leaves_peek (distance : Nat) : Leaves R (peek distance) := by
  refine leaves_get.bind fun s => ?_
  dsimp only
  split
  · exact leaves_present _
  · exact leaves_crash

theorem leaves_replaceTop (v : Value) : Leaves R (replaceTop v) :=
  leaves_pop.bind fun _ => leaves_push v

theorem leaves_replaceTwo (v : Value) : Leaves R (replaceTwo v) :=
  leaves_pop.bind fun _ => leaves_replaceTop v

theorem leaves_shrinkTo (size : Nat) : Leaves R (shrinkTo size) := by
  refine leaves_get.bind fun s => ?_
  dsimp only
  split
  · exact leaves_modifyMachine _
  · exact leaves_crash.bind fun _ => leaves_modifyMachine _

theorem leaves_require (op : Opcode) (need : Nat) : Leaves R (require op need) := by
  refine leaves_frame.bind fun f => leaves_get.bind fun s => ?_
  split
  · exact leaves_raise _
  · exact leaves_pure _

theorem leaves_string? (v : Value) : Leaves R (string? v) := by
  cases v with
  | object id => exact leaves_get.bind fun _ => leaves_pure _
  | _ => exact leaves_pure _

theorem leaves_array? (v : Value) : Leaves R (array? v) := by
  cases v with
  | object id => exact leaves_get.bind fun _ => leaves_pure _
  | _ => exact leaves_pure _

theorem leaves_struct? (v : Value) : Leaves R (struct? v) := by
  cases v with
  | object id => exact leaves_get.bind fun _ => leaves_pure _
  | _ => exact leaves_pure _

theorem leaves_function? (v : Value) : Leaves R (function? v) := by
  cases v with
  | object id => exact leaves_get.bind fun _ => leaves_pure _
  | _ => exact leaves_pure _

/-! ### Instructions on values -/

theorem leaves_arithmetic (op : Int64 → Int64 → Value) : Leaves R (arithmetic op) := by
  refine (leaves_peek 1).bind fun v => (leaves_peek 0).bind fun w => ?_
  split
  · exact leaves_replaceTwo _
  · exact leaves_raise _

theorem leaves_divide : Leaves R divide := by
  refine (leaves_peek 1).bind fun v => (leaves_peek 0).bind fun w => ?_
  split
  · split
    · exact leaves_raise _
    · exact leaves_replaceTwo _
  · exact leaves_raise _

theorem leaves_negate : Leaves R negate := by
  refine (leaves_peek 0).bind fun v => ?_
  split
  · exact leaves_replaceTop _
  · exact leaves_raise _

theorem leaves_add (others : Holdings) : Leaves R (add (alloc others)) := by
  refine (leaves_peek 1).bind fun v => (leaves_peek 0).bind fun w => ?_
  split
  · exact leaves_replaceTwo _
  · refine (leaves_string? _).bind fun a => (leaves_string? _).bind fun b => ?_
    split
    · exact (leaves_makeString others _).bind fun _ => leaves_replaceTwo _
    · exact leaves_raise _

theorem leaves_topValues (count : Nat) : Leaves R (topValues count) := by
  refine leaves_get.bind fun s => ?_
  dsimp only
  split
  · exact leaves_pure _
  · exact leaves_crash

theorem leaves_dropValues (count : Nat) : Leaves R (dropValues count) :=
  leaves_get.bind fun _ => leaves_shrinkTo _

theorem leaves_buildArray (others : Holdings) (count : Nat) :
    Leaves R (buildArray (alloc others) count) :=
  (leaves_topValues count).bind fun _ => (leaves_makeArray others _).bind fun _ =>
    (leaves_dropValues count).bind fun _ => leaves_push _

theorem leaves_topPairs (count : Nat) : Leaves R (topPairs count) :=
  (leaves_topValues _).bind fun _ => leaves_get.bind fun _ => leaves_pure _

theorem leaves_elementAt (elements : Array Value) (key : Value) :
    Leaves R (elementAt elements key) := by
  cases key with
  | int i =>
    rw [elementAt]
    split
    · exact leaves_present _
    · exact leaves_raise _
  | _ => exact leaves_raise _

theorem leaves_fieldAt (r : Record) (name : Text) : Leaves R (fieldAt r name) := by
  rw [fieldAt]
  split
  · exact leaves_pure _
  · exact leaves_raise _

theorem leaves_index : Leaves R index := by
  refine (leaves_peek 0).bind fun key => (leaves_peek 1).bind fun container =>
    (leaves_array? container).bind fun elements => ?_
  split
  · exact (leaves_elementAt _ key).bind fun _ => leaves_replaceTwo _
  · refine (leaves_struct? container).bind fun record => ?_
    split
    · refine (leaves_string? key).bind fun name => ?_
      split
      · exact (leaves_fieldAt _ _).bind fun _ => leaves_replaceTwo _
      · exact leaves_raise _
    · exact leaves_raise _

theorem leaves_indexSet : Leaves R indexSet := by
  refine (leaves_peek 0).bind fun value => (leaves_peek 2).bind fun container =>
    (leaves_array? container).bind fun elements => ?_
  split
  · exact leaves_raise _
  · refine (leaves_peek 1).bind fun key => ?_
    split
    · split
      · exact Leaves.bind (leaves_modifyArray _ _) fun _ =>
          leaves_pop.bind fun _ => leaves_replaceTwo _
      · exact leaves_raise _
    · exact leaves_raise _

theorem leaves_getField (name : Text) : Leaves R (getField name) := by
  refine (leaves_peek 0).bind fun v => (leaves_struct? v).bind fun record => ?_
  split
  · exact (leaves_fieldAt _ name).bind fun _ => leaves_replaceTop _
  · exact leaves_raise _

theorem leaves_setField (hfield : ∀ (s : Execution) (id : ObjectId) (name : Text) (v : Value),
      R s { s with memory := s.memory.setFieldOf id name v }) (name : Text) :
    Leaves R (setField name) := by
  refine (leaves_peek 0).bind fun value => (leaves_peek 1).bind fun v =>
    (leaves_struct? v).bind fun record => ?_
  split
  · exact leaves_raise _
  · exact Leaves.bind (fun s => hfield s _ name value) fun _ => leaves_replaceTwo _

theorem leaves_length : Leaves R length := by
  refine (leaves_peek 0).bind fun v => ?_
  split
  · refine leaves_get.bind fun s => ?_
    split
    · exact leaves_replaceTop _
    · exact leaves_raise _
  · exact leaves_raise _

theorem leaves_arrayPush : Leaves R arrayPush := by
  refine (leaves_peek 0).bind fun element => (leaves_peek 1).bind fun v =>
    (leaves_array? v).bind fun elements => ?_
  split
  · exact leaves_raise _
  · exact Leaves.bind (leaves_modifyArray _ _) fun _ => leaves_replaceTwo _

theorem leaves_arrayPop : Leaves R arrayPop := by
  refine (leaves_peek 0).bind fun v => (leaves_array? v).bind fun elements => ?_
  split
  · exact leaves_raise _
  · exact leaves_raise _
  · exact Leaves.bind (leaves_modifyArray _ _) fun _ => leaves_replaceTop _

theorem leaves_typeOf (others : Holdings) : Leaves R (typeOf (alloc others)) :=
  (leaves_peek 0).bind fun _ => leaves_get.bind fun _ =>
    (leaves_makeString others _).bind fun _ => leaves_replaceTop _

theorem leaves_appendNames (others : Holdings) (id : ObjectId) (names : List Text) :
    Leaves R (appendNames (alloc others) id names) := by
  induction names with
  | nil => exact leaves_pure _
  | cons name rest ih =>
    exact (leaves_makeString others name).bind fun _ =>
      Leaves.bind (leaves_modifyArray _ _) fun _ => ih

theorem leaves_keys (others : Holdings) : Leaves R (keys (alloc others)) := by
  refine (leaves_peek 0).bind fun v => (leaves_struct? v).bind fun record => ?_
  split
  · exact leaves_raise _
  · exact (leaves_makeArray others _).bind fun _ => (leaves_push _).bind fun _ =>
      leaves_get.bind fun _ => (leaves_present _).bind fun _ =>
      (leaves_appendNames others _ _).bind fun _ => leaves_replaceTwo _

theorem leaves_values (others : Holdings) : Leaves R (values (alloc others)) := by
  refine (leaves_peek 0).bind fun v => (leaves_struct? v).bind fun record => ?_
  split
  · exact leaves_raise _
  · exact (leaves_makeArray others _).bind fun _ => leaves_replaceTop _

theorem leaves_contains : Leaves R contains := by
  refine (leaves_peek 0).bind fun needle => (leaves_peek 1).bind fun container =>
    (leaves_array? container).bind fun elements => ?_
  split
  · exact leaves_get.bind fun _ => leaves_replaceTwo _
  · refine (leaves_struct? container).bind fun record => ?_
    split
    · exact (leaves_string? needle).bind fun _ => leaves_replaceTwo _
    · exact leaves_raise _

theorem leaves_input (hinput : ∀ (s : Execution) (input : Text), R s { s with input })
    (others : Holdings) : Leaves R (input (alloc others)) := by
  refine Leaves.bind (fun s => hinput s _) fun line => ?_
  split
  · exact leaves_push _
  · exact (leaves_makeString others _).bind fun _ => leaves_push _

/-- The top of the stack is read without a change. -/
theorem topPairs_state {count : Nat} {named : Option (List (Text × Value))} {s t : Execution}
    (h : topPairs count s = .ok named t) : t = s := by
  rw [topPairs, topValues, bind_assoc, get_bind_apply] at h
  dsimp only at h
  split at h
  · cases h
    rfl
  · cases h

/-- The fields come into the struct that has been made before. -/
theorem leaves_buildStruct (others : Holdings) (count : Nat) :
    Leaves R (buildStruct (alloc others) count) := by
  refine (leaves_topPairs count).bind fun named => ?_
  split
  · exact leaves_raise _
  intro s
  have hmade : ∀ {t}, stateAfter (alloc others (.struct {}) s) = t → R s t := by
    rintro t rfl
    exact Lenient.alloc s others (Memory.struct_ne_function _)
  rw [bind_apply]
  cases halloc : alloc others (.struct {}) s with
  | error e t => exact hmade (by rw [halloc]; rfl)
  | ok id t =>
    have ht : R s t := hmade (by rw [halloc]; rfl)
    have hread := leaves_topPairs (R := R) count t
    dsimp only
    rw [bind_apply]
    cases hpairs : topPairs count t with
    | error e u =>
      rw [hpairs] at hread
      exact Lenient.trans ht hread
    | ok named u =>
      cases topPairs_state hpairs
      cases named with
      | none => exact ht
      | some fields =>
        exact Lenient.trans (Lenient.fill (Record.ofPairs fields) halloc)
          (((leaves_dropValues _).bind fun _ => leaves_push _) { t with
            memory := t.memory.modifyPayload id fun _ => .struct (Record.ofPairs fields) })

/-! ### Whole instructions -/

theorem leaves_getLocal : Leaves R getLocal := by
  refine leaves_operand.bind fun slot => leaves_get.bind fun s => leaves_frame.bind fun f => ?_
  split
  · exact leaves_push _
  · exact leaves_raise _

theorem leaves_setLocal : Leaves R setLocal := by
  refine leaves_operand.bind fun slot => leaves_frame.bind fun f => leaves_get.bind fun s => ?_
  split
  · exact (leaves_raise _).bind fun _ => (leaves_peek 0).bind fun _ => leaves_modifyMachine _
  · exact (leaves_peek 0).bind fun _ => leaves_modifyMachine _

theorem leaves_getGlobal : Leaves R getGlobal := by
  refine leaves_nameOperand.bind fun name => Leaves.bind (fun s => Lenient.machine s _) fun v => ?_
  split
  · exact leaves_push _
  · exact leaves_raise _

theorem leaves_setGlobal : Leaves R setGlobal := by
  refine leaves_nameOperand.bind fun name => (leaves_peek 0).bind fun v =>
    leaves_get.bind fun s => ?_
  split
  · exact leaves_modifyMachine _
  · exact leaves_raise _

theorem leaves_jumpIfFalse : Leaves R jumpIfFalse := by
  refine leaves_wideOperand.bind fun distance => (leaves_peek 0).bind fun v => ?_
  split
  · exact leaves_advance _
  · exact leaves_pure _

theorem leaves_execute (others : Holdings) {op : Opcode} (hcall : op ≠ .call)
    (hfield : op = .setField → ∀ (s : Execution) (id : ObjectId) (name : Text) (v : Value),
      R s { s with memory := s.memory.setFieldOf id name v })
    (hinput : op = .input → ∀ (s : Execution) (input : Text), R s { s with input }) :
    Leaves R (execute (alloc others) op) := by
  cases op with
  | call => exact absurd rfl hcall
  | ret => exact leaves_pure _
  | constant => exact leaves_constantOperand.bind fun _ => leaves_push _
  | pushNil => exact leaves_push _
  | pushTrue => exact leaves_push _
  | pushFalse => exact leaves_push _
  | pop => exact leaves_pop.bind fun _ => leaves_pure _
  | getLocal => exact leaves_getLocal
  | setLocal => exact leaves_setLocal
  | getGlobal => exact leaves_getGlobal
  | defineGlobal =>
    exact leaves_nameOperand.bind fun _ => leaves_pop.bind fun _ => leaves_modifyMachine _
  | setGlobal => exact leaves_setGlobal
  | equal =>
    exact leaves_pop.bind fun _ => leaves_pop.bind fun _ => leaves_get.bind fun _ => leaves_push _
  | greater => exact leaves_arithmetic _
  | less => exact leaves_arithmetic _
  | add => exact leaves_add others
  | subtract => exact leaves_arithmetic _
  | multiply => exact leaves_arithmetic _
  | divide => exact leaves_divide
  | logicalNot => exact leaves_pop.bind fun _ => leaves_push _
  | negate => exact leaves_negate
  | print => exact leaves_pop.bind fun _ => leaves_get.bind fun _ => fun s => Lenient.out s _
  | jump => exact leaves_wideOperand.bind fun _ => leaves_advance _
  | jumpIfFalse => exact leaves_jumpIfFalse
  | loop => exact leaves_wideOperand.bind fun _ => leaves_advance _
  | buildArray =>
    exact leaves_operand.bind fun _ => (leaves_require _ _).bind fun _ => leaves_buildArray others _
  | index => exact leaves_index
  | indexSet => exact leaves_indexSet
  | buildStruct =>
    exact leaves_operand.bind fun _ => (leaves_require _ _).bind fun _ =>
      leaves_buildStruct others _
  | getField => exact leaves_nameOperand.bind fun _ => leaves_getField _
  | setField => exact leaves_nameOperand.bind fun _ => leaves_setField (hfield rfl) _
  | length => exact leaves_length
  | arrayPush => exact leaves_arrayPush
  | arrayPop => exact leaves_arrayPop
  | typeOf => exact leaves_typeOf others
  | keys => exact leaves_keys others
  | values => exact leaves_values others
  | contains => exact leaves_contains
  | input => exact leaves_input (hinput rfl) others

theorem leaves_ret : Leaves R ret := by
  refine leaves_pop.bind fun result => leaves_frame.bind fun f =>
    (leaves_modifyMachine _).bind fun _ => leaves_get.bind fun s => ?_
  split
  · exact (leaves_shrinkTo 0).bind fun _ => (leaves_modifyMachine _).bind fun _ =>
      (leaves_push _).bind fun _ => leaves_pure _
  · exact (leaves_shrinkTo _).bind fun _ => (leaves_push _).bind fun _ => leaves_pure _

theorem leaves_fetch : Leaves R fetch := by
  refine leaves_frame.bind fun f => leaves_chunk.bind fun c => ?_
  have hdone : ∀ byte : UInt8, Leaves R (advance 1 >>= fun _ => pure byte) := fun _ =>
    (leaves_advance 1).bind fun _ => leaves_pure _
  -- The two checks, whether or not they fail, are before the rest.
  have hrest : Leaves R (do
      let depth := (← get).machine.stack.size
      if (← get).machine.stackMax ≤ depth then raise .operandOverflow
      let byte ← byteAt c f.ip
      if (← get).machine.tracing then printErr (traceLine f.ip byte depth)
      advance 1
      return byte) := by
    refine leaves_get.bind fun s => leaves_get.bind fun t => ?_
    have hread : Leaves R (do
        let byte ← byteAt c f.ip
        if (← get).machine.tracing then printErr (traceLine f.ip byte s.machine.stack.size)
        advance 1
        return byte) := by
      refine (leaves_byteAt _ _).bind fun byte => leaves_get.bind fun u => ?_
      dsimp only
      split
      · exact Leaves.bind (fun s => Lenient.err s _) fun _ => hdone byte
      · exact hdone byte
    dsimp only
    split
    · exact (leaves_raise _).bind fun _ => hread
    · exact hread
  dsimp only
  split
  · exact leaves_get.bind fun _ => (leaves_present _).bind fun _ =>
      (leaves_raise _).bind fun _ => hrest
  · exact hrest

theorem leaves_demand (op : Opcode) : Leaves R (demand op) := by
  rw [demand]
  split
  · exact leaves_pure _
  · exact leaves_pure _
  · exact leaves_require op _

/-! ### Calls and steps -/

theorem leaves_verifyCallee
    (hverify : ∀ (s : Execution) (id : ObjectId), R s { s with memory := (s.memory.verify id).1 })
    (id : ObjectId) : Leaves R (verifyCallee id) := by
  refine Leaves.bind (fun s => hverify s id) fun e => ?_
  split
  · exact leaves_raise _
  · exact leaves_pure _

theorem leaves_call
    (hverify : ∀ (s : Execution) (id : ObjectId), R s { s with memory := (s.memory.verify id).1 }) :
    Leaves R call := by
  refine leaves_operand.bind fun argc => (leaves_require _ _).bind fun _ =>
    (leaves_peek _).bind fun v => (leaves_function? v).bind fun callee => ?_
  split
  · exact leaves_raise _
  · next id fn =>
    have henter : Leaves R (do
        verifyCallee id
        let base := (← get).machine.stack.size - argc - 1
        modifyMachine fun m => { m with frames := ⟨id, 0, base⟩ :: m.frames }
        let _ ← chunk) :=
      (leaves_verifyCallee hverify id).bind fun _ => leaves_get.bind fun _ =>
        (leaves_modifyMachine _).bind fun _ => leaves_chunk.bind fun _ => leaves_pure _
    have hfree : Leaves R (do
        let m := (← get).machine
        if m.maxFrames ≤ m.frames.length then raise .frameOverflow
        verifyCallee id
        let base := (← get).machine.stack.size - argc - 1
        modifyMachine fun m => { m with frames := ⟨id, 0, base⟩ :: m.frames }
        let _ ← chunk) := by
      refine leaves_get.bind fun s => ?_
      dsimp only
      split
      · exact (leaves_raise _).bind fun _ => henter
      · exact henter
    dsimp only
    split
    · exact (leaves_raise _).bind fun _ => hfree
    · exact hfree

end Exec

/-- The opcode that is read next. -/
def Execution.opcode? (s : Execution) : Option Opcode :=
  match Exec.fetch s with
  | .ok byte _ => Opcode.ofByte? byte
  | .error _ _ => none

theorem Execution.opcode?_eq {s t : Execution} {byte : UInt8} (h : Exec.fetch s = .ok byte t) :
    s.opcode? = Opcode.ofByte? byte := by
  rw [opcode?, h]

variable {R : Execution → Execution → Prop} [Exec.Lenient R] {s : Execution}

/-- The relation holds across an instruction that it puts up with. -/
theorem Exec.leaves_step
    (hverify : ∀ (s : Execution) (id : ObjectId), R s { s with memory := (s.memory.verify id).1 })
    (hfield : s.opcode? = some .setField →
      ∀ (s : Execution) (id : ObjectId) (name : Text) (v : Value),
        R s { s with memory := s.memory.setFieldOf id name v })
    (hinput : s.opcode? = some .input →
      ∀ (s : Execution) (input : Text), R s { s with input })
    (others : Holdings) : R s (stateAfter (step (alloc others) s)) := by
  rw [step_eq]
  refine leaves_fetch.bind_at fun byte t hfetch => ?_
  have hopcode := Execution.opcode?_eq hfetch
  cases hop : Opcode.ofByte? byte with
  | none => exact leaves_raise _ t
  | some op =>
    rw [hop] at hopcode
    have hexecute : Leaves R (execute (alloc others) op) := by
      by_cases hcall : op = .call
      · exact hcall ▸ leaves_call hverify
      · exact leaves_execute others hcall (fun heq => hfield (heq ▸ hopcode))
          fun heq => hinput (heq ▸ hopcode)
    refine ((leaves_demand op).bind fun _ => ?_) t
    rw [perform]
    split
    · exact leaves_ret
    · exact hexecute.bind fun _ => leaves_pure _

end StackVm
