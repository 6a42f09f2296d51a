/-
What an instruction has done by the time it raises an error: it has moved on in its code and
may have remembered functions as verified, and that is all.  Checks come before changes, so
every instruction is a run of checks followed by steps that raise nothing.  However an
instruction ends, it leaves the stack within its limit.
-/
import StackVm.Proofs.Calls
import StackVm.Proofs.Records
import StackVm.Proofs.TwinVerify
import StackVm.Proofs.Upkeep

namespace StackVm

/-- The content without the mark that a function has been verified. -/
def Payload.unmarked : Payload → Payload
  | .function f => .function { f with verified := false }
  | p => p

/-- The memory without the marks that functions have been verified. -/
def Memory.unmarked (m : Memory) : Memory :=
  { m with objects := m.objects.map fun o => { o with payload := o.payload.unmarked } }

/-- The machine with its innermost frame some bytes further on. -/
def Machine.ahead (m : Machine) (distance : Nat) : Machine :=
  { m with frames := m.frames.modifyHead (·.ahead distance) }

/-- The state `t` is the state `s`, but for marks on verified functions, for at most `n` bytes
that the innermost frame has moved on, and for what has been written to the error output. -/
structure Execution.Untouched (n : Nat) (s t : Execution) : Prop where
  memory : t.memory.unmarked = s.memory.unmarked
  machine : ∃ k ≤ n, t.machine = s.machine.ahead k
  input : t.input = s.input
  out : t.out = s.out

/-- The machine neither has a new result nor has been closed. -/
structure Execution.Running (s t : Execution) : Prop where
  result : t.machine.result = s.machine.result
  closed : t.machine.closed = s.machine.closed

/-- The limit of the stack stays, and a stack within the limit stays within it. -/
structure Execution.Fits (s t : Execution) : Prop where
  stackMax : t.machine.stackMax = s.machine.stackMax
  depth : s.machine.stack.size ≤ s.machine.stackMax → t.machine.stack.size ≤ s.machine.stackMax

/-- An instruction comes upon the cause itself; the end of the code and a full stack are found
before it. -/
def RuntimeCause.Own : RuntimeCause → Prop
  | .ranPastEnd _ | .operandOverflow => False
  | _ => True

section

variable {s t u : Execution} {n k : Nat}

theorem Execution.Fits.refl (s : Execution) : s.Fits s := ⟨rfl, fun h => h⟩

theorem Execution.Fits.trans (h : s.Fits t) (h' : t.Fits u) : s.Fits u where
  stackMax := h'.stackMax.trans h.stackMax
  depth hs := h.stackMax ▸ h'.depth (h.stackMax ▸ h.depth hs)

theorem Machine.ahead_zero (m : Machine) : m.ahead 0 = m := by
  have hframe : ∀ f : Frame, f.ahead 0 = f := fun f => by
    rw [Frame.ahead]
    simp
  obtain ⟨source, stack, stackMax, frames⟩ := m
  cases frames with
  | nil => rfl
  | cons f callers => rw [Machine.ahead, List.modifyHead_cons, hframe]

theorem Machine.ahead_ahead (m : Machine) (n k : Nat) : (m.ahead n).ahead k = m.ahead (n + k) := by
  have hframe : ∀ f : Frame, (f.ahead n).ahead k = f.ahead (n + k) := fun f => by
    simp only [Frame.ahead, Nat.cast_add, Int.add_assoc]
  simp only [Machine.ahead]
  cases m.frames with
  | nil => rfl
  | cons f callers => simp only [List.modifyHead_cons, hframe]

theorem Execution.Untouched.refl (s : Execution) : s.Untouched 0 s :=
  ⟨rfl, ⟨0, Nat.le_refl 0, s.machine.ahead_zero.symm⟩, rfl, rfl⟩

theorem Execution.Untouched.trans (h : s.Untouched n t) (h' : t.Untouched k u) :
    s.Untouched (n + k) u := by
  obtain ⟨i, hi, hmachine⟩ := h.machine
  obtain ⟨j, hj, hmachine'⟩ := h'.machine
  refine ⟨h'.memory.trans h.memory, ⟨i + j, Nat.add_le_add hi hj, ?_⟩,
    h'.input.trans h.input, h'.out.trans h.out⟩
  rw [hmachine', hmachine, Machine.ahead_ahead]

theorem Execution.Untouched.trans_start (h : s.Untouched 0 t) (h' : t.Untouched k u) :
    s.Untouched k u :=
  k.zero_add ▸ h.trans h'

theorem Execution.Untouched.mono (h : s.Untouched n t) (hle : n ≤ k) : s.Untouched k t := by
  obtain ⟨i, hi, hmachine⟩ := h.machine
  exact ⟨h.memory, ⟨i, Nat.le_trans hi hle, hmachine⟩, h.input, h.out⟩

theorem Execution.Untouched.running (h : s.Untouched n t) : s.Running t := by
  obtain ⟨k, _, hmachine⟩ := h.machine
  constructor
  · rw [hmachine]
    rfl
  · rw [hmachine]
    rfl

theorem Execution.Untouched.globals (h : s.Untouched n t) :
    t.machine.globals = s.machine.globals := by
  obtain ⟨k, _, hmachine⟩ := h.machine
  rw [hmachine]
  rfl

theorem Execution.Running.trans (h : s.Running t) (h' : t.Running u) : s.Running u :=
  ⟨h'.result.trans h.result, h'.closed.trans h.closed⟩

/-! ### Marks -/

theorem Memory.unmarked_modifyPayload {m : Memory} {id : ObjectId} {change : Payload → Payload}
    (h : ∀ p, (change p).unmarked = p.unmarked) : (m.modifyPayload id change).unmarked =
      m.unmarked := by
  rw [unmarked, unmarked, modifyPayload]
  congr 1
  ext1
  · simp
  · next i hi hi' =>
    simp only [Array.getElem_map, Array.getElem_modify]
    split
    · rw [h]
    · rfl

theorem Memory.unmarked_setVerified (m : Memory) (id : ObjectId) :
    (m.setVerified id).unmarked = m.unmarked :=
  unmarked_modifyPayload fun p => by cases p <;> rfl

/-- All that a verification changes is marks. -/
theorem Memory.unmarked_verify (m : Memory) (id : ObjectId) :
    (m.verify id).1.unmarked = m.unmarked := by
  have hmarks : ∀ (ids : List ObjectId) (n : Memory),
      (ids.foldl setVerified n).unmarked = n.unmarked := by
    intro ids
    induction ids with
    | nil => exact fun _ => rfl
    | cons i rest ih => exact fun n => (ih _).trans (unmarked_setVerified n i)
  rw [verify_eq]
  split
  · rfl
  · exact hmarks _ m

end

/-- A search for a name that is not bound leaves the table as it is, its cache included. -/
theorem Globals.get_none {g : Globals} {name : Text} (h : (g.get name).1 = none) :
    (g.get name).2 = g := by
  have hget : ∀ r : Option Nat × Globals, g.resolve name = r →
      g.get name = (r.1.bind fun slot => r.2.values[slot]?, r.2) := fun r hr => by rw [get, hr]
  cases hcached : g.cached? name with
  | some slot => rw [hget (some slot, g) (by rw [resolve, hcached])]
  | none =>
    cases hslot : g.slot? name with
    | none => rw [hget (none, g) (by rw [resolve, hcached, hslot])]
    | some slot =>
      rw [hget (some slot, g.remember name slot) (by rw [resolve, hcached, hslot])] at h
      obtain ⟨v, hvalue, -⟩ := Record.get?_of_slot? hslot
      cases hvalue.symm.trans h

/-! ### Checks and changes -/

namespace Exec

variable {α β : Type} {x : ExecM α} {f : α → ExecM β} {n k : Nat}

/-- How a computation ends: with `post` if it succeeds, and with `failed` if it raises an
error. -/
inductive Ends (post : α → Execution → Prop) (failed : RuntimeCause → Execution → Prop) :
    EStateM.Result Stop Execution α → Prop
  | ok {a : α} {t : Execution} : post a t → Ends post failed (.ok a t)
  | raised {cause : RuntimeCause} {t : Execution} : failed cause t →
      Ends post failed (.error (.raised cause) t)
  | fault {e : Fault} {t : Execution} : Ends post failed (.error (.fault e) t)

theorem Ends.mono {post post' : α → Execution → Prop}
    {failed failed' : RuntimeCause → Execution → Prop}
    {r : EStateM.Result Stop Execution α} (h : Ends post failed r)
    (hpost : ∀ a t, post a t → post' a t) (hfailed : ∀ cause t, failed cause t → failed' cause t) :
    Ends post' failed' r := by
  cases h with
  | ok ht => exact .ok (hpost _ _ ht)
  | raised ht => exact .raised (hfailed _ _ ht)
  | fault => exact .fault

/-- What a computation has done to a state by the time it succeeds, and by the time it raises
an error.  In any case the stack is within its limit. -/
structure Course (post : Execution → α → Execution → Prop)
    (failed : Execution → RuntimeCause → Execution → Prop) (x : ExecM α) : Prop where
  ends : ∀ s : Execution, Ends (post s) (failed s) (x s)
  fits : ∀ s : Execution, s.Fits (stateAfter (x s))

theorem Course.mono {post post' : Execution → α → Execution → Prop}
    {failed failed' : Execution → RuntimeCause → Execution → Prop} (h : Course post failed x)
    (hpost : ∀ {s a t}, post s a t → post' s a t)
    (hfailed : ∀ {s cause t}, failed s cause t → failed' s cause t) : Course post' failed' x where
  ends s := (h.ends s).mono (fun _ _ => hpost) fun _ _ => hfailed
  fits := h.fits

theorem Course.bind {first : Execution → α → Execution → Prop}
    {second post : Execution → β → Execution → Prop}
    {failed failed' failed'' : Execution → RuntimeCause → Execution → Prop}
    (hx : Course first failed x) (hf : ∀ a, Course second failed' (f a))
    (hpost : ∀ {s a t b u}, first s a t → second t b u → post s b u)
    (hfailed : ∀ {s cause t}, failed s cause t → failed'' s cause t)
    (hfailed' : ∀ {s a t cause u}, first s a t → failed' t cause u → failed'' s cause u) :
    Course post failed'' (x >>= f) where
  ends s := by
    have hstart := hx.ends s
    rw [bind_apply]
    cases hresult : x s with
    | error e t =>
      rw [hresult] at hstart
      cases hstart with
      | raised ht => exact .raised (hfailed ht)
      | fault => exact .fault
    | ok a t =>
      rw [hresult] at hstart
      obtain ⟨ht⟩ := hstart
      exact ((hf a).ends t).mono (fun _ _ hu => hpost ht hu) fun _ _ hu => hfailed' ht hu
  fits s := by
    have hstart := hx.fits s
    rw [bind_apply]
    cases hresult : x s with
    | error e t =>
      rw [hresult] at hstart
      exact hstart
    | ok a t =>
      rw [hresult] at hstart
      exact hstart.trans ((hf a).fits t)

/-- Does nothing but move on, by `n` bytes at most, and raises no error. -/
def Looks (n : Nat) (x : ExecM α) : Prop :=
  Course (fun s _ t => s.Untouched n t) (fun _ _ _ => False) x

/-- Does nothing but move on, by `n` bytes at most, whether or not it raises an error. -/
def Checks (n : Nat) (x : ExecM α) : Prop :=
  Course (fun s _ t => s.Untouched n t) (fun s cause t => cause.Own ∧ s.Untouched n t) x

/-- Raises no error and leaves the result alone, whatever else it changes. -/
def Acts (x : ExecM α) : Prop := Course (fun s _ t => s.Running t) (fun _ _ _ => False) x

/-- If it raises an error, it has done nothing by then but move on, by `n` bytes at most; if not,
it leaves the result alone. -/
def Atomic (n : Nat) (x : ExecM α) : Prop :=
  Course (fun s _ t => s.Running t) (fun s cause t => cause.Own ∧ s.Untouched n t) x

theorem Looks.checks (h : Looks n x) : Checks n x := Course.mono h id False.elim

theorem Looks.acts (h : Looks n x) : Acts x := Course.mono h (·.running) id

theorem Acts.atomic (h : Acts x) : Atomic n x := Course.mono h id False.elim

theorem Looks.append (hx : Looks n x) (hf : ∀ a, Looks k (f a)) : Looks (n + k) (x >>= f) :=
  Course.bind hx hf .trans id fun _ hfalse => hfalse

theorem Looks.bind (hx : Looks 0 x) (hf : ∀ a, Looks n (f a)) : Looks n (x >>= f) :=
  Course.bind hx hf .trans_start id fun _ hfalse => hfalse

theorem Checks.bind (hx : Checks 0 x) (hf : ∀ a, Checks n (f a)) : Checks n (x >>= f) :=
  Course.bind hx hf .trans_start (.imp_right (·.mono (Nat.zero_le n)))
    fun ht => .imp_right ht.trans_start

theorem Acts.bind (hx : Acts x) (hf : ∀ a, Acts (f a)) : Acts (x >>= f) :=
  Course.bind hx hf .trans id fun _ hfalse => hfalse

/-- Checks may come before a computation that is atomic. -/
theorem Checks.bind_atomic (hx : Checks n x) (hf : ∀ a, Atomic 0 (f a)) : Atomic n (x >>= f) :=
  Course.bind hx hf (fun ht => ht.running.trans) id fun ht => .imp_right ht.trans

theorem Looks.bind_atomic (hx : Looks n x) (hf : ∀ a, Atomic 0 (f a)) : Atomic n (x >>= f) :=
  hx.checks.bind_atomic hf

/-- Changes may come behind it. -/
theorem Atomic.bind (hx : Atomic n x) (hf : ∀ a, Acts (f a)) : Atomic n (x >>= f) :=
  Course.bind hx hf .trans id fun _ hfalse => hfalse.elim

/-! ### Steps of instructions -/

theorem looks_pure (a : α) : Looks 0 (pure a : ExecM α) :=
  ⟨fun s => .ok (.refl s), fun s => .refl s⟩

theorem looks_crash : Looks 0 (crash : ExecM α) := ⟨fun _ => .fault, fun s => .refl s⟩

theorem looks_present (a : Option α) : Looks 0 (present a) := by
  cases a with
  | none => exact looks_crash
  | some a => exact looks_pure a

theorem looks_get : Looks 0 (get : ExecM Execution) :=
  ⟨fun s => .ok (.refl s), fun s => .refl s⟩

theorem looks_frame : Looks 0 frame := looks_get.bind fun _ => looks_present _

theorem looks_chunk : Looks 0 chunk :=
  looks_frame.bind fun _ => looks_get.bind fun _ => looks_present _

theorem looks_byteAt (c : Chunk) (offset : Int) : Looks 0 (byteAt c offset) := by
  rw [byteAt]
  split
  · exact looks_crash
  · exact looks_present _

theorem advance_one (s : Execution) :
    advance 1 s = .ok ⟨⟩ { s with machine := s.machine.ahead 1 } := by
  obtain ⟨memory, machine, input, out, err⟩ := s
  obtain ⟨source, stack, stackMax, frames⟩ := machine
  cases frames <;> rfl

theorem looks_advance : Looks 1 (advance 1) where
  ends s := by
    rw [advance_one]
    exact .ok ⟨rfl, ⟨1, Nat.le_refl 1, rfl⟩, rfl, rfl⟩
  fits _ := ⟨rfl, fun h => h⟩

theorem looks_operand : Looks 1 operand :=
  looks_chunk.bind fun _ => looks_frame.bind fun _ => (looks_byteAt _ _).bind fun _ =>
    looks_advance.append fun _ => looks_pure _

theorem looks_wideOperand : Looks 2 wideOperand :=
  looks_operand.append fun _ => looks_operand.append fun _ => looks_pure _

theorem looks_constantOperand : Looks 1 constantOperand :=
  looks_operand.append fun _ => looks_chunk.bind fun _ => looks_present _

theorem looks_nameOperand : Looks 1 nameOperand := by
  refine Looks.append (k := 0) looks_constantOperand fun v => ?_
  cases v with
  | object id => exact looks_get.bind fun _ => looks_present _
  | _ => exact looks_crash

theorem looks_peek (distance : Nat) : Looks 0 (peek distance) := by
  refine looks_get.bind fun s => ?_
  dsimp only
  split
  · exact looks_present _
  · exact looks_crash

theorem looks_string? (v : Value) : Looks 0 (string? v) := by
  cases v with
  | object id => exact looks_get.bind fun _ => looks_pure _
  | _ => exact looks_pure _

theorem looks_array? (v : Value) : Looks 0 (array? v) := by
  cases v with
  | object id => exact looks_get.bind fun _ => looks_pure _
  | _ => exact looks_pure _

theorem looks_struct? (v : Value) : Looks 0 (struct? v) := by
  cases v with
  | object id => exact looks_get.bind fun _ => looks_pure _
  | _ => exact looks_pure _

theorem looks_function? (v : Value) : Looks 0 (function? v) := by
  cases v with
  | object id => exact looks_get.bind fun _ => looks_pure _
  | _ => exact looks_pure _

theorem looks_topValues (count : Nat) : Looks 0 (topValues count) := by
  refine looks_get.bind fun s => ?_
  dsimp only
  split
  · exact looks_pure _
  · exact looks_crash

theorem looks_topPairs (count : Nat) : Looks 0 (topPairs count) :=
  (looks_topValues _).bind fun _ => looks_get.bind fun _ => looks_pure _

theorem checks_raise {cause : RuntimeCause} (h : cause.Own) : Checks 0 (raise cause : ExecM α) :=
  ⟨fun s => .raised ⟨h, .refl s⟩, fun s => .refl s⟩

theorem atomic_raise {cause : RuntimeCause} (h : cause.Own) : Atomic 0 (raise cause : ExecM α) :=
  ⟨fun s => .raised ⟨h, .refl s⟩, fun s => .refl s⟩

theorem checks_require (op : Opcode) (need : Nat) : Checks 0 (require op need) := by
  refine looks_frame.checks.bind fun f => looks_get.checks.bind fun s => ?_
  split
  · exact checks_raise trivial
  · exact (looks_pure _).checks

theorem checks_elementAt (elements : Array Value) (key : Value) :
    Checks 0 (elementAt elements key) := by
  cases key with
  | int i =>
    rw [elementAt]
    split
    · exact (looks_present _).checks
    · exact checks_raise trivial
  | _ => exact checks_raise trivial

theorem checks_fieldAt (r : Record) (name : Text) : Checks 0 (fieldAt r name) := by
  rw [fieldAt]
  split
  · exact (looks_pure _).checks
  · exact checks_raise trivial

/-- A verification that fails has not changed more than marks, nor has one that succeeds. -/
theorem checks_verifyCallee (id : ObjectId) : Checks 0 (verifyCallee id) := by
  rw [← bind_pure (verifyCallee id)]
  refine ⟨fun s => ?_, fun s => ?_⟩
  · have hverified : s.Untouched 0 { s with memory := (s.memory.verify id).1 } :=
      { Execution.Untouched.refl s with memory := s.memory.unmarked_verify id }
    rw [verifyCallee_bind]
    cases (s.memory.verify id).2 with
    | some e => exact .raised ⟨trivial, hverified⟩
    | none => exact .ok hverified
  · rw [verifyCallee_bind]
    cases (s.memory.verify id).2 <;> exact ⟨rfl, fun h => h⟩

/-- A change of the machine that the result and the limit do not take part in, and that does not
make the stack higher. -/
theorem acts_modifyMachine {change : Machine → Machine}
    (hresult : ∀ m, (change m).result = m.result) (hclosed : ∀ m, (change m).closed = m.closed)
    (hmax : ∀ m, (change m).stackMax = m.stackMax)
    (hstack : ∀ m, (change m).stack.size ≤ m.stack.size) : Acts (modifyMachine change) where
  ends _ := .ok ⟨hresult _, hclosed _⟩
  fits _ := ⟨hmax _, (hstack _).trans⟩

theorem acts_modifyStack {change : Array Value → Array Value}
    (h : ∀ xs, (change xs).size ≤ xs.size) :
    Acts (modifyMachine fun m => { m with stack := change m.stack }) :=
  acts_modifyMachine (fun _ => rfl) (fun _ => rfl) (fun _ => rfl) fun m => h m.stack

theorem acts_modifyFrames (change : List Frame → List Frame) :
    Acts (modifyMachine fun m => { m with frames := change m.frames }) :=
  acts_modifyMachine (fun _ => rfl) (fun _ => rfl) (fun _ => rfl) fun _ => Nat.le_refl _

theorem acts_modifyGlobals (change : Machine → Globals) :
    Acts (modifyMachine fun m => { m with globals := change m }) :=
  acts_modifyMachine (fun _ => rfl) (fun _ => rfl) (fun _ => rfl) fun _ => Nat.le_refl _

theorem acts_modifyPayload (id : ObjectId) (change : Payload → Payload) :
    Acts (modifyPayload id change) := ⟨fun _ => .ok ⟨rfl, rfl⟩, fun _ => ⟨rfl, fun h => h⟩⟩

theorem acts_advance (distance : Int) : Acts (advance distance) :=
  ⟨fun _ => .ok ⟨rfl, rfl⟩, fun _ => ⟨rfl, fun h => h⟩⟩

/-- A value is pushed where there is room for it. -/
theorem push_eq (v : Value) (s : Execution) :
    push v s = if s.machine.stack.size < s.machine.stackMax then
      .ok () { s with machine := { s.machine with stack := s.machine.stack.push v } }
    else .error (.fault .crash) s := by
  split
  · next hroom =>
    rw [← bind_pure (push v), push_bind hroom]
    rfl
  · next hfull =>
    rw [push, get_bind_apply, if_neg hfull]
    rfl

theorem acts_push (v : Value) : Acts (push v) := by
  refine ⟨fun s => ?_, fun s => ?_⟩
  · rw [push_eq]
    split
    · exact .ok ⟨rfl, rfl⟩
    · exact .fault
  · rw [push_eq]
    split
    · next hroom =>
      refine ⟨rfl, fun _ => ?_⟩
      rw [stateAfter, Array.size_push]
      exact hroom
    · exact .refl s

theorem acts_pop : Acts pop :=
  looks_get.acts.bind fun _ => (looks_present _).acts.bind fun _ =>
    (acts_modifyStack fun _ => Array.size_pop ▸ Nat.sub_le _ _).bind fun _ => (looks_pure _).acts

theorem acts_replaceTop (v : Value) : Acts (replaceTop v) := acts_pop.bind fun _ => acts_push v

theorem acts_replaceTwo (v : Value) : Acts (replaceTwo v) :=
  acts_pop.bind fun _ => acts_replaceTop v

theorem acts_shrinkTo (size : Nat) : Acts (shrinkTo size) := by
  have hshrink : Acts (modifyMachine fun m => { m with stack := m.stack.shrink size }) :=
    acts_modifyStack fun xs => Array.size_shrink ▸ Nat.min_le_right _ _
  refine looks_get.acts.bind fun s => ?_
  dsimp only
  split
  · exact hshrink
  · exact looks_crash.acts.bind fun _ => hshrink

theorem acts_dropValues (count : Nat) : Acts (dropValues count) :=
  looks_get.acts.bind fun _ => acts_shrinkTo _

/-- An allocation that fails is a fault. -/
theorem acts_alloc (others : Holdings) (p : Payload) : Acts (alloc others p) := by
  refine ⟨fun s => ?_, fun s => ?_⟩
  · cases hresult : Memory.alloc (s.machine.holdings others) p s.memory with
    | ok id m =>
      rw [alloc_of_ok hresult]
      exact .ok ⟨rfl, rfl⟩
    | error e m =>
      rw [alloc_of_error hresult]
      exact .fault
  · cases hresult : Memory.alloc (s.machine.holdings others) p s.memory with
    | ok id m =>
      rw [alloc_of_ok hresult]
      exact ⟨rfl, fun h => h⟩
    | error e m =>
      rw [alloc_of_error hresult]
      exact ⟨rfl, fun h => h⟩

/-! ### Instructions on values -/

theorem atomic_arithmetic (op : Int64 → Int64 → Value) : Atomic 0 (arithmetic op) := by
  refine (looks_peek 1).bind_atomic fun v => (looks_peek 0).bind_atomic fun w => ?_
  split
  · exact (acts_replaceTwo _).atomic
  · exact atomic_raise trivial

theorem atomic_divide : Atomic 0 divide := by
  refine (looks_peek 1).bind_atomic fun v => (looks_peek 0).bind_atomic fun w => ?_
  split
  · split
    · exact atomic_raise trivial
    · exact (acts_replaceTwo _).atomic
  · exact atomic_raise trivial

theorem atomic_negate : Atomic 0 negate := by
  refine (looks_peek 0).bind_atomic fun v => ?_
  split
  · exact (acts_replaceTop _).atomic
  · exact atomic_raise trivial

theorem atomic_add (others : Holdings) : Atomic 0 (add (alloc others)) := by
  refine (looks_peek 1).bind_atomic fun v => (looks_peek 0).bind_atomic fun w => ?_
  split
  · exact (acts_replaceTwo _).atomic
  · refine (looks_string? _).bind_atomic fun a => (looks_string? _).bind_atomic fun b => ?_
    split
    · exact ((acts_alloc others _).bind fun _ => acts_replaceTwo _).atomic
    · exact atomic_raise trivial

theorem acts_buildArray (others : Holdings) (count : Nat) :
    Acts (buildArray (alloc others) count) :=
  (looks_topValues count).acts.bind fun _ => (acts_alloc others _).bind fun _ =>
    (acts_dropValues count).bind fun _ => acts_push _

/-- The names are checked before the struct is made. -/
theorem atomic_buildStruct (others : Holdings) (count : Nat) :
    Atomic 0 (buildStruct (alloc others) count) := by
  refine (looks_topPairs count).bind_atomic fun named => ?_
  split
  · exact atomic_raise trivial
  · apply Acts.atomic
    exact (acts_alloc others _).bind fun _ => (looks_topPairs count).acts.bind fun _ =>
      (looks_present _).acts.bind fun _ => (acts_modifyPayload _ _).bind fun _ =>
      (acts_dropValues _).bind fun _ => acts_push _

theorem atomic_index : Atomic 0 index := by
  refine (looks_peek 0).bind_atomic fun key => (looks_peek 1).bind_atomic fun container =>
    (looks_array? container).bind_atomic fun elements => ?_
  split
  · exact (checks_elementAt _ key).bind_atomic fun _ => (acts_replaceTwo _).atomic
  · refine (looks_struct? container).bind_atomic fun record => ?_
    split
    · refine (looks_string? key).bind_atomic fun name => ?_
      split
      · exact (checks_fieldAt _ _).bind_atomic fun _ => (acts_replaceTwo _).atomic
      · exact atomic_raise trivial
    · exact atomic_raise trivial

theorem atomic_indexSet : Atomic 0 indexSet := by
  refine (looks_peek 0).bind_atomic fun value => (looks_peek 2).bind_atomic fun container =>
    (looks_array? container).bind_atomic fun elements => ?_
  split
  · exact atomic_raise trivial
  · refine (looks_peek 1).bind_atomic fun key => ?_
    split
    · split
      · exact ((acts_modifyPayload _ _).bind fun _ => acts_pop.bind fun _ =>
          acts_replaceTwo _).atomic
      · exact atomic_raise trivial
    · exact atomic_raise trivial

theorem atomic_getField (name : Text) : Atomic 0 (getField name) := by
  refine (looks_peek 0).bind_atomic fun v => (looks_struct? v).bind_atomic fun record => ?_
  split
  · exact (checks_fieldAt _ name).bind_atomic fun _ => (acts_replaceTop _).atomic
  · exact atomic_raise trivial

theorem atomic_setField (name : Text) : Atomic 0 (setField name) := by
  refine (looks_peek 0).bind_atomic fun value => (looks_peek 1).bind_atomic fun v =>
    (looks_struct? v).bind_atomic fun record => ?_
  split
  · exact atomic_raise trivial
  · exact ((acts_modifyPayload _ _).bind fun _ => acts_replaceTwo _).atomic

theorem atomic_length : Atomic 0 length := by
  refine (looks_peek 0).bind_atomic fun v => ?_
  split
  · refine looks_get.bind_atomic fun s => ?_
    split
    · exact (acts_replaceTop _).atomic
    · exact atomic_raise trivial
  · exact atomic_raise trivial

theorem atomic_arrayPush : Atomic 0 arrayPush := by
  refine (looks_peek 0).bind_atomic fun element => (looks_peek 1).bind_atomic fun v =>
    (looks_array? v).bind_atomic fun elements => ?_
  split
  · exact atomic_raise trivial
  · exact ((acts_modifyPayload _ _).bind fun _ => acts_replaceTwo _).atomic

theorem atomic_arrayPop : Atomic 0 arrayPop := by
  refine (looks_peek 0).bind_atomic fun v => (looks_array? v).bind_atomic fun elements => ?_
  split
  · exact atomic_raise trivial
  · exact atomic_raise trivial
  · exact ((acts_modifyPayload _ _).bind fun _ => acts_replaceTop _).atomic

theorem acts_typeOf (others : Holdings) : Acts (typeOf (alloc others)) :=
  (looks_peek 0).acts.bind fun _ => looks_get.acts.bind fun _ =>
    (acts_alloc others _).bind fun _ => acts_replaceTop _

theorem acts_appendNames (others : Holdings) (id : ObjectId) (names : List Text) :
    Acts (appendNames (alloc others) id names) := by
  induction names with
  | nil => exact (looks_pure _).acts
  | cons name rest ih =>
    exact (acts_alloc others _).bind fun _ => (acts_modifyPayload _ _).bind fun _ => ih

theorem atomic_keys (others : Holdings) : Atomic 0 (keys (alloc others)) := by
  refine (looks_peek 0).bind_atomic fun v => (looks_struct? v).bind_atomic fun record => ?_
  split
  · exact atomic_raise trivial
  · apply Acts.atomic
    exact (acts_alloc others _).bind fun _ => (acts_push _).bind fun _ =>
      looks_get.acts.bind fun _ => (looks_present _).acts.bind fun _ =>
      (acts_appendNames others _ _).bind fun _ => acts_replaceTwo _

theorem atomic_values (others : Holdings) : Atomic 0 (values (alloc others)) := by
  refine (looks_peek 0).bind_atomic fun v => (looks_struct? v).bind_atomic fun record => ?_
  split
  · exact atomic_raise trivial
  · exact ((acts_alloc others _).bind fun _ => acts_replaceTop _).atomic

theorem atomic_contains : Atomic 0 contains := by
  refine (looks_peek 0).bind_atomic fun needle => (looks_peek 1).bind_atomic fun container =>
    (looks_array? container).bind_atomic fun elements => ?_
  split
  · exact (looks_get.acts.bind fun _ => acts_replaceTwo _).atomic
  · refine (looks_struct? container).bind_atomic fun record => ?_
    split
    · exact ((looks_string? needle).acts.bind fun _ => acts_replaceTwo _).atomic
    · exact atomic_raise trivial

theorem acts_input (others : Holdings) : Acts (input (alloc others)) := by
  refine Acts.bind ⟨fun _ => .ok ⟨rfl, rfl⟩, fun _ => ⟨rfl, fun h => h⟩⟩ fun line => ?_
  split
  · exact acts_push _
  · exact (acts_alloc others _).bind fun _ => acts_push _

/-! ### Whole instructions -/

theorem atomic_getLocal : Atomic 1 getLocal := by
  refine looks_operand.bind_atomic fun slot => looks_get.bind_atomic fun s =>
    looks_frame.bind_atomic fun f => ?_
  split
  · exact (acts_push _).atomic
  · exact atomic_raise trivial

theorem atomic_setLocal : Atomic 1 setLocal := by
  refine looks_operand.bind_atomic fun slot => looks_frame.bind_atomic fun f =>
    looks_get.bind_atomic fun s => ?_
  have hcopy : Acts (peek 0 >>= fun v => modifyMachine fun m =>
      { m with stack := m.stack.setIfInBounds (f.base + slot) v }) :=
    (looks_peek 0).acts.bind fun _ =>
      acts_modifyStack fun _ => Nat.le_of_eq Array.size_setIfInBounds
  split
  · exact Atomic.bind (atomic_raise trivial) fun _ => hcopy
  · exact hcopy.atomic

theorem atomic_getGlobal : Atomic 1 getGlobal := by
  refine looks_nameOperand.bind_atomic fun name => ⟨fun s => ?_, fun s => ?_⟩
  · rw [bind_apply, modifyGet_apply]
    dsimp only
    cases hget : (s.machine.globals.get name).1 with
    | some v =>
      exact ((acts_push v).ends _).mono (fun _ _ ht => ⟨ht.result, ht.closed⟩)
        fun _ _ hfalse => hfalse.elim
    | none =>
      rw [Globals.get_none hget]
      exact .raised ⟨trivial, .refl s⟩
  · rw [bind_apply, modifyGet_apply]
    dsimp only
    cases (s.machine.globals.get name).1 with
    | some v =>
      have hpush := (acts_push v).fits
        { s with machine := { s.machine with globals := (s.machine.globals.get name).2 } }
      exact ⟨hpush.stackMax, hpush.depth⟩
    | none => exact ⟨rfl, fun h => h⟩

theorem atomic_setGlobal : Atomic 1 setGlobal := by
  refine looks_nameOperand.bind_atomic fun name => (looks_peek 0).bind_atomic fun v =>
    looks_get.bind_atomic fun s => ?_
  split
  · exact (acts_modifyGlobals fun _ => _).atomic
  · exact atomic_raise trivial

theorem acts_jumpIfFalse : Acts jumpIfFalse := by
  refine looks_wideOperand.acts.bind fun distance => (looks_peek 0).acts.bind fun v => ?_
  split
  · exact acts_advance _
  · exact (looks_pure _).acts

/-- All that a call has to check comes before the frame is made. -/
theorem atomic_call : Atomic 1 call := by
  refine looks_operand.bind_atomic fun argc => (checks_require _ _).bind_atomic fun _ =>
    (looks_peek _).bind_atomic fun v => (looks_function? v).bind_atomic fun callee => ?_
  split
  · exact atomic_raise trivial
  · next id fn =>
    have hcall : Atomic 0 (do
        verifyCallee id
        let base := (← get).machine.stack.size - argc - 1
        modifyMachine fun m => { m with frames := ⟨id, 0, base⟩ :: m.frames }
        let _ ← chunk) := by
      refine (checks_verifyCallee id).bind_atomic fun _ => Acts.atomic ?_
      exact looks_get.acts.bind fun _ => (acts_modifyFrames fun _ => _).bind fun _ =>
        looks_chunk.acts.bind fun _ => (looks_pure _).acts
    have hfree : Atomic 0 (do
        let m := (← get).machine
        if m.maxFrames ≤ m.frames.length then raise .frameOverflow
        verifyCallee id
        let base := (← get).machine.stack.size - argc - 1
        modifyMachine fun m => { m with frames := ⟨id, 0, base⟩ :: m.frames }
        let _ ← chunk) := by
      refine looks_get.bind_atomic fun s => ?_
      dsimp only
      split
      · exact Checks.bind_atomic (checks_raise trivial) fun _ => hcall
      · exact hcall
    dsimp only
    split
    · exact Checks.bind_atomic (checks_raise trivial) fun _ => hfree
    · exact hfree

theorem atomic_execute (others : Holdings) (op : Opcode) :
    Atomic (min 1 op.operandCount) (execute (alloc others) op) := by
  cases op with
  | call => exact atomic_call
  | ret => exact (looks_pure _).acts.atomic
  | constant => exact (looks_constantOperand.acts.bind fun _ => acts_push _).atomic
  | pushNil => exact (acts_push _).atomic
  | pushTrue => exact (acts_push _).atomic
  | pushFalse => exact (acts_push _).atomic
  | pop => exact (acts_pop.bind fun _ => (looks_pure _).acts).atomic
  | getLocal => exact atomic_getLocal
  | setLocal => exact atomic_setLocal
  | getGlobal => exact atomic_getGlobal
  | defineGlobal =>
    apply Acts.atomic
    exact looks_nameOperand.acts.bind fun _ => acts_pop.bind fun _ => acts_modifyGlobals _
  | setGlobal => exact atomic_setGlobal
  | equal =>
    exact (acts_pop.bind fun _ => acts_pop.bind fun _ => looks_get.acts.bind fun _ =>
      acts_push _).atomic
  | greater => exact atomic_arithmetic _
  | less => exact atomic_arithmetic _
  | add => exact atomic_add others
  | subtract => exact atomic_arithmetic _
  | multiply => exact atomic_arithmetic _
  | divide => exact atomic_divide
  | logicalNot => exact (acts_pop.bind fun _ => acts_push _).atomic
  | negate => exact atomic_negate
  | print =>
    apply Acts.atomic
    exact acts_pop.bind fun _ => looks_get.acts.bind fun _ =>
      ⟨fun _ => .ok ⟨rfl, rfl⟩, fun _ => ⟨rfl, fun h => h⟩⟩
  | jump => exact (looks_wideOperand.acts.bind fun _ => acts_advance _).atomic
  | jumpIfFalse => exact acts_jumpIfFalse.atomic
  | loop => exact (looks_wideOperand.acts.bind fun _ => acts_advance _).atomic
  | buildArray =>
    exact looks_operand.bind_atomic fun _ => (checks_require _ _).bind_atomic fun _ =>
      (acts_buildArray others _).atomic
  | index => exact atomic_index
  | indexSet => exact atomic_indexSet
  | buildStruct =>
    exact looks_operand.bind_atomic fun _ => (checks_require _ _).bind_atomic fun _ =>
      atomic_buildStruct others _
  | getField => exact looks_nameOperand.bind_atomic fun _ => atomic_getField _
  | setField => exact looks_nameOperand.bind_atomic fun _ => atomic_setField _
  | length => exact atomic_length
  | arrayPush => exact atomic_arrayPush
  | arrayPop => exact atomic_arrayPop
  | typeOf => exact (acts_typeOf others).atomic
  | keys => exact atomic_keys others
  | values => exact atomic_values others
  | contains => exact atomic_contains
  | input => exact (acts_input others).atomic

theorem checks_demand (op : Opcode) : Checks 0 (demand op) := by
  rw [demand]
  split
  · exact (looks_pure _).checks
  · exact (looks_pure _).checks
  · exact checks_require op _

/-- Raises no error, and leaves the result alone unless it is the end of an interpretation. -/
def Proceeds (x : ExecM Progress) : Prop :=
  Course (fun s progress t => progress = .running → s.Running t) (fun _ _ _ => False) x

theorem Acts.bind_proceeds {f : α → ExecM Progress} (hx : Acts x) (hf : ∀ a, Proceeds (f a)) :
    Proceeds (x >>= f) :=
  Course.bind hx hf (fun ht hu hrunning => ht.trans (hu hrunning)) id fun _ hfalse => hfalse

theorem Acts.proceeds {x : ExecM Progress} (h : Acts x) : Proceeds x :=
  Course.mono h (fun ht _ => ht) id

theorem proceeds_ret : Proceeds ret := by
  refine acts_pop.bind_proceeds fun v => looks_frame.acts.bind_proceeds fun f =>
    (acts_modifyFrames _).bind_proceeds fun _ => looks_get.acts.bind_proceeds fun s => ?_
  split
  · refine (acts_shrinkTo 0).bind_proceeds fun _ => ?_
    -- The result is set here, and nothing goes on from it.
    have hpush : Course (fun _ progress _ => progress = .finished) (fun _ _ _ => False)
        (push v >>= fun _ => pure Progress.finished) :=
      Course.bind (acts_push v) (fun _ => ⟨fun _ => .ok rfl, fun s => .refl s⟩)
        (fun _ hfinished => hfinished) id fun _ hfalse => hfalse
    refine ⟨fun t => ?_, fun t => ?_⟩
    · refine (hpush.ends _).mono (fun _ _ hfinished hrunning => ?_) fun _ _ hfalse => hfalse
      cases hfinished.symm.trans hrunning
    · have hfits := hpush.fits { t with machine := { t.machine with result := v } }
      exact ⟨hfits.stackMax, hfits.depth⟩
  · apply Acts.proceeds
    exact (acts_shrinkTo _).bind fun _ => (acts_push _).bind fun _ => (looks_pure _).acts

/-- Raises an error only before it changes anything, and leaves the result alone unless it is
the end of an interpretation. -/
def Steps (n : Nat) (x : ExecM Progress) : Prop :=
  Course (fun s progress t => progress = .running → s.Running t)
    (fun s cause t => cause.Own ∧ s.Untouched n t) x

theorem Checks.bind_steps {f : α → ExecM Progress} (hx : Checks 0 x) (hf : ∀ a, Steps n (f a)) :
    Steps n (x >>= f) :=
  Course.bind hx hf (fun ht hu hrunning => ht.running.trans (hu hrunning))
    (.imp_right (·.mono (Nat.zero_le n))) fun ht => .imp_right ht.trans_start

theorem Proceeds.steps {x : ExecM Progress} (h : Proceeds x) : Steps n x :=
  Course.mono h id False.elim

theorem Atomic.steps {x : ExecM Progress} (h : Atomic n x) : Steps n x :=
  Course.mono h (fun ht _ => ht) id

theorem steps_perform (others : Holdings) (op : Opcode) :
    Steps (min 1 op.operandCount) (perform (alloc others) op) := by
  rw [perform]
  split
  · exact proceeds_ret.steps
  · exact ((atomic_execute others op).bind fun _ => (looks_pure _).acts).steps

end Exec

/-! ### Before an instruction -/

/-- How an instruction raises an error.  The end of the code and a full stack are found before its
opcode is read.  Otherwise the opcode has been read when the error is raised, and at most one
operand. -/
inductive Execution.Fails (s : Execution) : RuntimeCause → Execution → Prop
  | pastEnd {f : Frame} {callers : List Frame} {c : Chunk} {fn : Function} :
      s.machine.frames = f :: callers →
      (s.memory.function? f.function).bind s.memory.chunkOf? = some c → c.code.size ≤ f.ip →
      s.memory.function? f.function = some fn → Fails s (.ranPastEnd fn.displayName) s
  | full {f : Frame} {callers : List Frame} {c : Chunk} : s.machine.frames = f :: callers →
      (s.memory.function? f.function).bind s.memory.chunkOf? = some c → f.ip < c.code.size →
      s.machine.stackMax ≤ s.machine.stack.size → Fails s .operandOverflow s
  | unknown {f : Frame} {callers : List Frame} {c : Chunk} {n : Nat} {byte : UInt8}
      {err : Array UInt8} : s.Executes f callers c n → c.code[n]? = some byte →
      Opcode.ofByte? byte = none →
      Fails s (.unknownOpcode byte) { s with err, machine := s.machine.ahead 1 }
  | own {f : Frame} {callers : List Frame} {c : Chunk} {n : Nat} {byte : UInt8} {op : Opcode}
      {err : Array UInt8} {cause : RuntimeCause} {t : Execution} : s.Executes f callers c n →
      c.code[n]? = some byte → Opcode.ofByte? byte = some op → cause.Own →
      { s with err, machine := s.machine.ahead 1 }.Untouched (min 1 op.operandCount) t →
      Fails s cause t

namespace Exec

/-- Where there is code to execute, a full stack is found. -/
theorem fetch_full {s : Execution} {f : Frame} {callers : List Frame} {c : Chunk}
    (hframes : s.machine.frames = f :: callers)
    (hcode : (s.memory.function? f.function).bind s.memory.chunkOf? = some c)
    (hinside : f.ip < c.code.size) (hfull : s.machine.stackMax ≤ s.machine.stack.size) :
    fetch s = .error (.raised .operandOverflow) s := by
  rw [fetch, frame_bind hframes, chunk_bind hframes hcode, if_neg (Int.not_le.2 hinside)]
  simp only [get_bind_apply, if_pos hfull]
  rfl

/-- The opcode is read where there is code to execute and room for one more value. -/
theorem fetch_cases (s : Execution) :
    fetch s = .error (.fault .crash) s ∨
    (∃ cause, s.Fails cause s ∧ fetch s = .error (.raised cause) s) ∨
    ∃ f callers c n byte err, s.Executes f callers c n ∧ c.code[n]? = some byte ∧
      fetch s = .ok byte { s with err, machine := s.machine.ahead 1 } := by
  rcases hframes : s.machine.frames with _ | ⟨f, callers⟩
  · left
    rw [fetch, frame]
    simp only [bind_assoc, get_bind_apply, hframes]
    rfl
  cases hcode : (s.memory.function? f.function).bind s.memory.chunkOf? with
  | none =>
    left
    rw [fetch, frame_bind hframes, chunk]
    simp only [bind_assoc, frame_bind hframes, get_bind_apply, hcode]
    rfl
  | some c =>
    by_cases hend : (c.code.size : Int) ≤ f.ip
    · obtain ⟨fn, hfn, -⟩ := Option.bind_eq_some_iff.1 hcode
      refine Or.inr (Or.inl ⟨_, .pastEnd hframes hcode hend hfn, ?_⟩)
      rw [fetch, frame_bind hframes, chunk_bind hframes hcode, if_pos hend, get_bind_apply, hfn]
      rfl
    have hinside := Int.not_le.1 hend
    by_cases hfull : s.machine.stackMax ≤ s.machine.stack.size
    · exact Or.inr (Or.inl ⟨_, .full hframes hcode hinside hfull,
        fetch_full hframes hcode hinside hfull⟩)
    by_cases hnegative : f.ip < 0
    · left
      rw [fetch, frame_bind hframes, chunk_bind hframes hcode, if_neg hend]
      simp only [get_bind_apply, if_neg hfull, byteAt, if_pos hnegative]
      rfl
    · obtain ⟨n, hn⟩ : ∃ n : Nat, f.ip = n := ⟨f.ip.toNat, by omega⟩
      have hlt : n < c.code.size := by omega
      have hbyte := Array.getElem?_eq_getElem hlt
      have hexecutes : s.Executes f callers c n := ⟨hframes, hn, hcode⟩
      obtain ⟨err, hfetch⟩ := hexecutes.fetch hbyte (Nat.not_le.1 hfull)
      have hahead : (⟨s.memory, s.machine, s.input, s.out, err⟩ : Execution).withFrames
          (f.ahead 1 :: callers) = { s with err, machine := s.machine.ahead 1 } := by
        rw [Execution.withFrames, Machine.ahead, hframes]
        rfl
      rw [hahead] at hfetch
      exact Or.inr (Or.inr ⟨f, callers, c, n, _, err, hexecutes, hbyte, hfetch⟩)

/-- An instruction that raises an error has done nothing but move on behind its operand, and
however it ends the stack is within its limit. -/
theorem course_step (others : Holdings) :
    Course (fun s progress t => progress = .running → s.Running t) Execution.Fails
      (step (alloc others)) := by
  have hrest : ∀ op, Steps (min 1 op.operandCount)
      (demand op >>= fun _ => perform (alloc others) op) :=
    fun op => (checks_demand op).bind_steps fun _ => steps_perform others op
  have hahead : ∀ (s : Execution) (err : Array UInt8),
      s.Running { s with err, machine := s.machine.ahead 1 } ∧
        s.Fits { s with err, machine := s.machine.ahead 1 } :=
    fun _ _ => ⟨⟨rfl, rfl⟩, ⟨rfl, fun h => h⟩⟩
  rw [step_eq]
  refine ⟨fun s => ?_, fun s => ?_⟩
  · rw [bind_apply]
    obtain hfetch | ⟨cause, hfails, hfetch⟩ | ⟨f, callers, c, n, byte, err, hs, hbyte, hfetch⟩ :=
      fetch_cases s
    · rw [hfetch]
      exact .fault
    · rw [hfetch]
      exact .raised hfails
    · rw [hfetch]
      dsimp only
      cases hop : Opcode.ofByte? byte with
      | none => exact .raised (.unknown hs hbyte hop)
      | some op =>
        exact ((hrest op).ends _).mono (fun _ _ hu hrunning => (hahead s err).1.trans (hu hrunning))
          fun _ _ hu => .own hs hbyte hop hu.1 hu.2
  · rw [bind_apply]
    obtain hfetch | ⟨cause, -, hfetch⟩ | ⟨f, callers, c, n, byte, err, -, -, hfetch⟩ :=
      fetch_cases s
    · rw [hfetch]
      exact .refl s
    · rw [hfetch]
      exact .refl s
    · rw [hfetch]
      dsimp only
      cases Opcode.ofByte? byte with
      | none => exact (hahead s err).2
      | some op => exact (hahead s err).2.trans ((hrest op).fits _)

end Exec

theorem Execution.Fails.untouched {s t : Execution} {cause : RuntimeCause} (h : s.Fails cause t) :
    s.Untouched 2 t := by
  have hfetched : ∀ err, s.Untouched 1 { s with err, machine := s.machine.ahead 1 } :=
    fun _ => ⟨rfl, ⟨1, Nat.le_refl 1, rfl⟩, rfl, rfl⟩
  cases h with
  | pastEnd => exact (Execution.Untouched.refl s).mono (Nat.zero_le 2)
  | full => exact (Execution.Untouched.refl s).mono (Nat.zero_le 2)
  | unknown => exact (hfetched _).mono (Nat.le_succ 1)
  | own _ _ _ _ hu =>
    exact ((hfetched _).trans hu).mono (Nat.add_le_add_left (Nat.min_le_left 1 _) 1)

/-- What has been done by the end of an instruction, or by the time it raises an error. -/
theorem Exec.steps_step (others : Holdings) (s : Execution) :
    Ends (fun progress t => progress = .running → s.Running t) (fun _ t => s.Untouched 2 t)
      (step (alloc others) s) :=
  ((course_step others).ends s).mono (fun _ _ ht => ht) fun _ _ ht => ht.untouched

theorem Execution.fails_of_raised {others : Holdings} {s t : Execution} {cause : RuntimeCause}
    (h : Exec.step (Exec.alloc others) s = .error (.raised cause) t) : s.Fails cause t := by
  have hends := (Exec.course_step others).ends s
  rw [h] at hends
  cases hends with
  | raised hfails => exact hfails

end StackVm
