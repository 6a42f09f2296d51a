/-
What an instruction works on.  While an instruction runs its frame stays, with its code
and its callers; the stack grows and shrinks by known amounts, and nothing outside the
scope of the program comes into reach.  There is one rule for each small step.
-/
import StackVm.Proofs.Evolution
import StackVm.Proofs.TwinAllocation

namespace StackVm

open List (Forall₂)

/-- The objects a program can come to: those known at its start, and those made later. -/
structure Scope where
  known : ObjectId → Prop
  size : Nat

namespace Scope

/-- The object is in the scope. -/
def Has (scope : Scope) (id : ObjectId) : Prop := scope.known id ∨ scope.size ≤ id

/-- Every object of the scope stands for itself. -/
def same (scope : Scope) : Pairing := fun i j => i = j ∧ scope.Has i

end Scope

/-- Everything held, and everything that objects of the scope refer to, is in the scope. -/
structure Execution.Within (scope : Scope) (s : Execution) : Prop where
  memory : s.memory.Like scope.same s.memory
  machine : s.machine.Like scope.same s.machine
  grown : scope.size ≤ s.memory.objects.size

/-- What stays while an instruction runs. -/
structure Stage where
  scope : Scope
  /-- The memory before the instruction. -/
  memory : Memory
  function : ObjectId
  chunk : Chunk
  base : Nat
  callers : List Frame
  stackMax : Nat

namespace Stage

/-- The innermost frame is at `ip`, and `depth` values are on the stack. -/
structure At (g : Stage) (ip depth : Nat) (s : Execution) : Prop where
  within : s.Within g.scope
  evolves : g.memory.Evolves s.memory
  code : (s.memory.function? g.function).bind s.memory.chunkOf? = some g.chunk
  frames : s.machine.frames = ⟨g.function, ip, g.base⟩ :: g.callers
  stackMax : s.machine.stackMax = g.stackMax
  depth : s.machine.stack.size = depth

/-- The value refers to nothing outside the scope. -/
abbrev Covers (g : Stage) (v : Value) : Prop := v.Like g.scope.same v

end Stage

/-- The ways to stop that are no failure of the machine itself: a runtime error other than
an unknown opcode, and the faults of allocations. -/
inductive Stop.Harmless : Stop → Prop
  | raised {cause : RuntimeCause} : (∀ byte, cause ≠ .unknownOpcode byte) →
      Harmless (.raised cause)
  | fault {f : Fault} : f.FromAllocation → Harmless (.fault f)

/-- A computation ends as `post` says, or stops harmlessly. -/
inductive Meets {α : Type} (post : α → Execution → Prop) :
    EStateM.Result Stop Execution α → Prop
  | ok {a : α} {s : Execution} : post a s → Meets post (.ok a s)
  | stop {e : Stop} {s : Execution} : e.Harmless → Meets post (.error e s)

section

variable {α β : Type} {post : α → Execution → Prop} {mid : β → Execution → Prop}
  {s : Execution}

theorem Meets.bind {x : ExecM β} {f : β → ExecM α} (h : Meets mid (x s))
    (hnext : ∀ b s', mid b s' → Meets post (f b s')) : Meets post ((x >>= f) s) := by
  rw [bind_apply]
  revert h
  generalize x s = r
  intro h
  cases h with
  | ok hmid => exact hnext _ _ hmid
  | stop he => exact .stop he

theorem Meets.mono {weaker : α → Execution → Prop} {r : EStateM.Result Stop Execution α}
    (h : Meets post r) (himp : ∀ a s', post a s' → weaker a s') : Meets weaker r := by
  cases h with
  | ok hpost => exact .ok (himp _ _ hpost)
  | stop he => exact .stop he

theorem meets_raise {cause : RuntimeCause} (h : ∀ byte, cause ≠ .unknownOpcode byte) :
    Meets post ((Exec.raise cause : ExecM α) s) := .stop (.raised h)

theorem present_bind (b : β) (f : β → ExecM α) (s : Execution) :
    (Exec.present (some b) >>= f) s = f b s := rfl

theorem push_bind (hroom : s.machine.stack.size < s.machine.stackMax) (v : Value)
    (f : Unit → ExecM α) : (Exec.push v >>= f) s =
      f () { s with machine := { s.machine with stack := s.machine.stack.push v } } := by
  rw [Exec.push, bind_assoc, get_bind_apply, if_pos hroom]
  rfl

theorem shrinkTo_bind {size : Nat} (hsize : size ≤ s.machine.stack.size) (f : Unit → ExecM α) :
    (Exec.shrinkTo size >>= f) s =
      f () { s with machine := { s.machine with stack := s.machine.stack.shrink size } } := by
  rw [Exec.shrinkTo, bind_assoc, get_bind_apply, if_pos hsize]
  rfl

theorem rel_self {γ : Type} {r : γ → γ → Prop} {a : Option γ} (h : Option.Rel r a a) {x : γ}
    (hx : a = some x) : r x x := by
  subst hx
  cases h with
  | some hxx => exact hxx

end

namespace Stage.At

variable {g : Stage} {ip depth : Nat} {s : Execution} {α : Type}
  {post : α → Execution → Prop}

/-! ### Changing one thing -/

theorem with_machine (h : g.At ip depth s) {a : Machine} {ip' depth' : Nat}
    (hlike : a.Like g.scope.same a)
    (hframes : a.frames = ⟨g.function, ip', g.base⟩ :: g.callers)
    (hmax : a.stackMax = s.machine.stackMax) (hdepth : a.stack.size = depth') :
    g.At ip' depth' { s with machine := a } where
  within := { h.within with machine := hlike }
  evolves := h.evolves
  code := h.code
  frames := hframes
  stackMax := hmax.trans h.stackMax
  depth := hdepth

theorem with_streams (h : g.At ip depth s) (input : Text) (out err : Array UInt8) :
    g.At ip depth { s with input, out, err } where
  within := { h.within with }
  evolves := h.evolves
  code := h.code
  frames := h.frames
  stackMax := h.stackMax
  depth := h.depth

theorem with_memory (h : g.At ip depth s) {m : Memory} (hlike : m.Like g.scope.same m)
    (hevolves : s.memory.Evolves m) : g.At ip depth { s with memory := m } where
  within := { h.within with
    memory := hlike
    grown := Nat.le_trans h.within.grown hevolves.size }
  evolves := h.evolves.trans hevolves
  code := hevolves.code h.code
  frames := h.frames
  stackMax := h.stackMax
  depth := h.depth

theorem with_stack (h : g.At ip depth s) {xs : Array Value} {depth' : Nat}
    (hxs : Rows (Value.Like g.scope.same) xs xs) (hdepth : xs.size = depth') :
    g.At ip depth' { s with machine := { s.machine with stack := xs } } :=
  h.with_machine { h.within.machine with stack := hxs } h.frames rfl hdepth

theorem with_globals (h : g.At ip depth s) {a : Globals} (ha : a.Like g.scope.same a) :
    g.At ip depth { s with machine := { s.machine with globals := a } } :=
  h.with_machine { h.within.machine with globals := ha } h.frames rfl h.depth

/-! ### Reading the state -/

theorem frame_bind (h : g.At ip depth s) (f : Frame → ExecM α) :
    (Exec.frame >>= f) s = f ⟨g.function, ip, g.base⟩ s := by
  rw [Exec.frame, bind_assoc, get_bind_apply, h.frames]
  rfl

theorem chunk_bind (h : g.At ip depth s) (f : Chunk → ExecM α) :
    (Exec.chunk >>= f) s = f g.chunk s := by
  rw [Exec.chunk, bind_assoc, h.frame_bind, bind_assoc, get_bind_apply, h.code]
  rfl

theorem bind_peek (h : g.At ip depth s) {distance : Nat} (hdistance : distance < depth)
    {f : Value → ExecM α} (hnext : ∀ v, g.Covers v → Meets post (f v s)) :
    Meets post ((Exec.peek distance >>= f) s) := by
  have hvalue := h.within.machine.stack.getElem? (s.machine.stack.size - 1 - distance)
  have hlt : s.machine.stack.size - 1 - distance < s.machine.stack.size := by
    rw [h.depth]
    omega
  rw [Exec.peek, bind_assoc, get_bind_apply, if_pos (h.depth ▸ hdistance),
    Array.getElem?_eq_getElem hlt]
  exact hnext _ (rel_self hvalue (Array.getElem?_eq_getElem hlt))

theorem bind_string? (v : Value) {f : Option Text → ExecM α}
    (hnext : ∀ a, Meets post (f a s)) : Meets post ((Exec.string? v >>= f) s) := by
  cases v <;> exact hnext _

theorem bind_array? (h : g.At ip depth s) {v : Value} (hv : g.Covers v)
    {f : Option (ObjectId × Array Value) → ExecM α} (hnone : Meets post (f none s))
    (hsome : ∀ id xs, g.scope.Has id → Rows (Value.Like g.scope.same) xs xs →
      Meets post (f (some (id, xs)) s)) :
    Meets post ((Exec.array? v >>= f) s) := by
  cases v with
  | object id =>
    cases hv with
    | object hid =>
      cases hxs : s.memory.array? id with
      | none =>
        rw [Exec.array?, bind_assoc, get_bind_apply, hxs]
        exact hnone
      | some xs =>
        rw [Exec.array?, bind_assoc, get_bind_apply, hxs]
        exact hsome id xs hid.2 (rel_self (h.within.memory.array? hid) hxs)
  | _ => exact hnone

theorem bind_struct? (h : g.At ip depth s) {v : Value} (hv : g.Covers v)
    {f : Option (ObjectId × Record) → ExecM α} (hnone : Meets post (f none s))
    (hsome : ∀ id r, g.scope.Has id → r.Like g.scope.same r → s.memory.struct? id = some r →
      Meets post (f (some (id, r)) s)) :
    Meets post ((Exec.struct? v >>= f) s) := by
  cases v with
  | object id =>
    cases hv with
    | object hid =>
      cases hr : s.memory.struct? id with
      | none =>
        rw [Exec.struct?, bind_assoc, get_bind_apply, hr]
        exact hnone
      | some r =>
        rw [Exec.struct?, bind_assoc, get_bind_apply, hr]
        exact hsome id r hid.2 (rel_self (h.within.memory.struct? hid) hr) hr
  | _ => exact hnone

theorem bind_function? {v : Value} (hv : g.Covers v)
    {f : Option (ObjectId × Function) → ExecM α} (hnone : Meets post (f none s))
    (hsome : ∀ id fn, g.scope.Has id → s.memory.function? id = some fn →
      Meets post (f (some (id, fn)) s)) :
    Meets post ((Exec.function? v >>= f) s) := by
  cases v with
  | object id =>
    cases hv with
    | object hid =>
      cases hfn : s.memory.function? id with
      | none =>
        rw [Exec.function?, bind_assoc, get_bind_apply, hfn]
        exact hnone
      | some fn =>
        rw [Exec.function?, bind_assoc, get_bind_apply, hfn]
        exact hsome id fn hid.2 hfn
  | _ => exact hnone

/-! ### Changing the stack -/

theorem bind_pop (h : g.At ip (depth + 1) s) {f : Value → ExecM α}
    (hnext : ∀ v s', g.At ip depth s' → g.Covers v → Meets post (f v s')) :
    Meets post ((Exec.pop >>= f) s) := by
  have hlt : s.machine.stack.size - 1 < s.machine.stack.size := by
    rw [h.depth]
    omega
  have hback : s.machine.stack.back? = some s.machine.stack[s.machine.stack.size - 1] := by
    rw [Array.back?_eq_getElem?, Array.getElem?_eq_getElem hlt]
  have hpopped : s.machine.stack.pop.size = depth := by
    rw [Array.size_pop, h.depth, Nat.add_sub_cancel]
  rw [Exec.pop, bind_assoc, get_bind_apply, hback]
  exact hnext _ _ (h.with_stack h.within.machine.stack.pop hpopped)
    (rel_self h.within.machine.stack.back? hback)

theorem bind_push (h : g.At ip depth s) (hroom : depth < g.stackMax) {v : Value}
    (hv : g.Covers v) {f : Unit → ExecM α}
    (hnext : ∀ s', g.At ip (depth + 1) s' → s'.memory = s.memory → Meets post (f () s')) :
    Meets post ((Exec.push v >>= f) s) := by
  have hpushed : (s.machine.stack.push v).size = depth + 1 := by
    rw [Array.size_push, h.depth]
  rw [push_bind (by rw [h.depth, h.stackMax]; exact hroom)]
  exact hnext _ (h.with_stack (h.within.machine.stack.push hv) hpushed) rfl

theorem push (h : g.At ip depth s) (hroom : depth < g.stackMax) {v : Value}
    (hv : g.Covers v) : Meets (fun _ s' => g.At ip (depth + 1) s') (Exec.push v s) := by
  rw [← bind_pure (Exec.push v)]
  exact h.bind_push hroom hv fun s' h _ => .ok h

theorem replaceTop (h : g.At ip (depth + 1) s) (hroom : depth < g.stackMax) {v : Value}
    (hv : g.Covers v) : Meets (fun _ s' => g.At ip (depth + 1) s') (Exec.replaceTop v s) :=
  h.bind_pop fun _ _ h _ => h.push hroom hv

theorem replaceTwo (h : g.At ip (depth + 2) s) (hroom : depth < g.stackMax) {v : Value}
    (hv : g.Covers v) : Meets (fun _ s' => g.At ip (depth + 1) s') (Exec.replaceTwo v s) :=
  h.bind_pop fun _ _ h _ => h.replaceTop hroom hv

theorem bind_shrinkTo (h : g.At ip depth s) {size : Nat} (hsize : size ≤ depth)
    {f : Unit → ExecM α} (hnext : ∀ s', g.At ip size s' → Meets post (f () s')) :
    Meets post ((Exec.shrinkTo size >>= f) s) := by
  have hshrunk : (s.machine.stack.shrink size).size = size := by
    rw [Array.size_shrink, h.depth]
    omega
  rw [shrinkTo_bind (h.depth.symm ▸ hsize)]
  exact hnext _ (h.with_stack (h.within.machine.stack.shrink size) hshrunk)

theorem advance (h : g.At ip depth s) {n : Int} {target : Nat} (htarget : (ip : Int) + n = target) :
    Meets (fun _ s' => g.At target depth s') (Exec.advance n s) := by
  have hframes : Forall₂ (Frame.Like g.scope.same)
      (⟨g.function, target, g.base⟩ :: g.callers) (⟨g.function, target, g.base⟩ :: g.callers) := by
    have hlike := h.within.machine.frames
    rw [h.frames] at hlike
    cases hlike with
    | cons htop hcallers => exact .cons ⟨htop.function, rfl, rfl⟩ hcallers
  have hmoved : Exec.advance n s = .ok ⟨⟩ { s with
      machine := { s.machine with
        frames := ⟨g.function, target, g.base⟩ :: g.callers } } := by
    rw [Exec.advance, Exec.modifyFrame, Exec.modifyMachine, modify_apply]
    simp only [h.frames, htarget]
  rw [hmoved]
  exact .ok (h.with_machine { h.within.machine with frames := hframes } rfl rfl h.depth)

/-! ### Changing the memory -/

theorem bind_alloc (h : g.At ip depth s) (others : Holdings) {p : Payload}
    (hp : p.Like g.scope.same s.memory.chunks s.memory.chunks p) (hkind : p.kind ≠ .function)
    {f : ObjectId → ExecM α}
    (hnext : ∀ id s', g.At ip depth s' → g.scope.Has id → s'.memory.payload? id = some p →
      s.memory.Evolves s'.memory → s'.machine = s.machine → Meets post (f id s')) :
    Meets post ((Exec.alloc others p >>= f) s) := by
  rw [bind_apply]
  cases halloc : Memory.alloc (s.machine.holdings others) p s.memory with
  | error e m =>
    rw [Exec.alloc_of_error halloc]
    exact .stop (.fault (Memory.alloc_error halloc))
  | ok id m =>
    rw [Exec.alloc_of_ok halloc]
    obtain ⟨rfl, hchunks, _, hpayload⟩ := Memory.alloc_payload? halloc
    have hevolves := Memory.Evolves.alloc halloc hkind
    have hlike : m.Like g.scope.same m := by
      refine ⟨h.within.memory.oneToOne, fun {i j} hij => ?_⟩
      obtain ⟨rfl, hi⟩ := hij
      rw [hpayload, hchunks]
      split
      · exact .some hp
      · exact h.within.memory.payload ⟨rfl, hi⟩
    refine hnext _ _ (h.with_memory hlike hevolves) (Or.inr h.within.grown) ?_ hevolves rfl
    rw [hpayload, if_pos rfl]

theorem bind_modifyPayload (h : g.At ip depth s) {id : ObjectId} (hid : g.scope.Has id)
    {change : Payload → Payload}
    (hchange : ∀ p, s.memory.payload? id = some p →
      p.Like g.scope.same s.memory.chunks s.memory.chunks p →
      (change p).Like g.scope.same s.memory.chunks s.memory.chunks (change p) ∧
        (change p).kind = p.kind ∧ (p.kind = .function → change p = p))
    {f : Unit → ExecM α}
    (hnext : ∀ s', g.At ip depth s' → s'.machine = s.machine → Meets post (f () s')) :
    Meets post ((Exec.modifyPayload id change >>= f) s) := by
  have hself : ∀ p, s.memory.payload? id = some p →
      p.Like g.scope.same s.memory.chunks s.memory.chunks p :=
    fun p hp => rel_self (h.within.memory.payload ⟨rfl, hid⟩) hp
  have hevolves : s.memory.Evolves (s.memory.modifyPayload id change) := by
    refine .modifyPayload (fun p hp => (hchange p hp (hself p hp)).2.1) fun a b ha heq => ?_
    have hpayload := Memory.function?_eq_some.1 ha
    rw [(hchange _ hpayload (hself _ hpayload)).2.2 rfl] at heq
    cases heq
    exact ⟨rfl, Or.inl⟩
  have hlike : (s.memory.modifyPayload id change).Like g.scope.same
      (s.memory.modifyPayload id change) := by
    refine ⟨h.within.memory.oneToOne, fun {i j} hij => ?_⟩
    obtain ⟨rfl, hi⟩ := hij
    rw [Memory.payload?_modifyPayload]
    split
    · next heq =>
      subst heq
      cases hp : s.memory.payload? id with
      | none => exact .none
      | some p => exact .some (hchange p hp (hself p hp)).1
    · exact h.within.memory.payload ⟨rfl, hi⟩
  exact hnext _ (h.with_memory hlike hevolves) rfl

end Stage.At

end StackVm
