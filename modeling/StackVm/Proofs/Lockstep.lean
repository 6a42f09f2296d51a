/-
Twins in lockstep.  A computation run on twins ends the same way on both sides and
leaves twins.  There is one rule for each small step an instruction is made of,
so that an instruction is followed by the rules of its steps.
-/
import StackVm.Proofs.Stateful
import StackVm.Proofs.Twins

namespace StackVm

open List (Forall₂)

/-- The ways to stop that are left where every reachable object is owned: no fault of
the heap but exhaustion. -/
inductive Stop.Expected : Stop → Prop
  | raised (cause : RuntimeCause) : Expected (.raised cause)
  | crash : Expected (.fault .crash)
  | exhausted (live : Nat) (max : Int64) : Expected (.fault (.exhausted live max))

/-- Both sides end the same way and leave twins; results are related by `post`. -/
inductive Both (E : Comparison) {α α' : Type} (post : Pairing → α → α' → Prop) :
    EStateM.Result Stop Execution α → EStateM.Result Stop Execution α' → Prop
  | ok {pairing : Pairing} {a : α} {b : α'} {s t : Execution} :
      Twin E pairing s t → post pairing a b → Both E post (.ok a s) (.ok b t)
  | stop {pairing : Pairing} {e : Stop} {s t : Execution} :
      Twin E pairing s t → e.Expected → Both E post (.error e s) (.error e t)

/-- No condition on the results. -/
def Anyhow {α α' : Type} : Pairing → α → α' → Prop := fun _ _ _ => True

section

variable {E : Comparison} {pairing : Pairing} {s t : Execution} {α α' β β' : Type}
  {post : Pairing → α → α' → Prop}

theorem Both.bind {mid : Pairing → β → β' → Prop} {x : ExecM β} {y : ExecM β'}
    {f : β → ExecM α} {g : β' → ExecM α'} (h : Both E mid (x s) (y t))
    (hnext : ∀ {pairing : Pairing} {a : β} {b : β'} {s t : Execution},
      Twin E pairing s t → mid pairing a b → Both E post (f a s) (g b t)) :
    Both E post ((x >>= f) s) ((y >>= g) t) := by
  rw [bind_apply, bind_apply]
  revert h
  generalize x s = rx
  generalize y t = ry
  intro h
  cases h with
  | ok htwin hmid => exact hnext htwin hmid
  | stop htwin he => exact .stop htwin he

theorem Twin.pure (h : Twin E pairing s t) {a : α} {b : α'} (hab : post pairing a b) :
    Both E post ((Pure.pure a : ExecM α) s) ((Pure.pure b : ExecM α') t) := .ok h hab

theorem Twin.raise (h : Twin E pairing s t) (cause : RuntimeCause) :
    Both E post ((Exec.raise cause : ExecM α) s) ((Exec.raise cause : ExecM α') t) :=
  .stop h (.raised cause)

theorem Twin.crash (h : Twin E pairing s t) :
    Both E post ((Exec.crash : ExecM α) s) ((Exec.crash : ExecM α') t) := .stop h .crash

variable {f : β → ExecM α} {g : β' → ExecM α'}

theorem Twin.present (h : Twin E pairing s t) {r : α → α' → Prop} {a : Option α}
    {b : Option α'} (hab : Option.Rel r a b) (hpost : ∀ x y, r x y → post pairing x y) :
    Both E post (Exec.present a s) (Exec.present b t) := by
  cases hab with
  | none => exact h.crash
  | some hxy => exact .ok h (hpost _ _ hxy)

theorem Twin.bind_present (h : Twin E pairing s t) {r : β → β' → Prop} {a : Option β}
    {b : Option β'} (hab : Option.Rel r a b)
    (hnext : ∀ x y, r x y → Both E post (f x s) (g y t)) :
    Both E post ((Exec.present a >>= f) s) ((Exec.present b >>= g) t) := by
  cases hab with
  | none => exact h.crash
  | some hxy => exact hnext _ _ hxy

/-! ### Reading the state -/

theorem Twin.frames_head? (h : Twin E pairing s t) :
    Option.Rel (Frame.Like pairing) s.machine.frames.head? t.machine.frames.head? := by
  have hframes := h.machine.frames
  revert hframes
  generalize s.machine.frames = fs
  generalize t.machine.frames = gs
  intro hframes
  cases hframes with
  | nil => exact .none
  | cons hfg _ => exact .some hfg

theorem Twin.bind_frame (h : Twin E pairing s t) {f : Frame → ExecM α} {g : Frame → ExecM α'}
    (hnext : ∀ a b, a.Like pairing b → Both E post (f a s) (g b t)) :
    Both E post ((Exec.frame >>= f) s) ((Exec.frame >>= g) t) :=
  h.bind_present h.frames_head? hnext

theorem Twin.bind_chunk (h : Twin E pairing s t) {f : Chunk → ExecM α} {g : Chunk → ExecM α'}
    (hnext : ∀ c d, c.Like pairing d → Both E post (f c s) (g d t)) :
    Both E post ((Exec.chunk >>= f) s) ((Exec.chunk >>= g) t) := by
  rw [Exec.chunk, bind_assoc, bind_assoc]
  refine h.bind_frame fun a b hab => ?_
  exact h.bind_present (h.memory.code hab.function) hnext

theorem Twin.bind_byteAt (h : Twin E pairing s t) {c d : Chunk} (hcode : c.code = d.code)
    (offset : Int) {f : UInt8 → ExecM α} {g : UInt8 → ExecM α'}
    (hnext : ∀ b, Both E post (f b s) (g b t)) :
    Both E post ((Exec.byteAt c offset >>= f) s) ((Exec.byteAt d offset >>= g) t) := by
  rw [Exec.byteAt, Exec.byteAt, hcode]
  split
  · exact h.crash
  · cases d.code[offset.toNat]? with
    | none => exact h.crash
    | some b => exact hnext b

theorem mem_holds_of_stack {machine : Machine} {v : Value} (hv : v ∈ machine.stack.toList)
    {i : ObjectId} (hi : i ∈ v.id?) : i ∈ machine.holds :=
  Machine.mem_holds.2 (Or.inl (List.mem_filterMap.2 ⟨v, hv, hi⟩))

theorem Twin.bind_peek (h : Twin E pairing s t) (distance : Nat) {f : Value → ExecM α}
    {g : Value → ExecM α'}
    (hnext : ∀ v w, v.Like pairing w → (∀ i ∈ v.id?, i ∈ s.machine.holds) →
      Both E post (f v s) (g w t)) :
    Both E post ((Exec.peek distance >>= f) s) ((Exec.peek distance >>= g) t) := by
  have hsize := h.machine.stack.size
  have hvalue := h.machine.stack.getElem? (s.machine.stack.size - 1 - distance)
  rw [Exec.peek, bind_assoc, bind_assoc, get_bind_apply, get_bind_apply]
  simp only [← hsize]
  split
  · cases hv : s.machine.stack[s.machine.stack.size - 1 - distance]? with
    | none =>
      rw [hv] at hvalue
      generalize t.machine.stack[s.machine.stack.size - 1 - distance]? = w at hvalue ⊢
      cases hvalue
      exact h.crash
    | some v =>
      have hmem : v ∈ s.machine.stack.toList :=
        Array.mem_toList_iff.2 (Array.mem_of_getElem? hv)
      rw [hv] at hvalue
      generalize t.machine.stack[s.machine.stack.size - 1 - distance]? = w at hvalue ⊢
      cases hvalue with
      | some hvw => exact hnext _ _ hvw fun i hi => mem_holds_of_stack hmem hi
  · exact h.crash

theorem Twin.bind_string? (h : Twin E pairing s t) {v w : Value} (hvw : v.Like pairing w)
    {f : Option Text → ExecM α} {g : Option Text → ExecM α'}
    (hnext : ∀ a, Both E post (f a s) (g a t)) :
    Both E post ((Exec.string? v >>= f) s) ((Exec.string? w >>= g) t) := by
  cases hvw with
  | @object i j hij =>
    have hleft : Exec.string? (.object i) s = .ok (t.memory.string? j) s := by
      rw [← h.memory.string? hij]
      rfl
    have hright : Exec.string? (.object j) t = .ok (t.memory.string? j) t := rfl
    rw [bind_apply, bind_apply, hleft, hright]
    exact hnext _
  | _ => exact hnext none

/-- The identity of an object with its content. -/
def Sighted {γ δ : Type} (pairing : Pairing) (r : γ → δ → Prop) (a : ObjectId × γ)
    (b : ObjectId × δ) : Prop := pairing a.1 b.1 ∧ r a.2 b.2

theorem Twin.bind_array? (h : Twin E pairing s t) {v w : Value} (hvw : v.Like pairing w)
    {f : Option (ObjectId × Array Value) → ExecM α}
    {g : Option (ObjectId × Array Value) → ExecM α'}
    (hnext : ∀ a b, Option.Rel (Sighted pairing (Rows (Value.Like pairing))) a b →
      Both E post (f a s) (g b t)) :
    Both E post ((Exec.array? v >>= f) s) ((Exec.array? w >>= g) t) := by
  cases hvw with
  | object hij => exact hnext _ _ (rel_map (h.memory.array? hij) fun _ _ hxs => ⟨hij, hxs⟩)
  | _ => exact hnext _ _ .none

theorem Twin.bind_struct? (h : Twin E pairing s t) {v w : Value} (hvw : v.Like pairing w)
    {f : Option (ObjectId × Record) → ExecM α} {g : Option (ObjectId × Record) → ExecM α'}
    (hnext : ∀ a b, Option.Rel (Sighted pairing (Record.Like pairing)) a b →
      (∀ x ∈ a, .object x.1 = v ∧ s.memory.struct? x.1 = some x.2) →
      Both E post (f a s) (g b t)) :
    Both E post ((Exec.struct? v >>= f) s) ((Exec.struct? w >>= g) t) := by
  cases hvw with
  | @object i j hij =>
    refine hnext _ _ (rel_map (h.memory.struct? hij) fun _ _ hr => ⟨hij, hr⟩) fun x hx => ?_
    obtain ⟨r, hr, rfl⟩ := Option.map_eq_some_iff.1 hx
    exact ⟨rfl, hr⟩
  | _ => exact hnext _ _ .none fun x hx => nomatch hx

theorem Twin.bind_function? (h : Twin E pairing s t) {v w : Value} (hvw : v.Like pairing w)
    {f : Option (ObjectId × Function) → ExecM α} {g : Option (ObjectId × Function) → ExecM α'}
    (hnext : ∀ a b, Option.Rel
      (Sighted pairing (Function.Like pairing s.memory.chunks t.memory.chunks)) a b →
      Both E post (f a s) (g b t)) :
    Both E post ((Exec.function? v >>= f) s) ((Exec.function? w >>= g) t) := by
  cases hvw with
  | object hij => exact hnext _ _ (rel_map (h.memory.function? hij) fun _ _ hf => ⟨hij, hf⟩)
  | _ => exact hnext _ _ .none

theorem Twin.bind_require (h : Twin E pairing s t) (op : Opcode) (need : Nat)
    {f : Unit → ExecM α} {g : Unit → ExecM α'} (hnext : Both E post (f () s) (g () t)) :
    Both E post ((Exec.require op need >>= f) s) ((Exec.require op need >>= g) t) := by
  rw [Exec.require, bind_assoc, bind_assoc]
  refine h.bind_frame fun a b hab => ?_
  rw [bind_assoc, bind_assoc, get_bind_apply, get_bind_apply, h.machine.stack.size, hab.base]
  split
  · exact h.raise _
  · exact hnext

/-! ### Changing the machine -/

theorem Twin.with_stack (h : Twin E pairing s t) {xs ys : Array Value}
    (hxs : Rows (Value.Like pairing) xs ys) :
    Twin E pairing { s with machine := { s.machine with stack := xs } }
      { t with machine := { t.machine with stack := ys } } :=
  h.with_machine { h.machine with stack := hxs } rfl rfl h.lastError

theorem Twin.with_frames (h : Twin E pairing s t) {fs gs : List Frame}
    (hframes : Forall₂ (Frame.Like pairing) fs gs) :
    Twin E pairing { s with machine := { s.machine with frames := fs } }
      { t with machine := { t.machine with frames := gs } } :=
  h.with_machine { h.machine with frames := hframes } rfl rfl h.lastError

theorem Twin.with_globals (h : Twin E pairing s t) {a b : Globals} (hab : a.Like pairing b) :
    Twin E pairing { s with machine := { s.machine with globals := a } }
      { t with machine := { t.machine with globals := b } } :=
  h.with_machine { h.machine with globals := hab } rfl rfl h.lastError

theorem Twin.with_result (h : Twin E pairing s t) {v w : Value} (hvw : v.Like pairing w) :
    Twin E pairing { s with machine := { s.machine with result := v } }
      { t with machine := { t.machine with result := w } } :=
  h.with_machine { h.machine with result := hvw } rfl rfl h.lastError

theorem Twin.bind_push (h : Twin E pairing s t) {v w : Value} (hvw : v.Like pairing w)
    {f : Unit → ExecM α} {g : Unit → ExecM α'}
    (hnext : ∀ s' t', Twin E pairing s' t' →
      s' = { s with machine := { s.machine with stack := s.machine.stack.push v } } →
      Both E post (f () s') (g () t')) :
    Both E post ((Exec.push v >>= f) s) ((Exec.push w >>= g) t) := by
  have hsize := h.machine.stack.size
  have hmax := h.machine.stackMax
  rw [Exec.push, Exec.push, bind_assoc, bind_assoc, get_bind_apply, get_bind_apply]
  simp only [← hsize, ← hmax]
  split
  · exact hnext _ _ (h.with_stack (h.machine.stack.push hvw)) rfl
  · exact h.crash

theorem Twin.push (h : Twin E pairing s t) {v w : Value} (hvw : v.Like pairing w) :
    Both E (fun p _ _ => p = pairing) (Exec.push v s) (Exec.push w t) := by
  rw [← bind_pure (Exec.push v), ← bind_pure (Exec.push w)]
  exact h.bind_push hvw fun _ _ h' _ => h'.pure rfl

theorem Twin.bind_pop (h : Twin E pairing s t) {f : Value → ExecM α} {g : Value → ExecM α'}
    (hnext : ∀ v w s t, Twin E pairing s t → v.Like pairing w → Both E post (f v s) (g w t)) :
    Both E post ((Exec.pop >>= f) s) ((Exec.pop >>= g) t) := by
  rw [Exec.pop, bind_assoc, bind_assoc, get_bind_apply, get_bind_apply]
  simp only [bind_assoc]
  refine h.bind_present h.machine.stack.back? fun v w hvw => ?_
  exact hnext v w _ _ (h.with_stack h.machine.stack.pop) hvw

theorem Twin.replaceTop (h : Twin E pairing s t) {v w : Value} (hvw : v.Like pairing w) :
    Both E (fun p _ _ => p = pairing) (Exec.replaceTop v s) (Exec.replaceTop w t) :=
  h.bind_pop fun _ _ _ _ h _ => h.push hvw

theorem Twin.replaceTwo (h : Twin E pairing s t) {v w : Value} (hvw : v.Like pairing w) :
    Both E (fun p _ _ => p = pairing) (Exec.replaceTwo v s) (Exec.replaceTwo w t) :=
  h.bind_pop fun _ _ _ _ h _ => h.replaceTop hvw

theorem Twin.bind_shrinkTo (h : Twin E pairing s t) (size : Nat) {f : Unit → ExecM α}
    {g : Unit → ExecM α'}
    (hnext : ∀ s t, Twin E pairing s t → Both E post (f () s) (g () t)) :
    Both E post ((Exec.shrinkTo size >>= f) s) ((Exec.shrinkTo size >>= g) t) := by
  rw [Exec.shrinkTo, bind_assoc, bind_assoc, get_bind_apply, get_bind_apply]
  simp only [h.machine.stack.size]
  split
  · exact hnext _ _ (h.with_stack (h.machine.stack.shrink size))
  · exact h.crash

theorem Twin.advance (h : Twin E pairing s t) (n : Int) :
    Both E (fun p _ _ => p = pairing) (Exec.advance n s) (Exec.advance n t) := by
  have hframes := h.machine.frames
  refine .ok (h.with_frames ?_) rfl
  generalize s.machine.frames = fs at hframes ⊢
  generalize t.machine.frames = gs at hframes ⊢
  cases hframes with
  | nil => exact .nil
  | @cons f g _ _ htop hcallers =>
    have hip : f.ip + n = g.ip + n := by rw [htop.ip]
    exact .cons ⟨htop.function, hip, htop.base⟩ hcallers

/-! ### Operands -/

theorem Twin.operand (h : Twin E pairing s t) :
    Both E (fun p a b => p = pairing ∧ a = b) (Exec.operand s) (Exec.operand t) := by
  rw [Exec.operand]
  refine h.bind_chunk fun c d hcd => h.bind_frame fun a b hab => ?_
  rw [hab.ip]
  refine h.bind_byteAt hcd.code _ fun byte => (h.advance 1).bind fun h hp => ?_
  exact h.pure ⟨hp, rfl⟩

theorem Twin.bind_operand (h : Twin E pairing s t) {f : Nat → ExecM α} {g : Nat → ExecM α'}
    (hnext : ∀ n s t, Twin E pairing s t → Both E post (f n s) (g n t)) :
    Both E post ((Exec.operand >>= f) s) ((Exec.operand >>= g) t) :=
  h.operand.bind fun {p a b s t} h' hp => by
    obtain ⟨rfl, rfl⟩ := hp
    exact hnext a s t h'

theorem Twin.bind_wideOperand (h : Twin E pairing s t) {f : Nat → ExecM α}
    {g : Nat → ExecM α'}
    (hnext : ∀ n s t, Twin E pairing s t → Both E post (f n s) (g n t)) :
    Both E post ((Exec.wideOperand >>= f) s) ((Exec.wideOperand >>= g) t) := by
  rw [Exec.wideOperand]
  simp only [bind_assoc]
  exact h.bind_operand fun high s t h => h.bind_operand fun low s t h => hnext _ s t h

theorem Twin.constantOperand (h : Twin E pairing s t) :
    Both E (fun p v w => p = pairing ∧ v.Like pairing w) (Exec.constantOperand s)
      (Exec.constantOperand t) := by
  rw [Exec.constantOperand]
  refine h.bind_operand fun i s t h => h.bind_chunk fun c d hcd => ?_
  exact h.present (hcd.constants.getElem? i) fun v w hvw => ⟨rfl, hvw⟩

theorem Twin.nameOperand (h : Twin E pairing s t) :
    Both E (fun p a b => p = pairing ∧ a = b) (Exec.nameOperand s) (Exec.nameOperand t) := by
  rw [Exec.nameOperand]
  refine h.constantOperand.bind fun {p v w s t} h' hp => ?_
  obtain ⟨rfl, hvw⟩ := hp
  cases hvw with
  | @object i j hij =>
    have hsame : Option.Rel (· = ·) (s.memory.string? i) (t.memory.string? j) := by
      rw [h'.memory.string? hij]
      cases t.memory.string? j with
      | none => exact .none
      | some a => exact .some rfl
    exact h'.present hsame fun _ _ hab => ⟨rfl, hab⟩
  | _ => exact h'.crash

theorem Twin.bind_nameOperand (h : Twin E pairing s t) {f : Text → ExecM α}
    {g : Text → ExecM α'}
    (hnext : ∀ n s t, Twin E pairing s t → Both E post (f n s) (g n t)) :
    Both E post ((Exec.nameOperand >>= f) s) ((Exec.nameOperand >>= g) t) :=
  h.nameOperand.bind fun {p a b s t} h' hp => by
    obtain ⟨rfl, rfl⟩ := hp
    exact hnext a s t h'

end

end StackVm
