/-
What lies below on the stack.  An instruction runs alike over any two bottoms of the same
height: it neither reads the values of the bottom nor changes them, and all that it takes
off and puts on the stack is above.  There is one rule for each small step.
-/
import StackVm.Proofs.Stage

namespace StackVm

/-- The execution with more values below its stack. -/
def Execution.over (u : Execution) (xs : Array Value) : Execution :=
  { u with machine := { u.machine with stack := xs ++ u.machine.stack } }

@[simp] theorem Execution.over_memory (u : Execution) (xs : Array Value) :
    (u.over xs).memory = u.memory := rfl

/-- Two bottoms of a stack, equally high. -/
structure Bottoms where
  left : Array Value
  right : Array Value
  level : right.size = left.size

/-- How many values lie below. -/
def Bottoms.height (B : Bottoms) : Nat := B.left.size

/-- Two computations do the same over both bottoms and leave the bottoms as they are.
They address something outside its bounds only with the excuse. -/
inductive Bottoms.Keep (B : Bottoms) (excuse : Prop) {α : Type}
    (post : α → Execution → Prop) :
    EStateM.Result Stop Execution α → EStateM.Result Stop Execution α → Prop
  | ok {a : α} {u : Execution} : post a u →
      Keep B excuse post (.ok a (u.over B.left)) (.ok a (u.over B.right))
  | stop {e : Stop} {u : Execution} : (e = .fault .crash → excuse) →
      Keep B excuse post (.error e (u.over B.left)) (.error e (u.over B.right))

/-- Two ways to make objects that are alike over both bottoms.  Both leave the machine as it
is and make no functions from anything else. -/
def Bottoms.Agree (B : Bottoms) (make make' : Exec.Allocator) : Prop :=
  ∀ (p : Payload) (u : Execution), p.kind ≠ .function →
    B.Keep False (fun _ u' => u'.machine = u.machine ∧ u.memory.Evolves u'.memory)
      (make p (u.over B.left)) (make' p (u.over B.right))

/-- A call that is being executed: what stays of it and of its callers. -/
structure Activation where
  function : ObjectId
  base : Nat
  callers : List Frame
  stackMax : Nat
  maxFrames : Nat

/-- The call is at `ip`, with `depth` values on the stack above the bottom. -/
structure Activation.At (g : Activation) (ip : Int) (depth : Nat) (u : Execution) : Prop where
  frames : u.machine.frames = ⟨g.function, ip, g.base⟩ :: g.callers
  stackMax : u.machine.stackMax = g.stackMax
  maxFrames : u.machine.maxFrames = g.maxFrames
  depth : u.machine.stack.size = depth

theorem shrink_append {α : Type} (xs ys : Array α) (n : Nat) :
    (xs ++ ys).shrink (xs.size + n) = xs ++ ys.shrink n := by
  rw [Array.shrink_eq_take, Array.shrink_eq_take, Array.take, Array.take, Array.extract_append,
    Array.extract_eq_self_of_le (Nat.le_add_right _ _), Nat.zero_sub, Nat.add_sub_cancel_left]

theorem shrink_pop {α : Type} {xs : Array α} {n : Nat} (hn : n < xs.size) :
    xs.pop.shrink n = xs.shrink n := by
  rw [Array.shrink_eq_take, Array.shrink_eq_take, Array.take, Array.take]
  ext i hi hi'
  · simp only [Array.size_extract, Array.size_pop]
    omega
  · simp

theorem Execution.over_of_empty {xs : Array Value} (hempty : xs.size = 0) (u : Execution) :
    u.over xs = u := by
  rw [Array.eq_empty_of_size_eq_zero hempty, Execution.over, Array.empty_append]

section

variable {B : Bottoms} {excuse : Prop} {α β : Type} {post : α → Execution → Prop}
  {mid : β → Execution → Prop} {u : Execution}

theorem Bottoms.Keep.bind {x y : ExecM β} {f f' : β → ExecM α} {s t : Execution}
    (h : B.Keep excuse mid (x s) (y t))
    (hnext : ∀ b u, mid b u → B.Keep excuse post (f b (u.over B.left)) (f' b (u.over B.right))) :
    B.Keep excuse post ((x >>= f) s) ((y >>= f') t) := by
  rw [bind_apply, bind_apply]
  revert h
  generalize x s = r
  generalize y t = r'
  intro h
  cases h with
  | ok hmid => exact hnext _ _ hmid
  | stop he => exact .stop he

theorem Bottoms.Keep.mono {weaker : α → Execution → Prop} {wider : Prop}
    {r r' : EStateM.Result Stop Execution α} (h : B.Keep excuse post r r')
    (himp : ∀ a u, post a u → weaker a u) (hwider : excuse → wider) :
    B.Keep wider weaker r r' := by
  cases h with
  | ok hpost => exact .ok (himp _ _ hpost)
  | stop he => exact .stop fun hcrash => hwider (he hcrash)

theorem Bottoms.keep_raise (cause : RuntimeCause) :
    B.Keep excuse post ((Exec.raise cause : ExecM α) (u.over B.left))
      ((Exec.raise cause : ExecM α) (u.over B.right)) :=
  .stop nofun

theorem Bottoms.keep_crash (hexcuse : excuse) :
    B.Keep excuse post ((Exec.crash : ExecM α) (u.over B.left))
      ((Exec.crash : ExecM α) (u.over B.right)) :=
  .stop fun _ => hexcuse

theorem Bottoms.bind_present {o : Option β} {f f' : β → ExecM α} (hmissing : o = none → excuse)
    (hnext : ∀ b, o = some b →
      B.Keep excuse post (f b (u.over B.left)) (f' b (u.over B.right))) :
    B.Keep excuse post ((Exec.present o >>= f) (u.over B.left))
      ((Exec.present o >>= f') (u.over B.right)) := by
  cases o with
  | none => exact .stop fun _ => hmissing rfl
  | some b => exact hnext b rfl

theorem Bottoms.keep_of_empty (B : Bottoms) (hempty : B.height = 0) {a : α}
    (hpost : post a u) : B.Keep excuse post (.ok a u) (.ok a u) := by
  have hkeep : B.Keep excuse post (.ok a (u.over B.left)) (.ok a (u.over B.right)) := .ok hpost
  rwa [Execution.over_of_empty hempty, Execution.over_of_empty (B.level.trans hempty)] at hkeep

/-! ### What a value is -/

theorem Bottoms.bind_string? (v : Value) {f f' : Option Text → ExecM α}
    (hnext : ∀ a, B.Keep excuse post (f a (u.over B.left)) (f' a (u.over B.right))) :
    B.Keep excuse post ((Exec.string? v >>= f) (u.over B.left))
      ((Exec.string? v >>= f') (u.over B.right)) := by
  cases v <;> exact hnext _

theorem Bottoms.bind_array? (v : Value) {f f' : Option (ObjectId × Array Value) → ExecM α}
    (hnext : ∀ a, B.Keep excuse post (f a (u.over B.left)) (f' a (u.over B.right))) :
    B.Keep excuse post ((Exec.array? v >>= f) (u.over B.left))
      ((Exec.array? v >>= f') (u.over B.right)) := by
  cases v <;> exact hnext _

theorem Bottoms.bind_struct? (v : Value) {f f' : Option (ObjectId × Record) → ExecM α}
    (hnone : B.Keep excuse post (f none (u.over B.left)) (f' none (u.over B.right)))
    (hsome : ∀ id r, u.memory.struct? id = some r →
      B.Keep excuse post (f (some (id, r)) (u.over B.left)) (f' (some (id, r)) (u.over B.right))) :
    B.Keep excuse post ((Exec.struct? v >>= f) (u.over B.left))
      ((Exec.struct? v >>= f') (u.over B.right)) := by
  cases v with
  | object id =>
    have hleft : (Exec.struct? (.object id) >>= f) (u.over B.left) =
        f ((u.memory.struct? id).map (id, ·)) (u.over B.left) := rfl
    have hright : (Exec.struct? (.object id) >>= f') (u.over B.right) =
        f' ((u.memory.struct? id).map (id, ·)) (u.over B.right) := rfl
    rw [hleft, hright]
    cases hr : u.memory.struct? id with
    | none => exact hnone
    | some r => exact hsome id r hr
  | _ => exact hnone

theorem Bottoms.bind_function? (v : Value) {f f' : Option (ObjectId × Function) → ExecM α}
    (hnone : B.Keep excuse post (f none (u.over B.left)) (f' none (u.over B.right)))
    (hsome : ∀ id fn, v = .object id → u.memory.function? id = some fn →
      B.Keep excuse post (f (some (id, fn)) (u.over B.left))
        (f' (some (id, fn)) (u.over B.right))) :
    B.Keep excuse post ((Exec.function? v >>= f) (u.over B.left))
      ((Exec.function? v >>= f') (u.over B.right)) := by
  cases v with
  | object id =>
    have hleft : (Exec.function? (.object id) >>= f) (u.over B.left) =
        f ((u.memory.function? id).map (id, ·)) (u.over B.left) := rfl
    have hright : (Exec.function? (.object id) >>= f') (u.over B.right) =
        f' ((u.memory.function? id).map (id, ·)) (u.over B.right) := rfl
    rw [hleft, hright]
    cases hfn : u.memory.function? id with
    | none => exact hnone
    | some fn => exact hsome id fn rfl hfn
  | _ => exact hnone

end

namespace Activation.At

variable {B : Bottoms} {excuse : Prop} {g : Activation} {ip : Int} {depth : Nat} {u : Execution}
  {α : Type} {post : α → Execution → Prop}

/-! ### Changing one thing -/

theorem with_stack (h : g.At ip depth u) {xs : Array Value} {depth' : Nat}
    (hdepth : xs.size = depth') :
    g.At ip depth' { u with machine := { u.machine with stack := xs } } :=
  ⟨h.frames, h.stackMax, h.maxFrames, hdepth⟩

theorem with_machine (h : g.At ip depth u) {v : Execution} (hmachine : v.machine = u.machine) :
    g.At ip depth v := by
  constructor
  · rw [hmachine, h.frames]
  · rw [hmachine, h.stackMax]
  · rw [hmachine, h.maxFrames]
  · rw [hmachine, h.depth]

/-! ### Reading the state -/

theorem frame_bind (h : g.At ip depth u) (xs : Array Value) (f : Frame → ExecM α) :
    (Exec.frame >>= f) (u.over xs) = f ⟨g.function, ip, g.base⟩ (u.over xs) := by
  have hframes : (u.over xs).machine.frames = ⟨g.function, ip, g.base⟩ :: g.callers := h.frames
  rw [Exec.frame, bind_assoc, get_bind_apply, hframes]
  rfl

theorem size_over (h : g.At ip depth u) (xs : Array Value) :
    (u.over xs).machine.stack.size = xs.size + depth := by
  rw [Execution.over, Array.size_append, h.depth]

theorem bind_peek (h : g.At ip depth u) {distance : Nat} (hdistance : distance < depth)
    {f f' : Value → ExecM α}
    (hnext : ∀ v, u.machine.stack[depth - 1 - distance]? = some v →
      B.Keep excuse post (f v (u.over B.left)) (f' v (u.over B.right))) :
    B.Keep excuse post ((Exec.peek distance >>= f) (u.over B.left))
      ((Exec.peek distance >>= f') (u.over B.right)) := by
  have hlt : depth - 1 - distance < u.machine.stack.size := by
    rw [h.depth]
    omega
  have hpeek : ∀ (xs : Array Value) (k : Value → ExecM α),
      (Exec.peek distance >>= k) (u.over xs) =
        k u.machine.stack[depth - 1 - distance] (u.over xs) := by
    intro xs k
    have hsize := h.size_over xs
    have hindex : (u.over xs).machine.stack[(u.over xs).machine.stack.size - 1 - distance]? =
        some u.machine.stack[depth - 1 - distance] := by
      rw [hsize, Execution.over, Array.getElem?_append_right (by omega),
        Array.getElem?_eq_getElem (by omega)]
      congr 2
      omega
    rw [Exec.peek, bind_assoc, get_bind_apply, if_pos (by omega), hindex]
    rfl
  rw [hpeek, hpeek]
  exact hnext _ (Array.getElem?_eq_getElem hlt)

/-! ### Changing the stack -/

theorem bind_pop (h : g.At ip (depth + 1) u) {f f' : Value → ExecM α}
    (hnext : ∀ v v', u.machine.stack.back? = some v →
      v'.machine.stack = u.machine.stack.pop → v'.memory = u.memory → g.At ip depth v' →
      B.Keep excuse post (f v (v'.over B.left)) (f' v (v'.over B.right))) :
    B.Keep excuse post ((Exec.pop >>= f) (u.over B.left))
      ((Exec.pop >>= f') (u.over B.right)) := by
  have hpos : u.machine.stack.size - 1 < u.machine.stack.size := by
    rw [h.depth]
    omega
  have hback : u.machine.stack.back? = some u.machine.stack[u.machine.stack.size - 1] := by
    rw [Array.back?_eq_getElem?, Array.getElem?_eq_getElem hpos]
  have hpop : ∀ (xs : Array Value) (k : Value → ExecM α), (Exec.pop >>= k) (u.over xs) =
      k u.machine.stack[u.machine.stack.size - 1]
        (Execution.over
          { u with machine := { u.machine with stack := u.machine.stack.pop } } xs) := by
    intro xs k
    have hne : u.machine.stack ≠ #[] := by
      intro hempty
      rw [hempty] at hpos
      exact absurd hpos (Nat.not_lt_zero _)
    have htop : (u.over xs).machine.stack.back? =
        some u.machine.stack[u.machine.stack.size - 1] := by
      rw [Execution.over, Array.back?_append, hback]
      rfl
    rw [Exec.pop, bind_assoc, get_bind_apply, htop, Execution.over, Execution.over,
      ← Array.pop_append_of_ne_empty hne]
    rfl
  have hpopped : u.machine.stack.pop.size = depth := by
    rw [Array.size_pop, h.depth, Nat.add_sub_cancel]
  rw [hpop, hpop]
  exact hnext _ _ hback rfl rfl (h.with_stack hpopped)

theorem bind_push (h : g.At ip depth u) (hroom : B.height + depth < g.stackMax) (v : Value)
    {f f' : Unit → ExecM α}
    (hnext : ∀ v', v'.machine.stack = u.machine.stack.push v → v'.memory = u.memory →
      g.At ip (depth + 1) v' →
      B.Keep excuse post (f () (v'.over B.left)) (f' () (v'.over B.right))) :
    B.Keep excuse post ((Exec.push v >>= f) (u.over B.left))
      ((Exec.push v >>= f') (u.over B.right)) := by
  have hpush : ∀ (xs : Array Value) (k : Unit → ExecM α), xs.size = B.height →
      (Exec.push v >>= k) (u.over xs) = k ()
        (Execution.over
          { u with machine := { u.machine with stack := u.machine.stack.push v } } xs) := by
    intro xs k hsize
    have hfree : (u.over xs).machine.stack.size < (u.over xs).machine.stackMax := by
      rw [h.size_over, hsize]
      exact h.stackMax.symm ▸ hroom
    rw [push_bind hfree, Execution.over, Execution.over, ← Array.push_append]
  have hpushed : (u.machine.stack.push v).size = depth + 1 := by
    rw [Array.size_push, h.depth]
  rw [hpush _ _ rfl, hpush _ _ B.level]
  exact hnext _ rfl rfl (h.with_stack hpushed)

theorem push (h : g.At ip depth u) (hroom : B.height + depth < g.stackMax) (v : Value) :
    B.Keep excuse (fun _ u' => g.At ip (depth + 1) u') (Exec.push v (u.over B.left))
      (Exec.push v (u.over B.right)) := by
  rw [← bind_pure (Exec.push v)]
  exact h.bind_push hroom v fun v' _ _ h' => .ok h'

theorem replaceTop (h : g.At ip (depth + 1) u) (hroom : B.height + depth < g.stackMax)
    (v : Value) :
    B.Keep excuse (fun _ u' => g.At ip (depth + 1) u') (Exec.replaceTop v (u.over B.left))
      (Exec.replaceTop v (u.over B.right)) :=
  h.bind_pop fun _ _ _ _ _ h' => h'.push hroom v

theorem replaceTwo (h : g.At ip (depth + 2) u) (hroom : B.height + depth < g.stackMax)
    (v : Value) :
    B.Keep excuse (fun _ u' => g.At ip (depth + 1) u') (Exec.replaceTwo v (u.over B.left))
      (Exec.replaceTwo v (u.over B.right)) :=
  h.bind_pop fun _ _ _ _ _ h' => h'.replaceTop hroom v

theorem bind_shrinkTo (h : g.At ip depth u) {size : Nat} (hsize : size ≤ depth)
    {f f' : Unit → ExecM α}
    (hnext : ∀ v', v'.machine.stack = u.machine.stack.shrink size → v'.memory = u.memory →
      g.At ip size v' →
      B.Keep excuse post (f () (v'.over B.left)) (f' () (v'.over B.right))) :
    B.Keep excuse post ((Exec.shrinkTo (B.height + size) >>= f) (u.over B.left))
      ((Exec.shrinkTo (B.height + size) >>= f') (u.over B.right)) := by
  have hshrink : ∀ (xs : Array Value) (k : Unit → ExecM α), xs.size = B.height →
      (Exec.shrinkTo (B.height + size) >>= k) (u.over xs) = k ()
        (Execution.over
          { u with machine := { u.machine with stack := u.machine.stack.shrink size } } xs) := by
    intro xs k hxs
    have hfits : B.height + size ≤ (u.over xs).machine.stack.size := by
      rw [h.size_over, hxs]
      omega
    have hshrunk : (u.over xs).machine.stack.shrink (B.height + size) =
        xs ++ u.machine.stack.shrink size := by
      rw [Execution.over, ← hxs, shrink_append]
    rw [shrinkTo_bind hfits, hshrunk]
    rfl
  have hshrunk : (u.machine.stack.shrink size).size = size := by
    rw [Array.size_shrink, h.depth]
    omega
  rw [hshrink _ _ rfl, hshrink _ _ B.level]
  exact hnext _ rfl rfl (h.with_stack hshrunk)

/-! ### Moving on -/

theorem bind_advance (h : g.At ip depth u) (n : Int) {f f' : Unit → ExecM α}
    (hnext : ∀ v', v'.machine.stack = u.machine.stack → v'.memory = u.memory →
      g.At (ip + n) depth v' →
      B.Keep excuse post (f () (v'.over B.left)) (f' () (v'.over B.right))) :
    B.Keep excuse post ((Exec.advance n >>= f) (u.over B.left))
      ((Exec.advance n >>= f') (u.over B.right)) := by
  have hadvance : ∀ (xs : Array Value) (k : Unit → ExecM α),
      (Exec.advance n >>= k) (u.over xs) = k () (Execution.over { u with
        machine := { u.machine with
          frames := ⟨g.function, ip + n, g.base⟩ :: g.callers } } xs) := by
    intro xs k
    have hframes : (u.over xs).machine.frames = ⟨g.function, ip, g.base⟩ :: g.callers := h.frames
    rw [bind_apply, Exec.advance, Exec.modifyFrame, Exec.modifyMachine, modify_apply]
    simp only [hframes]
    rfl
  rw [hadvance, hadvance]
  exact hnext _ rfl rfl ⟨rfl, h.stackMax, h.maxFrames, h.depth⟩

theorem bind_require (h : g.At ip depth u) (op : Opcode) (need : Nat) {f f' : Unit → ExecM α}
    (hnext : g.base + 1 + need ≤ B.height + depth →
      B.Keep excuse post (f () (u.over B.left)) (f' () (u.over B.right))) :
    B.Keep excuse post ((Exec.require op need >>= f) (u.over B.left))
      ((Exec.require op need >>= f') (u.over B.right)) := by
  have hrequire : ∀ (xs : Array Value) (k : Unit → ExecM α), xs.size = B.height →
      (Exec.require op need >>= k) (u.over xs) =
        if B.height + depth < g.base + 1 + need then .error (.raised (.underflow op)) (u.over xs)
        else k () (u.over xs) := by
    intro xs k hsize
    rw [Exec.require, bind_assoc, h.frame_bind, bind_assoc, get_bind_apply, h.size_over, hsize]
    split <;> rfl
  rw [hrequire _ _ rfl, hrequire _ _ B.level]
  split
  · exact B.keep_raise _
  · next hfew => exact hnext (by omega)

/-! ### Changing the memory -/

theorem bind_modifyPayload (h : g.At ip depth u) (id : ObjectId) (change : Payload → Payload)
    {f f' : Unit → ExecM α}
    (hnext : ∀ v', v'.machine = u.machine → g.At ip depth v' →
      B.Keep excuse post (f () (v'.over B.left)) (f' () (v'.over B.right))) :
    B.Keep excuse post ((Exec.modifyPayload id change >>= f) (u.over B.left))
      ((Exec.modifyPayload id change >>= f') (u.over B.right)) :=
  hnext { u with memory := u.memory.modifyPayload id change } rfl (h.with_machine rfl)

theorem bind_make {make make' : Exec.Allocator} (hmake : B.Agree make make')
    (h : g.At ip depth u) (p : Payload) (hkind : p.kind ≠ .function) {f f' : ObjectId → ExecM α}
    (hnext : ∀ id v', v'.machine = u.machine → u.memory.Evolves v'.memory → g.At ip depth v' →
      B.Keep excuse post (f id (v'.over B.left)) (f' id (v'.over B.right))) :
    B.Keep excuse post ((make p >>= f) (u.over B.left)) ((make' p >>= f') (u.over B.right)) := by
  have hmade : B.Keep excuse (fun _ u' => u'.machine = u.machine ∧ u.memory.Evolves u'.memory)
      (make p (u.over B.left)) (make' p (u.over B.right)) :=
    (hmake p u hkind).mono (fun _ _ h => h) False.elim
  exact hmade.bind fun id v' hv => hnext id v' hv.1 hv.2 (h.with_machine hv.1)

end Activation.At

end StackVm
