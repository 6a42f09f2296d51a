/-
The instructions on values and collections over two bottoms.  Where the call has the
operands, each of these instructions takes them and leaves one value, alike over both
bottoms, and never addresses anything outside its bounds.
-/
import StackVm.Proofs.Bottoms
import StackVm.Proofs.StackEffects

namespace StackVm.Activation.At

variable {B : Bottoms} {excuse : Prop} {g : Activation} {ip : Int} {depth : Nat} {u : Execution}
  {make make' : Exec.Allocator}

/-! ### Arithmetic -/

theorem arithmetic (h : g.At ip (depth + 2) u) (hroom : B.height + depth < g.stackMax)
    (op : Int64 → Int64 → Value) :
    B.Keep excuse (fun _ u' => g.At ip (depth + 1) u') (Exec.arithmetic op (u.over B.left))
      (Exec.arithmetic op (u.over B.right)) := by
  rw [Exec.arithmetic]
  refine h.bind_peek (by omega) fun v _ => h.bind_peek (by omega) fun w _ => ?_
  cases v with
  | int a =>
    cases w with
    | int b => exact h.replaceTwo hroom _
    | _ => exact B.keep_raise _
  | _ => exact B.keep_raise _

theorem divide (h : g.At ip (depth + 2) u) (hroom : B.height + depth < g.stackMax) :
    B.Keep excuse (fun _ u' => g.At ip (depth + 1) u') (Exec.divide (u.over B.left))
      (Exec.divide (u.over B.right)) := by
  rw [Exec.divide]
  refine h.bind_peek (by omega) fun v _ => h.bind_peek (by omega) fun w _ => ?_
  cases v with
  | int a =>
    cases w with
    | int b =>
      simp only [branch_apply]
      split
      · exact B.keep_raise _
      · exact h.replaceTwo hroom _
    | _ => exact B.keep_raise _
  | _ => exact B.keep_raise _

theorem negate (h : g.At ip (depth + 1) u) (hroom : B.height + depth < g.stackMax) :
    B.Keep excuse (fun _ u' => g.At ip (depth + 1) u') (Exec.negate (u.over B.left))
      (Exec.negate (u.over B.right)) := by
  rw [Exec.negate]
  refine h.bind_peek (by omega) fun v _ => ?_
  cases v with
  | int n => exact h.replaceTop hroom _
  | _ => exact B.keep_raise _

theorem join (hmake : B.Agree make make') (h : g.At ip (depth + 2) u)
    (hroom : B.height + depth < g.stackMax) (v w : Value) :
    B.Keep excuse (fun _ u' => g.At ip (depth + 1) u') (Exec.join make v w (u.over B.left))
      (Exec.join make' v w (u.over B.right)) := by
  rw [Exec.join, Exec.join]
  refine B.bind_string? v fun a => B.bind_string? w fun b => ?_
  rcases a with _ | a
  · exact B.keep_raise _
  rcases b with _ | b
  · exact B.keep_raise _
  exact h.bind_make hmake (.string _) (Memory.string_ne_function _)
    fun _ _ _ _ h' => h'.replaceTwo hroom _

theorem add (hmake : B.Agree make make') (h : g.At ip (depth + 2) u)
    (hroom : B.height + depth < g.stackMax) :
    B.Keep excuse (fun _ u' => g.At ip (depth + 1) u') (Exec.add make (u.over B.left))
      (Exec.add make' (u.over B.right)) := by
  rw [Exec.add, Exec.add]
  refine h.bind_peek (by omega) fun v _ => h.bind_peek (by omega) fun w _ => ?_
  cases v with
  | int a =>
    cases w with
    | int b => exact h.replaceTwo hroom _
    | _ => exact h.join hmake hroom (.int a) _
  | _ => exact h.join hmake hroom _ w

/-! ### Arrays and structs -/

theorem bind_elementAt (xs : Array Value) (key : Value) {α : Type}
    {post : α → Execution → Prop} {f f' : Value → ExecM α}
    (hnext : ∀ v, B.Keep excuse post (f v (u.over B.left)) (f' v (u.over B.right))) :
    B.Keep excuse post ((Exec.elementAt xs key >>= f) (u.over B.left))
      ((Exec.elementAt xs key >>= f') (u.over B.right)) := by
  cases key with
  | int i =>
    by_cases hrange : 0 ≤ i.toInt ∧ i.toInt < xs.size
    · have hlt : i.toInt.toNat < xs.size := by omega
      rw [Exec.elementAt, if_pos hrange, Array.getElem?_eq_getElem hlt]
      exact hnext _
    · rw [Exec.elementAt, if_neg hrange]
      exact B.keep_raise _
  | _ => exact B.keep_raise _

theorem bind_fieldAt (r : Record) (name : Text) {α : Type} {post : α → Execution → Prop}
    {f f' : Value → ExecM α}
    (hnext : ∀ v, B.Keep excuse post (f v (u.over B.left)) (f' v (u.over B.right))) :
    B.Keep excuse post ((Exec.fieldAt r name >>= f) (u.over B.left))
      ((Exec.fieldAt r name >>= f') (u.over B.right)) := by
  rw [Exec.fieldAt]
  cases r.get? name with
  | none => exact B.keep_raise _
  | some v => exact hnext v

theorem index (h : g.At ip (depth + 2) u) (hroom : B.height + depth < g.stackMax) :
    B.Keep excuse (fun _ u' => g.At ip (depth + 1) u') (Exec.index (u.over B.left))
      (Exec.index (u.over B.right)) := by
  rw [Exec.index]
  refine h.bind_peek (by omega) fun key _ => h.bind_peek (by omega) fun container _ => ?_
  refine B.bind_array? container fun a => ?_
  rcases a with _ | ⟨id, xs⟩
  · refine B.bind_struct? container (B.keep_raise _) fun id r _ => ?_
    refine B.bind_string? key fun name => ?_
    cases name with
    | none => exact B.keep_raise _
    | some name => exact bind_fieldAt r name fun v => h.replaceTwo hroom v
  · exact bind_elementAt xs key fun v => h.replaceTwo hroom v

theorem indexSet (h : g.At ip (depth + 3) u) (hroom : B.height + depth < g.stackMax) :
    B.Keep excuse (fun _ u' => g.At ip (depth + 1) u') (Exec.indexSet (u.over B.left))
      (Exec.indexSet (u.over B.right)) := by
  rw [Exec.indexSet]
  refine h.bind_peek (by omega) fun value _ => h.bind_peek (by omega) fun v _ => ?_
  refine B.bind_array? v fun a => ?_
  rcases a with _ | ⟨id, xs⟩
  · exact B.keep_raise _
  refine h.bind_peek (by omega) fun key _ => ?_
  cases key with
  | int i =>
    simp only [branch_apply]
    split
    · refine h.bind_modifyPayload id _ fun v' _ h' => ?_
      exact h'.bind_pop fun _ _ _ _ _ h'' => h''.replaceTwo hroom value
    · exact B.keep_raise _
  | _ => exact B.keep_raise _

theorem getField (h : g.At ip (depth + 1) u) (hroom : B.height + depth < g.stackMax)
    (name : Text) :
    B.Keep excuse (fun _ u' => g.At ip (depth + 1) u') (Exec.getField name (u.over B.left))
      (Exec.getField name (u.over B.right)) := by
  rw [Exec.getField]
  refine h.bind_peek (by omega) fun v _ => B.bind_struct? v (B.keep_raise _) fun id r _ => ?_
  exact bind_fieldAt r name fun v => h.replaceTop hroom v

theorem setField (h : g.At ip (depth + 2) u) (hroom : B.height + depth < g.stackMax)
    (name : Text) :
    B.Keep excuse (fun _ u' => g.At ip (depth + 1) u') (Exec.setField name (u.over B.left))
      (Exec.setField name (u.over B.right)) := by
  rw [Exec.setField]
  refine h.bind_peek (by omega) fun value _ => h.bind_peek (by omega) fun v _ => ?_
  refine B.bind_struct? v (B.keep_raise _) fun id r _ => ?_
  exact h.bind_modifyPayload id _ fun _ _ h' => h'.replaceTwo hroom value

theorem length (h : g.At ip (depth + 1) u) (hroom : B.height + depth < g.stackMax) :
    B.Keep excuse (fun _ u' => g.At ip (depth + 1) u') (Exec.length (u.over B.left))
      (Exec.length (u.over B.right)) := by
  rw [Exec.length]
  refine h.bind_peek (by omega) fun v _ => ?_
  cases v with
  | object id =>
    simp only [get_bind_apply, Execution.over_memory]
    cases (u.memory.payload? id).bind Exec.lengthOf with
    | none => exact B.keep_raise _
    | some n => exact h.replaceTop hroom _
  | _ => exact B.keep_raise _

theorem arrayPush (h : g.At ip (depth + 2) u) (hroom : B.height + depth < g.stackMax) :
    B.Keep excuse (fun _ u' => g.At ip (depth + 1) u') (Exec.arrayPush (u.over B.left))
      (Exec.arrayPush (u.over B.right)) := by
  rw [Exec.arrayPush]
  refine h.bind_peek (by omega) fun element _ => h.bind_peek (by omega) fun v _ => ?_
  refine B.bind_array? v fun a => ?_
  rcases a with _ | ⟨id, xs⟩
  · exact B.keep_raise _
  · exact h.bind_modifyPayload id _ fun _ _ h' => h'.replaceTwo hroom .nil

theorem arrayPop (h : g.At ip (depth + 1) u) (hroom : B.height + depth < g.stackMax) :
    B.Keep excuse (fun _ u' => g.At ip (depth + 1) u') (Exec.arrayPop (u.over B.left))
      (Exec.arrayPop (u.over B.right)) := by
  rw [Exec.arrayPop]
  refine h.bind_peek (by omega) fun v _ => B.bind_array? v fun a => ?_
  rcases a with _ | ⟨id, xs⟩
  · exact B.keep_raise _
  simp only [Option.map_some]
  cases xs.back? with
  | none => exact B.keep_raise _
  | some element => exact h.bind_modifyPayload id _ fun _ _ h' => h'.replaceTop hroom element

theorem contains (h : g.At ip (depth + 2) u) (hroom : B.height + depth < g.stackMax) :
    B.Keep excuse (fun _ u' => g.At ip (depth + 1) u') (Exec.contains (u.over B.left))
      (Exec.contains (u.over B.right)) := by
  rw [Exec.contains]
  refine h.bind_peek (by omega) fun needle _ => h.bind_peek (by omega) fun v _ => ?_
  refine B.bind_array? v fun a => ?_
  rcases a with _ | ⟨id, xs⟩
  · refine B.bind_struct? v (B.keep_raise _) fun id r _ => ?_
    exact B.bind_string? needle fun name => h.replaceTwo hroom _
  · exact h.replaceTwo hroom _

/-! ### Instructions that make objects -/

theorem bind_topValues (h : g.At ip depth u) {count : Nat} (hcount : count ≤ depth) {α : Type}
    {post : α → Execution → Prop} {f f' : Array Value → ExecM α}
    (hnext : ∀ vs, vs = u.machine.stack.extract (depth - count) depth →
      B.Keep excuse post (f vs (u.over B.left)) (f' vs (u.over B.right))) :
    B.Keep excuse post ((Exec.topValues count >>= f) (u.over B.left))
      ((Exec.topValues count >>= f') (u.over B.right)) := by
  have htop : ∀ (xs : Array Value) (k : Array Value → ExecM α),
      (Exec.topValues count >>= k) (u.over xs) =
        k (u.machine.stack.extract (depth - count) depth) (u.over xs) := by
    intro xs k
    have hfits : count ≤ (u.over xs).machine.stack.size := by
      rw [h.size_over]
      omega
    have hvalues : (u.over xs).machine.stack.extract
        ((u.over xs).machine.stack.size - count) (u.over xs).machine.stack.size =
          u.machine.stack.extract (depth - count) depth := by
      have hlow : xs.size + depth - count - xs.size = depth - count := by omega
      rw [h.size_over, Execution.over, Array.extract_append, Nat.add_sub_cancel_left, hlow,
        Array.extract_empty_of_size_le_start (by omega), Array.empty_append]
    rw [Exec.topValues, bind_assoc, get_bind_apply, bind_apply, branch_apply, if_pos hfits]
    exact congrArg (k · (u.over xs)) hvalues
  rw [htop, htop]
  exact hnext _ rfl

theorem dropValues_push {count : Nat} (h : g.At ip (depth + count) u)
    (hroom : B.height + depth < g.stackMax) (v : Value) :
    B.Keep excuse (fun _ u' => g.At ip (depth + 1) u')
      ((do Exec.dropValues count; Exec.push v) (u.over B.left))
      ((do Exec.dropValues count; Exec.push v) (u.over B.right)) := by
  have hsize : ∀ xs : Array Value, xs.size = B.height →
      (u.over xs).machine.stack.size - count = B.height + depth := by
    intro xs hxs
    rw [h.size_over]
    omega
  simp only [Exec.dropValues, bind_assoc, get_bind_apply]
  rw [hsize _ rfl, hsize _ B.level]
  exact h.bind_shrinkTo (Nat.le_add_right _ _) fun _ _ _ h' => h'.push hroom v

theorem buildArray (hmake : B.Agree make make') {count : Nat} (h : g.At ip (depth + count) u)
    (hroom : B.height + depth < g.stackMax) :
    B.Keep excuse (fun _ u' => g.At ip (depth + 1) u')
      (Exec.buildArray make count (u.over B.left))
      (Exec.buildArray make' count (u.over B.right)) := by
  rw [Exec.buildArray, Exec.buildArray]
  refine h.bind_topValues (Nat.le_add_left _ _) fun vs _ => ?_
  exact h.bind_make hmake (.array _) (Memory.array_ne_function _)
    fun _ _ _ _ h' => h'.dropValues_push hroom _

/-- The names are still there after the struct is made. -/
theorem buildStruct (hmake : B.Agree make make') {count : Nat}
    (h : g.At ip (depth + 2 * count) u) (hroom : B.height + depth < g.stackMax) :
    B.Keep excuse (fun _ u' => g.At ip (depth + 1) u')
      (Exec.buildStruct make count (u.over B.left))
      (Exec.buildStruct make' count (u.over B.right)) := by
  have hcount : 2 * count ≤ depth + 2 * count := Nat.le_add_left _ _
  simp only [Exec.buildStruct, Exec.topPairs, bind_assoc, pure_bind]
  refine h.bind_topValues hcount fun vs hvs => ?_
  simp only [get_bind_apply, Execution.over_memory]
  cases hpairs : Exec.pairs u.memory vs.toList with
  | none => exact B.keep_raise _
  | some fields =>
    refine h.bind_make hmake (.struct {}) (Memory.struct_ne_function _)
      fun id v' hmachine hevolves h' => ?_
    refine h'.bind_topValues hcount fun ws hws => ?_
    have hsame : ws = vs := by rw [hws, hvs, hmachine]
    obtain ⟨fields', hpairs'⟩ := Stage.At.pairs_isSome hevolves hpairs
    simp only [get_bind_apply, Execution.over_memory, hsame, hpairs', present_bind]
    exact h'.bind_modifyPayload id _ fun _ _ h'' => h''.dropValues_push hroom _

theorem typeOf (hmake : B.Agree make make') (h : g.At ip (depth + 1) u)
    (hroom : B.height + depth < g.stackMax) :
    B.Keep excuse (fun _ u' => g.At ip (depth + 1) u') (Exec.typeOf make (u.over B.left))
      (Exec.typeOf make' (u.over B.right)) := by
  rw [Exec.typeOf, Exec.typeOf]
  refine h.bind_peek (by omega) fun v _ => ?_
  exact h.bind_make hmake (.string _) (Memory.string_ne_function _)
    fun _ _ _ _ h' => h'.replaceTop hroom _

theorem appendNames (hmake : B.Agree make make') (id : ObjectId) (names : List Text)
    (h : g.At ip depth u) :
    B.Keep excuse (fun _ u' => g.At ip depth u') (Exec.appendNames make id names (u.over B.left))
      (Exec.appendNames make' id names (u.over B.right)) := by
  induction names generalizing u with
  | nil => exact .ok h
  | cons name rest ih =>
    rw [Exec.appendNames, Exec.appendNames]
    refine h.bind_make hmake (.string _) (Memory.string_ne_function _) fun s v' _ _ h' => ?_
    exact h'.bind_modifyPayload id _ fun _ _ h'' => ih h''

/-- Here the stack grows past the depth at the start, into the one free place. -/
theorem keys (hmake : B.Agree make make') (h : g.At ip (depth + 1) u)
    (hroom : B.height + (depth + 1) < g.stackMax) :
    B.Keep excuse (fun _ u' => g.At ip (depth + 1) u') (Exec.keys make (u.over B.left))
      (Exec.keys make' (u.over B.right)) := by
  rw [Exec.keys, Exec.keys]
  refine h.bind_peek (by omega) fun v _ => ?_
  refine B.bind_struct? v (B.keep_raise _) fun source r hr => ?_
  refine h.bind_make hmake (.array #[]) (Memory.array_ne_function _) fun id v' _ hevolves h' => ?_
  refine h'.bind_push hroom _ fun v'' _ hmemory h'' => ?_
  obtain ⟨r', hr'⟩ := hevolves.struct? hr
  simp only [get_bind_apply, Execution.over_memory, hmemory, hr', present_bind]
  exact (appendNames hmake id r'.names h'').bind fun _ _ h''' => h'''.replaceTwo (by omega) _

theorem values (hmake : B.Agree make make') (h : g.At ip (depth + 1) u)
    (hroom : B.height + depth < g.stackMax) :
    B.Keep excuse (fun _ u' => g.At ip (depth + 1) u') (Exec.values make (u.over B.left))
      (Exec.values make' (u.over B.right)) := by
  rw [Exec.values, Exec.values]
  refine h.bind_peek (by omega) fun v _ => B.bind_struct? v (B.keep_raise _) fun _ r _ => ?_
  exact h.bind_make hmake (.array _) (Memory.array_ne_function _)
    fun _ _ _ _ h' => h'.replaceTop hroom _

theorem input (hmake : B.Agree make make') (h : g.At ip depth u)
    (hroom : B.height + depth < g.stackMax) :
    B.Keep excuse (fun _ u' => g.At ip (depth + 1) u') (Exec.input make (u.over B.left))
      (Exec.input make' (u.over B.right)) := by
  let read : Execution := { u with input := (Input.nextLine u.input).2 }
  have hread : g.At ip depth read := h.with_machine rfl
  have hinput : ∀ xs : Array Value, (u.over xs).input = u.input := fun _ => rfl
  rw [Exec.input, Exec.input, bind_apply, bind_apply, modifyGet_apply, modifyGet_apply]
  dsimp only
  rw [hinput, hinput]
  cases (Input.nextLine u.input).1 with
  | none => exact hread.push hroom .nil
  | some line =>
    exact hread.bind_make hmake (.string _) (Memory.string_ne_function _)
      fun _ _ _ _ h' => h'.push hroom _

end StackVm.Activation.At
