/-
The effect of each instruction on the stack.  On a stack with enough values and room for
one more, an instruction on collections takes what it needs and leaves one value, or
stops with a runtime error or a fault of an allocation; it never reads past an end.
-/
import StackVm.Proofs.Stage

namespace StackVm.Stage.At

open List (Forall₂)

variable {g : Stage} {ip depth : Nat} {s : Execution}

/-! ### Arithmetic -/

theorem arithmetic (h : g.At ip (depth + 2) s) (hroom : depth < g.stackMax)
    {op : Int64 → Int64 → Value} (hop : ∀ a b, g.Covers (op a b)) :
    Meets (fun _ s' => g.At ip (depth + 1) s') (Exec.arithmetic op s) := by
  rw [Exec.arithmetic]
  refine h.bind_peek (by omega) fun v _ => h.bind_peek (by omega) fun w _ => ?_
  cases v with
  | int a =>
    cases w with
    | int b => exact h.replaceTwo hroom (hop a b)
    | _ => exact meets_raise nofun
  | _ => exact meets_raise nofun

theorem divide (h : g.At ip (depth + 2) s) (hroom : depth < g.stackMax) :
    Meets (fun _ s' => g.At ip (depth + 1) s') (Exec.divide s) := by
  rw [Exec.divide]
  refine h.bind_peek (by omega) fun v _ => h.bind_peek (by omega) fun w _ => ?_
  cases v with
  | int a =>
    cases w with
    | int b =>
      simp only [branch_apply]
      split
      · exact meets_raise nofun
      · exact h.replaceTwo hroom (.int _)
    | _ => exact meets_raise nofun
  | _ => exact meets_raise nofun

theorem negate (h : g.At ip (depth + 1) s) (hroom : depth < g.stackMax) :
    Meets (fun _ s' => g.At ip (depth + 1) s') (Exec.negate s) := by
  rw [Exec.negate]
  refine h.bind_peek (by omega) fun v _ => ?_
  cases v with
  | int n => exact h.replaceTop hroom (.int _)
  | _ => exact meets_raise nofun

theorem join (h : g.At ip (depth + 2) s) (hroom : depth < g.stackMax) (others : Holdings)
    (v w : Value) :
    Meets (fun _ s' => g.At ip (depth + 1) s') (Exec.join (Exec.alloc others) v w s) := by
  rw [Exec.join]
  refine bind_string? v fun a => bind_string? w fun b => ?_
  rcases a with _ | a
  · exact meets_raise nofun
  rcases b with _ | b
  · exact meets_raise nofun
  refine h.bind_alloc others (.string _) nofun fun id s' h' hid _ _ _ => ?_
  exact h'.replaceTwo hroom (.object ⟨rfl, hid⟩)

theorem add (h : g.At ip (depth + 2) s) (hroom : depth < g.stackMax) (others : Holdings) :
    Meets (fun _ s' => g.At ip (depth + 1) s') (Exec.add (Exec.alloc others) s) := by
  rw [Exec.add]
  refine h.bind_peek (by omega) fun v _ => h.bind_peek (by omega) fun w _ => ?_
  cases v with
  | int a =>
    cases w with
    | int b => exact h.replaceTwo hroom (.int _)
    | _ => exact h.join hroom others (.int a) _
  | _ => exact h.join hroom others _ w

/-! ### Arrays and structs -/

theorem bind_elementAt {xs : Array Value} (hxs : Rows (Value.Like g.scope.same) xs xs)
    (key : Value) {α : Type} {post : α → Execution → Prop} {f : Value → ExecM α}
    (hnext : ∀ v, g.Covers v → Meets post (f v s)) :
    Meets post ((Exec.elementAt xs key >>= f) s) := by
  cases key with
  | int i =>
    by_cases hrange : 0 ≤ i.toInt ∧ i.toInt < xs.size
    · have hlt : i.toInt.toNat < xs.size := by omega
      rw [Exec.elementAt, if_pos hrange, Array.getElem?_eq_getElem hlt]
      exact hnext _ (rel_self (hxs.getElem? i.toInt.toNat) (Array.getElem?_eq_getElem hlt))
    · rw [Exec.elementAt, if_neg hrange]
      exact meets_raise nofun
  | _ => exact meets_raise nofun

theorem bind_fieldAt {r : Record} (hr : r.Like g.scope.same r) (name : Text) {α : Type}
    {post : α → Execution → Prop} {f : Value → ExecM α}
    (hnext : ∀ v, g.Covers v → Meets post (f v s)) :
    Meets post ((Exec.fieldAt r name >>= f) s) := by
  rw [Exec.fieldAt]
  cases hv : r.get? name with
  | none => exact meets_raise nofun
  | some v => exact hnext v (rel_self (hr.get? name) hv)

theorem index (h : g.At ip (depth + 2) s) (hroom : depth < g.stackMax) :
    Meets (fun _ s' => g.At ip (depth + 1) s') (Exec.index s) := by
  rw [Exec.index]
  refine h.bind_peek (by omega) fun key _ => h.bind_peek (by omega) fun container hcontainer => ?_
  refine h.bind_array? hcontainer ?_ fun id xs _ hxs => ?_
  · refine h.bind_struct? hcontainer (meets_raise nofun) fun id r _ hr _ => ?_
    refine bind_string? key fun name => ?_
    cases name with
    | none => exact meets_raise nofun
    | some name => exact bind_fieldAt hr name fun v hv => h.replaceTwo hroom hv
  · exact bind_elementAt hxs key fun v hv => h.replaceTwo hroom hv

theorem indexSet (h : g.At ip (depth + 3) s) (hroom : depth < g.stackMax) :
    Meets (fun _ s' => g.At ip (depth + 1) s') (Exec.indexSet s) := by
  rw [Exec.indexSet]
  refine h.bind_peek (by omega) fun value hvalue => h.bind_peek (by omega) fun v hv => ?_
  refine h.bind_array? hv (meets_raise nofun) fun id xs hid hxs => ?_
  refine h.bind_peek (by omega) fun key _ => ?_
  cases key with
  | int i =>
    simp only [branch_apply]
    split
    · refine h.bind_modifyPayload hid (fun p _ hp => ?_) fun s' h' _ => ?_
      · cases hp with
        | array hys => exact ⟨.array (hys.setIfInBounds _ hvalue), rfl, nofun⟩
        | string data => exact ⟨.string data, rfl, nofun⟩
        | struct hr => exact ⟨.struct hr, rfl, nofun⟩
        | function hf => exact ⟨.function hf, rfl, fun _ => rfl⟩
      · exact h'.bind_pop fun _ _ h _ => h.replaceTwo hroom hvalue
    · exact meets_raise nofun
  | _ => exact meets_raise nofun

theorem getField (h : g.At ip (depth + 1) s) (hroom : depth < g.stackMax) (name : Text) :
    Meets (fun _ s' => g.At ip (depth + 1) s') (Exec.getField name s) := by
  rw [Exec.getField]
  refine h.bind_peek (by omega) fun v hv => ?_
  refine h.bind_struct? hv (meets_raise nofun) fun id r _ hr _ => ?_
  exact bind_fieldAt hr name fun v hv => h.replaceTop hroom hv

theorem setField (h : g.At ip (depth + 2) s) (hroom : depth < g.stackMax) (name : Text) :
    Meets (fun _ s' => g.At ip (depth + 1) s') (Exec.setField name s) := by
  rw [Exec.setField]
  refine h.bind_peek (by omega) fun value hvalue => h.bind_peek (by omega) fun v hv => ?_
  refine h.bind_struct? hv (meets_raise nofun) fun id r hid _ _ => ?_
  refine h.bind_modifyPayload hid (fun p _ hp => ?_) fun s' h' _ => h'.replaceTwo hroom hvalue
  cases hp with
  | struct hr => exact ⟨.struct (hr.set name hvalue), rfl, nofun⟩
  | string data => exact ⟨.string data, rfl, nofun⟩
  | array hxs => exact ⟨.array hxs, rfl, nofun⟩
  | function hf => exact ⟨.function hf, rfl, fun _ => rfl⟩

theorem length (h : g.At ip (depth + 1) s) (hroom : depth < g.stackMax) :
    Meets (fun _ s' => g.At ip (depth + 1) s') (Exec.length s) := by
  rw [Exec.length]
  refine h.bind_peek (by omega) fun v _ => ?_
  cases v with
  | object id =>
    simp only [bind_apply, get_apply]
    cases (s.memory.payload? id).bind Exec.lengthOf with
    | none => exact meets_raise nofun
    | some n => exact h.replaceTop hroom (.int _)
  | _ => exact meets_raise nofun

theorem arrayPush (h : g.At ip (depth + 2) s) (hroom : depth < g.stackMax) :
    Meets (fun _ s' => g.At ip (depth + 1) s') (Exec.arrayPush s) := by
  rw [Exec.arrayPush]
  refine h.bind_peek (by omega) fun element helement => h.bind_peek (by omega) fun v hv => ?_
  refine h.bind_array? hv (meets_raise nofun) fun id xs hid _ => ?_
  refine h.bind_modifyPayload hid (fun p _ hp => ?_) fun s' h' _ => h'.replaceTwo hroom .nil
  cases hp with
  | array hxs => exact ⟨.array (hxs.push helement), rfl, nofun⟩
  | string data => exact ⟨.string data, rfl, nofun⟩
  | struct hr => exact ⟨.struct hr, rfl, nofun⟩
  | function hf => exact ⟨.function hf, rfl, fun _ => rfl⟩

theorem arrayPop (h : g.At ip (depth + 1) s) (hroom : depth < g.stackMax) :
    Meets (fun _ s' => g.At ip (depth + 1) s') (Exec.arrayPop s) := by
  rw [Exec.arrayPop]
  refine h.bind_peek (by omega) fun v hv => ?_
  refine h.bind_array? hv (meets_raise nofun) fun id xs hid hxs => ?_
  simp only [Option.map_some]
  cases helement : xs.back? with
  | none => exact meets_raise nofun
  | some element =>
    have hcovers : g.Covers element := rel_self hxs.back? helement
    refine h.bind_modifyPayload hid (fun p _ hp => ?_) fun s' h' _ => h'.replaceTop hroom hcovers
    cases hp with
    | array hxs => exact ⟨.array hxs.pop, rfl, nofun⟩
    | string data => exact ⟨.string data, rfl, nofun⟩
    | struct hr => exact ⟨.struct hr, rfl, nofun⟩
    | function hf => exact ⟨.function hf, rfl, fun _ => rfl⟩

theorem contains (h : g.At ip (depth + 2) s) (hroom : depth < g.stackMax) :
    Meets (fun _ s' => g.At ip (depth + 1) s') (Exec.contains s) := by
  rw [Exec.contains]
  refine h.bind_peek (by omega) fun needle _ => h.bind_peek (by omega) fun v hv => ?_
  refine h.bind_array? hv ?_ fun id xs _ _ => ?_
  · refine h.bind_struct? hv (meets_raise nofun) fun id r _ _ _ => ?_
    exact bind_string? needle fun name => h.replaceTwo hroom (.bool _)
  · exact h.replaceTwo hroom (.bool _)

/-! ### Instructions that make objects -/

theorem bind_topValues (h : g.At ip depth s) {count : Nat} (hcount : count ≤ depth)
    {α : Type} {post : α → Execution → Prop} {f : Array Value → ExecM α}
    (hnext : ∀ xs, Rows (Value.Like g.scope.same) xs xs →
      xs = s.machine.stack.extract (s.machine.stack.size - count) s.machine.stack.size →
      Meets post (f xs s)) :
    Meets post ((Exec.topValues count >>= f) s) := by
  rw [Exec.topValues, bind_assoc, get_bind_apply, bind_apply, branch_apply,
    if_pos (h.depth.symm ▸ hcount)]
  exact hnext _ (h.within.machine.stack.extract _ _) rfl

theorem dropValues_push (h : g.At ip (depth + count) s) (hroom : depth < g.stackMax)
    {id : ObjectId} (hid : g.scope.Has id) :
    Meets (fun _ s' => g.At ip (depth + 1) s')
      ((do Exec.dropValues count; Exec.push (.object id)) s) := by
  simp only [Exec.dropValues, bind_assoc, get_bind_apply, h.depth, Nat.add_sub_cancel]
  exact h.bind_shrinkTo (Nat.le_add_right _ _) fun s' h' => h'.push hroom (.object ⟨rfl, hid⟩)

theorem buildArray (h : g.At ip (depth + count) s) (hroom : depth < g.stackMax)
    (others : Holdings) :
    Meets (fun _ s' => g.At ip (depth + 1) s') (Exec.buildArray (Exec.alloc others) count s) := by
  rw [Exec.buildArray]
  refine h.bind_topValues (Nat.le_add_left _ _) fun xs hxs _ => ?_
  refine h.bind_alloc others (.array hxs) nofun fun id s' h' hid _ _ _ => ?_
  exact h'.dropValues_push hroom hid

theorem pairs_isSome {m n : Memory} (h : m.Evolves n) {vs : List Value}
    {fields : List (Text × Value)} (hfields : Exec.pairs m vs = some fields) :
    ∃ fields', Exec.pairs n vs = some fields' := by
  induction vs using List.twoStepInduction generalizing fields with
  | nil => exact ⟨[], rfl⟩
  | singleton v =>
    cases v <;> cases hfields
  | cons_cons v w rest ih _ =>
    cases v with
    | object id =>
      rw [Exec.pairs] at hfields ⊢
      cases hname : m.string? id with
      | none =>
        rw [hname] at hfields
        cases hfields
      | some name =>
        cases hrest : Exec.pairs m rest with
        | none =>
          rw [hname, hrest] at hfields
          cases hfields
        | some tail =>
          obtain ⟨name', hname'⟩ := h.string? hname
          obtain ⟨tail', htail'⟩ := ih hrest
          rw [hname', htail']
          exact ⟨_, rfl⟩
    | _ => cases hfields

/-- The names are still there after the struct is made. -/
theorem buildStruct (h : g.At ip (depth + 2 * count) s) (hroom : depth < g.stackMax)
    (others : Holdings) :
    Meets (fun _ s' => g.At ip (depth + 1) s')
      (Exec.buildStruct (Exec.alloc others) count s) := by
  have hcount : 2 * count ≤ depth + 2 * count := Nat.le_add_left _ _
  rw [Exec.buildStruct, Exec.topPairs, bind_assoc]
  refine h.bind_topValues hcount fun xs hxs htop => ?_
  simp only [bind_assoc, get_bind_apply, pure_bind]
  cases hpairs : Exec.pairs s.memory xs.toList with
  | none => exact meets_raise nofun
  | some fields =>
    refine h.bind_alloc others (.struct Record.like_empty) nofun
      fun id s' h' hid hmade hevolves hmachine => ?_
    refine h'.bind_topValues hcount fun ys hys htop' => ?_
    have hsame : ys = xs := by rw [htop', htop, hmachine]
    obtain ⟨fields', hpairs'⟩ := pairs_isSome hevolves hpairs
    have hlike : Forall₂ (Named g.scope.same) fields' fields' := by
      have hrel := pairs_like h'.within.memory hys
      rw [hsame] at hrel
      exact rel_self hrel hpairs'
    simp only [get_bind_apply, hsame, hpairs', present_bind]
    refine h'.bind_modifyPayload hid (fun p hp _ => ?_) fun s'' h'' _ => ?_
    · rw [hmade] at hp
      cases hp
      exact ⟨.struct (Record.ofPairs_like hlike), rfl, nofun⟩
    · exact h''.dropValues_push hroom hid

theorem typeOf (h : g.At ip (depth + 1) s) (hroom : depth < g.stackMax) (others : Holdings) :
    Meets (fun _ s' => g.At ip (depth + 1) s') (Exec.typeOf (Exec.alloc others) s) := by
  rw [Exec.typeOf]
  refine h.bind_peek (by omega) fun v _ => ?_
  simp only [get_bind_apply]
  refine h.bind_alloc others (.string _) nofun fun id s' h' hid _ _ _ => ?_
  exact h'.replaceTop hroom (.object ⟨rfl, hid⟩)

theorem appendNames (others : Holdings) (names : List Text) {id : ObjectId}
    (hid : g.scope.Has id) (h : g.At ip depth s) :
    Meets (fun _ s' => g.At ip depth s') (Exec.appendNames (Exec.alloc others) id names s) := by
  induction names generalizing s with
  | nil => exact .ok h
  | cons name rest ih =>
    rw [Exec.appendNames]
    refine h.bind_alloc others (.string _) nofun fun made s' h' hmade _ _ _ => ?_
    refine h'.bind_modifyPayload hid (fun p _ hp => ?_) fun s'' h'' _ => ih h''
    cases hp with
    | array hxs => exact ⟨.array (hxs.push (.object ⟨rfl, hmade⟩)), rfl, nofun⟩
    | string data => exact ⟨.string data, rfl, nofun⟩
    | struct hr => exact ⟨.struct hr, rfl, nofun⟩
    | function hf => exact ⟨.function hf, rfl, fun _ => rfl⟩

/-- Here the stack grows past the depth at the start, into the one free place. -/
theorem keys (h : g.At ip (depth + 1) s) (hroom : depth + 1 < g.stackMax) (others : Holdings) :
    Meets (fun _ s' => g.At ip (depth + 1) s') (Exec.keys (Exec.alloc others) s) := by
  rw [Exec.keys]
  refine h.bind_peek (by omega) fun v hv => ?_
  refine h.bind_struct? hv (meets_raise nofun) fun source r _ _ hread => ?_
  refine h.bind_alloc others (.array .nil) nofun fun id s' h' hid _ hevolves _ => ?_
  refine h'.bind_push hroom (.object ⟨rfl, hid⟩) fun s'' h'' hmemory => ?_
  obtain ⟨r', hr'⟩ := hevolves.struct? hread
  rw [get_bind_apply, hmemory, hr']
  refine (appendNames others r'.names hid h'').bind fun _ s''' h''' => ?_
  exact h'''.replaceTwo (by omega) (.object ⟨rfl, hid⟩)

theorem values (h : g.At ip (depth + 1) s) (hroom : depth < g.stackMax) (others : Holdings) :
    Meets (fun _ s' => g.At ip (depth + 1) s') (Exec.values (Exec.alloc others) s) := by
  rw [Exec.values]
  refine h.bind_peek (by omega) fun v hv => ?_
  refine h.bind_struct? hv (meets_raise nofun) fun source r _ hr _ => ?_
  refine h.bind_alloc others (.array hr.rows) nofun fun id s' h' hid _ _ _ => ?_
  exact h'.replaceTop hroom (.object ⟨rfl, hid⟩)

theorem input (h : g.At ip depth s) (hroom : depth < g.stackMax) (others : Holdings) :
    Meets (fun _ s' => g.At ip (depth + 1) s') (Exec.input (Exec.alloc others) s) := by
  have hread := h.with_streams (Input.nextLine s.input).2 s.out s.err
  rw [Exec.input, bind_apply, modifyGet_apply]
  simp only
  cases (Input.nextLine s.input).1 with
  | none => exact hread.push hroom .nil
  | some line =>
    refine hread.bind_alloc others (.string _) nofun fun id s' h' hid _ _ _ => ?_
    exact h'.push hroom (.object ⟨rfl, hid⟩)

end StackVm.Stage.At
