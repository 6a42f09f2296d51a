/-
Twins through the instructions on strings, arrays and structs.  Where an
instruction allocates, what it uses afterwards is still held by the stack, and so
survives on both sides.
-/
import StackVm.Proofs.TwinAllocation

namespace StackVm

open List (Forall₂)

section

variable {E : Comparison} {pairing : Pairing} {s t : Execution}

theorem Both.anyhow {α α' : Type} {post : Pairing → α → α' → Prop}
    {r : EStateM.Result Stop Execution α} {r' : EStateM.Result Stop Execution α'}
    (h : Both E post r r') : Both E Anyhow r r' := by
  cases h with
  | ok htwin _ => exact .ok htwin trivial
  | stop htwin he => exact .stop htwin he

/-! ### Instructions that make no objects -/

theorem Twin.arithmetic (h : Twin E pairing s t) (op : Int64 → Int64 → Value)
    (hop : ∀ a b, (op a b).Like pairing (op a b)) :
    Both E Anyhow (Exec.arithmetic op s) (Exec.arithmetic op t) := by
  rw [Exec.arithmetic]
  refine h.bind_peek 1 fun v w hvw _ => h.bind_peek 0 fun v' w' hvw' _ => ?_
  cases hvw with
  | int a =>
    cases hvw' with
    | int b => exact (h.replaceTwo (hop a b)).anyhow
    | _ => exact h.raise _
  | _ => exact h.raise _

theorem Twin.divide (h : Twin E pairing s t) :
    Both E Anyhow (Exec.divide s) (Exec.divide t) := by
  rw [Exec.divide]
  refine h.bind_peek 1 fun v w hvw _ => h.bind_peek 0 fun v' w' hvw' _ => ?_
  cases hvw with
  | int a =>
    cases hvw' with
    | int b =>
      simp only [branch_apply]
      split
      · exact h.raise _
      · exact (h.replaceTwo (.int _)).anyhow
    | _ => exact h.raise _
  | _ => exact h.raise _

theorem Twin.negate (h : Twin E pairing s t) :
    Both E Anyhow (Exec.negate s) (Exec.negate t) := by
  rw [Exec.negate]
  refine h.bind_peek 0 fun v w hvw _ => ?_
  cases hvw with
  | int n => exact (h.replaceTop (.int _)).anyhow
  | _ => exact h.raise _

theorem Twin.elementAt (h : Twin E pairing s t) {xs ys : Array Value}
    (hxs : Rows (Value.Like pairing) xs ys) {key key' : Value} (hkey : key.Like pairing key') :
    Both E (fun p v w => p = pairing ∧ v.Like pairing w) (Exec.elementAt xs key s)
      (Exec.elementAt ys key' t) := by
  cases hkey with
  | int i =>
    simp only [Exec.elementAt, branch_apply, hxs.size]
    split
    · exact h.present (hxs.getElem? _) fun v w hvw => ⟨rfl, hvw⟩
    · exact h.raise _
  | _ => exact h.raise _

theorem Twin.fieldAt (h : Twin E pairing s t) {r q : Record} (hr : r.Like pairing q)
    (name : Text) : Both E (fun p v w => p = pairing ∧ v.Like pairing w)
      (Exec.fieldAt r name s) (Exec.fieldAt q name t) := by
  have hget := hr.get? name
  rw [Exec.fieldAt, Exec.fieldAt]
  revert hget
  generalize r.get? name = a
  generalize q.get? name = b
  intro hget
  cases hget with
  | none => exact h.raise _
  | some hvw => exact h.pure ⟨rfl, hvw⟩

theorem Twin.index (h : Twin E pairing s t) : Both E Anyhow (Exec.index s) (Exec.index t) := by
  rw [Exec.index]
  refine h.bind_peek 0 fun key key' hkey _ => h.bind_peek 1 fun v w hvw _ => ?_
  refine h.bind_array? hvw fun a b hab => ?_
  cases hab with
  | @some x y hxy =>
    obtain ⟨i, xs⟩ := x
    obtain ⟨j, ys⟩ := y
    refine (h.elementAt hxy.2 hkey).bind fun {p v w s t} h' hp => ?_
    obtain ⟨rfl, hvw⟩ := hp
    exact (h'.replaceTwo hvw).anyhow
  | none =>
    refine h.bind_struct? hvw fun a b hab _ => ?_
    cases hab with
    | none => exact h.raise _
    | @some x y hxy =>
      obtain ⟨i, r⟩ := x
      obtain ⟨j, q⟩ := y
      refine h.bind_string? hkey fun name => ?_
      cases name with
      | none => exact h.raise _
      | some name =>
        refine (h.fieldAt hxy.2 name).bind fun {p v w s t} h' hp => ?_
        obtain ⟨rfl, hvw⟩ := hp
        exact (h'.replaceTwo hvw).anyhow

theorem Twin.bind_modifyPayload (h : Twin E pairing s t) {i j : ObjectId} (hij : pairing i j)
    {change change' : Payload → Payload}
    (hchange : ∀ p q, p.Like pairing s.memory.chunks t.memory.chunks q →
      (change p).Like pairing s.memory.chunks t.memory.chunks (change' q))
    {α α' : Type} {post : Pairing → α → α' → Prop} {f : Unit → ExecM α} {g : Unit → ExecM α'}
    (hnext : ∀ s' t', Twin E pairing s' t' → s'.machine = s.machine →
      Both E post (f () s') (g () t')) :
    Both E post ((Exec.modifyPayload i change >>= f) s)
      ((Exec.modifyPayload j change' >>= g) t) :=
  hnext _ _ (h.with_payload hij hchange) rfl

theorem Twin.indexSet (h : Twin E pairing s t) :
    Both E Anyhow (Exec.indexSet s) (Exec.indexSet t) := by
  rw [Exec.indexSet]
  refine h.bind_peek 0 fun value value' hvalue _ => h.bind_peek 2 fun v w hvw _ => ?_
  refine h.bind_array? hvw fun a b hab => ?_
  cases hab with
  | none => exact h.raise _
  | @some x y hxy =>
    obtain ⟨i, xs⟩ := x
    obtain ⟨j, ys⟩ := y
    obtain ⟨hij, hxs⟩ := hxy
    refine h.bind_peek 1 fun key key' hkey _ => ?_
    cases hkey with
    | int k =>
      have hsize : xs.size = ys.size := hxs.size
      simp only [branch_apply, hsize]
      split
      · refine h.bind_modifyPayload hij ?_ fun s t h _ => ?_
        · intro p q hpq
          cases hpq with
          | array hxs => exact .array (hxs.setIfInBounds _ hvalue)
          | string data => exact .string data
          | struct hr => exact .struct hr
          | function hf => exact .function hf
        · refine h.bind_pop fun _ _ s t h _ => ?_
          exact (h.replaceTwo hvalue).anyhow
      · exact h.raise _
    | _ => exact h.raise _

theorem Twin.getField (h : Twin E pairing s t) (name : Text) :
    Both E Anyhow (Exec.getField name s) (Exec.getField name t) := by
  rw [Exec.getField]
  refine h.bind_peek 0 fun v w hvw _ => h.bind_struct? hvw fun a b hab _ => ?_
  cases hab with
  | none => exact h.raise _
  | @some x y hxy =>
    obtain ⟨i, r⟩ := x
    obtain ⟨j, q⟩ := y
    refine (h.fieldAt hxy.2 name).bind fun {p v w s t} h' hp => ?_
    obtain ⟨rfl, hvw⟩ := hp
    exact (h'.replaceTop hvw).anyhow

theorem Twin.setField (h : Twin E pairing s t) (name : Text) :
    Both E Anyhow (Exec.setField name s) (Exec.setField name t) := by
  rw [Exec.setField]
  refine h.bind_peek 0 fun value value' hvalue _ => h.bind_peek 1 fun v w hvw _ => ?_
  refine h.bind_struct? hvw fun a b hab _ => ?_
  cases hab with
  | none => exact h.raise _
  | @some x y hxy =>
    obtain ⟨i, r⟩ := x
    obtain ⟨j, q⟩ := y
    refine h.bind_modifyPayload hxy.1 ?_ fun s t h _ => (h.replaceTwo hvalue).anyhow
    intro p q hpq
    cases hpq with
    | struct hr => exact .struct (hr.set name hvalue)
    | string data => exact .string data
    | array hxs => exact .array hxs
    | function hf => exact .function hf

theorem Twin.length (h : Twin E pairing s t) :
    Both E Anyhow (Exec.length s) (Exec.length t) := by
  rw [Exec.length]
  refine h.bind_peek 0 fun v w hvw _ => ?_
  cases hvw with
  | @object i j hij =>
    have hlength := h.memory.lengthOf hij
    simp only [bind_apply, get_apply, hlength]
    cases (t.memory.payload? j).bind Exec.lengthOf with
    | none => exact h.raise _
    | some n => exact (h.replaceTop (.int _)).anyhow
  | _ => exact h.raise _

theorem Twin.arrayPush (h : Twin E pairing s t) :
    Both E Anyhow (Exec.arrayPush s) (Exec.arrayPush t) := by
  rw [Exec.arrayPush]
  refine h.bind_peek 0 fun element element' helement _ => h.bind_peek 1 fun v w hvw _ => ?_
  refine h.bind_array? hvw fun a b hab => ?_
  cases hab with
  | none => exact h.raise _
  | @some x y hxy =>
    obtain ⟨i, xs⟩ := x
    obtain ⟨j, ys⟩ := y
    refine h.bind_modifyPayload hxy.1 ?_ fun s t h _ => (h.replaceTwo .nil).anyhow
    intro p q hpq
    cases hpq with
    | array hxs => exact .array (hxs.push helement)
    | string data => exact .string data
    | struct hr => exact .struct hr
    | function hf => exact .function hf

theorem Twin.arrayPop (h : Twin E pairing s t) :
    Both E Anyhow (Exec.arrayPop s) (Exec.arrayPop t) := by
  rw [Exec.arrayPop]
  refine h.bind_peek 0 fun v w hvw _ => h.bind_array? hvw fun a b hab => ?_
  cases hab with
  | none => exact h.raise _
  | @some x y hxy =>
    obtain ⟨i, xs⟩ := x
    obtain ⟨j, ys⟩ := y
    obtain ⟨hij, hxs⟩ := hxy
    have hback := Rows.back? hxs
    simp only [Option.map_some] at hback ⊢
    revert hback
    generalize xs.back? = x
    generalize ys.back? = y
    intro hback
    cases hback with
    | none => exact h.raise _
    | some hvw =>
      refine h.bind_modifyPayload hij ?_ fun s t h _ => (h.replaceTop hvw).anyhow
      intro p q hpq
      cases hpq with
      | array hxs => exact .array hxs.pop
      | string data => exact .string data
      | struct hr => exact .struct hr
      | function hf => exact .function hf

theorem Twin.contains (h : Twin E pairing s t) :
    Both E Anyhow (Exec.contains s) (Exec.contains t) := by
  rw [Exec.contains]
  refine h.bind_peek 0 fun needle needle' hneedle _ => h.bind_peek 1 fun v w hvw _ => ?_
  refine h.bind_array? hvw fun a b hab => ?_
  cases hab with
  | @some x y hxy =>
    obtain ⟨i, xs⟩ := x
    obtain ⟨j, ys⟩ := y
    have hfound : xs.any (fun v => s.memory.equal v needle) =
        ys.any fun v => t.memory.equal v needle' := by
      rw [← Array.any_toList, ← Array.any_toList]
      have hxs : Forall₂ (Value.Like pairing) xs.toList ys.toList := hxy.2
      revert hxs
      generalize xs.toList = vs
      generalize ys.toList = ws
      intro hxs
      induction hxs with
      | nil => rfl
      | cons hvw _ ih => rw [List.any_cons, List.any_cons, h.memory.equal hvw hneedle, ih]
    simp only [bind_apply, get_apply, hfound]
    exact (h.replaceTwo (.bool _)).anyhow
  | none =>
    refine h.bind_struct? hvw fun a b hab _ => ?_
    cases hab with
    | none => exact h.raise _
    | @some x y hxy =>
      obtain ⟨i, r⟩ := x
      obtain ⟨j, q⟩ := y
      have hcontains : r.contains = q.contains := funext fun name => hxy.2.contains name
      refine h.bind_string? hneedle fun name => ?_
      rw [hcontains]
      exact (h.replaceTwo (.bool _)).anyhow

/-! ### Instructions that make objects -/

variable {make make' : Exec.Allocator}

theorem Twin.join (hagree : Agree E make make') (h : Twin E pairing s t) {v w v' w' : Value}
    (hvw : v.Like pairing w) (hvw' : v'.Like pairing w') :
    Both E Anyhow (Exec.join make v v' s) (Exec.join make' w w' t) := by
  rw [Exec.join, Exec.join]
  refine h.bind_string? hvw fun a => h.bind_string? hvw' fun b => ?_
  rcases a with _ | a
  · exact h.raise _
  rcases b with _ | b
  · exact h.raise _
  refine hagree.bind h (.string _) (fun _ hi => nomatch hi) ?_
  intro after i j s t h hij _ _
  exact (h.replaceTwo (.object hij)).anyhow

theorem Twin.add (hagree : Agree E make make') (h : Twin E pairing s t) :
    Both E Anyhow (Exec.add make s) (Exec.add make' t) := by
  rw [Exec.add, Exec.add]
  refine h.bind_peek 1 fun v w hvw _ => h.bind_peek 0 fun v' w' hvw' _ => ?_
  cases hvw with
  | int a =>
    cases hvw' with
    | int b => exact (h.replaceTwo (.int _)).anyhow
    | nil => exact h.join hagree (.int a) .nil
    | bool b => exact h.join hagree (.int a) (.bool b)
    | native b => exact h.join hagree (.int a) (.native b)
    | object hij => exact h.join hagree (.int a) (.object hij)
  | nil => exact h.join hagree .nil hvw'
  | bool a => exact h.join hagree (.bool a) hvw'
  | native a => exact h.join hagree (.native a) hvw'
  | object hij => exact h.join hagree (.object hij) hvw'

theorem Twin.dropValues_push (h : Twin E pairing s t) (count : Nat) {i j : ObjectId}
    (hij : pairing i j) :
    Both E Anyhow ((do Exec.dropValues count; Exec.push (.object i)) s)
      ((do Exec.dropValues count; Exec.push (.object j)) t) := by
  have hsize := h.machine.stack.size
  simp only [Exec.dropValues, bind_assoc, get_bind_apply, hsize]
  exact h.bind_shrinkTo _ fun s t h => (h.push (.object hij)).anyhow

theorem referents_extract_subset {stack : Array Value} {start stop : Nat} {i : ObjectId}
    (hi : i ∈ referents (stack.extract start stop).toList) : i ∈ referents stack.toList := by
  obtain ⟨v, hv, hid⟩ := List.mem_filterMap.1 hi
  refine List.mem_filterMap.2 ⟨v, ?_, hid⟩
  rw [Array.toList_extract] at hv
  exact List.mem_of_mem_drop (List.mem_of_mem_take hv)

theorem Twin.bind_topValues (h : Twin E pairing s t) (count : Nat) {α α' : Type}
    {post : Pairing → α → α' → Prop} {f : Array Value → ExecM α} {g : Array Value → ExecM α'}
    (hnext : ∀ xs ys, Rows (Value.Like pairing) xs ys →
      (∀ i ∈ referents xs.toList, i ∈ referents s.machine.stack.toList) →
      Both E post (f xs s) (g ys t)) :
    Both E post ((Exec.topValues count >>= f) s) ((Exec.topValues count >>= g) t) := by
  have hrows := h.machine.stack.extract (s.machine.stack.size - count) s.machine.stack.size
  have hsize := h.machine.stack.size
  rw [Exec.topValues, bind_assoc, bind_assoc, get_bind_apply, get_bind_apply]
  simp only [← hsize]
  split
  · exact hnext _ _ hrows fun i hi => referents_extract_subset hi
  · exact h.crash

theorem Twin.buildArray (hagree : Agree E make make') (h : Twin E pairing s t) (count : Nat) :
    Both E Anyhow (Exec.buildArray make count s) (Exec.buildArray make' count t) := by
  rw [Exec.buildArray, Exec.buildArray]
  refine h.bind_topValues count fun xs ys hxs hsubset => ?_
  refine hagree.bind h (.array hxs) ?_ ?_
  · intro i hi
    exact .start (Or.inl (Machine.mem_holds.2 (Or.inl (hsubset i hi))))
  · intro after i j s t h hij _ _
    exact h.dropValues_push count hij

theorem Twin.bind_topPairs (h : Twin E pairing s t) (count : Nat) {α α' : Type}
    {post : Pairing → α → α' → Prop} {f : Option (List (Text × Value)) → ExecM α}
    {g : Option (List (Text × Value)) → ExecM α'}
    (hnext : ∀ a b, Option.Rel (Forall₂ (Named pairing)) a b → Both E post (f a s) (g b t)) :
    Both E post ((Exec.topPairs count >>= f) s) ((Exec.topPairs count >>= g) t) := by
  rw [Exec.topPairs, bind_assoc, bind_assoc]
  refine h.bind_topValues (2 * count) fun xs ys hxs _ => ?_
  simp only [bind_assoc, get_bind_apply, pure_bind]
  exact hnext _ _ (pairs_like h.memory hxs)

theorem Twin.buildStruct (hagree : Agree E make make') (h : Twin E pairing s t) (count : Nat) :
    Both E Anyhow (Exec.buildStruct make count s) (Exec.buildStruct make' count t) := by
  rw [Exec.buildStruct, Exec.buildStruct]
  refine h.bind_topPairs count fun a b hab => ?_
  cases hab with
  | none => exact h.raise _
  | some _ =>
    refine hagree.bind h (.struct Record.like_empty) (fun _ hi => nomatch hi) ?_
    intro after i j s t h hij _ _
    refine h.bind_topPairs count fun a b hab => h.bind_present hab fun es fs hes => ?_
    refine h.bind_modifyPayload hij (fun _ _ _ => .struct (Record.ofPairs_like hes)) ?_
    intro s t h _
    exact h.dropValues_push (2 * count) hij

theorem Twin.typeOf (hagree : Agree E make make') (h : Twin E pairing s t) :
    Both E Anyhow (Exec.typeOf make s) (Exec.typeOf make' t) := by
  rw [Exec.typeOf, Exec.typeOf]
  refine h.bind_peek 0 fun v w hvw _ => ?_
  have hname := congrArg ValueType.name (h.memory.typeOf hvw)
  simp only [get_bind_apply, hname]
  refine hagree.bind h (.string _) (fun _ hi => nomatch hi) ?_
  intro after i j s t h hij _ _
  exact (h.replaceTop (.object hij)).anyhow

/-- The array stays paired while the names are made, because the machine holds it. -/
theorem Twin.appendNames (hagree : Agree E make make') (names : List Text)
    (h : Twin E pairing s t) {i j : ObjectId} (hij : pairing i j) (hheld : i ∈ s.machine.holds) :
    Both E (fun p _ _ => p i j) (Exec.appendNames make i names s)
      (Exec.appendNames make' j names t) := by
  induction names generalizing pairing s t with
  | nil => exact h.pure hij
  | cons name rest ih =>
    rw [Exec.appendNames, Exec.appendNames]
    refine hagree.bind h (.string _) (fun _ hi => nomatch hi) ?_
    intro after x y s' t' h' hxy hkept hmachine
    have hij' : after i j := hkept i j hij (.start (Or.inl hheld))
    refine h'.bind_modifyPayload hij' ?_ ?_
    · intro p q hpq
      cases hpq with
      | array hxs => exact .array (hxs.push (.object hxy))
      | string data => exact .string data
      | struct hr => exact .struct hr
      | function hf => exact .function hf
    · intro s'' t'' h'' hmachine'
      have hheld' : i ∈ s''.machine.holds := by
        rw [hmachine', hmachine]
        exact hheld
      exact ih h'' hij' hheld'

theorem Twin.keys (hagree : Agree E make make') (h : Twin E pairing s t) :
    Both E Anyhow (Exec.keys make s) (Exec.keys make' t) := by
  rw [Exec.keys, Exec.keys]
  refine h.bind_peek 0 fun v w hvw hheld => h.bind_struct? hvw fun a b hab hread => ?_
  cases hab with
  | none => exact h.raise _
  | @some x y hxy =>
    obtain ⟨source, r⟩ := x
    obtain ⟨source', q⟩ := y
    obtain ⟨rfl, _⟩ := hread _ rfl
    refine hagree.bind h (.array .nil) (fun _ hi => nomatch hi) ?_
    intro after i j s' t' h' hij hkept hmachine
    have hsource : after source source' := hkept _ _ hxy.1 (.start (Or.inl (hheld _ rfl)))
    refine h'.bind_push (.object hij) fun s'' t'' h'' hpushed => ?_
    simp only [get_bind_apply]
    refine h''.bind_present (h''.memory.struct? hsource) fun r q hrq => ?_
    have hpushed : i ∈ s''.machine.holds := by
      subst hpushed
      refine mem_holds_of_stack (v := .object i) ?_ rfl
      rw [Array.toList_push]
      exact List.mem_append_right _ (List.mem_singleton_self _)
    rw [hrq.names]
    refine (h''.appendNames hagree q.names hij hpushed).bind fun h hij => ?_
    exact (h.replaceTwo (.object hij)).anyhow

theorem Twin.values (hagree : Agree E make make') (h : Twin E pairing s t) :
    Both E Anyhow (Exec.values make s) (Exec.values make' t) := by
  rw [Exec.values, Exec.values]
  refine h.bind_peek 0 fun v w hvw hheld => h.bind_struct? hvw fun a b hab hread => ?_
  cases hab with
  | none => exact h.raise _
  | @some x y hxy =>
    obtain ⟨source, r⟩ := x
    obtain ⟨source', q⟩ := y
    obtain ⟨rfl, hr⟩ := hread _ rfl
    have hpayload : s.memory.payload? source = some (.struct r) := by
      rw [Memory.struct?_eq] at hr
      split at hr
      · next hp =>
        cases hr
        exact hp
      · cases hr
    refine hagree.bind h (.array hxy.2.rows) ?_ ?_
    · intro i hi
      have hsource : s.Reaches E.left source := .start (Or.inl (hheld _ rfl))
      refine hsource.reference ?_
      rw [Memory.references_eq, hpayload]
      exact hi
    · intro after i j s t h hij _ _
      exact (h.replaceTop (.object hij)).anyhow

theorem Twin.inputLine (hagree : Agree E make make') (h : Twin E pairing s t) :
    Both E Anyhow (Exec.input make s) (Exec.input make' t) := by
  have hline := congrArg Input.nextLine h.input
  have hread := h.with_streams (congrArg Prod.snd hline) h.out h.err
  rw [Exec.input, Exec.input, bind_apply, bind_apply, modifyGet_apply, modifyGet_apply]
  simp only [hline] at hread ⊢
  cases (Input.nextLine t.input).1 with
  | none => exact (hread.push .nil).anyhow
  | some line =>
    refine hagree.bind hread (.string _) (fun _ hi => nomatch hi) ?_
    intro after i j s t h hij _ _
    exact (h.push (.object hij)).anyhow

end

end StackVm
