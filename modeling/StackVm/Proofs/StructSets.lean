/-
The history of a struct.  A struct is made by a host or by an instruction that takes names and
values from the stack, and fields are set by hosts and by instructions.  Whatever else runs in
between leaves it alone, so that all that read it see the map that has been set.
-/
import StackVm.Proofs.Records
import StackVm.Proofs.StructArrays

namespace StackVm

variable {id : ObjectId} {r : Record} {s t u : Execution} {others : Holdings}
  {below : Array Value} {v : Value} {name : Text}

/-! ### What is no setting -/

/-- The struct holds what it held. -/
def Execution.SameStruct (id : ObjectId) (r : Record) (s t : Execution) : Prop :=
  s.memory.struct? id = some r → t.memory.struct? id = some r

theorem Memory.struct?_modifyArray {m : Memory} (h : m.struct? id = some r) (a : ObjectId)
    (f : Array Value → Array Value) : (m.modifyArray a f).struct? id = some r := by
  have hp := Memory.struct?_eq_some.1 h
  rw [Memory.struct?_eq_some, Memory.payload?_modifyArray, hp]
  split <;> rfl

theorem Memory.struct?_setFieldOf (m : Memory) (i : ObjectId) (name : Text) (v : Value) :
    (m.setFieldOf i name v).struct? id =
      if i = id then (m.struct? id).map (·.set name v) else m.struct? id := by
  rw [Memory.struct?_eq, Memory.struct?_eq, Memory.setFieldOf, Memory.payload?_modifyPayload]
  by_cases hi : i = id
  · rw [if_pos hi, if_pos hi]
    rcases m.payload? id with _ | ⟨_ | _ | _ | _⟩ <;> rfl
  · rw [if_neg hi, if_neg hi]

theorem Memory.struct?_verify (m : Memory) (i : ObjectId) :
    (m.verify i).1.struct? id = m.struct? id := by
  have hmarks : ∀ n : Memory, n.unmarked.struct? id = n.struct? id := fun n => by
    rw [Memory.struct?, Memory.struct?, Memory.unmarked, Array.getElem?_map]
    rcases n.objects[id]? with _ | ⟨_ | _ | _ | _, _⟩ <;> rfl
  rw [← hmarks, Memory.unmarked_verify, hmarks]

instance : Exec.Lenient (Execution.SameStruct id r) where
  refl _ h := h
  trans h h' hr := h' (h hr)
  machine _ _ h := h
  out _ _ h := h
  err _ _ h := h
  array _ a f h := Memory.struct?_modifyArray h a f
  alloc s others p _ h := by
    rw [Execution.after_alloc, Memory.struct?_eq_some]
    refine ((Memory.payload?_after_alloc _ _ p).2 id).trans ?_
    exact Memory.payload?_of_added (s.memory.payload?_add p) (Memory.struct?_eq_some.1 h)
  fill {s t others made} q halloc h := by
    have hp := Memory.struct?_eq_some.1 h
    have hne := Nat.ne_of_lt (Memory.lt_size_of_payload? hp)
    obtain ⟨rfl, -, -, hpayload⟩ := Execution.alloc_ok halloc
    rw [Memory.struct?_eq_some, Memory.payload?_modifyPayload, if_neg (Ne.symm hne)]
    exact Memory.payload?_of_added hpayload hp

namespace Exec

theorem require_ok {op : Opcode} {need : Nat} (h : require op need s = .ok () t) :
    t = s ∧ ∃ f callers, s.machine.frames = f :: callers ∧
      f.base + 1 + need ≤ s.machine.stack.size := by
  obtain ⟨f, _, hframe, hrest⟩ := bind_ok h
  cases frame_state hframe
  rw [get_bind_apply] at hrest
  split at hrest
  · cases hrest
  · next hdepth =>
    cases hrest
    refine ⟨rfl, f, s.machine.frames.tail, ?_, Nat.not_lt.1 hdepth⟩
    rw [frame, get_bind_apply] at hframe
    cases hframes : s.machine.frames with
    | nil =>
      rw [hframes] at hframe
      cases hframe
    | cons g callers =>
      rw [hframes] at hframe
      cases hframe
      rfl

/-- A field of another struct is set. -/
theorem setField_sameStruct
    (hmiss : ∀ (below : Array Value) (v : Value),
      s.machine.stack ≠ (below.push (.object id)).push v) (name : Text) :
    s.SameStruct id r (stateAfter (setField name s)) := by
  by_cases hempty : s.machine.stack.size = 0
  · rw [setField, peek_crash hempty.le]
    exact fun h => h
  obtain ⟨rest, value, hvalue⟩ := Array.eq_push_of_size_ne_zero hempty
  rw [setField, peek_zero_bind hvalue]
  by_cases hsingle : rest.size = 0
  · rw [peek_crash (by rw [hvalue, Array.size_push, hsingle])]
    exact fun h => h
  obtain ⟨below, target, rfl⟩ := Array.eq_push_of_size_ne_zero hsingle
  rw [peek_one_bind hvalue]
  cases target with
  | object i =>
    have hother : i ≠ id := fun heq => hmiss below value (heq ▸ hvalue)
    cases htarget : s.memory.struct? i with
    | none =>
      rw [struct?, bind_assoc, get_bind_apply, htarget]
      exact fun h => h
    | some q =>
      rw [struct?_bind htarget]
      have hset : s.SameStruct id r { s with memory := s.memory.setFieldOf i name value } :=
        fun h => (s.memory.struct?_setFieldOf i name value).trans ((if_neg hother).trans h)
      exact Lenient.trans hset (leaves_replaceTwo value _)
  | _ => exact fun h => h

/-- An instruction leaves a struct alone unless it sets one of its fields. -/
theorem step_sameStruct (hmiss : s.opcode? = some .setField →
      ∀ name below v, s.operandName? = some name → ¬ s.Offers below [.object id, v])
    (others : Holdings) : s.SameStruct id r (stateAfter (step (alloc others) s)) := by
  by_cases hop : s.opcode? = some .setField
  case neg =>
    exact leaves_step (fun s i h => (s.memory.struct?_verify i).trans h) (fun h => absurd h hop)
      (fun _ _ _ h => h) others
  obtain ⟨-, byte, err, hbyte, hfetch⟩ := s.fetch_of_opcode hop
  have hact : perform (alloc others) .setField =
      nameOperand >>= fun name => setField name >>= fun _ => pure Progress.running := by
    rw [perform, if_neg (by decide), execute, bind_assoc]
  rw [step_of_fetch hfetch hbyte, hact]
  have hdemand : Leaves (Execution.SameStruct id r) (demand .setField) := leaves_demand _
  change Execution.SameStruct id r { s with err, machine := s.machine.ahead 1 } _
  refine hdemand.bind_at fun _ t ht => ?_
  obtain ⟨rfl, f, callers, hframes, hdepth⟩ :=
    require_ok (show require .setField 2 _ = .ok () t from ht)
  refine leaves_nameOperand.bind_at fun name named hnamed => ?_
  have hname : s.operandName? = some name := by
    rw [Execution.operandName?, bind_apply, hfetch]
    dsimp only
    rw [hnamed]
  have hmissed : named.SameStruct id r (stateAfter (setField name named)) := by
    refine setField_sameStruct (fun below v hstack => hmiss hop name below v hname ?_) name
    rw [nameOperand_state hnamed] at hstack
    obtain ⟨g, hg, hbase⟩ := Machine.frames_of_ahead hframes
    refine ⟨hstack, g, callers, hg, ?_⟩
    have hsize : s.machine.stack.size = below.size + 2 := by
      have hstack' : s.machine.stack = (below.push (.object id)).push v := hstack
      rw [hstack', Array.size_push, Array.size_push]
    have hdepth' : f.base + 1 + 2 ≤ s.machine.stack.size := hdepth
    omega
  rwa [stateAfter_bind_pure]

/-! ### Settings -/

/-- A field that is set by an instruction. -/
theorem step_setField (h : s.Offers below [.object id, v]) (hop : s.opcode? = some .setField)
    (hname : s.operandName? = some name) (hr : s.memory.struct? id = some r) (others : Holdings) :
    ∃ t, step (alloc others) s = .ok .running t ∧ t.memory = s.memory.setFieldOf id name v ∧
      t.machine.stack = below.push v := by
  obtain ⟨hroom, err, hstep⟩ := h.step_name hop rfl hname
    (show execute (alloc others) .setField = nameOperand >>= setField from rfl) nofun
  let u : Execution := { s with err, machine := s.machine.ahead 2 }
  refine ⟨Execution.withStack { u with memory := s.memory.setFieldOf id name v } (below.push v),
    ?_, rfl, rfl⟩
  rw [hstep, bind_apply, @setField_apply u _ _ _ _ h.push_two (h.room_two hroom) hr name]
  rfl

theorem pairs_congr {m n : Memory} (hstrings : ∀ i data, m.string? i = some data →
      n.string? i = some data) {vs : List Value} {fields : List (Text × Value)}
    (h : pairs m vs = some fields) : pairs n vs = some fields := by
  induction vs using List.twoStepInduction generalizing fields with
  | nil => exact h
  | singleton v => cases v <;> cases h
  | cons_cons v w rest ih _ =>
    cases v with
    | object i =>
      rw [pairs] at h ⊢
      cases hname : m.string? i with
      | none =>
        rw [hname] at h
        cases h
      | some name =>
        cases hrest : pairs m rest with
        | none =>
          rw [hname, hrest] at h
          cases h
        | some tail =>
          rw [hname, hrest] at h
          rw [hstrings i name hname, ih hrest]
          exact h
    | _ => cases h

theorem topPairs_ok {count : Nat} {named : Option (List (Text × Value))}
    (h : topPairs count s = .ok named t) : t = s ∧ 2 * count ≤ s.machine.stack.size ∧
      named = pairs s.memory (s.machine.stack.extract (s.machine.stack.size - 2 * count)
        s.machine.stack.size).toList := by
  rw [topPairs, topValues, bind_assoc, get_bind_apply] at h
  dsimp only at h
  split at h
  case isFalse => cases h
  case isTrue hsize =>
    cases h
    exact ⟨rfl, hsize, rfl⟩

/-- The struct that is built has had the fields set that were on the stack, one after another. -/
theorem buildStruct_ok {count : Nat} (h : buildStruct (alloc others) count s = .ok () t) :
    ∃ (below : Array Value) (top : List Value) (sets : List (Text × Value)) (made : ObjectId),
      s.machine.stack = below ++ top.toArray ∧ pairs s.memory top = some sets ∧
      t.machine.stack = below.push (.object made) ∧
      t.memory.struct? made = some (Record.ofPairs sets) := by
  obtain ⟨_, _, hfirst, hrest⟩ := bind_ok h
  obtain ⟨hsame, hdepth, rfl⟩ := topPairs_ok hfirst
  rw [hsame] at hrest
  let depth := s.machine.stack.size - 2 * count
  let top := (s.machine.stack.extract depth s.machine.stack.size).toList
  have hsplit : s.machine.stack = s.machine.stack.take depth ++ top.toArray := by
    rw [Array.toArray_toList, Array.take, Array.extract_append_extract,
      Nat.min_eq_left (Nat.zero_le _), Nat.max_eq_right (Nat.sub_le _ _), Array.extract_size]
  cases hpairs : pairs s.memory top with
  | none =>
    rw [hpairs] at hrest
    cases hrest
  | some sets =>
    rw [hpairs] at hrest
    obtain ⟨made, u, halloc, hread⟩ := bind_ok hrest
    obtain ⟨rfl, hu, -, hpayload⟩ := Execution.alloc_ok halloc
    obtain ⟨_, _, hsecond, hfill⟩ := bind_ok hread
    obtain ⟨hsame', -, rfl⟩ := topPairs_ok hsecond
    have hstack : u.machine.stack = s.machine.stack := by rw [hu]
    have hagain : pairs u.memory top = some sets := by
      refine pairs_congr (fun i data hdata => ?_) hpairs
      rw [Memory.string?_eq_some] at hdata ⊢
      exact Memory.payload?_of_added hpayload hdata
    rw [hsame', hstack, hagain, present_bind] at hfill
    let filled : Execution := { u with
      memory := u.memory.modifyPayload s.memory.objects.size fun _ =>
        .struct (Record.ofPairs sets) }
    have hdrop : (dropValues (2 * count) >>= fun _ => push (.object s.memory.objects.size)) filled =
        .ok () t := hfill
    rw [dropValues, bind_assoc, get_bind_apply, shrinkTo_bind (Nat.sub_le _ _), push_eq] at hdrop
    split at hdrop
    case isFalse => cases hdrop
    case isTrue =>
      cases hdrop
      refine ⟨_, top, sets, s.memory.objects.size, hsplit, hpairs, ?_, ?_⟩
      · dsimp only [filled]
        rw [hstack, Array.shrink_eq_take]
      · rw [Memory.struct?_eq_some, Memory.payload?_modifyPayload, if_pos rfl, hpayload, if_pos rfl]
        rfl

/-- What `buildStruct_ok` says holds of the whole instruction. -/
theorem step_buildStruct (hop : s.opcode? = some .buildStruct)
    (h : step (alloc others) s = .ok .running t) :
    ∃ (below : Array Value) (top : List Value) (sets : List (Text × Value)) (made : ObjectId),
      s.machine.stack = below ++ top.toArray ∧ pairs s.memory top = some sets ∧
      t.machine.stack = below.push (.object made) ∧
      t.memory.struct? made = some (Record.ofPairs sets) := by
  obtain ⟨-, byte, err, hbyte, hfetch⟩ := s.fetch_of_opcode hop
  rw [step_of_fetch hfetch hbyte] at h
  have hexecute : (execute (alloc others) .buildStruct >>= fun _ => pure Progress.running)
      { s with err, machine := s.machine.ahead 1 } = .ok .running t := h
  obtain ⟨_, _, hbuild, hdone⟩ := bind_ok hexecute
  cases hdone
  obtain ⟨count, _, hcount, hrest⟩ := bind_ok hbuild
  cases operand_state hcount
  obtain ⟨_, _, hrequire, hbuilt⟩ := bind_ok hrest
  rw [(require_ok hrequire).1] at hbuilt
  have hmade := buildStruct_ok hbuilt
  exact hmade

end Exec

/-! ### Histories -/

/-- What has been set in the struct `id`, first to last, when a memory has come about.  The
instructions are those of any machines, and a host may do what it likes to other objects. -/
inductive Memory.Filled (id : ObjectId) : List (Text × Value) → Memory → Prop
  /-- A host makes an empty struct. -/
  | new {holdings : Holdings} {m n : Memory} : Memory.alloc holdings (.struct {}) m = .ok id n →
      Filled id [] n
  /-- The struct is built of names and values on the stack, among which a name may come again. -/
  | built {s t : Execution} {others : Holdings} {below : Array Value} {top : List Value}
      {sets : List (Text × Value)} : s.opcode? = some .buildStruct →
      Exec.step (Exec.alloc others) s = .ok .running t → s.machine.stack = below ++ top.toArray →
      t.machine.stack = below.push (.object id) → Exec.pairs s.memory top = some sets →
      Filled id sets t.memory
  /-- A host sets a field. -/
  | set {m : Memory} {sets : List (Text × Value)} (name : Text) (v : Value) : Filled id sets m →
      Filled id (sets ++ [(name, v)]) (m.setFieldOf id name v)
  /-- An instruction sets a field. -/
  | setField {s : Execution} {others : Holdings} {below : Array Value} {name : Text} {v : Value}
      {sets : List (Text × Value)} : Filled id sets s.memory → s.opcode? = some .setField →
      s.operandName? = some name → s.Offers below [.object id, v] →
      Filled id (sets ++ [(name, v)]) (stateAfter (Exec.step (Exec.alloc others) s)).memory
  /-- An instruction sets no field of this struct. -/
  | step {s : Execution} {others : Holdings} {sets : List (Text × Value)} :
      Filled id sets s.memory →
      (s.opcode? = some .setField → ∀ name below v, s.operandName? = some name →
        ¬ s.Offers below [.object id, v]) →
      Filled id sets (stateAfter (Exec.step (Exec.alloc others) s)).memory
  /-- The host leaves the contents of the struct alone. -/
  | host {m n : Memory} {sets : List (Text × Value)} : Filled id sets m →
      n.payload? id = m.payload? id → Filled id sets n

/-- A struct is the record that its history makes. -/
theorem Memory.Filled.struct? {sets : List (Text × Value)} {m : Memory}
    (h : Memory.Filled id sets m) : m.struct? id = some (Record.ofPairs sets) := by
  induction h with
  | new halloc =>
    obtain ⟨rfl, -, -, hpayload⟩ := Memory.alloc_payload? halloc
    exact Memory.struct?_eq_some.2 ((hpayload _).trans (if_pos rfl))
  | @built s t others below top sets hop hstep hstack hpushed hpairs =>
    obtain ⟨below', top', sets', made, hstack', hpairs', hpushed', hmade⟩ :=
      Exec.step_buildStruct hop hstep
    -- The stacks determine which struct it is and what it was built of.
    obtain ⟨hid, rfl⟩ := Array.push_eq_push.1 (hpushed.symm.trans hpushed')
    cases hid
    have htop : top = top' :=
      congrArg Array.toList ((Array.append_right_inj below).1 (hstack.symm.trans hstack'))
    cases hpairs.symm.trans (htop ▸ hpairs')
    exact hmade
  | @set m sets name v _ ih =>
    rw [Memory.struct?_setFieldOf, if_pos rfl, ih, Record.ofPairs_append]
    rfl
  | @setField s others below name v sets _ hop hname hoffers ih =>
    obtain ⟨t, hstep, hmemory, -⟩ := Exec.step_setField hoffers hop hname ih others
    rw [hstep, stateAfter, hmemory, Memory.struct?_setFieldOf, if_pos rfl, ih,
      Record.ofPairs_append]
    rfl
  | step _ hmiss ih => exact Exec.step_sameStruct hmiss _ ih
  | host _ hsame ih => exact Memory.struct?_eq_some.2 (hsame.trans (Memory.struct?_eq_some.1 ih))

/-! ### What is read -/

/-- The instruction puts a value in place of its operands and changes no object. -/
def Execution.Answers (s : Execution) (others : Holdings) (below : Array Value) (v : Value) :
    Prop :=
  ∃ t, Exec.step (Exec.alloc others) s = .ok .running t ∧ t.machine.stack = below.push v ∧
    t.memory = s.memory

/-- The instruction puts the value of a field in place of its operands, or finds no such field. -/
def Execution.Finds (s : Execution) (others : Holdings) (below : Array Value) (name : Text) :
    Option Value → Prop
  | some v => s.Answers others below v
  | none => ∃ t, Exec.step (Exec.alloc others) s = .error (.raised (.undefinedField name)) t ∧
      t.memory = s.memory

/-- All instructions that read the struct `id` read it as the record `r`, a map that what has been
set makes. -/
structure Memory.Shows (m : Memory) (id : ObjectId) (r : Record) (sets : List (Text × Value)) :
    Prop where
  getField : ∀ {s : Execution} {below : Array Value} {name : Text} (others : Holdings),
    s.memory = m → s.opcode? = some .getField → s.Offers below [.object id] →
    s.operandName? = some name → s.Finds others below name (Record.lastSet sets name)
  index : ∀ {s : Execution} {below : Array Value} {key : ObjectId} {name : Text}
    (others : Holdings), s.memory = m → s.opcode? = some .index →
    s.Offers below [.object id, .object key] → m.string? key = some name →
    s.Finds others below name (Record.lastSet sets name)
  contains : ∀ {s : Execution} {below : Array Value} {key : ObjectId} {name : Text}
    (others : Holdings), s.memory = m → s.opcode? = some .contains →
    s.Offers below [.object id, .object key] → m.string? key = some name →
    s.Answers others below (.bool (Record.lastSet sets name).isSome)
  length : ∀ {s : Execution} {below : Array Value} (others : Holdings), s.memory = m →
    s.opcode? = some .length → s.Offers below [.object id] →
    s.Answers others below (.int (Int64.ofNat r.size))
  /-- The array of names has a new string for each of them. -/
  keys : ∀ {s t : Execution} {below : Array Value} {others : Holdings}, s.memory = m →
    s.opcode? = some .keys → s.Offers below [.object id] →
    Exec.step (Exec.alloc others) s = .ok .running t →
    ∃ (a : ObjectId) (elements : Array Value), t.machine.stack = below.push (.object a) ∧
      t.memory.array? a = some elements ∧ elements.size = r.size ∧ elements.toList.Nodup ∧
      ∀ (i : Nat) (name : Text), r.names[i]? = some name → ∃ key : ObjectId,
        elements[i]? = some (.object key) ∧ t.memory.string? key = some name ∧
        m.objects.size ≤ key
  keys_room : ∀ {s : Execution} {below : Array Value} {held : RootId → List ObjectId},
    s.memory = m → s.opcode? = some .keys → s.Offers below [.object id] →
    s.HasRoom held (r.size + 1) → ∃ t, Exec.step (Exec.alloc (.of held)) s = .ok .running t
  /-- The array of values has the current value under each name. -/
  values : ∀ {s t : Execution} {below : Array Value} {others : Holdings}, s.memory = m →
    s.opcode? = some .values → s.Offers below [.object id] →
    Exec.step (Exec.alloc others) s = .ok .running t →
    ∃ (a : ObjectId) (elements : Array Value), t.machine.stack = below.push (.object a) ∧
      t.memory.array? a = some elements ∧ elements.size = r.size ∧
      ∀ (i : Nat) (name : Text), r.names[i]? = some name → elements[i]? = Record.lastSet sets name
  values_room : ∀ {s : Execution} {below : Array Value} {held : RootId → List ObjectId},
    s.memory = m → s.opcode? = some .values → s.Offers below [.object id] → s.HasRoom held 1 →
    ∃ t, Exec.step (Exec.alloc (.of held)) s = .ok .running t

theorem Execution.step_of_act {act : ExecM Unit}
    (hstep : Exec.step (Exec.alloc others) s = (act >>= fun _ => pure Progress.running) u)
    (hact : act u = .ok () t) : Exec.step (Exec.alloc others) s = .ok .running t := by
  rw [hstep, bind_apply, hact]
  rfl

theorem Execution.answers_of_act {act : ExecM Unit}
    (hstep : Exec.step (Exec.alloc others) s = (act >>= fun _ => pure Progress.running) u)
    (hmemory : u.memory = s.memory) (hact : act u = .ok () (u.withStack (below.push v))) :
    s.Answers others below v :=
  ⟨u.withStack (below.push v), Execution.step_of_act hstep hact, rfl, hmemory⟩

theorem Execution.finds_of_act {act : ExecM Unit} {field : Option Value}
    (hstep : Exec.step (Exec.alloc others) s = (act >>= fun _ => pure Progress.running) u)
    (hmemory : u.memory = s.memory) (hact : act u = Exec.lookUp u below name field) :
    s.Finds others below name field := by
  cases field with
  | some v => exact Execution.answers_of_act hstep hmemory hact
  | none =>
    refine ⟨u, ?_, hmemory⟩
    rw [hstep, bind_apply, hact]
    rfl

theorem Memory.shows_of_struct? {m : Memory} {sets : List (Text × Value)}
    (hr : m.struct? id = some r) (hsets : r.Remembers sets) : m.Shows id r sets := by
  constructor
  case getField =>
    rintro s below name others rfl hop hoffers hname
    obtain ⟨hroom, err, hstep⟩ := hoffers.step_name hop rfl hname
      (show Exec.execute (Exec.alloc others) .getField = Exec.nameOperand >>= Exec.getField
        from rfl) nofun
    rw [← hsets.get]
    exact Execution.finds_of_act hstep rfl
      (Exec.getField_apply (s := { s with err, machine := s.machine.ahead 2 }) hoffers.push_one
        (hoffers.room_one hroom) hr name)
  case index =>
    rintro s below key name others rfl hop hoffers hname
    obtain ⟨hroom, err, hstep⟩ := hoffers.step hop rfl nofun (Exec.alloc others)
    rw [← hsets.get]
    exact Execution.finds_of_act hstep rfl
      (Exec.index_apply hoffers.push_two (hoffers.room_two hroom) hr hname)
  case contains =>
    rintro s below key name others rfl hop hoffers hname
    obtain ⟨hroom, err, hstep⟩ := hoffers.step hop rfl nofun (Exec.alloc others)
    rw [← hsets.contains]
    exact Execution.answers_of_act hstep rfl
      (Exec.contains_apply hoffers.push_two (hoffers.room_two hroom) hr hname)
  case length =>
    rintro s below others rfl hop hoffers
    obtain ⟨hroom, err, hstep⟩ := hoffers.step hop rfl nofun (Exec.alloc others)
    exact Execution.answers_of_act hstep rfl
      (Exec.length_apply hoffers.push_one (hoffers.room_one hroom) hr)
  case keys =>
    rintro s t below others rfl hop hoffers ht
    obtain ⟨-, err, hstep⟩ := hoffers.step hop rfl nofun (Exec.alloc others)
    rw [hstep] at ht
    obtain ⟨_, _, hkeys, hdone⟩ := bind_ok ht
    cases hdone
    obtain ⟨a, keys, hstack, hlist, hstrings, hnodup, hfresh⟩ :=
      Exec.keys_ok (s := { s with err, machine := s.machine.ahead 1 }) hoffers.push_one hr hkeys
    refine ⟨a, _, hstack, hlist, ?_, ?_, fun i name hname => ?_⟩
    · rw [List.size_toArray, List.length_map, hstrings.length_eq, hsets.size]
    · exact hnodup.map fun _ _ => Value.object.inj
    · obtain ⟨hi, rfl⟩ := List.getElem?_eq_some_iff.1 hname
      obtain ⟨hlength, hget⟩ := List.forall₂_iff_get.1 hstrings
      have hi' : i < keys.length := hlength ▸ hi
      refine ⟨keys[i], ?_, hget i hi' hi, hfresh _ (List.getElem_mem hi')⟩
      rw [List.getElem?_toArray, List.getElem?_map, List.getElem?_eq_getElem hi']
      rfl
  case keys_room =>
    rintro s below held rfl hop hoffers hroom
    obtain ⟨hdepth, err, hstep⟩ := hoffers.step hop rfl nofun (Exec.alloc (.of held))
    obtain ⟨t, ht⟩ := Exec.keys_of_room (s := { s with err, machine := s.machine.ahead 1 })
      hoffers.push_one hdepth hr (hroom.fetched s.input err)
    exact ⟨t, Execution.step_of_act hstep ht⟩
  case values =>
    rintro s t below others rfl hop hoffers ht
    obtain ⟨hroom, err, hstep⟩ := hoffers.step hop rfl nofun (Exec.alloc others)
    rw [hstep] at ht
    obtain ⟨_, _, hvalues, hdone⟩ := bind_ok ht
    cases hdone
    obtain ⟨a, hstack, hlist⟩ :=
      Exec.values_ok (s := { s with err, machine := s.machine.ahead 1 }) hoffers.push_one
        (hoffers.room_one hroom) hr hvalues
    refine ⟨a, _, hstack, hlist, ?_, fun i name hname => ?_⟩
    · rw [List.size_toArray]
      exact r.aligned
    · have hvalue := congrArg (·[i]?) hsets.values
      simp only [List.getElem?_map, hname, Option.map_some] at hvalue
      obtain ⟨v, hv, hlast⟩ := Option.map_eq_some_iff.1 hvalue
      rw [List.getElem?_toArray, hv, hlast]
  case values_room =>
    rintro s below held rfl hop hoffers hroom
    obtain ⟨hdepth, err, hstep⟩ := hoffers.step hop rfl nofun (Exec.alloc (.of held))
    obtain ⟨t, ht⟩ := Exec.values_of_room (s := { s with err, machine := s.machine.ahead 1 })
      hoffers.push_one (hoffers.room_one hdepth) hr (hroom.fetched s.input err)
    exact ⟨t, Execution.step_of_act hstep ht⟩

/-- A struct is an insertion-ordered map, however its fields have been set: it remembers what has
been set, and all that read it show that.  Two settings one after another may change places as long
as they are of different names, of which the first is there already. -/
theorem Memory.Filled.insertionOrdered {sets : List (Text × Value)} {m : Memory}
    (h : Memory.Filled id sets m) : ∃ r, m.struct? id = some r ∧ r.Remembers sets ∧
      m.Shows id r sets ∧
      ∀ (earlier later : List (Text × Value)) (a b : Text) (v w : Value) (n : Memory),
        sets = earlier ++ (a, v) :: (b, w) :: later → a ∈ earlier.map (·.1) → a ≠ b →
        Memory.Filled id (earlier ++ (b, w) :: (a, v) :: later) n → n.struct? id = some r := by
  have hsets := Record.remembers_ofPairs sets
  refine ⟨Record.ofPairs sets, h.struct?, hsets, Memory.shows_of_struct? h.struct? hsets, ?_⟩
  rintro earlier later a b v w n rfl ha hne hn
  rw [hn.struct?, Record.ofPairs_swap later ha hne]

/-- A function that builds a struct with a name that comes twice, and reads that field. -/
def buildingSample : Execution where
  memory :=
    { rareSample.memory with
      objects := rareSample.memory.objects ++
        #[⟨.string [0x61], none⟩, ⟨.string [0x62], none⟩]
      chunks := #[{
        code := #[28, 3, 29, 0]
        constants := #[.object 1]
        lines := #[1, 1, 1, 1] }] }
  machine :=
    { rareSample.machine with
      stack := #[.object 0, .object 1, .int 1, .object 2, .int 2, .object 1, .int 3]
      stackMax := 8
      frames := [⟨0, 0, 0⟩] }

/-- The struct remembers what came last under the name, and the field is read as that. -/
theorem insertionOrdered_buildingSample :
    ∃ (t : Execution) (r : Record),
      Exec.step (Exec.alloc (.of fun _ => [])) buildingSample = .ok .running t ∧
      Memory.Filled 3 [([0x61], .int 1), ([0x62], .int 2), ([0x61], .int 3)] t.memory ∧
      t.memory.struct? 3 = some r ∧
      r.Remembers [([0x61], .int 1), ([0x62], .int 2), ([0x61], .int 3)] ∧
      t.Finds (.of fun _ => []) #[.object 0] [0x61] (some (.int 3)) := by
  have hstep : Exec.step (Exec.alloc (.of fun _ => [])) buildingSample = .ok .running
      (stateAfter (Exec.step (Exec.alloc (.of fun _ => [])) buildingSample)) := rfl
  have hfilled : Memory.Filled 3 [([0x61], .int 1), ([0x62], .int 2), ([0x61], .int 3)]
      (stateAfter (Exec.step (Exec.alloc (.of fun _ => [])) buildingSample)).memory :=
    @Memory.Filled.built 3 _ _ _ #[.object 0]
      [.object 1, .int 1, .object 2, .int 2, .object 1, .int 3] _ rfl hstep rfl rfl rfl
  obtain ⟨r, hr, hsets, hshows, -⟩ := hfilled.insertionOrdered
  refine ⟨_, r, hstep, hfilled, hr, hsets, ?_⟩
  exact hshows.getField _ rfl rfl ⟨rfl, ⟨0, 2, 0⟩, [], rfl, Nat.le_refl 1⟩ rfl

end StackVm
