/-
Tables of globals are finite maps.  The cache in front of the index changes no answer,
whenever it is dropped, and the table keeps every name once, in the order in which the names
were first defined.
-/
import StackVm.Machine.Basic
import StackVm.Proofs.LikeGlobals
import StackVm.Proofs.Records

namespace StackVm

/-- A call on a table of globals. -/
inductive GlobalCall where
  | define (name : Text) (v : Value)
  | set (name : Text) (v : Value)
  | get (name : Text)
  deriving DecidableEq, Repr

/-- What a call gives back. -/
inductive GlobalAnswer where
  | defined
  | assigned (done : Bool)
  | found (v : Option Value)
  deriving DecidableEq, Repr

/-- What happens to a table: a call on it, or the loss of its cache. -/
inductive GlobalEvent where
  | call (c : GlobalCall)
  | drop
  deriving DecidableEq, Repr

/-- The calls among events. -/
def GlobalEvent.call? : GlobalEvent → Option GlobalCall
  | .call c => some c
  | .drop => none

/-- The name that a call binds for sure. -/
def GlobalCall.bound? : GlobalCall → Option Text
  | .define name _ => some name
  | _ => none

/-- A plain finite map from names to values. -/
abbrev Bindings := Text → Option Value

namespace Bindings

/-- Answers a call. -/
def answer (b : Bindings) : GlobalCall → GlobalAnswer × Bindings
  | .define name v => (.defined, Function.update b name (some v))
  | .set name v =>
    if (b name).isSome then (.assigned true, Function.update b name (some v))
    else (.assigned false, b)
  | .get name => (.found (b name), b)

/-- Answers calls one after another. -/
def answers (b : Bindings) : List GlobalCall → List GlobalAnswer × Bindings
  | [] => ([], b)
  | c :: rest =>
    let (a, b) := b.answer c
    let (as, b) := b.answers rest
    (a :: as, b)

end Bindings

namespace Globals

/-- Answers a call; where an assignment fails the table stays as it was. -/
def answer (g : Globals) : GlobalCall → GlobalAnswer × Globals
  | .define name v => (.defined, g.define name v)
  | .set name v =>
    match g.set name v with
    | some g => (.assigned true, g)
    | none => (.assigned false, g)
  | .get name => (.found (g.get name).1, (g.get name).2)

/-- Answers the calls among events one after another. -/
def answers (g : Globals) : List GlobalEvent → List GlobalAnswer × Globals
  | [] => ([], g)
  | .drop :: rest => g.dropCache.answers rest
  | .call c :: rest =>
    let (a, g) := g.answer c
    let (as, g) := g.answers rest
    (a :: as, g)

/-- The map that a table stands for. -/
def bindings (g : Globals) : Bindings := g.get?

/-- A cache that is current knows the place of its name. -/
def Coherent (g : Globals) : Prop :=
  ∀ name slot, g.cached? name = some slot → g.slot? name = some slot

variable {g : Globals} {name other : Text} {slot : Nat} {v : Value} {record : Record}

theorem mem_values_of_bindings (h : g.bindings name = some v) : v ∈ g.values := by
  obtain ⟨slot, -, hv⟩ := Option.bind_eq_some_iff.1 h
  exact List.mem_of_getElem? hv

theorem isSome_bindings (g : Globals) (name : Text) :
    (g.bindings name).isSome = (g.slot? name).isSome :=
  (Record.contains_eq g.toRecord name).symm

/-! ### The operations -/

/-- What a change of the bindings leaves a table to stand for. -/
theorem bindings_change (hset : record = g.toRecord.set name v) :
    (g.change record).bindings = Function.update g.bindings name (some v) := by
  funext other
  rw [Function.update_apply]
  subst hset
  exact Record.get?_set

/-- Remembering the right place leaves a table coherent. -/
theorem coherent_remember (hslot : g.slot? name = some slot) : (g.remember name slot).Coherent := by
  intro other i hcached
  have hknown : name = other ∧ slot = i := by simpa [cached?, Globals.remember] using hcached
  obtain ⟨rfl, rfl⟩ := hknown
  exact hslot

/-- Finding a name goes to its place, through the cache or not. -/
theorem Coherent.resolve_fst (h : g.Coherent) (name : Text) :
    (g.resolve name).1 = g.slot? name := by
  rw [resolve]
  cases hcached : g.cached? name with
  | some slot => exact (h name slot hcached).symm
  | none => cases hslot : g.slot? name <;> rfl

theorem Coherent.resolve (h : g.Coherent) (name : Text) : (g.resolve name).2.Coherent := by
  rw [Globals.resolve]
  cases hcached : g.cached? name with
  | some slot => exact h
  | none =>
    cases hslot : g.slot? name with
    | some slot => exact coherent_remember hslot
    | none => exact h

theorem coherent_dropCache (g : Globals) : g.dropCache.Coherent :=
  fun _ _ hcached => by cases hcached

/-- A table does on a call what it stands for does. -/
structure Follows (g : Globals) (c : GlobalCall) : Prop where
  answer : (g.answer c).1 = (g.bindings.answer c).1
  bindings : (g.answer c).2.bindings = (g.bindings.answer c).2
  coherent : (g.answer c).2.Coherent
  names : (g.answer c).2.names =
    g.names ++ (c.bound?.toList.filter fun name => name ∉ g.names)

theorem Coherent.follows_get (h : g.Coherent) (name : Text) : g.Follows (.get name) where
  answer := by
    simp only [Globals.answer, Bindings.answer, Globals.get, resolve_record, h.resolve_fst]
    rfl
  bindings := congrArg Record.get? (resolve_record g name)
  coherent := h.resolve name
  names := by
    have hkept : (g.get name).2.names = g.names := congrArg Record.names (resolve_record g name)
    simp [Globals.answer, GlobalCall.bound?, hkept]

theorem Coherent.follows_set (h : g.Coherent) (name : Text) (v : Value) :
    g.Follows (.set name v) := by
  have hplace := h.resolve_fst name
  have hfound := g.isSome_bindings name
  cases hslot : g.slot? name with
  | none =>
    have hset : g.set name v = none := by simp [Globals.set, hplace, hslot]
    have hfree : g.bindings name = none := by simpa [hslot] using hfound
    constructor <;> simp [Globals.answer, Bindings.answer, hset, hfree, h, GlobalCall.bound?]
  | some slot =>
    have hresolved := resolve_record g name
    have hset : g.set name v =
        some (((g.resolve name).2.change (g.putAt slot v)).remember name slot) := by
      simp [Globals.set, hplace, hslot, hresolved]
    have hbindings : ((g.resolve name).2.change (g.putAt slot v)).bindings =
        Function.update g.bindings name (some v) := by
      have hput : g.putAt slot v = (g.resolve name).2.toRecord.set name v := by
        rw [hresolved, Record.set_of_slot? hslot]
      rw [bindings_change hput, bindings, hresolved, bindings]
    rw [hslot] at hfound
    constructor
    · simp [Globals.answer, Bindings.answer, hset, hfound]
    · simp only [Globals.answer, Bindings.answer, hset, hfound, Option.isSome_some, if_true]
      exact hbindings
    · simp only [Globals.answer, hset]
      exact coherent_remember hslot
    · simp only [Globals.answer, hset, GlobalCall.bound?]
      exact (List.append_nil g.names).symm

/-- The place of a name that has just been defined. -/
theorem slot?_set (g : Globals) (name : Text) (v : Value) :
    (g.toRecord.set name v).slot? name = some ((g.slot? name).getD g.values.length) := by
  cases hslot : g.slot? name with
  | some slot =>
    rw [Record.set_of_slot? hslot]
    exact hslot
  | none =>
    rw [Record.set_of_new hslot, Record.slot?, Record.push, List.lookup_cons_self, Option.getD_none,
      g.aligned]

theorem follows_define (g : Globals) (name : Text) (v : Value) :
    g.Follows (.define name v) where
  answer := rfl
  bindings := bindings_change rfl
  coherent := coherent_remember (g.slot?_set name v)
  names := by
    have hnames : (g.define name v).names = (g.toRecord.set name v).names := rfl
    simp only [Globals.answer, hnames, Record.names_set, GlobalCall.bound?]
    by_cases hname : name ∈ g.names <;> simp [hname]

theorem Coherent.follows (h : g.Coherent) (c : GlobalCall) : g.Follows c := by
  cases c with
  | define name v => exact follows_define g name v
  | set name v => exact h.follows_set name v
  | get name => exact h.follows_get name

/-! ### Whole runs -/

theorem coherent_new : ({} : Globals).Coherent := fun _ _ h => by cases h

/-- Names that are defined twice, or that are there already, are listed once. -/
theorem append_removeAll_cons (names rest : List Text) (name : Text) :
    names ++ ([name].filter fun n => n ∉ names) ++
        (rest.removeAll (names ++ [name].filter fun n => n ∉ names)).eraseDups =
      names ++ ((name :: rest).removeAll names).eraseDups := by
  by_cases hname : name ∈ names
  · simp [List.cons_removeAll, hname]
  · have hfilter : rest.removeAll (names ++ [name]) =
        (rest.removeAll names).filter fun n => !n == name := by
      simp only [List.removeAll, List.filter_filter]
      apply List.filter_congr
      intro n _
      by_cases hn : n = name <;> simp [hn]
    simp [List.cons_removeAll, hname, hfilter, List.eraseDups_cons]

/-- What events do to a coherent table, their calls do to the map it stands for. -/
theorem Coherent.answers (h : g.Coherent) (events : List GlobalEvent) :
    (g.answers events).1 = (g.bindings.answers (events.filterMap GlobalEvent.call?)).1 ∧
      (g.answers events).2.bindings =
        (g.bindings.answers (events.filterMap GlobalEvent.call?)).2 ∧
      (g.answers events).2.Coherent ∧
      (g.answers events).2.names = g.names ++ (((events.filterMap GlobalEvent.call?).filterMap
        GlobalCall.bound?).removeAll g.names).eraseDups := by
  induction events generalizing g with
  | nil => exact ⟨rfl, rfl, h, (List.append_nil _).symm⟩
  | cons event rest ih =>
    cases event with
    | drop => exact ih (coherent_dropCache g)
    | call c =>
      have hstep := h.follows c
      obtain ⟨hanswers, hbindings, hcoherent, hnames⟩ := ih hstep.coherent
      rw [hstep.bindings] at hanswers hbindings
      refine ⟨?_, hbindings, hcoherent, ?_⟩
      · simp only [Globals.answers, GlobalEvent.call?, List.filterMap_cons, Bindings.answers]
        rw [hstep.answer, hanswers]
      · have hrun : (g.answers (.call c :: rest)).2 = ((g.answer c).2.answers rest).2 := rfl
        rw [hrun, hnames, hstep.names]
        cases hbound : c.bound? with
        | none => simp [GlobalEvent.call?, hbound]
        | some name =>
          simpa [GlobalEvent.call?, hbound] using append_removeAll_cons g.names _ name

/-- A new table answers every call as a plain finite map does, whenever its cache is dropped in
between.  Its names are the defined ones, each once and in the order of first definition, every
name is found at its own place and nowhere else, and every value that a name has is one that a
machine with the table holds on to. -/
theorem answers_transparent (events : List GlobalEvent) :
    ∃ found g b, ({} : Globals).answers events = (found, g) ∧
      Bindings.answers (fun _ => none) (events.filterMap GlobalEvent.call?) = (found, b) ∧
      g.names = ((events.filterMap GlobalEvent.call?).filterMap GlobalCall.bound?).eraseDups ∧
      g.names.Nodup ∧ g.values.length = g.names.length ∧
      (∀ name slot, g.slot? name = some slot ↔ g.names[slot]? = some name) ∧
      (∀ name, b name = (g.slot? name).bind fun slot => g.values[slot]?) ∧
      (∀ name v, b name = some v → v ∈ g.values) ∧
      ∀ (machine : Machine) name id, machine.globals = g → b name = some (.object id) →
        id ∈ machine.holds := by
  obtain ⟨hanswers, hbindings, hcoherent, hnames⟩ := coherent_new.answers events
  have hempty : ({} : Globals).bindings = fun _ => none := rfl
  rw [hempty] at hanswers hbindings
  have hvalue : ∀ name v,
      (Bindings.answers (fun _ => none) (events.filterMap GlobalEvent.call?)).2 name = some v →
        v ∈ (({} : Globals).answers events).2.values := by
    intro name v hv
    rw [← hbindings] at hv
    exact mem_values_of_bindings hv
  refine ⟨_, _, _, rfl, Prod.ext hanswers.symm rfl, ?_, Record.names_nodup _, Record.aligned _,
    Record.indexed _, fun name => (congrFun hbindings name).symm, hvalue, ?_⟩
  · have hnone : ({} : Globals).names = [] := rfl
    rw [hnames, hnone, List.nil_append]
    simp [List.removeAll]
  · intro machine name id hmachine hid
    have hmem := hvalue name _ hid
    rw [← hmachine] at hmem
    have hheld : id ∈ referents machine.globals.values := List.mem_filterMap.2 ⟨_, hmem, rfl⟩
    simp [Machine.holds, hheld]

/-- A name that is defined late, assigned and read again with the cache dropped on the way. -/
example : (({} : Globals).answers [.call (.define [0x78] (.int 1)), .drop,
    .call (.set [] .nil), .call (.define [] (.bool true)), .call (.set [0x78] .nil),
    .call (.get [0x78])]).1 =
      [.defined, .assigned false, .defined, .assigned true, .found (some .nil)] := by
  cbv

end Globals

end StackVm
