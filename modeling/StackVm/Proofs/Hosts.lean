/-
Machines that share a heap.  A host runs instructions, interpretations and
definitions of its machines in any order.  From a sound state every state it comes
to is sound, no collection finds anything reclaimed or foreign, and no instruction
reads a reclaimed object.
-/
import Mathlib.Logic.Function.Basic
import StackVm.Proofs.Watched

namespace StackVm

/-- A heap with the machines that share it. -/
structure Host where
  memory : Memory
  /-- The machines, by the root sources they are registered under. -/
  machines : RootId → Option Machine
  /-- What the root sources hold that are no machines. -/
  held : RootId → List ObjectId

/-- What a host does with one of its machines. -/
inductive Event where
  /-- Interprets a function for a number of instructions at most. -/
  | interpret (fn : Option ObjectId) (steps : Nat)
  /-- Goes on for a number of instructions at most. -/
  | resume (steps : Nat)
  | setArgs (args : List Text)
  | define (name : Text) (v : Value)

/-- What is left of an execution. -/
def Interpretation.state : Interpretation → Execution
  | .done _ s => s
  | .faulted _ s => s
  | .unfinished s => s

namespace Event

/-- The object that a host hands to the machine. -/
def given : Event → Option ObjectId
  | .interpret fn _ => fn
  | .define _ v => v.id?
  | _ => none

/-- Only live objects of the heap are reachable from what is handed over. -/
def Admitted (e : Event) (m : Memory) : Prop :=
  ∀ id, m.Reaches (· ∈ e.given) id → m.Owns id

/-- The end of a computation that is not followed by instructions. -/
def settle : EStateM.Result Stop Execution Unit → Interpretation
  | .ok _ s => .unfinished s
  | .error (.fault f) s => .faulted f s
  | .error (.raised cause) s => .done .runtimeError (Exec.abandon s cause)

/-- Carries out an event, with a way to make objects. -/
def carryOut (make : Exec.Allocator) : Event → Execution → Interpretation
  | .interpret fn steps, s => Exec.interpretWith make steps fn s
  | .resume steps, s => Exec.runWith make steps s
  | .setArgs args, s => settle (Exec.setArgsWith make args s)
  | .define name v, s => settle (Exec.define name v s)

end Event

namespace Host

/-- What each root source holds. -/
def holds (h : Host) (id : RootId) : List ObjectId :=
  match h.machines id with
  | some m => m.holds
  | none => h.held id

/-- Every open machine is registered, and everything reachable is live and belongs to
the heap. -/
structure Sound (h : Host) : Prop where
  wellFormed : h.memory.WellFormed
  source : ∀ id m, h.machines id = some m → m.source = id
  registered : ∀ id m, h.machines id = some m → m.closed = false →
    ∃ source ∈ h.memory.heap.roots.sources, source.id = id
  owns : ∀ id, h.memory.Reachable (.of h.holds) id → h.memory.Owns id

/-- The host after an execution of the machine `id`. -/
def put (h : Host) (id : RootId) (s : Execution) : Host :=
  { h with memory := s.memory, machines := Function.update h.machines id (some s.machine) }

/-- One event of an open machine, whatever its input and output streams are. -/
inductive Step : Host → Host → Prop
  | run {h : Host} {id : RootId} {m : Machine} (e : Event) (input : Text)
      (out err : Array UInt8) : h.machines id = some m → m.closed = false →
      e.Admitted h.memory →
      Step h (h.put id (e.carryOut (Exec.alloc (.of h.holds)) ⟨h.memory, m, input, out, err⟩).state)

/-- Events of any machines in any order. -/
inductive Runs : Host → Host → Prop
  | refl {h : Host} : Runs h h
  | step {h k l : Host} : Runs h k → Step k l → Runs h l

end Host

section

variable {E : Comparison} {pairing : Pairing} {s t : Execution} {make make' : Exec.Allocator}

theorem Both.settle {post : Pairing → Unit → Unit → Prop}
    {r r' : EStateM.Result Stop Execution Unit} (h : Both E post r r') :
    Alongside E (Event.settle r) (Event.settle r') := by
  cases h with
  | ok htwin _ => exact .unfinished htwin
  | @stop pairing e s t htwin he =>
    cases e with
    | raised cause => exact .done .runtimeError (htwin.abandon cause)
    | fault f => exact .faulted htwin he

/-- Every event keeps twins in lockstep. -/
theorem Twin.carryOut (hagree : Agree E make make') (h : Twin E pairing s t)
    (hopen : s.machine.closed = false) (e : Event) (hgiven : ∀ i ∈ e.given, pairing i i) :
    Alongside E (e.carryOut make s) (e.carryOut make' t) := by
  cases e with
  | interpret fn steps =>
    have hrestart := h.with_machine h.machine.restart rfl rfl rfl
    refine Twin.interpretWith hagree hrestart hopen ?_ steps
    cases fn with
    | none => exact .none
    | some i => exact .some (hgiven i rfl)
  | resume steps => exact h.runWith hagree steps
  | setArgs args => exact (h.setArgsWith hagree args).settle
  | define name v => exact (h.define name (Value.like_self hgiven)).settle

/-- What an interpretation leaves on the left is sound, with the machine where it was
registered and the same root sources. -/
theorem Alongside.left {x y : Interpretation} (h : Alongside E x y) :
    E.left.Carries x.state ∧ x.state.Sound (.of E.left.held) := by
  cases h with
  | done outcome htwin => exact ⟨htwin.left, htwin.sound_left⟩
  | faulted htwin _ => exact ⟨htwin.left, htwin.sound_left⟩
  | unfinished htwin => exact ⟨htwin.left, htwin.sound_left⟩

theorem Alongside.expected {x y : Interpretation} (h : Alongside E x y) {f : Fault}
    {s : Execution} (hx : x = .faulted f s) : (Stop.fault f).Expected := by
  subst hx
  cases h with
  | faulted _ he => exact he

/-- Corresponding objects may be counted among more. -/
theorem SameCourse.mono {held held' : RootId → List ObjectId} {x y : Interpretation}
    {wider : Pairing} (h : SameCourse pairing held held' s t x y)
    (hwider : ∀ i j, pairing i j → wider i j) : SameCourse wider held held' s t x y := by
  have hmono : ∀ {s' t'}, Corresponds pairing held held' s t s' t' →
      Corresponds wider held held' s t s' t' := by
    rintro s' t' ⟨hsize, after, hafter, htraces⟩
    refine ⟨hsize, after, hafter, fun i j hij => ?_⟩
    rcases htraces i j hij with hold | hnew
    · exact Or.inl (hwider i j hold)
    · exact Or.inr hnew
  cases h with
  | done outcome h herror => exact .done outcome (hmono h) herror
  | faulted f h => exact .faulted f (hmono h)
  | unfinished h => exact .unfinished (hmono h)

end

namespace Host

variable {h : Host} {id : RootId} {m : Machine}

/-- A machine of the host knows what all root sources hold. -/
theorem Sound.holdings (hs : h.Sound) (hm : h.machines id = some m) :
    m.holdings (.of h.holds) = .of h.holds := by
  rw [Machine.holdings_of]
  congr 1
  funext root
  split
  · next hroot =>
    rw [hroot, hs.source id m hm, holds, hm]
  · rfl

theorem Sound.execution (hs : h.Sound) (hm : h.machines id = some m) (input : Text)
    (out err : Array UInt8) :
    Execution.Sound (.of h.holds) ⟨h.memory, m, input, out, err⟩ :=
  ⟨hs.wellFormed, fun i hi => hs.owns i (hs.holdings hm ▸ hi)⟩

theorem machines_put (h : Host) (id : RootId) (s : Execution) (root : RootId) :
    (h.put id s).machines root = if root = id then some s.machine else h.machines root :=
  Function.update_apply ..

theorem holds_put (h : Host) (id : RootId) (s : Execution) (root : RootId) :
    (h.put id s).holds root = if root = id then s.machine.holds else h.holds root := by
  rw [holds, machines_put]
  by_cases hroot : root = id
  · simp only [if_pos hroot]
  · simp only [if_neg hroot]
    rfl

/-- The host is sound again after an execution that leaves a sound state. -/
theorem Sound.put (hs : h.Sound) (hm : h.machines id = some m) {s : Execution}
    (hsource : s.machine.source = m.source)
    (hroots : s.memory.heap.roots = h.memory.heap.roots) (hopen : m.closed = false)
    (hsound : s.Sound (.of h.holds)) : (h.put id s).Sound where
  wellFormed := hsound.wellFormed
  source root n hn := by
    rw [machines_put] at hn
    split at hn
    · next hroot =>
      cases hn
      rw [hsource, hs.source id m hm, hroot]
    · exact hs.source root n hn
  registered root n hn hclosed := by
    have hsources : (h.put id s).memory.heap.roots = h.memory.heap.roots := hroots
    rw [hsources]
    rw [machines_put] at hn
    split at hn
    · next hroot => exact hroot ▸ hs.registered id m hm hopen
    · exact hs.registered root n hn hclosed
  owns i hi := by
    have hholds : (h.put id s).holds =
        fun root => if root = s.machine.source then s.machine.holds else h.holds root := by
      funext root
      rw [holds_put, hsource, hs.source id m hm]
    rw [hholds, ← Machine.holdings_of] at hi
    exact hsound.owns i hi

/-- An event of an open machine of a sound host runs alongside the same event with
reclaimed contents overwritten and allocations watched. -/
theorem Sound.alongside (hs : h.Sound) (hm : h.machines id = some m) (hopen : m.closed = false)
    (e : Event) (hadmitted : e.Admitted h.memory) (input : Text) (out err : Array UInt8)
    (remains : ObjectId → Payload) :
    ∃ E : Comparison, E.left = Ground.of h.holds ⟨h.memory, m, input, out, err⟩ ∧
      Alongside E (e.carryOut (Exec.alloc (.of h.holds)) ⟨h.memory, m, input, out, err⟩)
        (e.carryOut (Exec.watched (.of h.holds) remains)
          ⟨h.memory.overwrite remains, m, input, out, err⟩) ∧
      SameCourse (· = ·) h.holds h.holds ⟨h.memory, m, input, out, err⟩
        ⟨h.memory.overwrite remains, m, input, out, err⟩
        (e.carryOut (Exec.alloc (.of h.holds)) ⟨h.memory, m, input, out, err⟩)
        (e.carryOut (Exec.watched (.of h.holds) remains)
          ⟨h.memory.overwrite remains, m, input, out, err⟩) := by
  have hsound := hs.execution hm input out err
  have hregistered : (Ground.of h.holds ⟨h.memory, m, input, out, err⟩).Registered := by
    obtain ⟨source, hsource, hid⟩ := hs.registered id m hm hopen
    exact ⟨source, hsource, hid.trans (hs.source id m hm).symm⟩
  have hiso := hsound.isomorphic hregistered hadmitted remains
  have htwin := hiso.twin_with hopen hiso.machine rfl rfl rfl
  have halong := htwin.carryOut (agree_watched _ remains) hopen e
    fun i hi => ⟨rfl, .start (Or.inr (Or.inr hi))⟩
  exact ⟨hiso.comparison hopen, rfl, halong,
    (halong.sameCourse hiso hopen).mono fun _ _ hij => hij.1⟩

theorem Step.sound {k : Host} (hstep : Step h k) (hs : h.Sound) : k.Sound := by
  cases hstep with
  | @run id m e input out err hm hopen hadmitted =>
    obtain ⟨E, hleft, halong, _⟩ :=
      hs.alongside hm hopen e hadmitted input out err fun _ => .string []
    obtain ⟨hcarries, hsound⟩ := halong.left
    rw [hleft] at hcarries hsound
    exact hs.put hm hcarries.source hcarries.roots hopen hsound

theorem Runs.sound {k : Host} (hruns : Runs h k) (hs : h.Sound) : k.Sound := by
  induction hruns with
  | refl => exact hs
  | step _ hstep ih => exact hstep.sound ih

/-- Every state that a sound host comes to is sound; there, any event of any open
machine ends without a fault of the heap but exhaustion, and takes the same course if
every allocation is watched and the contents of reclaimed objects are overwritten. -/
theorem runs_sound {k : Host} (hs : h.Sound) (hruns : h.Runs k) :
    k.Sound ∧
      ∀ id m e input out err remains, k.machines id = some m → m.closed = false →
        Event.Admitted e k.memory →
        (∀ f s, e.carryOut (Exec.alloc (.of k.holds)) ⟨k.memory, m, input, out, err⟩ =
          .faulted f s → (Stop.fault f).Expected) ∧
        SameCourse (· = ·) k.holds k.holds ⟨k.memory, m, input, out, err⟩
          ⟨k.memory.overwrite remains, m, input, out, err⟩
          (e.carryOut (Exec.alloc (.of k.holds)) ⟨k.memory, m, input, out, err⟩)
          (e.carryOut (Exec.watched (.of k.holds) remains)
            ⟨k.memory.overwrite remains, m, input, out, err⟩) := by
  have hk := hruns.sound hs
  refine ⟨hk, fun id m e input out err remains hm hopen hadmitted => ?_⟩
  obtain ⟨E, _, halong, hsame⟩ := hk.alongside hm hopen e hadmitted input out err remains
  exact ⟨fun f s hfault => halong.expected hfault, hsame⟩

/-- A host with one machine and a verified function that asks for the type of nil.  The heap
collects before the next allocation and has a string that nothing holds. -/
def sample : Host where
  memory := eagerSample.memory.setVerified 1
  machines id := if id = 1 then some eagerSample.machine else none
  held _ := []

theorem sample_machines {id : RootId} {m : Machine} (hm : sample.machines id = some m) :
    id = 1 ∧ m = eagerSample.machine := by
  have hif : (if id = 1 then some eagerSample.machine else none) = some m := hm
  split at hif
  · next hid => exact ⟨hid, (Option.some.inj hif).symm⟩
  · cases hif

theorem sample_sound : sample.Sound where
  wellFormed := by
    refine eagerSample_reached.wellFormed.of_placements rfl fun id p _ => ?_
    have hplacement : sample.memory.placement? id = eagerSample.memory.placement? id := by
      match id with
      | 0 => rfl
      | 1 => rfl
      | _ + 2 => rfl
    rw [hplacement]
  source id m hm := by
    obtain ⟨rfl, rfl⟩ := sample_machines hm
    rfl
  registered id m hm _ := by
    obtain ⟨rfl, rfl⟩ := sample_machines hm
    exact ⟨⟨1, "vm"⟩, List.mem_singleton_self _, rfl⟩
  owns id hid := by
    have hnone : ∀ i, sample.memory.Anchored (.of sample.holds) i → False := by
      rintro i (hi | hi)
      · obtain ⟨source, hsource, hi⟩ := List.mem_flatMap.1 hi
        rw [List.mem_singleton.1 hsource] at hi
        cases hi
      · cases hi
    exact (hnone id (hid.of_leaves fun i hi => (hnone i hi).elim)).elim

theorem sample_admits : Event.Admitted (.interpret (some 1) 2) sample.memory := by
  intro id hid
  have hleaf : ∀ i, i ∈ Event.given (.interpret (some 1) 2) →
      sample.memory.references i = [] := by
    intro i hi
    cases hi
    rfl
  cases hid.of_leaves hleaf
  exact ⟨⟨0, 1, 1, false⟩, rfl, rfl, rfl⟩

/-- The machine of the sample when it asks for the type. -/
def sampleAsking : Execution where
  memory := sample.memory
  machine := { eagerSample.machine with stack := #[.object 1, .nil], frames := [⟨1, 2, 0⟩] }

/-- The string that nothing held has been reclaimed, and the name of the type has its slot. -/
def sampleSwept : Memory where
  heap := { sample.memory.heap with
    slots := #[some 2, some 1]
    generations := #[2, 1]
    threshold := 7
    collections := 1
    freed := 1 }
  objects := #[⟨.string [], some ⟨0, 0, 1, true⟩⟩,
    ⟨.function { chunk := some 0, verified := true }, some ⟨0, 1, 1, false⟩⟩,
    ⟨.string "nil", some ⟨0, 0, 2, false⟩⟩]
  chunks := sample.memory.chunks

/-- The machine of the sample once it has been given the name of the type. -/
def sampleLater : Execution where
  memory := sampleSwept
  machine := { sampleAsking.machine with stack := #[.object 1, .object 2] }

theorem sampleAsking_alloc :
    Exec.alloc (.of sample.holds) (.string "nil") sampleAsking =
      .ok 2 { sampleAsking with memory := sampleSwept } := by
  have hmarks : (sampleAsking.memory.add (.string "nil")).markPhase
      (sampleAsking.machine.holdings (.of sample.holds)) = .ok #[false, true] := by
    change (Marking.drain _ ⟨_, [1]⟩ >>= _) = _
    rw [Memory.drain_cons rfl, Memory.drain_nil]
    rfl
  have hplaced : Memory.alloc (sampleAsking.machine.holdings (.of sample.holds)) (.string "nil")
      sampleAsking.memory = .ok 2 sampleSwept := by
    rw [Memory.alloc_eq, Memory.place_eq rfl, Memory.makeRoom_eq, if_pos (by decide),
      Memory.collect, hmarks]
    rfl
  rw [Exec.alloc, hplaced]

/-- The second instruction of the function makes the heap collect. -/
theorem sample_carryOut :
    Event.carryOut (Exec.alloc (.of sample.holds)) (.interpret (some 1) 2)
      ⟨sample.memory, eagerSample.machine, [], #[], #[]⟩ = .unfinished sampleLater := by
  let before : Execution :=
    { sampleAsking with machine := { sampleAsking.machine with frames := [⟨1, 1, 0⟩] } }
  have htype : Exec.typeOf (Exec.alloc (.of sample.holds)) sampleAsking =
      (Exec.alloc (.of sample.holds) (.string "nil") >>= fun id =>
        Exec.replaceTop (.object id)) sampleAsking := rfl
  have hstep : Exec.step (Exec.alloc (.of sample.holds)) before =
      (Exec.typeOf (Exec.alloc (.of sample.holds)) >>= fun _ => pure Progress.running)
        sampleAsking := rfl
  rw [bind_apply, htype, bind_apply, sampleAsking_alloc] at hstep
  change Exec.runWith _ 1 before = _
  rw [Exec.runWith, hstep]
  rfl

/-- The sample is sound, and still is after an event in which a string is reclaimed.  That event
takes the same course where the string is overwritten by then, and so does the return from the
function after it. -/
theorem runs_sound_sample :
    sample.Sound ∧ ∃ k m, sample.Runs k ∧ k.Sound ∧ k.machines 1 = some m ∧
      k.memory.payload? 0 = some (.string []) ∧ ¬ k.memory.Owns 0 ∧
      ∀ remains : ObjectId → Payload,
        SameCourse (· = ·) sample.holds sample.holds
          ⟨sample.memory, eagerSample.machine, [], #[], #[]⟩
          ⟨sample.memory.overwrite remains, eagerSample.machine, [], #[], #[]⟩
          (.unfinished sampleLater)
          (Event.carryOut (Exec.watched (.of sample.holds) remains) (.interpret (some 1) 2)
            ⟨sample.memory.overwrite remains, eagerSample.machine, [], #[], #[]⟩) ∧
        SameCourse (· = ·) k.holds k.holds ⟨k.memory, m, [], #[], #[]⟩
          ⟨k.memory.overwrite remains, m, [], #[], #[]⟩
          (Event.carryOut (Exec.alloc (.of k.holds)) (.resume 1) ⟨k.memory, m, [], #[], #[]⟩)
          (Event.carryOut (Exec.watched (.of k.holds) remains) (.resume 1)
            ⟨k.memory.overwrite remains, m, [], #[], #[]⟩) := by
  have hruns := Runs.refl.step
    (.run (.interpret (some 1) 2) [] #[] #[] (if_pos rfl) rfl sample_admits)
  rw [sample_carryOut] at hruns
  have hnothing : Event.Admitted (.resume 1) (sample.put 1 sampleLater).memory := by
    intro id hid
    cases hid.of_leaves fun i hi => nomatch hi
  obtain ⟨hsound, hlater⟩ := runs_sound sample_sound hruns
  obtain ⟨-, hfirst⟩ := runs_sound sample_sound Runs.refl
  refine ⟨sample_sound, _, sampleLater.machine, hruns, hsound, rfl, rfl, ?_, fun remains => ?_⟩
  · rintro ⟨p, hp⟩
    cases hp.found
    cases hp.unswept
  · have hcourse := (hfirst 1 _ (.interpret (some 1) 2) [] #[] #[] remains rfl rfl sample_admits).2
    rw [sample_carryOut] at hcourse
    exact ⟨hcourse, (hlater 1 _ (.resume 1) [] #[] #[] remains rfl rfl hnothing).2⟩

end Host

end StackVm
