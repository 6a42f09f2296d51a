/-
When collections run makes no difference to a program.  Two executions whose
reachable parts are isomorphic take the same course, whatever the thresholds of
their heaps are: they print the same, end the same way, leave isomorphic results and
globals, and run out of objects at the same allocation or not at all.
-/
import StackVm.Proofs.HeapRun
import StackVm.Proofs.TwinRun

namespace StackVm

open List (Forall₂)

/-- The reachable parts of two executions are isomorphic and free of reclaimed
objects.  The thresholds of the heaps, their slots, generations and garbage are left
open; only the object limits are the same. -/
structure Isomorphic (pairing : Pairing) (held held' : RootId → List ObjectId)
    (s t : Execution) : Prop where
  wellFormed_left : s.memory.WellFormed
  wellFormed_right : t.memory.WellFormed
  registered_left : s.machine.closed = false → (Ground.of held s).Registered
  registered_right : t.machine.closed = false → (Ground.of held' t).Registered
  memory : s.memory.Like pairing t.memory
  machine : s.machine.Like pairing t.machine
  owns : ∀ {i j}, pairing i j → s.memory.Owns i ∧ t.memory.Owns j
  outside_left : ∀ i, (Ground.of held s).Outside i →
    ∃ j, (Ground.of held' t).Outside j ∧ pairing i j
  outside_right : ∀ j, (Ground.of held' t).Outside j →
    ∃ i, (Ground.of held s).Outside i ∧ pairing i j
  input : s.input = t.input
  out : s.out = t.out
  err : s.err = t.err
  limit : s.memory.heap.config.maxObjects = t.memory.heap.config.maxObjects

/-- The states that two runs have come to are isomorphic again, by the objects that
corresponded at the start and those that both runs made at the same moment. -/
def Corresponds (pairing : Pairing) (held held' : RootId → List ObjectId)
    (s t s' t' : Execution) : Prop :=
  s'.memory.objects.size + t.memory.objects.size =
      t'.memory.objects.size + s.memory.objects.size ∧
    ∃ after, Isomorphic after held held' s' t' ∧
      ∀ i j, after i j → pairing i j ∨
        (s.memory.objects.size ≤ i ∧ t.memory.objects.size ≤ j ∧
          i + t.memory.objects.size = j + s.memory.objects.size)

/-- Two interpretations end the same way, with the same outcome and error or the same
fault, or are both unfinished, and come to corresponding states. -/
inductive SameCourse (pairing : Pairing) (held held' : RootId → List ObjectId)
    (s t : Execution) : Interpretation → Interpretation → Prop
  | done {s' t' : Execution} (outcome : Outcome) : Corresponds pairing held held' s t s' t' →
      s'.machine.lastError = t'.machine.lastError →
      SameCourse pairing held held' s t (.done outcome s') (.done outcome t')
  | faulted {s' t' : Execution} (f : Fault) : Corresponds pairing held held' s t s' t' →
      SameCourse pairing held held' s t (.faulted f s') (.faulted f t')
  | unfinished {s' t' : Execution} : Corresponds pairing held held' s t s' t' →
      SameCourse pairing held held' s t (.unfinished s') (.unfinished t')

section

variable {pairing : Pairing} {held held' : RootId → List ObjectId} {s t : Execution}

/-- The grounds on which the runs of two open machines are compared. -/
def Isomorphic.comparison (h : Isomorphic pairing held held' s t)
    (hopen : s.machine.closed = false) : Comparison where
  left := .of held s
  right := .of held' t
  start := pairing
  registeredLeft := h.registered_left hopen
  registeredRight := h.registered_right (h.machine.closed ▸ hopen)
  limit := h.limit

/-- Isomorphic executions are twins when their machines are changed alike. -/
theorem Isomorphic.twin_with (h : Isomorphic pairing held held' s t)
    (hopen : s.machine.closed = false) {a b : Machine} (hab : a.Like pairing b)
    (ha : a.source = s.machine.source) (hb : b.source = t.machine.source)
    (herror : a.lastError = b.lastError) :
    Twin (h.comparison hopen) pairing { s with machine := a } { t with machine := b } where
  left := ⟨h.wellFormed_left, ha, rfl, rfl, rfl⟩
  right := ⟨h.wellFormed_right, hb, rfl, rfl, rfl⟩
  memory := h.memory
  machine := hab
  lastError := herror
  owns := h.owns
  outside_left := h.outside_left
  outside_right := h.outside_right
  input := h.input
  out := h.out
  err := h.err
  size := Nat.add_comm _ _
  grown := Nat.le_refl _
  traces := Or.inl

theorem Ground.Carries.of_eq {s' : Execution} (h : (Ground.of held s).Carries s') :
    Ground.of held s' = { Ground.of held s with size := s'.memory.objects.size } := by
  rw [Ground.of, Ground.of, h.source, h.roots, h.pins, h.limit]
  rfl

/-- Twins of compared runs are isomorphic. -/
theorem Twin.corresponds (h : Isomorphic pairing held held' s t)
    (hopen : s.machine.closed = false) {after : Pairing} {s' t' : Execution}
    (htwin : Twin (h.comparison hopen) after s' t') :
    Corresponds pairing held held' s t s' t' := by
  have hleft : Ground.of held s' = _ := htwin.left.of_eq
  have hright : Ground.of held' t' = _ := htwin.right.of_eq
  refine ⟨htwin.size, after, ?_, fun i j hij => htwin.traces hij⟩
  constructor
  case wellFormed_left => exact htwin.left.wellFormed
  case wellFormed_right => exact htwin.right.wellFormed
  case registered_left => exact fun _ => hleft ▸ h.registered_left hopen
  case registered_right =>
    exact fun _ => hright ▸ h.registered_right (h.machine.closed ▸ hopen)
  case memory => exact htwin.memory
  case machine => exact htwin.machine
  case owns => exact htwin.owns
  case outside_left =>
    rw [hleft, hright]
    exact htwin.outside_left
  case outside_right =>
    rw [hleft, hright]
    exact htwin.outside_right
  case input => exact htwin.input
  case out => exact htwin.out
  case err => exact htwin.err
  case limit => exact htwin.left.limit.trans (h.limit.trans htwin.right.limit.symm)

theorem Alongside.sameCourse (h : Isomorphic pairing held held' s t)
    (hopen : s.machine.closed = false) {x y : Interpretation}
    (hxy : Alongside (h.comparison hopen) x y) : SameCourse pairing held held' s t x y := by
  cases hxy with
  | done outcome htwin => exact .done outcome (htwin.corresponds h hopen) htwin.lastError
  | faulted htwin _ => exact .faulted _ (htwin.corresponds h hopen)
  | unfinished htwin => exact .unfinished (htwin.corresponds h hopen)

theorem Isomorphic.corresponds (h : Isomorphic pairing held held' s t) :
    Corresponds pairing held held' s t s t :=
  ⟨Nat.add_comm _ _, pairing, h, fun _ _ hij => Or.inl hij⟩

/-- Isomorphic executions take the same course through any number of instructions. -/
theorem interpret_sameCourse (h : Isomorphic pairing held held' s t) {fn fn' : Option ObjectId}
    (hfn : Option.Rel pairing fn fn') (fuel : Nat) :
    SameCourse pairing held held' s t (Exec.interpret (.of held) fuel fn s)
      (Exec.interpret (.of held') fuel fn' t) := by
  cases hclosed : s.machine.closed with
  | true =>
    have hclosed' : t.machine.closed = true := h.machine.closed ▸ hclosed
    rw [Exec.interpret, Exec.interpret, Exec.interpretWith, Exec.interpretWith, hclosed, hclosed']
    exact .faulted .machineClosed h.corresponds
  | false =>
    have hagree := agree_alloc (h.comparison hclosed)
    have htwin := h.twin_with hclosed h.machine.restart rfl rfl rfl
    exact (Twin.interpretWith hagree htwin hclosed hfn fuel).sameCourse h hclosed

end

/-- A function that asks for the type of nil, in the last of the slots; other objects
come before it. -/
def typeOfSample (config : Config) (earlier : List Object) : Execution where
  memory :=
    { heap := { Heap.create 0 config with
        slots := ((List.range (earlier.length + 1)).map some).toArray
        generations := Array.replicate (earlier.length + 1) 1
        marks := Array.replicate (earlier.length + 1) false
        live := earlier.length + 1
        roots := ⟨1, [⟨1, "vm"⟩]⟩ }
      objects := earlier.toArray.push
        ⟨.function { chunk := some 0 }, some ⟨0, earlier.length, 1, false⟩⟩
      chunks := #[{ code := #[2, 34, 0], lines := #[1, 1, 1] }] }
  machine := { source := 1, stackMax := 4, maxFrames := 2 }

/-- The heap that collects rarely. -/
def rareSample : Execution := typeOfSample .standard []

/-- The heap that collects before the next allocation, with a string that nothing holds. -/
def eagerSample : Execution :=
  typeOfSample ⟨2, 7, 1, 0⟩ [⟨.string [], some ⟨0, 0, 1, false⟩⟩]

theorem rareSample_reached : rareSample.memory.Reached := by
  have hnew : Memory.Reached ⟨Heap.create 0 .standard, #[], rareSample.memory.chunks⟩ :=
    .create 0 .standard _ (by simp)
  have hrooted := hnew.step (.addRoot "vm")
  exact hrooted.step
    (.alloc (.of fun _ => []) (.function { chunk := some 0 }) (Or.inl ⟨_, rfl⟩))

theorem eagerSample_reached : eagerSample.memory.Reached := by
  have hnew : Memory.Reached ⟨Heap.create 0 ⟨2, 7, 1, 0⟩, #[], eagerSample.memory.chunks⟩ :=
    .create 0 ⟨2, 7, 1, 0⟩ _ (by simp)
  have hrooted := hnew.step (.addRoot "vm")
  have hgarbage := hrooted.step (.alloc (.of fun _ => []) (.string []) (Or.inl ⟨_, rfl⟩))
  exact hgarbage.step
    (.alloc (.of fun _ => []) (.function { chunk := some 0 }) (Or.inl ⟨_, rfl⟩))

theorem samples_isomorphic :
    Isomorphic (fun i j => i = 0 ∧ j = 1) (fun _ => []) (fun _ => []) rareSample eagerSample := by
  constructor
  case wellFormed_left => exact rareSample_reached.wellFormed
  case wellFormed_right => exact eagerSample_reached.wellFormed
  case registered_left => exact fun _ => ⟨⟨1, "vm"⟩, List.mem_singleton_self _, rfl⟩
  case registered_right => exact fun _ => ⟨⟨1, "vm"⟩, List.mem_singleton_self _, rfl⟩
  case memory =>
    refine ⟨⟨fun h h' => h.2.trans h'.2.symm, fun h h' => h.1.trans h'.1.symm⟩, ?_⟩
    rintro i j ⟨rfl, rfl⟩
    exact .some (.function ⟨rfl, rfl, rfl, .some ⟨rfl, rfl, .nil, rfl⟩⟩)
  case machine => exact ⟨.nil, rfl, .nil, rfl, ⟨Record.like_empty, fun _ => rfl⟩, .nil, rfl, rfl⟩
  case owns =>
    rintro i j ⟨rfl, rfl⟩
    exact ⟨⟨⟨0, 0, 1, false⟩, rfl, rfl, rfl⟩, ⟨⟨0, 1, 1, false⟩, rfl, rfl, rfl⟩⟩
  case outside_left => rintro i (⟨_, _, _, hi⟩ | hi) <;> cases hi
  case outside_right => rintro j (⟨_, _, _, hj⟩ | hj) <;> cases hj
  case input => rfl
  case out => rfl
  case err => rfl
  case limit => rfl

/-- Asking for the type of nil takes the same course on both heaps. -/
theorem interpret_sameCourse_samples :
    Isomorphic (fun i j => i = 0 ∧ j = 1) (fun _ => []) (fun _ => []) rareSample eagerSample ∧
      SameCourse (fun i j => i = 0 ∧ j = 1) (fun _ => []) (fun _ => []) rareSample eagerSample
        (Exec.interpret (.of fun _ => []) 3 (some 0) rareSample)
        (Exec.interpret (.of fun _ => []) 3 (some 1) eagerSample) :=
  ⟨samples_isomorphic, interpret_sameCourse samples_isomorphic (.some ⟨rfl, rfl⟩) 3⟩

end StackVm
