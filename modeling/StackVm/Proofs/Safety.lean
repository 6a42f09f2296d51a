/-
Verified, aligned code cannot go wrong.  However many instructions it runs, and whatever
the limits of the stack and the frames are, an interpretation never addresses anything
outside its bounds and never comes upon an unknown opcode.  Where everything reachable
belongs to the heap, nothing cuts it short but an exhausted heap.
-/
import StackVm.Proofs.Hosts
import StackVm.Proofs.SafeStep

namespace StackVm

open List (Forall₂)

/-- Every machine that is made has room for the function it interprets. -/
theorem Machine.create_capacity {options : Machine.Options} {m n : Memory} {machine : Machine}
    (h : Machine.create options m = .ok machine n) : 0 < machine.stackMax := by
  have hlimit : 0 < Machine.limitOr Machine.standardStack options.stackMax := by
    rw [Machine.limitOr]
    split
    · next hpos =>
      have hpos' : (0 : Int64).toInt < options.stackMax.toInt := Int64.lt_iff_toInt_lt.1 hpos
      rw [Int64.toInt_zero] at hpos'
      omega
    · exact Nat.mul_pos (Nat.succ_pos 63) (Nat.succ_pos 255)
  simp only [Machine.create, bind_apply, branch_apply] at h
  split at h
  · cases h
  · cases h
    exact hlimit

/-- What an interpretation can come to of the objects that exist at its start: what the
globals and the function reach. -/
def Execution.Known (s : Execution) (fn : Option ObjectId) : ObjectId → Prop :=
  s.memory.Reaches fun id => id ∈ referents s.machine.globals.values ∨ id ∈ fn

/-- The objects an interpretation can come to. -/
def Execution.scope (s : Execution) (fn : Option ObjectId) : Scope :=
  ⟨s.Known fn, s.memory.objects.size⟩

/-- The function may be interpreted: the chunks of verified functions are still valid, and
no code that can be called jumps between instructions. -/
structure Execution.Admits (s : Execution) (fn : Option ObjectId) : Prop where
  capacity : 0 < s.machine.stackMax
  function : ∀ id ∈ fn, ∃ f, s.memory.function? id = some f
  vetted : s.memory.Vetted (s.Known fn)
  aligned : s.memory.Aligned (s.Known fn)

/-- How an interpretation ends without going wrong, or goes on. -/
inductive Interpretation.Harmless (scope : Scope) : Interpretation → Prop
  | ok (s : Execution) : Harmless scope (.done .ok s)
  | compileError {s : Execution} {e : MachineError} : s.machine.lastError = some e →
      Harmless scope (.done .compileError s)
  | runtimeError {s : Execution} {e : RuntimeError} : s.machine.lastError = some (.runtime e) →
      (∀ byte, e.cause ≠ .unknownOpcode byte) → Harmless scope (.done .runtimeError s)
  | faulted {f : Fault} {s : Execution} : f.FromAllocation → Harmless scope (.faulted f s)
  | unfinished {s : Execution} : s.Safe scope → Harmless scope (.unfinished s)

section

variable {scope : Scope} {s : Execution} {fn : Option ObjectId}

/-- Any number of instructions from a safe state on is harmless. -/
theorem Execution.Safe.runWith (h : s.Safe scope) (others : Holdings) (fuel : Nat) :
    (Exec.runWith (Exec.alloc others) fuel s).Harmless scope := by
  induction fuel generalizing s with
  | zero => exact .unfinished h
  | succ fuel ih =>
    have hstep := h.step others
    rw [Exec.runWith]
    revert hstep
    generalize Exec.step (Exec.alloc others) s = r
    intro hstep
    cases hstep with
    | @ok progress s' hsafe =>
      cases progress with
      | running => exact ih (hsafe rfl)
      | finished => exact .ok s'
    | @stop e s' he =>
      cases he with
      | raised hknown => exact .runtimeError rfl hknown
      | fault hfault => exact .faulted hfault

/-! ### The start of an interpretation -/

/-- Entering a function with valid code leaves a safe state. -/
theorem Execution.Within.enter (h : s.Within scope) (hempty : s.machine.stack = #[])
    (hcapacity : 0 < s.machine.stackMax) (hvetted : s.memory.Vetted scope.Has)
    (haligned : s.memory.Aligned scope.Has) {id : ObjectId} (hid : scope.Has id) {f : Function}
    (hf : s.memory.function? id = some f) (hpasses : s.memory.Passes f) :
    Meets (fun _ s' => s'.Safe scope) (Exec.enter id s) := by
  obtain ⟨c, hc, hvalid⟩ := hpasses
  let outermost : Stage := ⟨scope, s.memory, id, c, 0, [], s.machine.stackMax⟩
  have hframes : Forall₂ (Frame.Like scope.same) [⟨id, 0, 0⟩] [⟨id, 0, 0⟩] :=
    .cons ⟨⟨rfl, hid⟩, rfl, rfl⟩ .nil
  have hstanding : outermost.Standing := by
    constructor
    case vetted => exact hvetted
    case aligned => exact haligned
    case valid => exact hvalid
    case sits => exact fun _ hf => nomatch hf
    case ordered => exact List.Pairwise.nil
    case below => exact fun _ hf => nomatch hf
  have hentered : outermost.At 0 0
      { s with machine := { s.machine with frames := [⟨id, 0, 0⟩] } } :=
    { within := { h with machine := { h.machine with frames := hframes } }
      evolves := .refl _
      code := by
        rw [hf]
        exact hc
      frames := rfl
      stackMax := rfl
      depth := by rw [hempty, Array.size_empty] }
  rw [Exec.enter, bind_apply, Exec.modifyMachine, modify_apply]
  dsimp only
  rw [hentered.chunk_bind]
  refine (hentered.push hcapacity (.object ⟨rfl, hid⟩)).mono fun _ s' h' => ?_
  exact hstanding.safe ⟨0, 1, h', .here, Nat.one_pos, hcapacity⟩

theorem Memory.payload?_eq_none {m : Memory} {id : ObjectId} (hid : m.objects.size ≤ id) :
    m.payload? id = none := by
  rw [payload?, Array.getElem?_eq_none hid]
  rfl

/-- A machine that has been restarted holds nothing outside the scope. -/
theorem Execution.within_scope (s : Execution) (fn : Option ObjectId) :
    Execution.Within (s.scope fn) { s with machine := Exec.restart s.machine } where
  memory := by
    refine ⟨Pairing.oneToOne_self _, fun {i j} hij => ?_⟩
    obtain ⟨rfl, hi | hi⟩ := hij
    · exact Memory.payload?_like_self fun x hx => ⟨rfl, Or.inl (hi.reference hx)⟩
    · rw [Memory.payload?_eq_none hi]
      exact .none
  machine := by
    refine Machine.like_self fun i hi => ⟨rfl, Or.inl (.start (Or.inl ?_))⟩
    rcases Machine.mem_holds.1 hi with hi | ⟨f, hf, _⟩ | hi | hi
    · cases hi
    · cases hf
    · exact hi
    · cases hi
  grown := Nat.le_refl _

/-- Objects made later do not matter at the start. -/
theorem Execution.known_of_function {id : ObjectId} {f : Function} (hid : (s.scope fn).Has id)
    (hf : s.memory.function? id = some f) : s.Known fn id := by
  rcases hid with hid | hid
  · exact hid
  · rw [Memory.function?_eq_some, Memory.payload?_eq_none hid] at hf
    cases hf

theorem Execution.Admits.vetted_scope (h : s.Admits fn) : s.memory.Vetted (s.scope fn).Has :=
  fun id f hid hf => h.vetted id f (s.known_of_function hid hf) hf

theorem Execution.Admits.aligned_scope (h : s.Admits fn) : s.memory.Aligned (s.scope fn).Has :=
  fun id f c hid hf => h.aligned id f c (s.known_of_function hid hf) hf

/-- An interpretation of admitted code is harmless. -/
theorem Execution.Admits.harmless (h : s.Admits fn) (hopen : s.machine.closed = false)
    (others : Holdings) (fuel : Nat) :
    (Exec.interpret others fuel fn s).Harmless (s.scope fn) := by
  have hwithin := s.within_scope fn
  rw [Exec.interpret, Exec.interpretWith, hopen]
  simp only [Bool.false_eq_true, if_false]
  cases fn with
  | none => exact .compileError rfl
  | some id =>
    obtain ⟨f, hf⟩ := h.function id rfl
    have hid : (s.scope (some id)).Has id := Or.inl (.start (Or.inr rfl))
    have hevolves := Memory.Evolves.verify s.memory id
    have hverified : Execution.Within (s.scope (some id))
        { s with memory := (s.memory.verify id).1, machine := Exec.restart s.machine } :=
      { hwithin with
        memory := Stage.like_verify hwithin.memory id
        grown := hevolves.size }
    simp only
    cases herror : (s.memory.verify id).2 with
    | some e => exact .compileError rfl
    | none =>
      have hpasses := Memory.verify_passes h.vetted_scope hid hf herror
      obtain ⟨g, hg, hchunk⟩ := hevolves.function?_some hf
      have henter := hverified.enter rfl h.capacity (h.vetted_scope.evolve hevolves)
        (h.aligned_scope.evolve hevolves) hid hg (hpasses.evolve hevolves hchunk)
      simp only
      revert henter
      generalize Exec.enter id _ = r
      intro henter
      cases henter with
      | ok hsafe => exact hsafe.runWith others fuel
      | @stop e s' he =>
        cases he with
        | raised hknown => exact .runtimeError rfl hknown
        | fault hfault => exact .faulted hfault

/-- A fault of an interpretation of live objects in a sound state is one that twins know. -/
theorem Execution.Sound.interpret_expected {held : RootId → List ObjectId}
    (hs : s.Sound (.of held)) (hregistered : (Ground.of held s).Registered)
    (hopen : s.machine.closed = false)
    (howns : ∀ id, s.memory.Reaches (· ∈ fn) id → s.memory.Owns id) {fuel : Nat} {f : Fault}
    {s' : Execution} (h : Exec.interpret (.of held) fuel fn s = .faulted f s') :
    (Stop.fault f).Expected := by
  have hiso := hs.isomorphic hregistered howns fun _ => .string []
  have htwin := hiso.twin_with hopen hiso.machine.restart rfl rfl rfl
  have hfn : Option.Rel (fun i j => i = j ∧ s.Spans held (· ∈ fn) i) fn fn := by
    cases fn with
    | none => exact .none
    | some i => exact .some ⟨rfl, .start (Or.inr (Or.inr rfl))⟩
  exact (Twin.interpretWith (agree_alloc (hiso.comparison hopen)) htwin hopen hfn fuel).expected h

/-- An open machine interprets admitted code harmlessly, however many instructions it runs.
If everything that the roots and the function reach belongs to the heap, no fault but an
exhausted heap cuts it short. -/
theorem interpret_safe {held : RootId → List ObjectId} (h : s.Admits fn) (fuel : Nat) :
    (s.machine.closed = true →
      Exec.interpret (.of held) fuel fn s = .faulted .machineClosed s) ∧
    (s.machine.closed = false →
      (Exec.interpret (.of held) fuel fn s).Harmless (s.scope fn) ∧
      (s.Sound (.of held) → (Ground.of held s).Registered →
        (∀ id, s.memory.Reaches (· ∈ fn) id → s.memory.Owns id) →
        ∀ f s', Exec.interpret (.of held) fuel fn s = .faulted f s' →
          ∃ live max, f = .exhausted live max)) := by
  constructor
  · intro hclosed
    rw [Exec.interpret, Exec.interpretWith, hclosed]
    rfl
  · intro hopen
    have hharmless := h.harmless hopen (.of held) fuel
    refine ⟨hharmless, fun hs hregistered howns f s' heq => ?_⟩
    have hexpected := hs.interpret_expected hregistered hopen howns heq
    -- The heap is sound, which leaves exhaustion and crashes; the code is safe, which
    -- leaves faults of allocations.
    rw [heq] at hharmless
    cases hexpected with
    | crash =>
      cases hharmless with
      | faulted hfault => cases hfault
    | exhausted live max => exact ⟨live, max, rfl⟩

end

/-- The machine of the sample is one that has been made on its heap. -/
theorem rareSample_create : Machine.create { maxFrames := 2, stackMax := 4 }
    { rareSample.memory with heap := { rareSample.memory.heap with roots := {} } } =
      .ok rareSample.machine rareSample.memory := rfl

/-- A function that goes round in a loop for ever. -/
def loopSample : Execution :=
  { rareSample with
    memory := { rareSample.memory with
      chunks := #[{ code := #[23, 0, 3], lines := #[1, 1, 1] }] } }

theorem loopSample_aligned : Chunk.Aligned { code := #[23, 0, 3], lines := #[1, 1, 1] } := by
  intro offset op hstarts hop hjump
  have ⟨byte, hbyte, _⟩ := hop
  have hopcode := hop.ofByte? hbyte
  match offset, hbyte with
  | 0, hbyte =>
    cases hbyte
    cases hopcode
    exact Or.inl ⟨0, .here, by decide⟩
  | 1, hbyte =>
    cases hbyte
    cases hopcode
    cases hjump
  | 2, hbyte =>
    cases hbyte
    cases hopcode
    cases hjump

theorem loopSample_admits : loopSample.Admits (some 0) := by
  have honly : ∀ id f, loopSample.memory.function? id = some f → f = { chunk := some 0 } := by
    intro id f hf
    match id, hf with
    | 0, hf => exact (Option.some.inj hf).symm
  constructor
  case capacity => exact Machine.create_capacity rareSample_create
  case function =>
    intro id hid
    cases hid
    exact ⟨_, rfl⟩
  case vetted =>
    intro id f _ hf hverified
    rw [honly id f hf] at hverified
    cases hverified
  case aligned =>
    intro id f c _ hf hc
    rw [honly id f hf] at hc
    cases hc
    exact loopSample_aligned

theorem loopSample_sound : loopSample.Sound (.of fun _ => []) where
  wellFormed := rareSample_reached.wellFormed.of_placements rfl fun _ _ _ => Iff.rfl
  owns id hid := by
    have hnone : ∀ i, loopSample.memory.Anchored
        (loopSample.machine.holdings (.of fun _ => [])) i → False := by
      rintro i (hi | hi)
      · obtain ⟨source, hsource, hi⟩ := List.mem_flatMap.1 hi
        rw [List.mem_singleton.1 hsource] at hi
        cases hi
      · cases hi
    exact (hnone id (hid.of_leaves fun i hi => (hnone i hi).elim)).elim

theorem loopSample_owns (id : ObjectId) (hid : loopSample.memory.Reaches (· ∈ some 0) id) :
    loopSample.memory.Owns id := by
  have hleaf : ∀ i, i ∈ some 0 → loopSample.memory.references i = [] := by
    intro i hi
    cases hi
    rfl
  cases hid.of_leaves hleaf
  exact ⟨⟨0, 0, 1, false⟩, rfl, rfl, rfl⟩

/-- The loop may be interpreted, and any number of rounds of it is harmless. -/
theorem interpret_safe_loopSample :
    loopSample.Admits (some 0) ∧
      (Exec.interpret (.of fun _ => []) 100 (some 0) loopSample).Harmless
        (loopSample.scope (some 0)) ∧
      ∀ f s', Exec.interpret (.of fun _ => []) 100 (some 0) loopSample = .faulted f s' →
        ∃ live max, f = .exhausted live max := by
  have hsafe := (@interpret_safe loopSample (some 0) (fun _ => []) loopSample_admits 100).2 rfl
  have hregistered : (Ground.of (fun _ => []) loopSample).Registered :=
    ⟨⟨1, "vm"⟩, List.mem_singleton_self _, rfl⟩
  exact ⟨loopSample_admits, hsafe.1, hsafe.2 loopSample_sound hregistered loopSample_owns⟩

end StackVm
