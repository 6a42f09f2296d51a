/-
Runtime errors are atomic.  An instruction that fails has changed nothing a program can see;
the interpretation gives up its frames and its stack and records where it was, and the
machine is as good as new.
-/
import StackVm.Proofs.ErrorPaths

namespace StackVm

/-- What is left of an execution that an instruction ended with an error.  Marks on verified
functions apart, it has the memory, the globals, the input and the output from before the
instruction.  The error has an entry for each frame that was active, the innermost one first
and behind the instruction. -/
structure Execution.Abandoned (s : Execution) (cause : RuntimeCause) (left : Execution) :
    Prop where
  memory : left.memory.unmarked = s.memory.unmarked
  globals : left.machine.globals = s.machine.globals
  input : left.input = s.input
  out : left.out = s.out
  stack : left.machine.stack = #[]
  frames : left.machine.frames = []
  result : left.machine.result = .nil
  lastError : ∃ k ≤ 2, left.machine.lastError =
    some (.runtime ⟨cause, (s.machine.ahead k).frames.map (Exec.traceEntry s.memory)⟩)

/-- Whatever globals it is given, the machine interprets as one does that has just been created
with the same limits, in its place and with these globals. -/
def Machine.AsNew (machine : Machine) : Prop :=
  ∀ (options : Machine.Options) (m n : Memory) (fresh : Machine),
    Machine.create options m = .ok fresh n → fresh.stackMax = machine.stackMax →
    fresh.maxFrames = machine.maxFrames → fresh.tracing = machine.tracing →
    ∀ (others : Holdings) (fuel : Nat) (fn : Option ObjectId) (memory : Memory)
      (globals : Globals) (input : Text) (out err : Array UInt8),
      Exec.interpret others fuel fn ⟨memory, { machine with globals }, input, out, err⟩ =
        Exec.interpret others fuel fn
          ⟨memory, { fresh with source := machine.source, globals }, input, out, err⟩

section

variable {others : Holdings} {s t : Execution} {cause : RuntimeCause}

/-! ### Traces -/

theorem Memory.function?_unmarked (m : Memory) (id : ObjectId) :
    m.unmarked.function? id = (m.function? id).map ({ · with verified := false }) := by
  rw [function?, function?, unmarked, Array.getElem?_map]
  rcases m.objects[id]? with _ | ⟨_ | _ | _ | _, _⟩ <;> rfl

/-- A trace does not depend on marks. -/
theorem Exec.traceEntry_unmarked (m : Memory) (f : Frame) :
    Exec.traceEntry m.unmarked f = Exec.traceEntry m f := by
  rw [traceEntry, traceEntry, Memory.function?_unmarked]
  cases m.function? f.function <;> rfl

theorem Exec.trace_congr {m n : Memory} (h : m.unmarked = n.unmarked) (frames : List Frame) :
    frames.map (Exec.traceEntry m) = frames.map (Exec.traceEntry n) := by
  refine List.map_congr_left fun f _ => ?_
  rw [← traceEntry_unmarked m, h, traceEntry_unmarked]

/-! ### Machines as good as new -/

theorem Machine.closed_create {options : Machine.Options} {m n : Memory} {fresh : Machine}
    (h : Machine.create options m = .ok fresh n) : fresh.closed = false := by
  rw [create] at h
  by_cases hlarge : largestStack < limitOr standardStack options.stackMax
  · rw [if_pos hlarge] at h
    cases h
  · rw [if_neg hlarge] at h
    cases h
    rfl

/-- An interpretation depends on what its machine is after the restart, and on nothing else. -/
theorem Exec.interpret_restart {a b : Machine} (ha : a.closed = false) (hb : b.closed = false)
    (h : restart a = restart b) (fuel : Nat) (fn : Option ObjectId) (memory : Memory)
    (input : Text) (out err : Array UInt8) :
    interpret others fuel fn ⟨memory, a, input, out, err⟩ =
      interpret others fuel fn ⟨memory, b, input, out, err⟩ := by
  rw [interpret, interpretWith, interpretWith, ha, hb]
  simp only [Bool.false_eq_true, if_false, h]

/-- Of what a machine did before, only its globals reach an interpretation. -/
theorem Machine.asNew {machine : Machine} (hopen : machine.closed = false) : machine.AsNew := by
  intro options m n fresh hfresh hstack hframes htracing others fuel fn memory globals input out err
  have hnew := Machine.closed_create hfresh
  have hleft : ({ machine with globals } : Machine).closed = false := hopen
  have hright : ({ fresh with source := machine.source, globals } : Machine).closed = false := hnew
  refine Exec.interpret_restart hleft hright ?_ fuel fn memory input out err
  simp only [Exec.restart, hstack, hframes, htracing, hopen, hnew]

/-! ### The states an interpretation comes to -/

/-- An interpretation that goes on takes up the state that it was left in. -/
theorem Exec.runWith_add {make : Exec.Allocator} {steps : Nat} {start : Execution}
    (h : Exec.runWith make steps start = .unfinished s) (more : Nat) :
    Exec.runWith make (steps + more) start = Exec.runWith make more s := by
  induction steps generalizing start with
  | zero =>
    cases h
    rw [Nat.zero_add]
  | succ steps ih =>
    rw [runWith] at h
    rw [Nat.succ_add, runWith]
    split at h
    · exact ih h
    · cases h
    · cases h
    · cases h

theorem Exec.interpret_add {start : Execution} {fn : Option ObjectId} {steps : Nat}
    (h : Exec.interpret others steps fn start = .unfinished s) (more : Nat) :
    Exec.interpret others (steps + more) fn start = Exec.runWith (Exec.alloc others) more s := by
  obtain ⟨-, -, id, memory, hinterpret⟩ := Exec.interpret_unfinished h
  rw [hinterpret] at h ⊢
  exact Exec.runWith_add h more

/-- The last of several instructions. -/
theorem Exec.runWith_succ {make : Exec.Allocator} {steps : Nat} {start : Execution}
    (h : Exec.runWith make (steps + 1) start = .unfinished t) :
    ∃ s, Exec.runWith make steps start = .unfinished s ∧ Exec.step make s = .ok .running t := by
  induction steps generalizing start with
  | zero =>
    rw [runWith] at h
    split at h
    · next hstep =>
      cases h
      exact ⟨start, rfl, hstep⟩
    · cases h
    · cases h
    · cases h
  | succ steps ih =>
    rw [runWith] at h
    split at h
    · next u hstep =>
      obtain ⟨s, hrun, hlast⟩ := ih h
      refine ⟨s, ?_, hlast⟩
      rw [runWith, hstep]
      exact hrun
    · cases h
    · cases h
    · cases h

theorem Exec.interpret_succ {start : Execution} {fn : Option ObjectId} {steps : Nat}
    (h : Exec.interpret others (steps + 1) fn start = .unfinished t) :
    ∃ s, Exec.interpret others steps fn start = .unfinished s ∧
      Exec.step (Exec.alloc others) s = .ok .running t := by
  obtain ⟨-, -, id, memory, hinterpret⟩ := Exec.interpret_unfinished h
  rw [hinterpret] at h
  rw [hinterpret]
  exact Exec.runWith_succ h

theorem Exec.runWith_runtimeError {make : Exec.Allocator} {fuel : Nat} {start left : Execution}
    (h : Exec.runWith make fuel start = .done .runtimeError left) :
    ∃ steps s cause t, steps < fuel ∧ Exec.runWith make steps start = .unfinished s ∧
      Exec.step make s = .error (.raised cause) t ∧ left = Exec.abandon t cause := by
  induction fuel generalizing start with
  | zero => cases h
  | succ fuel ih =>
    rw [runWith] at h
    split at h
    · next u hstep =>
      obtain ⟨steps, s, cause, t, hsteps, hrun, hfails⟩ := ih h
      refine ⟨steps + 1, s, cause, t, Nat.succ_lt_succ hsteps, ?_, hfails⟩
      rw [runWith, hstep]
      exact hrun
    · cases h
    · next cause t hstep =>
      cases h
      exact ⟨0, start, cause, t, Nat.succ_pos fuel, rfl, hstep, rfl⟩
    · cases h

theorem Exec.acts_enter (id : ObjectId) : Exec.Acts (Exec.enter id) :=
  (Exec.acts_modifyFrames fun _ => [⟨id, 0, 0⟩]).bind fun _ =>
    Exec.looks_chunk.acts.bind fun _ => Exec.acts_push _

/-- An interpretation that ends with an error has come to an instruction that fails. -/
theorem Exec.interpret_runtimeError {start left : Execution} {fn : Option ObjectId} {fuel : Nat}
    (h : Exec.interpret others fuel fn start = .done .runtimeError left) :
    ∃ steps s cause t, steps < fuel ∧ Exec.interpret others steps fn start = .unfinished s ∧
      Exec.step (Exec.alloc others) s = .error (.raised cause) t ∧
      left = Exec.abandon t cause := by
  rw [interpret, interpretWith] at h
  by_cases hclosed : start.machine.closed = true
  · rw [if_pos hclosed] at h
    cases h
  rw [if_neg hclosed] at h
  cases fn with
  | none => cases h
  | some id =>
    dsimp only at h
    cases hverify : (start.memory.verify id).2 with
    | some e =>
      rw [hverify] at h
      cases h
    | none =>
      rw [hverify] at h
      have hends := (Exec.acts_enter id).ends
        { start with memory := (start.memory.verify id).1, machine := restart start.machine }
      dsimp only at h hends
      split at h
      · next u henter =>
        obtain ⟨steps, s, cause, t, hsteps, hrun, hfails⟩ := Exec.runWith_runtimeError h
        refine ⟨steps, s, cause, t, hsteps, ?_, hfails⟩
        rw [interpret, interpretWith, if_neg hclosed]
        simp only [hverify, henter, hrun]
      · cases h
      · next cause u henter =>
        rw [henter] at hends
        cases hends with
        | raised hfalse => exact hfalse.elim

/-- An unfinished interpretation has no result yet, and its machine is open. -/
theorem Execution.Reached.unsettled (h : s.Reached others) :
    s.machine.result = .nil ∧ s.machine.closed = false := by
  obtain ⟨start, fn, steps, _, hrun⟩ := h
  obtain ⟨hopen, -, id, memory, hinterpret⟩ := Exec.interpret_unfinished hrun
  rw [hinterpret] at hrun
  have hstay : ∀ t u, t.machine.result = .nil ∧ t.machine.closed = false →
      Exec.step (Exec.alloc others) t = .ok .running u →
      u.machine.result = .nil ∧ u.machine.closed = false := by
    intro t u ht hstep
    have hends := Exec.steps_step others t
    rw [hstep] at hends
    obtain ⟨hrunning⟩ := hends
    exact ⟨(hrunning rfl).result.trans ht.1, (hrunning rfl).closed.trans ht.2⟩
  refine Exec.runWith_unfinished hstay ?_ hrun
  exact ⟨rfl, hopen⟩

/-- Runtime errors are atomic.  Every interpretation that comes to an instruction that fails
ends there, with everything as it was before that instruction and a machine as good as new. -/
theorem Execution.Reached.error_atomic (h : s.Reached others)
    (hstep : Exec.step (Exec.alloc others) s = .error (.raised cause) t) :
    ∃ left, s.Abandoned cause left ∧ left.machine.AsNew ∧
      ∀ start fn steps, Exec.interpret others steps fn start = .unfinished s →
        ∀ more, 0 < more →
          Exec.interpret others (steps + more) fn start = .done .runtimeError left := by
  have hends := Exec.steps_step others s
  rw [hstep] at hends
  cases hends with
  | raised huntouched =>
    obtain ⟨hresult, hopen⟩ := h.unsettled
    obtain ⟨k, hk, hmachine⟩ := huntouched.machine
    refine ⟨Exec.abandon t cause, ?_, ?_, fun start fn steps hrun more hmore => ?_⟩
    · constructor
      case memory => exact huntouched.memory
      case globals => exact huntouched.globals
      case input => exact huntouched.input
      case out => exact huntouched.out
      case stack => rfl
      case frames => rfl
      case result => exact huntouched.running.result.trans hresult
      case lastError =>
        refine ⟨k, hk, ?_⟩
        rw [← hmachine, ← Exec.trace_congr huntouched.memory]
        rfl
    · have hleft : t.machine.closed = false := huntouched.running.closed.trans hopen
      exact Machine.asNew hleft
    · obtain ⟨more, rfl⟩ := Nat.exists_eq_succ_of_ne_zero hmore.ne'
      rw [Exec.interpret_add hrun, Exec.runWith, hstep]

end

/-! ### An error two calls deep -/

/-- A script that calls a function with nil, which the function negates. -/
def negateSample : Execution :=
  { callSample with
    memory := { callSample.memory with
      objects := #[
        ⟨.function { chunk := some 0, verified := true }, some ⟨0, 0, 1, false⟩⟩,
        ⟨.function { name := "f", arity := 1, chunk := some 1, verified := true },
          some ⟨0, 1, 1, false⟩⟩]
      chunks := #[
        { code := #[1, 0, 2, 24, 1, 0], lines := #[1, 1, 1, 1, 1, 1], constants := #[.object 1] },
        { code := #[6, 1, 19, 0], lines := #[2, 2, 3, 3] }] } }

/-- The same before the negation. -/
def negatingSample : Execution :=
  { negateSample with
    machine := { negateSample.machine with
      stack := #[.object 0, .object 1, .nil, .nil]
      frames := [⟨1, 2, 1⟩, ⟨0, 5, 0⟩] } }

/-- The error has the lines of both calls, and the machine that is left goes on as one that has
just been created with its limits. -/
theorem Execution.Reached.error_atomic_negatingSample :
    negatingSample.Reached (.of fun _ => []) ∧
      (∃ t, Exec.step (Exec.alloc (.of fun _ => [])) negatingSample =
        .error (.raised .notNumber) t) ∧
      ∃ left, negatingSample.Abandoned .notNumber left ∧
        Exec.interpret (.of fun _ => []) 5 (some 0) negateSample = .done .runtimeError left ∧
        left.machine.lastError = some (.runtime ⟨.notNumber, [⟨"f", 3⟩, ⟨[], 1⟩]⟩) ∧
        ∃ fresh n, Machine.create ⟨2, 8, false⟩ left.memory = .ok fresh n ∧
          Exec.interpret (.of fun _ => []) 5 (some 0) left =
            Exec.interpret (.of fun _ => []) 5 (some 0)
              { left with machine := { fresh with
                source := left.machine.source
                globals := left.machine.globals } } := by
  have hrun : Exec.interpret (.of fun _ => []) 4 (some 0) negateSample =
      .unfinished negatingSample := rfl
  have hreached : negatingSample.Reached (.of fun _ => []) :=
    ⟨negateSample, some 0, 4, Nat.two_pos, hrun⟩
  obtain ⟨left, habandoned, hnew, hends⟩ := hreached.error_atomic rfl
  have hend := hends negateSample (some 0) 4 hrun 1 Nat.one_pos
  refine ⟨hreached, ⟨_, rfl⟩, left, habandoned, hend, ?_⟩
  cases hend
  exact ⟨rfl, _, _, rfl, hnew ⟨2, 8, false⟩ _ _ _ rfl rfl rfl rfl _ _ _ _ _ _ _ _⟩

end StackVm
