/-
The limit of the operand stack.  Before an opcode is read there has to be room for one more value,
whatever the instruction will do.  So an instruction is rejected exactly where the stack is full,
and no run holds more values than the limit.
-/
import StackVm.Proofs.Atomicity
import StackVm.Proofs.Hosts

namespace StackVm

variable {s start : Execution} {others : Holdings} {fn : Option ObjectId} {fuel : Nat}

/-- The innermost call is before the end of its code. -/
def Execution.AtCode (s : Execution) : Prop :=
  ∃ f callers c, s.machine.frames = f :: callers ∧
    (s.memory.function? f.function).bind s.memory.chunkOf? = some c ∧ f.ip < c.code.size

/-- An instruction is rejected if and only if there is one and the stack is full. -/
theorem Exec.step_full_iff :
    (∃ t, Exec.step (Exec.alloc others) s = .error (.raised .operandOverflow) t) ↔
      s.AtCode ∧ s.machine.stackMax ≤ s.machine.stack.size := by
  constructor
  · rintro ⟨t, hstep⟩
    cases Execution.fails_of_raised hstep with
    | full hframes hcode hbefore hfull => exact ⟨⟨_, _, _, hframes, hcode, hbefore⟩, hfull⟩
    | own _ _ _ hown => exact False.elim hown
  · rintro ⟨⟨f, callers, c, hframes, hcode, hbefore⟩, hfull⟩
    refine ⟨s, ?_⟩
    rw [Exec.step_eq, bind_apply, Exec.fetch_full hframes hcode hbefore hfull]

/-! ### Whole runs -/

theorem Execution.fits_abandon (s : Execution) (cause : RuntimeCause) :
    s.Fits (Exec.abandon s cause) := ⟨rfl, fun _ => Nat.zero_le _⟩

/-- However many instructions run and however that ends, the stack is within its limit. -/
theorem Exec.fits_runWith (others : Holdings) (fuel : Nat) (s : Execution) :
    s.Fits (Exec.runWith (Exec.alloc others) fuel s).state := by
  induction fuel generalizing s with
  | zero => exact .refl s
  | succ fuel ih =>
    have hstep := (Exec.course_step others).fits s
    rw [Exec.runWith]
    split
    · next t hrun =>
      rw [hrun] at hstep
      exact hstep.trans (ih t)
    · next hrun =>
      rw [hrun] at hstep
      exact hstep
    · next cause t hrun =>
      rw [hrun] at hstep
      exact hstep.trans (t.fits_abandon cause)
    · next hrun =>
      rw [hrun] at hstep
      exact hstep

/-- An interpretation starts on an empty stack. -/
theorem Exec.interpret_fits (hopen : start.machine.closed = false) :
    let s := (Exec.interpret others fuel fn start).state
    s.machine.stackMax = start.machine.stackMax ∧
      s.machine.stack.size ≤ start.machine.stackMax := by
  have hfits : Execution.Fits { start with machine := Exec.restart start.machine }
      (Exec.interpret others fuel fn start).state := by
    rw [Exec.interpret, Exec.interpretWith, hopen]
    simp only [Bool.false_eq_true, if_false]
    cases fn with
    | none => exact ⟨rfl, fun h => h⟩
    | some id =>
      dsimp only
      cases (start.memory.verify id).2 with
      | some e => exact ⟨rfl, fun h => h⟩
      | none =>
        let verified : Execution :=
          { start with memory := (start.memory.verify id).1, machine := restart start.machine }
        have henter : verified.Fits (stateAfter (Exec.enter id verified)) :=
          (Exec.acts_enter id).fits verified
        have hstart : Execution.Fits { start with machine := restart start.machine } verified :=
          ⟨rfl, fun h => h⟩
        refine hstart.trans ?_
        dsimp only
        split
        · next u hentered =>
          rw [hentered] at henter
          exact henter.trans (Exec.fits_runWith others fuel u)
        · next hentered =>
          rw [hentered] at henter
          exact henter
        · next cause u hentered =>
          rw [hentered] at henter
          exact henter.trans (u.fits_abandon cause)
  exact ⟨hfits.stackMax, hfits.depth (Nat.zero_le _)⟩

/-- Whatever the program and the limit of the stack are, no run holds more values than the limit,
and no instruction addresses a place behind it.  An instruction is rejected if and only if the stack
is full when it is to be executed, whatever it would do, and a run ends with that error only in such
a state. -/
theorem interpret_stack_limit (hframes : 0 < start.machine.maxFrames)
    (hopen : start.machine.closed = false) (others : Holdings) (fn : Option ObjectId) :
    (∀ steps s, Exec.interpret others steps fn start = .unfinished s →
      ((∃ t, Exec.step (Exec.alloc others) s = .error (.raised .operandOverflow) t) ↔
        s.AtCode ∧ s.machine.stack.size = start.machine.stackMax) ∧
      ∀ t, Exec.step (Exec.alloc others) s = .error (.fault .crash) t → s.Misreads) ∧
    (∀ fuel, (Exec.interpret others fuel fn start).state.machine.stack.size ≤
      start.machine.stackMax) ∧
    ∀ fuel left trace, Exec.interpret others fuel fn start = .done .runtimeError left →
      left.machine.lastError = some (.runtime ⟨.operandOverflow, trace⟩) →
      ∃ steps s, steps < fuel ∧ Exec.interpret others steps fn start = .unfinished s ∧
        s.AtCode ∧ s.machine.stack.size = start.machine.stackMax := by
  have hlimit : ∀ steps s, Exec.interpret others steps fn start = .unfinished s →
      (s.AtCode ∧ s.machine.stackMax ≤ s.machine.stack.size ↔
        s.AtCode ∧ s.machine.stack.size = start.machine.stackMax) := by
    intro steps s hrun
    have hmax : (Exec.interpret others steps fn start).state.machine.stackMax =
      start.machine.stackMax := (Exec.interpret_fits hopen).1
    have hdepth : (Exec.interpret others steps fn start).state.machine.stack.size ≤
      start.machine.stackMax := (Exec.interpret_fits hopen).2
    rw [hrun] at hmax hdepth
    rw [show s.machine.stackMax = start.machine.stackMax from hmax]
    refine and_congr_right fun _ => ⟨fun hfull => Nat.le_antisymm hdepth hfull, fun heq => ?_⟩
    exact Nat.le_of_eq heq.symm
  refine ⟨fun steps s hrun => ⟨?_, fun t hcrash => ?_⟩,
    fun fuel => (Exec.interpret_fits hopen).2, ?_⟩
  · rw [Exec.step_full_iff, hlimit steps s hrun]
  · have hreached : s.Reached others := ⟨start, fn, steps, hframes, hrun⟩
    exact hreached.nested.misreads_of_crash hcrash
  · intro fuel left trace hend herror
    obtain ⟨steps, s, cause, t, hsteps, hrun, hstep, rfl⟩ := Exec.interpret_runtimeError hend
    have hcause : cause = .operandOverflow := by
      cases herror
      rfl
    subst hcause
    obtain ⟨hatCode, hfull⟩ := (hlimit steps s hrun).1 (Exec.step_full_iff.1 ⟨t, hstep⟩)
    exact ⟨steps, s, hsteps, hrun, hatCode, hfull⟩

/-! ### A return on a full stack -/

/-- The same machine with another limit for its stack. -/
def Execution.withLimit (s : Execution) (limit : Nat) : Execution :=
  { s with machine := { s.machine with stackMax := limit } }

/-- A function that returns nil, with room for two values. -/
def narrowSample : Execution :=
  { rareSample with
    memory := { rareSample.memory with
      objects := #[⟨.function { chunk := some 0, verified := true }, some ⟨0, 0, 1, false⟩⟩]
      chunks := #[{ code := #[2, 0], lines := #[1, 1] }] }
    machine := { rareSample.machine with stackMax := 2 } }

/-- The same before the return. -/
def fullSample : Execution :=
  { narrowSample with
    machine := { narrowSample.machine with stack := #[.object 0, .nil], frames := [⟨0, 1, 0⟩] } }

/-- With room for a third value the program comes to its end, it holds two values at most, and its
return leaves one.  With room for two, the return is rejected. -/
theorem fullSample_return_rejected :
    Exec.interpret (.of fun _ => []) 1 (some 0) narrowSample = .unfinished fullSample ∧
    Exec.step (Exec.alloc (.of fun _ => [])) fullSample =
      .error (.raised .operandOverflow) fullSample ∧
    (∀ steps s, Exec.interpret (.of fun _ => []) steps (some 0) (narrowSample.withLimit 3) =
      .unfinished s → s.machine.stack.size ≤ 2) ∧
    ∃ t, Exec.step (Exec.alloc (.of fun _ => [])) (fullSample.withLimit 3) = .ok .finished t ∧
      t.machine.stack = #[.nil] := by
  let returned : Execution :=
    { narrowSample with machine := { narrowSample.machine with stack := #[.nil] } }
  refine ⟨rfl, rfl, fun steps s hrun => ?_, returned.withLimit 3, rfl, rfl⟩
  match steps, hrun with
  | 0, hrun =>
    cases hrun
    decide
  | 1, hrun =>
    cases hrun
    decide
  | steps + 2, hrun => cases hrun

/-- The error of the sample comes up where two values are on the stack. -/
theorem interpret_stack_limit_narrowSample :
    0 < narrowSample.machine.maxFrames ∧ narrowSample.machine.closed = false ∧
      Exec.interpret (.of fun _ => []) 2 (some 0) narrowSample =
        .done .runtimeError (Exec.abandon fullSample .operandOverflow) ∧
      ∃ steps s, steps < 2 ∧
        Exec.interpret (.of fun _ => []) steps (some 0) narrowSample = .unfinished s ∧
        s.machine.stack.size = 2 := by
  obtain ⟨-, -, herror⟩ :=
    @interpret_stack_limit narrowSample Nat.two_pos rfl (.of fun _ => []) (some 0)
  obtain ⟨steps, s, hsteps, hrun, -, hfull⟩ := herror 2 (Exec.abandon fullSample .operandOverflow)
    [⟨[], 1⟩] rfl rfl
  exact ⟨Nat.two_pos, rfl, rfl, steps, s, hsteps, hrun, hfull⟩

end StackVm
