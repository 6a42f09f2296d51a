/-
Twins through whole runs: any number of instructions, an interpretation from its
start, and the publishing of arguments.
-/
import StackVm.Proofs.Records
import StackVm.Proofs.TwinStep

namespace StackVm

open List (Forall₂)

/-- Two interpretations end the same way, or are both unfinished, and leave twins. -/
inductive Alongside (E : Comparison) : Interpretation → Interpretation → Prop
  | done {pairing : Pairing} {s t : Execution} (outcome : Outcome) :
      Twin E pairing s t → Alongside E (.done outcome s) (.done outcome t)
  | faulted {pairing : Pairing} {s t : Execution} {f : Fault} :
      Twin E pairing s t → (Stop.fault f).Expected → Alongside E (.faulted f s) (.faulted f t)
  | unfinished {pairing : Pairing} {s t : Execution} :
      Twin E pairing s t → Alongside E (.unfinished s) (.unfinished t)

section

variable {E : Comparison} {pairing : Pairing} {s t : Execution} {make make' : Exec.Allocator}

theorem Twin.trace (h : Twin E pairing s t) :
    s.machine.frames.map (Exec.traceEntry s.memory) =
      t.machine.frames.map (Exec.traceEntry t.memory) := by
  have hframes := h.machine.frames
  revert hframes
  generalize s.machine.frames = fs
  generalize t.machine.frames = gs
  intro hframes
  induction hframes with
  | nil => rfl
  | cons hfg _ ih => rw [List.map_cons, List.map_cons, traceEntry_like h.memory hfg, ih]

/-- Failing with the same cause reports the same error and trace. -/
theorem Twin.abandon (h : Twin E pairing s t) (cause : RuntimeCause) :
    Twin E pairing (Exec.abandon s cause) (Exec.abandon t cause) := by
  rw [Exec.abandon, Exec.abandon, h.trace]
  have herr : s.err ++ RuntimeError.report ⟨cause, t.machine.frames.map
        (Exec.traceEntry t.memory)⟩ =
      t.err ++ RuntimeError.report ⟨cause, t.machine.frames.map (Exec.traceEntry t.memory)⟩ := by
    rw [h.err]
  have hmachine : Machine.Like pairing
      { s.machine with
        lastError := some (.runtime ⟨cause, t.machine.frames.map (Exec.traceEntry t.memory)⟩)
        frames := []
        stack := #[] }
      { t.machine with
        lastError := some (.runtime ⟨cause, t.machine.frames.map (Exec.traceEntry t.memory)⟩)
        frames := []
        stack := #[] } :=
    { h.machine with stack := .nil, frames := .nil }
  exact (h.with_streams h.input h.out herr).with_machine hmachine rfl rfl rfl

/-- Runs of the same length stay in lockstep. -/
theorem Twin.runWith (hagree : Agree E make make') (fuel : Nat) (h : Twin E pairing s t) :
    Alongside E (Exec.runWith make fuel s) (Exec.runWith make' fuel t) := by
  induction fuel generalizing pairing s t with
  | zero => exact .unfinished h
  | succ fuel ih =>
    have hstep := h.step hagree
    rw [Exec.runWith, Exec.runWith]
    revert hstep
    generalize Exec.step make s = r
    generalize Exec.step make' t = r'
    intro hstep
    cases hstep with
    | @ok pairing a b s t h hab =>
      cases hab
      cases a with
      | running => exact ih h
      | finished => exact .done .ok h
    | @stop pairing e s t h he =>
      cases e with
      | raised cause => exact .done .runtimeError (h.abandon cause)
      | fault f => exact .faulted h he

theorem Twin.refuse (h : Twin E pairing s t) (e : MachineError) :
    Alongside E (Exec.refuse s e) (Exec.refuse t e) := by
  have herr : s.err ++ (("Invalid bytecode: " : Text) ++ e.message ++ ("\n" : Text) : Text) =
      t.err ++ (("Invalid bytecode: " : Text) ++ e.message ++ ("\n" : Text) : Text) := by
    rw [h.err]
  have hmachine : Machine.Like pairing { s.machine with lastError := some e }
      { t.machine with lastError := some e } := { h.machine with }
  exact .done .compileError ((h.with_streams h.input h.out herr).with_machine hmachine rfl rfl rfl)

theorem Machine.Like.restart {a b : Machine} (h : a.Like pairing b) :
    (Exec.restart a).Like pairing (Exec.restart b) :=
  { h with stack := .nil, frames := .nil, result := .nil }

theorem Twin.enter (h : Twin E pairing s t) {i j : ObjectId} (hij : pairing i j) :
    Both E Anyhow (Exec.enter i s) (Exec.enter j t) := by
  have hentered := h.with_frames (.cons (⟨hij, rfl, rfl⟩ : Frame.Like pairing ⟨i, 0, 0⟩ ⟨j, 0, 0⟩)
    .nil)
  exact hentered.bind_chunk fun _ _ _ => (hentered.push (.object hij)).anyhow

/-- Interpretations of paired functions stay in lockstep.  What the machines were doing
before does not matter. -/
theorem Twin.interpretWith (hagree : Agree E make make')
    (h : Twin E pairing { s with machine := Exec.restart s.machine }
      { t with machine := Exec.restart t.machine })
    (hopen : s.machine.closed = false) {fn fn' : Option ObjectId}
    (hfn : Option.Rel pairing fn fn') (fuel : Nat) :
    Alongside E (Exec.interpretWith make fuel fn s) (Exec.interpretWith make' fuel fn' t) := by
  have hopen' : t.machine.closed = false := by
    rw [← hopen]
    exact h.machine.closed.symm
  rw [Exec.interpretWith, Exec.interpretWith, hopen, hopen']
  simp only [Bool.false_eq_true, if_false]
  cases hfn with
  | none => exact h.refuse _
  | @some i j hij =>
    obtain ⟨herror, hverified⟩ := h.verify hij
    simp only at herror hverified ⊢
    rw [herror]
    cases (t.memory.verify j).2 with
    | some e => exact hverified.refuse _
    | none =>
      simp only
      have henter := hverified.enter hij
      revert henter
      generalize Exec.enter i _ = r
      generalize Exec.enter j _ = r'
      intro henter
      cases henter with
      | ok h _ => exact h.runWith hagree fuel
      | @stop pairing e s t h he =>
        cases e with
        | raised cause => exact .done .runtimeError (h.abandon cause)
        | fault f => exact .faulted h he

theorem mem_values_define (g : Globals) (name : Text) (v : Value) :
    v ∈ (g.define name v).values := by
  have hget : (g.toRecord.set name v).get? name = some v := by rw [Record.get?_set, if_pos rfl]
  obtain ⟨slot, -, hv⟩ := Option.bind_eq_some_iff.1 hget
  exact List.mem_of_getElem? hv

theorem mem_holds_define {machine : Machine} {name : Text} {id : ObjectId} :
    id ∈ Machine.holds { machine with globals := machine.globals.define name (.object id) } := by
  have hmem : id ∈ referents (machine.globals.define name (.object id)).values :=
    List.mem_filterMap.2 ⟨_, mem_values_define _ _ _, rfl⟩
  exact Machine.mem_holds.2 (Or.inr (Or.inr (Or.inl hmem)))

/-- Publishing arguments keeps twins in lockstep. -/
theorem Twin.setArgsWith (hagree : Agree E make make') (h : Twin E pairing s t)
    (args : List Text) :
    Both E Anyhow (Exec.setArgsWith make args s) (Exec.setArgsWith make' args t) := by
  rw [Exec.setArgsWith, Exec.setArgsWith]
  refine hagree.bind h (.array .nil) (fun _ hi => nomatch hi) ?_
  intro after i j s t h hij _ _
  have hdefined := h.with_globals (h.machine.globals.define Exec.argvName (.object hij))
  refine (hdefined.appendNames hagree args hij mem_holds_define).bind fun h hij => ?_
  refine (h.define _ (.int _)).bind ?_
  rintro p _ _ s t h' rfl
  refine (h'.define _ (.object hij)).bind ?_
  rintro p _ _ s t h'' rfl
  exact (h''.define _ (.int _)).anyhow

end

end StackVm
