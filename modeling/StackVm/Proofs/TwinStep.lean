/-
Twins through whole instructions.  One instruction keeps twins in lockstep, and so
by induction does a run of any length, a whole interpretation and the publishing of
arguments.
-/
import StackVm.Proofs.Instruction
import StackVm.Proofs.TwinBuiltins
import StackVm.Proofs.TwinVerify

namespace StackVm

open List (Forall₂)

section

variable {E : Comparison} {pairing : Pairing} {s t : Execution} {make make' : Exec.Allocator}

theorem Twin.fetch (h : Twin E pairing s t) :
    Both E (fun p a b => p = pairing ∧ a = b) (Exec.fetch s) (Exec.fetch t) := by
  rw [Exec.fetch]
  refine h.bind_frame fun f g hfg => h.bind_chunk fun c d hcd => ?_
  simp only [branch_apply, hcd.code, hfg.ip]
  split
  · have hnames : Option.Rel (fun a b : Function => a.displayName = b.displayName)
        (s.memory.function? f.function) (t.memory.function? g.function) := by
      have hfunction := h.memory.function? hfg.function
      revert hfunction
      generalize s.memory.function? f.function = a
      generalize t.memory.function? g.function = b
      rintro (hab | _)
      · refine .some ?_
        rw [Function.displayName, Function.displayName, hab.name]
      · exact .none
    simp only [get_bind_apply]
    refine h.bind_present hnames fun a b hab => ?_
    rw [hab]
    exact .stop h (.raised _)
  · simp only [get_bind_apply, branch_apply, h.machine.stackMax, h.machine.stack.size]
    split
    · exact .stop h (.raised _)
    · refine h.bind_byteAt hcd.code _ fun byte => ?_
      simp only [get_bind_apply, branch_apply, h.machine.tracing]
      split
      · have herr : s.err ++ Exec.traceLine g.ip byte t.machine.stack.size =
            t.err ++ Exec.traceLine g.ip byte t.machine.stack.size := by rw [h.err]
        have hprinted := h.with_streams h.input h.out herr
        exact (hprinted.advance 1).bind fun h' hp => h'.pure ⟨hp, rfl⟩
      · exact (h.advance 1).bind fun h' hp => h'.pure ⟨hp, rfl⟩

theorem Twin.bind_fetch (h : Twin E pairing s t) {α α' : Type}
    {post : Pairing → α → α' → Prop} {f : UInt8 → ExecM α} {g : UInt8 → ExecM α'}
    (hnext : ∀ byte s t, Twin E pairing s t → Both E post (f byte s) (g byte t)) :
    Both E post ((Exec.fetch >>= f) s) ((Exec.fetch >>= g) t) :=
  h.fetch.bind fun {p a b s t} h' hp => by
    obtain ⟨rfl, rfl⟩ := hp
    exact hnext a s t h'

theorem Twin.frames_tail (h : Twin E pairing s t) :
    Forall₂ (Frame.Like pairing) s.machine.frames.tail t.machine.frames.tail := by
  have hframes := h.machine.frames
  revert hframes
  generalize s.machine.frames = fs
  generalize t.machine.frames = gs
  intro hframes
  cases hframes with
  | nil => exact .nil
  | cons _ hrest => exact hrest

theorem Twin.ret (h : Twin E pairing s t) :
    Both E (fun _ a b => a = b) (Exec.ret s) (Exec.ret t) := by
  rw [Exec.ret]
  refine h.bind_pop fun v w s t h hvw => h.bind_frame fun f g hfg => ?_
  have hleft := h.with_frames h.frames_tail
  have hempty : s.machine.frames.tail.isEmpty = t.machine.frames.tail.isEmpty := by
    apply Bool.eq_iff_iff.2
    rw [List.isEmpty_iff_length_eq_zero, List.isEmpty_iff_length_eq_zero,
      h.frames_tail.length_eq]
  rw [bind_apply, bind_apply]
  simp only [Exec.modifyMachine, modify_apply, get_bind_apply, branch_apply, hempty]
  split
  · refine hleft.bind_shrinkTo 0 fun s t h => ?_
    exact ((h.with_result hvw).push hvw).bind fun h' _ => h'.pure rfl
  · rw [hfg.base]
    refine hleft.bind_shrinkTo _ fun s t h => ?_
    exact (h.push hvw).bind fun h' _ => h'.pure rfl

theorem Twin.getLocal (h : Twin E pairing s t) :
    Both E Anyhow (Exec.getLocal s) (Exec.getLocal t) := by
  rw [Exec.getLocal]
  refine h.bind_operand fun slot s t h => ?_
  simp only [get_bind_apply]
  refine h.bind_frame fun f g hfg => ?_
  have hvalue := h.machine.stack.getElem? (f.base + slot)
  rw [← hfg.base]
  revert hvalue
  generalize s.machine.stack[f.base + slot]? = v
  generalize t.machine.stack[f.base + slot]? = w
  intro hvalue
  cases hvalue with
  | none => exact h.raise _
  | some hvw => exact (h.push hvw).anyhow

theorem Twin.setLocal (h : Twin E pairing s t) :
    Both E Anyhow (Exec.setLocal s) (Exec.setLocal t) := by
  rw [Exec.setLocal]
  refine h.bind_operand fun slot s t h => h.bind_frame fun f g hfg => ?_
  simp only [get_bind_apply, branch_apply, hfg.base, h.machine.stack.size]
  split
  · exact .stop h (.raised _)
  · refine h.bind_peek 0 fun v w hvw _ => ?_
    exact .ok (h.with_stack (h.machine.stack.setIfInBounds _ hvw)) trivial

theorem Twin.getGlobal (h : Twin E pairing s t) :
    Both E Anyhow (Exec.getGlobal s) (Exec.getGlobal t) := by
  rw [Exec.getGlobal]
  refine h.bind_nameOperand fun name s t h => ?_
  obtain ⟨hvalue, hglobals⟩ := h.machine.globals.get name
  rw [bind_apply, bind_apply, modifyGet_apply, modifyGet_apply]
  simp only
  have hread := h.with_globals hglobals
  revert hvalue
  generalize (s.machine.globals.get name).1 = v
  generalize (t.machine.globals.get name).1 = w
  intro hvalue
  cases hvalue with
  | none => exact hread.raise _
  | some hvw => exact (hread.push hvw).anyhow

theorem Twin.define (h : Twin E pairing s t) (name : Text) {v w : Value}
    (hvw : v.Like pairing w) :
    Both E (fun p _ _ => p = pairing) (Exec.define name v s) (Exec.define name w t) :=
  .ok (h.with_globals (h.machine.globals.define name hvw)) rfl

theorem Twin.defineGlobal (h : Twin E pairing s t) :
    Both E Anyhow (Exec.defineGlobal s) (Exec.defineGlobal t) := by
  rw [Exec.defineGlobal]
  refine h.bind_nameOperand fun name s t h => h.bind_pop fun v w s t h hvw => ?_
  exact (h.define name hvw).anyhow

theorem Twin.setGlobal (h : Twin E pairing s t) :
    Both E Anyhow (Exec.setGlobal s) (Exec.setGlobal t) := by
  rw [Exec.setGlobal]
  refine h.bind_nameOperand fun name s t h => h.bind_peek 0 fun v w hvw _ => ?_
  have hset := h.machine.globals.set name hvw
  simp only [get_bind_apply]
  revert hset
  generalize s.machine.globals.set name v = a
  generalize t.machine.globals.set name w = b
  intro hset
  cases hset with
  | none => exact h.raise _
  | some hab => exact .ok (h.with_globals hab) trivial

theorem Twin.equal (h : Twin E pairing s t) :
    Both E Anyhow (Exec.equal s) (Exec.equal t) := by
  rw [Exec.equal]
  refine h.bind_pop fun v w s t h hvw => h.bind_pop fun v' w' s t h hvw' => ?_
  simp only [get_bind_apply, h.memory.equal hvw' hvw]
  exact (h.push (.bool _)).anyhow

theorem Twin.jumpIfFalse (h : Twin E pairing s t) :
    Both E Anyhow (Exec.jumpIfFalse s) (Exec.jumpIfFalse t) := by
  rw [Exec.jumpIfFalse]
  refine h.bind_wideOperand fun distance s t h => h.bind_peek 0 fun v w hvw _ => ?_
  simp only [branch_apply, hvw.isFalsey]
  split
  · exact (h.advance _).anyhow
  · exact h.pure trivial

theorem Twin.print (h : Twin E pairing s t) (text : Text) :
    Both E Anyhow (Exec.print text s) (Exec.print text t) := by
  have hout : s.out ++ text = t.out ++ text := by rw [h.out]
  exact .ok (h.with_streams h.input hout h.err) trivial

theorem Twin.bind_verifyCallee (h : Twin E pairing s t) {i j : ObjectId} (hij : pairing i j)
    {α α' : Type} {post : Pairing → α → α' → Prop} {f : Unit → ExecM α} {g : Unit → ExecM α'}
    (hnext : ∀ s t, Twin E pairing s t → Both E post (f () s) (g () t)) :
    Both E post ((Exec.verifyCallee i >>= f) s) ((Exec.verifyCallee j >>= g) t) := by
  obtain ⟨herror, hverified⟩ := h.verify hij
  rw [Exec.verifyCallee, Exec.verifyCallee, bind_assoc, bind_assoc, bind_apply, bind_apply,
    modifyGet_apply, modifyGet_apply]
  simp only [herror]
  cases (t.memory.verify j).2 with
  | none => exact hnext _ _ hverified
  | some e => exact hverified.raise _

theorem Twin.call (h : Twin E pairing s t) : Both E Anyhow (Exec.call s) (Exec.call t) := by
  rw [Exec.call]
  refine h.bind_operand fun argc s t h => h.bind_require .call (argc + 1) ?_
  refine h.bind_peek argc fun v w hvw _ => h.bind_function? hvw fun a b hab => ?_
  cases hab with
  | none => exact h.raise _
  | @some x y hxy =>
    obtain ⟨i, f⟩ := x
    obtain ⟨j, g⟩ := y
    obtain ⟨hij, hfg⟩ := hxy
    have harity : f.arity = g.arity := hfg.arity
    have hdepth : s.machine.frames.length = t.machine.frames.length := h.machine.frames.length_eq
    simp only [branch_apply, harity]
    split
    · exact .stop h (.raised _)
    · simp only [get_bind_apply, branch_apply, hdepth, h.machine.maxFrames]
      split
      · exact .stop h (.raised _)
      · refine h.bind_verifyCallee hij fun s t h => ?_
        simp only [get_bind_apply, h.machine.stack.size]
        have hentered := h.with_frames (.cons
          (⟨hij, rfl, rfl⟩ : Frame.Like pairing ⟨i, 0, t.machine.stack.size - argc - 1⟩
            ⟨j, 0, t.machine.stack.size - argc - 1⟩) h.machine.frames)
        exact hentered.bind_chunk fun c d _ => hentered.pure trivial

/-- One instruction keeps twins in lockstep. -/
theorem Twin.execute (hagree : Agree E make make') (h : Twin E pairing s t) (op : Opcode) :
    Both E Anyhow (Exec.execute make op s) (Exec.execute make' op t) := by
  cases op with
  | ret => exact h.pure trivial
  | constant =>
    refine h.constantOperand.bind fun h' hp => ?_
    exact (h'.push (hp.1 ▸ hp.2)).anyhow
  | pushNil => exact (h.push .nil).anyhow
  | pushTrue => exact (h.push (.bool _)).anyhow
  | pushFalse => exact (h.push (.bool _)).anyhow
  | pop => exact h.bind_pop fun _ _ _ _ h _ => h.pure trivial
  | getLocal => exact h.getLocal
  | setLocal => exact h.setLocal
  | getGlobal => exact h.getGlobal
  | defineGlobal => exact h.defineGlobal
  | setGlobal => exact h.setGlobal
  | equal => exact h.equal
  | greater => exact h.arithmetic _ fun _ _ => .bool _
  | less => exact h.arithmetic _ fun _ _ => .bool _
  | add => exact h.add hagree
  | subtract => exact h.arithmetic _ fun _ _ => .int _
  | multiply => exact h.arithmetic _ fun _ _ => .int _
  | divide => exact h.divide
  | logicalNot =>
    refine h.bind_pop fun v w s t h hvw => ?_
    rw [hvw.isFalsey]
    exact (h.push (.bool _)).anyhow
  | negate => exact h.negate
  | print =>
    refine h.bind_pop fun v w s t h hvw => ?_
    simp only [get_bind_apply, h.memory.display hvw]
    exact h.print _
  | jump => exact h.bind_wideOperand fun n s t h => (h.advance n).anyhow
  | jumpIfFalse => exact h.jumpIfFalse
  | loop => exact h.bind_wideOperand fun n s t h => (h.advance _).anyhow
  | call => exact h.call
  | buildArray =>
    exact h.bind_operand fun count s t h =>
      h.bind_require .buildArray count (h.buildArray hagree count)
  | index => exact h.index
  | indexSet => exact h.indexSet
  | buildStruct =>
    exact h.bind_operand fun count s t h =>
      h.bind_require .buildStruct (2 * count) (h.buildStruct hagree count)
  | getField => exact h.bind_nameOperand fun name s t h => h.getField name
  | setField => exact h.bind_nameOperand fun name s t h => h.setField name
  | length => exact h.length
  | arrayPush => exact h.arrayPush
  | arrayPop => exact h.arrayPop
  | typeOf => exact h.typeOf hagree
  | keys => exact h.keys hagree
  | values => exact h.values hagree
  | contains => exact h.contains
  | input => exact h.inputLine hagree

theorem Twin.bind_demand (h : Twin E pairing s t) (op : Opcode) {α α' : Type}
    {post : Pairing → α → α' → Prop} {f : Unit → ExecM α} {g : Unit → ExecM α'}
    (hnext : Both E post (f () s) (g () t)) :
    Both E post ((Exec.demand op >>= f) s) ((Exec.demand op >>= g) t) := by
  rw [Exec.demand]
  split
  · exact hnext
  · exact hnext
  · exact h.bind_require op _ hnext

theorem Twin.step (hagree : Agree E make make') (h : Twin E pairing s t) :
    Both E (fun _ a b => a = b) (Exec.step make s) (Exec.step make' t) := by
  rw [Exec.step_eq, Exec.step_eq]
  refine h.bind_fetch fun byte s t h => ?_
  cases Opcode.ofByte? byte with
  | none => exact h.raise _
  | some op =>
    refine h.bind_demand op ?_
    rw [Exec.perform, Exec.perform]
    split
    · exact h.ret
    · exact (h.execute hagree op).bind fun h' _ => h'.pure rfl

end

end StackVm
