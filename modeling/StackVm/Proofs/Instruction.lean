/-
The parts of an instruction: reading its opcode, checking that the frame has enough
values for it, and carrying it out.
-/
import StackVm.Machine.Step
import StackVm.Proofs.Stateful

namespace StackVm.Exec

/-- Checks that the frame has the values that an opcode of fixed arity needs. -/
def demand (op : Opcode) : ExecM Unit :=
  match op.shape.pops with
  | none | some 0 => pure ()
  | some need => require op need

/-- Carries out an instruction. -/
def perform (make : Allocator) (op : Opcode) : ExecM Progress :=
  if op = .ret then ret else do
    execute make op
    return .running

theorem step_eq (make : Allocator) : step make = (do
    let byte ← fetch
    match Opcode.ofByte? byte with
    | none => raise (.unknownOpcode byte)
    | some op => do
      demand op
      perform make op) := by
  rw [step]
  congr 1
  funext byte
  cases Opcode.ofByte? byte with
  | none => rfl
  | some op =>
    simp only [demand]
    rcases op.shape.pops with _ | _ | need <;> rfl

end StackVm.Exec
