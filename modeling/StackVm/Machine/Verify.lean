/-
Verification: a function may run when its code and the code of every function
that its constants lead to is valid.  The search goes depth first, in the order
of the constants; a function counts as verified from the moment when all its
constants have been seen to, and is not looked at again.
-/
import StackVm.Chunk.Validate
import StackVm.Memory.Heap
import StackVm.Unlisted

namespace StackVm

/-- Why a function may not run. -/
inductive VerifyError where
  | noChunk (name : Text)
  | invalid (name : Text) (error : Chunk.CodeError)
  deriving DecidableEq, Repr

/-- The text of a verification error. -/
def VerifyError.message : VerifyError → Text
  | .noChunk name => name ++ ": no chunk"
  | .invalid name error => name ++ ": " ++ error.message

namespace Memory

theorem lt_size_of_function? {m : Memory} {id : ObjectId} {f : Function}
    (h : m.function? id = some f) : id < m.objects.size := by
  unfold function? at h
  split at h
  · next hget => exact (Array.getElem?_eq_some_iff.1 hget).1
  · cases h

/-- A step of the search that is still to be done. -/
inductive Visit where
  | enter (id : ObjectId)
  | leave (id : ObjectId)
  deriving DecidableEq, Repr

/-- Checks the code of one function and gives its constants. -/
def verifyOne (m : Memory) (f : Function) : Except VerifyError (List Value) :=
  match m.chunkOf? f with
  | none => .error (.noChunk f.displayName)
  | some c =>
    match c.validate m.typeOf with
    | .error e => .error (.invalid f.displayName e)
    | .ok () => .ok c.constants.toList

/-- Runs the search: the functions that have been left behind verified, the last
one first, and the error that ended it, if any. -/
def verifySearch (m : Memory) (seen verified : List ObjectId) :
    List Visit → List ObjectId × Option VerifyError
  | [] => (verified, none)
  | .leave id :: rest => m.verifySearch seen (id :: verified) rest
  | .enter id :: rest =>
    match _hf : m.function? id with
    | none => m.verifySearch seen verified rest
    | some f =>
      if _hs : f.verified ∨ id ∈ seen then m.verifySearch seen verified rest
      else
        match m.verifyOne f with
        | .error e => (verified, some e)
        | .ok constants =>
          m.verifySearch (id :: seen) verified
            ((constants.filterMap Value.id?).map .enter ++ .leave id :: rest)
termination_by visits => (unlisted m.objects.size seen, visits.length)
decreasing_by
  · apply Prod.Lex.right; simp
  · apply Prod.Lex.right; simp
  · apply Prod.Lex.right; simp
  · exact Prod.Lex.left _ _
      (unlisted_cons_lt (lt_size_of_function? _hf) fun h => _hs (Or.inr h))

/-- Remembers that a function is verified. -/
def setVerified (m : Memory) (id : ObjectId) : Memory :=
  m.modifyPayload id fun
    | .function f => .function { f with verified := true }
    | p => p

/-- Verifies a function and remembers all functions found to be valid. -/
def verify (m : Memory) (id : ObjectId) : Memory × Option VerifyError :=
  match m.function? id with
  | some ⟨_, _, _, true⟩ => (m, none)
  | _ =>
    let (verified, e) := m.verifySearch [] [] [.enter id]
    (verified.foldl setVerified m, e)

end Memory

end StackVm
