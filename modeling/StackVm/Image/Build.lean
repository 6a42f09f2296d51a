/-
Building an image: the entry function and every function that constants lead to
from it, each listed once, breadth first.
-/
import StackVm.Chunk.Wire
import StackVm.Image.Basic
import StackVm.Machine.Verify

namespace StackVm.Image

/-- Why a function has no image. -/
inductive BuildError where
  | noEntry
  | unwritable (function : Text) (error : Chunk.WriteError)
  | tooManyConstants (function : Text) (index : Nat)
  /-- A function has lost its code, which its builder takes for granted. -/
  | noCode
  deriving DecidableEq, Repr

/-- The text of a build error. -/
def BuildError.message : BuildError → Text
  | .noEntry => "image: nil entry function"
  | .unwritable function error => "image: function " ++ function ++ ": " ++ error.message
  | .tooManyConstants function index =>
    "image: function " ++ function ++ ": constant " ++ Text.ofNat index ++
      ": too many constants in one chunk"
  | .noCode => []

/-- The progress of the search. -/
structure Listing where
  /-- The functions found so far; their places are their indices in the image. -/
  listed : List ObjectId
  /-- The ones among them that have not been written yet, the next one first. -/
  pending : List ObjectId

namespace Listing

/-- Lists a function unless it is listed already. -/
def add (l : Listing) (id : ObjectId) : Listing :=
  if id ∈ l.listed then l else ⟨l.listed ++ [id], l.pending ++ [id]⟩

/-- What is left to do at most: the objects not listed and the functions still to
be written. -/
def work (bound : Nat) (l : Listing) : Nat := unlisted bound l.listed + l.pending.length

theorem work_add_le {bound : Nat} (l : Listing) {id : ObjectId} (h : id < bound) :
    (l.add id).work bound ≤ l.work bound := by
  unfold add
  split
  · exact Nat.le_refl _
  · next hnot =>
    have : unlisted bound (l.listed ++ [id]) < unlisted bound l.listed :=
      unlisted_lt h hnot (by simp) (fun x hx => by simp [hx])
    simp only [work, List.length_append, List.length_cons, List.length_nil]
    omega

end Listing

/-- Lists the functions among the constants of a function and gives its links. -/
def scanConstants (m : Memory) (name : Text) :
    (index : Nat) → List Value → Listing → Links → Except BuildError (Listing × Links)
  | _, [], l, links => .ok (l, links)
  | index, v :: rest, l, links =>
    match v.id?.filter fun id => (m.function? id).isSome with
    | none => scanConstants m name (index + 1) rest l links
    | some id =>
      if 0xFF < index then .error (.tooManyConstants name index)
      else
        let l := l.add id
        let target := Int64.ofNat (l.listed.idxOf id)
        scanConstants m name (index + 1) rest l (links.insert index.toUInt8 target)

theorem work_scanConstants_le {m : Memory} {name : Text} {index : Nat} {vs : List Value}
    {l l' : Listing} {links links' : Links}
    (h : scanConstants m name index vs l links = .ok (l', links')) :
    l'.work m.objects.size ≤ l.work m.objects.size := by
  induction vs generalizing index l links with
  | nil => cases h; exact Nat.le_refl _
  | cons v rest ih =>
    unfold scanConstants at h
    split at h
    · exact ih h
    · next id hid =>
      split at h
      · cases h
      · refine Nat.le_trans (ih h) (Listing.work_add_le l ?_)
        obtain ⟨f, hf⟩ := Option.isSome_iff_exists.1 (Option.filter_eq_some_iff.1 hid).2
        exact Memory.lt_size_of_function? hf

/-- The image of one function, with what its constants add to the search. -/
def buildFunction (m : Memory) (id : ObjectId) (l : Listing) :
    Except BuildError (FunctionImage × Listing) :=
  match m.function? id with
  | none => .error .noCode
  | some f =>
    match m.chunkOf? f with
    | none => .error .noCode
    | some c =>
      match c.serialize m with
      | .error e => .error (.unwritable f.displayName e)
      | .ok data =>
        match scanConstants m f.displayName 0 c.constants.toList l [] with
        | .error e => .error e
        | .ok (l, links) => .ok (⟨f.name, f.arity, some data, links⟩, l)

theorem work_buildFunction_le {m : Memory} {id : ObjectId} {l l' : Listing}
    {f : FunctionImage} (h : buildFunction m id l = .ok (f, l')) :
    l'.work m.objects.size ≤ l.work m.objects.size := by
  unfold buildFunction at h
  split at h
  · cases h
  · split at h
    · cases h
    · split at h
      · cases h
      · split at h
        · cases h
        · next hscan => cases h; exact work_scanConstants_le hscan

/-- Writes the pending functions, behind the ones written before, last one first. -/
def buildPending (m : Memory) (done : List FunctionImage) :
    Listing → Except BuildError (List FunctionImage)
  | ⟨_, []⟩ => .ok done.reverse
  | ⟨listed, id :: pending⟩ =>
    match _h : buildFunction m id ⟨listed, pending⟩ with
    | .error e => .error e
    | .ok (f, l) => buildPending m (f :: done) l
termination_by l => l.work m.objects.size
decreasing_by
  have := work_buildFunction_le _h
  simp only [Listing.work, List.length_cons] at this ⊢
  omega

/-- The image of a function and of everything its constants lead to. -/
def build (m : Memory) (entry : Option ObjectId) : Except BuildError Image :=
  match entry with
  | none => .error .noEntry
  | some id => do
    let functions ← buildPending m [] ⟨[id], [id]⟩
    return { version := formatVersion, functions := some functions }

end StackVm.Image
