/-
Records: maps from names to values that remember the order in which the names
first came.  Structs are records, and the table of globals is kept as one.

A record has three columns: the names and the values in that order, and an index
that knows the place of each name in both.
-/
import StackVm.Value

namespace StackVm

/-- Named values in order of first insertion. -/
@[ext]
structure Record where
  /-- The place of each name. -/
  index : List (Text × Nat)
  names : List Text
  values : List Value
  /-- Each name has a value at its place, and there are no other values. -/
  aligned : values.length = names.length
  /-- The index knows the names that are there and no others, each at its place. -/
  indexed : ∀ name slot, index.lookup name = some slot ↔ names[slot]? = some name
  deriving DecidableEq, Repr

namespace Record

/-- The record without names. -/
def empty : Record where
  index := []
  names := []
  values := []
  aligned := rfl
  indexed name slot := by simp

instance : EmptyCollection Record := ⟨empty⟩

instance : Inhabited Record := ⟨empty⟩

/-- The place of a name. -/
def slot? (r : Record) (name : Text) : Option Nat := r.index.lookup name

/-- Puts a value in place of the one that stands there. -/
def putAt (r : Record) (slot : Nat) (v : Value) : Record where
  index := r.index
  names := r.names
  values := r.values.set slot v
  aligned := by rw [List.length_set, r.aligned]
  indexed := r.indexed

/-- The index goes on knowing every name when a new one comes to stand at the end. -/
theorem indexed_concat (r : Record) {name : Text} (hnew : r.slot? name = none) (other : Text)
    (slot : Nat) : ((name, r.names.length) :: r.index).lookup other = some slot ↔
      (r.names ++ [name])[slot]? = some other := by
  have hold := r.indexed other slot
  rw [List.lookup_cons]
  by_cases hother : other = name
  · subst hother
    have hfree : r.names[slot]? ≠ some other := fun hslot => by
      rw [← hold, ← slot?, hnew] at hslot
      cases hslot
    rw [beq_self_eq_true, List.getElem?_append]
    simp only [Option.some.injEq, List.getElem?_singleton]
    split <;> grind
  · rw [beq_eq_false_iff_ne.2 hother]
    simp only [hold, List.getElem?_append, List.getElem?_singleton]
    split <;> grind

/-- Puts a new name with its value at the end. -/
def push (r : Record) (name : Text) (v : Value) (hnew : r.slot? name = none) : Record where
  index := (name, r.names.length) :: r.index
  names := r.names ++ [name]
  values := r.values ++ [v]
  aligned := by rw [List.length_append, List.length_append, r.aligned]; rfl
  indexed := r.indexed_concat hnew

/-- Inserts or overwrites a field. -/
def set (r : Record) (name : Text) (v : Value) : Record :=
  match hslot : r.slot? name with
  | some slot => r.putAt slot v
  | none => r.push name v hslot

/-- The value of a field. -/
def get? (r : Record) (name : Text) : Option Value :=
  (r.slot? name).bind fun slot => r.values[slot]?

/-- Whether the record has a field. -/
def contains (r : Record) (name : Text) : Bool := (r.slot? name).isSome

/-- How many fields the record has. -/
def size (r : Record) : Nat := r.names.length

/-- The names with their values, in order. -/
def fields (r : Record) : List (Text × Value) := r.names.zip r.values

/-- The record that a list of pairs makes when they are set one after another. -/
def ofPairs (pairs : List (Text × Value)) : Record := pairs.foldl (fun r p => r.set p.1 p.2) {}

variable {r : Record} {name : Text} {slot : Nat}

theorem set_of_slot? (hslot : r.slot? name = some slot) (v : Value) :
    r.set name v = r.putAt slot v := by
  unfold set
  split
  · next found hfound =>
    rw [Option.some.inj (hfound.symm.trans hslot)]
  · next hnone => cases hnone.symm.trans hslot

theorem set_of_new (hnew : r.slot? name = none) (v : Value) :
    r.set name v = r.push name v hnew := by
  unfold set
  split
  · next found hfound => cases hfound.symm.trans hnew
  · rfl

end Record

end StackVm
