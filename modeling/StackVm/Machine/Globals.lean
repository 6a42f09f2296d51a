/-
Global variables: names bound to values, with a one-entry cache in front of the
index.

A binding keeps its place for ever, so that the place of the last name asked for
can be remembered.  Every change counts up a version, and the cache is asked only
while it carries the current one.
-/
import StackVm.Record

namespace StackVm

/-- The remembered place of a name. -/
structure GlobalCache where
  name : Text
  slot : Nat
  version : UInt64
  deriving DecidableEq, Repr

/-- The table of globals: the bindings in order of first definition, with the index
that finds them. -/
structure Globals extends Record where
  version : UInt64
  cache : Option GlobalCache
  deriving Repr

namespace Globals

/-- The table without bindings. -/
def empty : Globals where
  toRecord := {}
  version := 0
  cache := none

instance : EmptyCollection Globals := ⟨empty⟩

instance : Inhabited Globals := ⟨empty⟩

/-- The place the cache knows for a name. -/
def cached? (g : Globals) (name : Text) : Option Nat :=
  match g.cache with
  | some c => if c.version = g.version ∧ c.name = name then some c.slot else none
  | none => none

/-- Remembers the place of a name. -/
def remember (g : Globals) (name : Text) (slot : Nat) : Globals :=
  { g with cache := some ⟨name, slot, g.version⟩ }

/-- Forgets the remembered place. -/
def dropCache (g : Globals) : Globals := { g with cache := none }

/-- Finds the place of a name, through the cache if it knows the name. -/
def resolve (g : Globals) (name : Text) : Option Nat × Globals :=
  match g.cached? name with
  | some slot => (some slot, g)
  | none =>
    match g.slot? name with
    | some slot => (some slot, g.remember name slot)
    | none => (none, g)

/-- Changes the bindings and counts the change. -/
def change (g : Globals) (bindings : Record) : Globals :=
  { g with toRecord := bindings, version := g.version + 1 }

/-- The value of a name. -/
def get (g : Globals) (name : Text) : Option Value × Globals :=
  let (slot, g) := g.resolve name
  (slot.bind fun slot => g.values[slot]?, g)

/-- Assigns a bound name; `none` if the name is not bound. -/
def set (g : Globals) (name : Text) (v : Value) : Option Globals :=
  let (slot, g) := g.resolve name
  slot.map fun slot => (g.change (g.putAt slot v)).remember name slot

/-- Binds a name, bound before or not. -/
def define (g : Globals) (name : Text) (v : Value) : Globals :=
  let slot := (g.slot? name).getD g.values.length
  (g.change (g.toRecord.set name v)).remember name slot

end Globals

end StackVm
