/-
Values at places, kept in a tree.  Each branch of the tree is a name, so that a
place is found in as many steps as it has names.
-/
import StackVm.Text.Basic

namespace StackVm

/-- The names that lead from the root to a place. -/
abbrev Place := List Text

/-- A tree: what is at its root, and the trees below it under distinct names. -/
inductive Tree (α : Type) where
  | node (value : Option α) (branches : List (Text × Tree α))
  deriving Repr

namespace Tree

variable {α : Type}

/-- The tree with nothing in it. -/
def empty : Tree α := .node none []

instance : Inhabited (Tree α) := ⟨empty⟩

/-- What is at a place. -/
def get? : Tree α → Place → Option α
  | .node value _, [] => value
  | .node _ branches, name :: rest =>
    match branches.lookup name with
    | some t => t.get? rest
    | none => none

/-- Puts a tree under a name: in place if the name is there, else at the end. -/
def graft (name : Text) (t : Tree α) : List (Text × Tree α) → List (Text × Tree α)
  | [] => [(name, t)]
  | (n, old) :: rest => if n = name then (n, t) :: rest else (n, old) :: graft name t rest

/-- Puts a value at a place, or leaves nothing there. -/
def set (v : Option α) : Tree α → Place → Tree α
  | .node _ branches, [] => .node v branches
  | .node value branches, name :: rest =>
    .node value (graft name (set v ((branches.lookup name).getD empty) rest) branches)

mutual

/-- The values with their places, below the names `up`, last one first. -/
def entriesBelow (up : List Text) : Tree α → List (Place × α)
  | .node value branches =>
    (value.toList.map fun v => (up.reverse, v)) ++ entriesOfBranches up branches

/-- The values of branches with their places. -/
def entriesOfBranches (up : List Text) : List (Text × Tree α) → List (Place × α)
  | [] => []
  | (name, t) :: rest => entriesBelow (name :: up) t ++ entriesOfBranches up rest

end

/-- All values with their places; a place comes before those below it. -/
def entries (t : Tree α) : List (Place × α) := entriesBelow [] t

theorem lookup_graft (name other : Text) (t : Tree α) (branches : List (Text × Tree α)) :
    (graft name t branches).lookup other =
      if other = name then some t else branches.lookup other := by
  induction branches with
  | nil =>
    by_cases h : other = name
    · simp [graft, h]
    · simp [graft, List.lookup_cons, h, beq_eq_false_iff_ne.2 h]
  | cons b rest ih =>
    obtain ⟨n, old⟩ := b
    by_cases hn : n = name
    · subst hn
      by_cases h : other = n
      · simp [graft, h]
      · simp [graft, List.lookup_cons, h, beq_eq_false_iff_ne.2 h]
    · by_cases h : other = n
      · simp [graft, hn, h]
      · simp [graft, List.lookup_cons, hn, beq_eq_false_iff_ne.2 h, ih]

theorem get?_empty (place : Place) : (empty : Tree α).get? place = none := by
  cases place <;> simp [empty, get?]

/-- A tree is a map from places to values. -/
@[simp]
theorem get?_set (v : Option α) (t : Tree α) (place other : Place) :
    (t.set v place).get? other = if other = place then v else t.get? other := by
  induction place generalizing t other with
  | nil =>
    obtain ⟨value, branches⟩ := t
    cases other <;> simp [set, get?]
  | cons name rest ih =>
    obtain ⟨value, branches⟩ := t
    cases other with
    | nil => simp [set, get?]
    | cons n others =>
      by_cases hn : n = name
      · subst hn
        cases hb : branches.lookup n <;>
          simp [set, get?, lookup_graft, hb, ih, get?_empty]
      · simp [set, get?, lookup_graft, hn]

end Tree

end StackVm
