/-
Likeness: two memories, machines or contents that differ only in which objects
stand where.  A pairing says which object of the one memory stands for which of
the other; scalars, texts and sizes have to be the same.
-/
import Mathlib.Data.List.Forall2
import StackVm.Machine.Basic
import StackVm.Proofs.Ownership

namespace StackVm

open List (Forall₂)

/-- Which objects of two memories stand for one another. -/
abbrev Pairing := ObjectId → ObjectId → Prop

/-- No object stands for two. -/
structure Pairing.OneToOne (pairing : Pairing) : Prop where
  right : ∀ {i j k}, pairing i j → pairing i k → j = k
  left : ∀ {i j k}, pairing i k → pairing j k → i = j

/-- Some objects, each of which stands for itself. -/
theorem Pairing.oneToOne_self (among : ObjectId → Prop) :
    Pairing.OneToOne fun i j => i = j ∧ among i where
  right h h' := h.1.symm.trans h'.1
  left h h' := h.1.trans h'.1.symm

/-! ### Lists and arrays that agree place by place -/

section

variable {α β γ δ : Type} {r : α → β → Prop}

theorem forall₂_iff_getElem? {xs : List α} {ys : List β} :
    Forall₂ r xs ys ↔ ∀ i : Nat, Option.Rel r xs[i]? ys[i]? := by
  constructor
  · intro h
    induction h with
    | nil => intro i; exact .none
    | cons hab _ ih =>
      intro i
      cases i with
      | zero => exact .some hab
      | succ i => exact ih i
  · intro h
    induction xs generalizing ys with
    | nil =>
      cases ys with
      | nil => exact .nil
      | cons y ys => cases h 0
    | cons x xs ih =>
      cases ys with
      | nil => cases h 0
      | cons y ys =>
        have hxy : r x y := by
          cases h 0 with
          | some hxy => exact hxy
        exact .cons hxy (ih fun i => h (i + 1))

theorem exists_of_rel_some {x : α} {b : Option β} (h : Option.Rel r (some x) b) :
    ∃ y, b = some y ∧ r x y := by
  cases h with
  | some hxy => exact ⟨_, rfl, hxy⟩

theorem forall₂_congr_right {s : α → β → Prop} {xs : List α} {ys : List β}
    (h : ∀ x, ∀ y ∈ ys, (r x y ↔ s x y)) : Forall₂ r xs ys ↔ Forall₂ s xs ys := by
  rw [List.forall₂_iff_zip, List.forall₂_iff_zip]
  refine and_congr_right fun _ => ⟨fun hr x y hxy => ?_, fun hs x y hxy => ?_⟩
  · exact (h x y (List.of_mem_zip hxy).2).1 (hr hxy)
  · exact (h x y (List.of_mem_zip hxy).2).2 (hs hxy)

/-- What is said of both lists may be a matter of the left one alone. -/
theorem forall₂_iff_forall_left {s : α → β → Prop} {p : α → Prop} {xs : List α} {ys : List β}
    (h : Forall₂ r xs ys) (hiff : ∀ x y, r x y → (s x y ↔ p x)) :
    Forall₂ s xs ys ↔ ∀ x ∈ xs, p x := by
  induction h with
  | nil => exact ⟨fun _ => nofun, fun _ => .nil⟩
  | cons hfirst _ ih => rw [List.forall₂_cons, List.forall_mem_cons, hiff _ _ hfirst, ih]

theorem rel_map {s : γ → δ → Prop} {f : α → γ} {g : β → δ} {a : Option α} {b : Option β}
    (h : Option.Rel r a b) (hfg : ∀ x y, r x y → s (f x) (g y)) :
    Option.Rel s (a.map f) (b.map g) := by
  cases h with
  | none => exact .none
  | some hab => exact .some (hfg _ _ hab)

/-- A relation may use where its left sides come from. -/
theorem forall₂_imp_of_mem {s : α → β → Prop} {xs : List α} {ys : List β}
    (h : Forall₂ r xs ys) (himp : ∀ x ∈ xs, ∀ y, r x y → s x y) : Forall₂ s xs ys := by
  induction h with
  | nil => exact .nil
  | cons hab _ ih =>
    refine .cons (himp _ List.mem_cons_self _ hab) (ih fun x hx => ?_)
    exact himp x (List.mem_cons_of_mem _ hx)

theorem forall₂_filterMap {f : α → Option γ} {g : β → Option δ} {s : γ → δ → Prop}
    {xs : List α} {ys : List β} (h : Forall₂ r xs ys)
    (hrel : ∀ x y, r x y → Option.Rel s (f x) (g y)) :
    Forall₂ s (xs.filterMap f) (ys.filterMap g) :=
  List.rel_filterMap (fun x y hxy => hrel x y hxy) h

theorem forall₂_set {xs : List α} {ys : List β} (h : Forall₂ r xs ys) (i : Nat) {x : α} {y : β}
    (hxy : r x y) : Forall₂ r (xs.set i x) (ys.set i y) := by
  rw [forall₂_iff_getElem?]
  intro k
  rw [List.getElem?_set, List.getElem?_set, h.length_eq]
  split
  · split
    · exact .some hxy
    · exact .none
  · exact forall₂_iff_getElem?.1 h k

theorem exists_mem_right {xs : List α} {ys : List β} (h : Forall₂ r xs ys) {x : α}
    (hx : x ∈ xs) : ∃ y ∈ ys, r x y := by
  induction h with
  | nil => cases hx
  | cons hab _ ih =>
    rcases List.mem_cons.1 hx with rfl | hx
    · exact ⟨_, List.mem_cons_self, hab⟩
    · obtain ⟨y, hy, hxy⟩ := ih hx
      exact ⟨y, List.mem_cons_of_mem _ hy, hxy⟩

theorem exists_mem_left {xs : List α} {ys : List β} (h : Forall₂ r xs ys) {y : β}
    (hy : y ∈ ys) : ∃ x ∈ xs, r x y :=
  exists_mem_right h.flip hy

/-- Two arrays agree place by place. -/
def Rows (r : α → β → Prop) (xs : Array α) (ys : Array β) : Prop := Forall₂ r xs.toList ys.toList

theorem rows_iff {xs : Array α} {ys : Array β} :
    Rows r xs ys ↔ ∀ i : Nat, Option.Rel r xs[i]? ys[i]? := by
  rw [Rows, forall₂_iff_getElem?]
  simp only [Array.getElem?_toList]

namespace Rows

variable {xs : Array α} {ys : Array β} (h : Rows r xs ys)

include h

theorem getElem? (i : Nat) : Option.Rel r xs[i]? ys[i]? := rows_iff.1 h i

theorem size : xs.size = ys.size := h.length_eq

theorem push {x : α} {y : β} (hxy : r x y) : Rows r (xs.push x) (ys.push y) := by
  rw [rows_iff]
  intro i
  rw [Array.getElem?_push, Array.getElem?_push, h.size]
  split
  · exact .some hxy
  · exact h.getElem? i

theorem pop : Rows r xs.pop ys.pop := by
  rw [rows_iff]
  intro i
  rw [Array.getElem?_pop, Array.getElem?_pop, h.size]
  split
  · exact h.getElem? i
  · exact .none

theorem back? : Option.Rel r xs.back? ys.back? := by
  rw [Array.back?_eq_getElem?, Array.back?_eq_getElem?, h.size]
  exact h.getElem? _

theorem shrink (n : Nat) : Rows r (xs.shrink n) (ys.shrink n) := by
  rw [Rows, Array.toList_shrink, Array.toList_shrink]
  exact List.forall₂_take n h

theorem extract (start stop : Nat) : Rows r (xs.extract start stop) (ys.extract start stop) := by
  rw [rows_iff]
  intro i
  rw [Array.getElem?_extract, Array.getElem?_extract, h.size]
  split
  · exact h.getElem? _
  · exact .none

theorem setIfInBounds (i : Nat) {x : α} {y : β} (hxy : r x y) :
    Rows r (xs.setIfInBounds i x) (ys.setIfInBounds i y) := by
  rw [rows_iff]
  intro k
  rw [Array.getElem?_setIfInBounds, Array.getElem?_setIfInBounds, h.size]
  split
  · split
    · exact .some hxy
    · exact .none
  · exact h.getElem? k

end Rows

end

/-! ### Values -/

/-- The same scalar, or objects that stand for one another. -/
inductive Value.Like (pairing : Pairing) : Value → Value → Prop
  | nil : Like pairing .nil .nil
  | int (n : Int64) : Like pairing (.int n) (.int n)
  | bool (b : Bool) : Like pairing (.bool b) (.bool b)
  | native (address : UInt64) : Like pairing (.native address) (.native address)
  | object {i j : ObjectId} : pairing i j → Like pairing (.object i) (.object j)

section

variable {pairing smaller : Pairing}

theorem Value.Like.id? {v w : Value} (h : v.Like pairing w) :
    Option.Rel pairing v.id? w.id? := by
  cases h with
  | object hij => exact .some hij
  | _ => exact .none

theorem Value.Like.restrict {v w : Value} (h : v.Like pairing w)
    (hkeep : ∀ i ∈ v.id?, ∀ j, pairing i j → smaller i j) : v.Like smaller w := by
  cases h with
  | object hij => exact .object (hkeep _ rfl _ hij)
  | nil => exact .nil
  | int n => exact .int n
  | bool b => exact .bool b
  | native address => exact .native address

theorem Value.Like.isFalsey {v w : Value} (h : v.Like pairing w) : v.isFalsey = w.isFalsey := by
  cases h <;> rfl

theorem referents_like {vs ws : List Value} (h : Forall₂ (Value.Like pairing) vs ws) :
    Forall₂ pairing (referents vs) (referents ws) :=
  forall₂_filterMap h fun _ _ hvw => hvw.id?

theorem values_restrict {vs ws : List Value} (h : Forall₂ (Value.Like pairing) vs ws)
    (hkeep : ∀ i ∈ referents vs, ∀ j, pairing i j → smaller i j) :
    Forall₂ (Value.Like smaller) vs ws := by
  apply forall₂_imp_of_mem h
  intro v hv w hvw
  refine hvw.restrict fun i hi => hkeep i ?_
  exact List.mem_filterMap.2 ⟨v, hv, hi⟩

/-! ### Records -/

/-- The same name with like values. -/
structure Named (pairing : Pairing) (e f : Text × Value) : Prop where
  name : e.1 = f.1
  value : e.2.Like pairing f.2

namespace Record

/-- The same names at the same places with like values. -/
structure Like (pairing : Pairing) (r q : Record) : Prop where
  index : r.index = q.index
  names : r.names = q.names
  values : Forall₂ (Value.Like pairing) r.values q.values

theorem like_empty : Like pairing {} {} := ⟨rfl, rfl, .nil⟩

variable {r q : Record}

/-- The arrays of the values agree place by place. -/
theorem Like.rows (h : r.Like pairing q) :
    Rows (Value.Like pairing) r.values.toArray q.values.toArray := h.values

theorem Like.size (h : r.Like pairing q) : r.size = q.size := congrArg List.length h.names

theorem Like.slot? (h : r.Like pairing q) (name : Text) : r.slot? name = q.slot? name :=
  congrArg (List.lookup name) h.index

theorem Like.putAt (h : r.Like pairing q) (slot : Nat) {v w : Value} (hvw : v.Like pairing w) :
    (r.putAt slot v).Like pairing (q.putAt slot w) where
  index := h.index
  names := h.names
  values := forall₂_set h.values slot hvw

theorem Like.set (h : r.Like pairing q) (name : Text) {v w : Value} (hvw : v.Like pairing w) :
    (r.set name v).Like pairing (q.set name w) := by
  have hsame := h.slot? name
  cases hslot : q.slot? name with
  | some slot =>
    rw [set_of_slot? (hsame.trans hslot), set_of_slot? hslot]
    exact h.putAt slot hvw
  | none =>
    rw [set_of_new (hsame.trans hslot), set_of_new hslot]
    constructor
    case index => exact congrArg₂ (fun names index => (name, names.length) :: index) h.names h.index
    case names => exact congrArg (· ++ [name]) h.names
    case values => exact List.rel_append h.values (.cons hvw .nil)

theorem Like.get? (h : r.Like pairing q) (name : Text) :
    Option.Rel (Value.Like pairing) (r.get? name) (q.get? name) := by
  rw [Record.get?, Record.get?, h.slot?]
  cases q.slot? name with
  | none => exact .none
  | some slot => exact forall₂_iff_getElem?.1 h.values slot

theorem Like.contains (h : r.Like pairing q) (name : Text) : r.contains name = q.contains name :=
  congrArg Option.isSome (h.slot? name)

theorem Like.restrict (h : r.Like pairing q)
    (hkeep : ∀ i ∈ referents r.values, ∀ j, pairing i j → smaller i j) : r.Like smaller q :=
  ⟨h.index, h.names, values_restrict h.values hkeep⟩

theorem ofPairs_like {es fs : List (Text × Value)} (h : Forall₂ (Named pairing) es fs) :
    (ofPairs es).Like pairing (ofPairs fs) := by
  have hfold : ∀ r q : Record, r.Like pairing q →
      (es.foldl (fun r p => r.set p.1 p.2) r).Like pairing
        (fs.foldl (fun r p => r.set p.1 p.2) q) := by
    induction h with
    | nil => exact fun r q hrq => hrq
    | @cons e f es fs hef _ ih =>
      intro r q hrq
      obtain ⟨n, v⟩ := e
      obtain ⟨n', w⟩ := f
      obtain rfl : n = n' := hef.name
      exact ih _ _ (hrq.set n hef.value)
  exact hfold {} {} like_empty

end Record

/-! ### Chunks and contents -/

/-- The same code with like constants. -/
structure Chunk.Like (pairing : Pairing) (c d : Chunk) : Prop where
  code : c.code = d.code
  lines : c.lines = d.lines
  constants : Rows (Value.Like pairing) c.constants d.constants
  unlinked : c.unlinked = d.unlinked

/-- Functions with the same name and arity, both verified or both not, with like code. -/
structure Function.Like (pairing : Pairing) (cs ds : Array Chunk) (f g : Function) : Prop where
  name : f.name = g.name
  arity : f.arity = g.arity
  verified : f.verified = g.verified
  code : Option.Rel (Chunk.Like pairing) (f.chunk.bind (cs[·]?)) (g.chunk.bind (ds[·]?))

/-- Contents of the same kind that agree but for the objects they refer to. -/
inductive Payload.Like (pairing : Pairing) (cs ds : Array Chunk) : Payload → Payload → Prop
  | string (data : Text) : Like pairing cs ds (.string data) (.string data)
  | array {xs ys : Array Value} :
      Rows (Value.Like pairing) xs ys → Like pairing cs ds (.array xs) (.array ys)
  | struct {r q : Record} : r.Like pairing q → Like pairing cs ds (.struct r) (.struct q)
  | function {f g : Function} :
      f.Like pairing cs ds g → Like pairing cs ds (.function f) (.function g)

variable {cs ds : Array Chunk}

theorem Payload.Like.kind {p q : Payload} (h : p.Like pairing cs ds q) : p.kind = q.kind := by
  cases h <;> rfl

theorem Payload.Like.references {p q : Payload} (h : p.Like pairing cs ds q) :
    Forall₂ pairing (p.references cs) (q.references ds) := by
  cases h with
  | string data => exact .nil
  | array hxs => exact referents_like hxs
  | struct hr => exact referents_like hr.values
  | @function f g hf =>
    have hcode := hf.code
    rw [Payload.references, Payload.references]
    revert hcode
    generalize f.chunk.bind (cs[·]?) = c
    generalize g.chunk.bind (ds[·]?) = d
    rintro (hcd | _)
    · exact referents_like hcd.constants
    · exact .nil

/-- Only the pairs of objects that a content refers to matter for it. -/
theorem Payload.Like.restrict {p q : Payload} (h : p.Like pairing cs ds q)
    (hkeep : ∀ i ∈ p.references cs, ∀ j, pairing i j → smaller i j) :
    p.Like smaller cs ds q := by
  cases h with
  | string data => exact .string data
  | array hxs => exact .array (values_restrict hxs hkeep)
  | struct hr => exact .struct (hr.restrict hkeep)
  | @function f g hf =>
    refine .function ⟨hf.name, hf.arity, hf.verified, ?_⟩
    have hcode := hf.code
    rw [Payload.references] at hkeep
    revert hcode hkeep
    generalize f.chunk.bind (cs[·]?) = c
    generalize g.chunk.bind (ds[·]?) = d
    intro hkeep hcode
    cases hcode with
    | none => exact .none
    | some hcd =>
      exact .some ⟨hcd.code, hcd.lines, values_restrict hcd.constants hkeep, hcd.unlinked⟩

/-! ### Contents are like themselves where what they refer to stands for itself -/

theorem Value.like_self {v : Value} (h : ∀ i ∈ v.id?, pairing i i) : v.Like pairing v := by
  cases v with
  | nil => exact .nil
  | int n => exact .int n
  | bool b => exact .bool b
  | native address => exact .native address
  | object i => exact .object (h i rfl)

theorem values_like_self {vs : List Value} (h : ∀ i ∈ referents vs, pairing i i) :
    Forall₂ (Value.Like pairing) vs vs := by
  rw [List.forall₂_same]
  intro v hv
  exact Value.like_self fun i hi => h i (List.mem_filterMap.2 ⟨v, hv, hi⟩)

theorem Record.like_self {r : Record} (h : ∀ i ∈ referents r.values, pairing i i) :
    r.Like pairing r := ⟨rfl, rfl, values_like_self h⟩

theorem Payload.like_self {p : Payload} (h : ∀ i ∈ p.references cs, pairing i i) :
    p.Like pairing cs cs p := by
  cases p with
  | string data => exact .string data
  | array xs => exact .array (values_like_self h)
  | struct r => exact .struct (Record.like_self h)
  | function f =>
    refine .function ⟨rfl, rfl, rfl, ?_⟩
    rw [Payload.references] at h
    revert h
    generalize f.chunk.bind (cs[·]?) = c
    intro h
    cases c with
    | none => exact .none
    | some c => exact .some ⟨rfl, rfl, values_like_self h, rfl⟩

end

end StackVm
