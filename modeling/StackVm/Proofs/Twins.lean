/-
Twin executions.  Twins work on memories of their own, with collections at
moments of their own, but everything that one machine and its surroundings hold
corresponds to what the other holds, object by object.  A pairing relates owned
objects only, so that twins never come upon a reclaimed object.
-/
import StackVm.Proofs.Allocation
import StackVm.Proofs.LikeMemory

namespace StackVm

open List (Forall₂)

/-- What a run leaves alone: what the other root sources hold, where the machine is
registered, and the anchors and the limit of the heap; and the number of objects at
the start of the run. -/
structure Ground where
  held : RootId → List ObjectId
  source : RootId
  roots : RootSet
  pins : List (ObjectId × Nat)
  limit : Int64
  size : Nat

namespace Ground

/-- The ground on which an execution stands. -/
def of (held : RootId → List ObjectId) (s : Execution) : Ground where
  held
  source := s.machine.source
  roots := s.memory.heap.roots
  pins := s.memory.heap.pins
  limit := s.memory.heap.config.maxObjects
  size := s.memory.objects.size

/-- Another root source than the machine, or a pin, holds the object. -/
def Outside (g : Ground) (id : ObjectId) : Prop :=
  (∃ source ∈ g.roots.sources, source.id ≠ g.source ∧ id ∈ g.held source.id) ∨
    id ∈ g.pins.map (·.1)

/-- The machine is registered as a root source. -/
def Registered (g : Ground) : Prop := ∃ source ∈ g.roots.sources, source.id = g.source

/-- The execution stands on this ground. -/
structure Carries (g : Ground) (s : Execution) : Prop where
  wellFormed : s.memory.WellFormed
  source : s.machine.source = g.source
  roots : s.memory.heap.roots = g.roots
  pins : s.memory.heap.pins = g.pins
  limit : s.memory.heap.config.maxObjects = g.limit

end Ground

/-- What the machine and its surroundings reach. -/
def Execution.Reaches (g : Ground) (s : Execution) : ObjectId → Prop :=
  s.memory.Reaches fun id => id ∈ s.machine.holds ∨ g.Outside id

theorem Machine.holdings_of (machine : Machine) (held : RootId → List ObjectId) :
    machine.holdings (.of held) =
      .of fun id => if id = machine.source then machine.holds else held id := by
  funext id
  rw [Machine.holdings, Holdings.of, Holdings.of]
  split <;> rfl

theorem Machine.mem_holdings_of {machine : Machine} {held : RootId → List ObjectId}
    {root : RootId} {id : ObjectId} :
    Hold.object id ∈ machine.holdings (.of held) root ↔
      if root = machine.source then id ∈ machine.holds else id ∈ held root := by
  rw [Machine.holdings, Holdings.of]
  split <;> simp

/-- For an allocation exactly these objects are reachable. -/
theorem Ground.Carries.reachable {g : Ground} {s : Execution} (h : g.Carries s)
    (hregistered : g.Registered) :
    s.memory.Reachable (s.machine.holdings (.of g.held)) = s.Reaches g := by
  have hanchored : ∀ id, s.memory.Anchored (s.machine.holdings (.of g.held)) id ↔
      id ∈ s.machine.holds ∨ g.Outside id := by
    intro id
    rw [Memory.Anchored, Memory.rootHolds, h.roots, h.pins, List.mem_flatMap,
      Ground.Outside, ← or_assoc]
    refine or_congr ?_ Iff.rfl
    simp only [Machine.mem_holdings_of, h.source]
    constructor
    · rintro ⟨source, hsource, hid⟩
      split at hid
      · exact Or.inl hid
      · next hother => exact Or.inr ⟨source, hsource, hother, hid⟩
    · rintro (hid | ⟨source, hsource, hother, hid⟩)
      · obtain ⟨source, hsource, hself⟩ := hregistered
        exact ⟨source, hsource, by rwa [if_pos hself]⟩
      · exact ⟨source, hsource, by rwa [if_neg hother]⟩
  rw [Memory.Reachable, Execution.Reaches]
  congr 1
  funext id
  exact propext (hanchored id)

/-- Two grounds that runs are compared on, and the objects that stood for one another
at the start. -/
structure Comparison where
  left : Ground
  right : Ground
  start : Pairing
  registeredLeft : left.Registered
  registeredRight : right.Registered
  limit : left.limit = right.limit

/-- The objects stood for one another at the start, or both runs made them at the same
moment. -/
def Comparison.Traces (E : Comparison) (i j : ObjectId) : Prop :=
  E.start i j ∨ (E.left.size ≤ i ∧ E.right.size ≤ j ∧ i + E.right.size = j + E.left.size)

/-- Two executions that differ only in where their objects are. -/
structure Twin (E : Comparison) (pairing : Pairing) (s t : Execution) : Prop where
  left : E.left.Carries s
  right : E.right.Carries t
  memory : s.memory.Like pairing t.memory
  machine : s.machine.Like pairing t.machine
  lastError : s.machine.lastError = t.machine.lastError
  owns : ∀ {i j}, pairing i j → s.memory.Owns i ∧ t.memory.Owns j
  outside_left : ∀ i, E.left.Outside i → ∃ j, E.right.Outside j ∧ pairing i j
  outside_right : ∀ j, E.right.Outside j → ∃ i, E.left.Outside i ∧ pairing i j
  input : s.input = t.input
  out : s.out = t.out
  err : s.err = t.err
  /-- Both runs have made the same number of objects. -/
  size : s.memory.objects.size + E.right.size = t.memory.objects.size + E.left.size
  grown : E.left.size ≤ s.memory.objects.size
  traces : ∀ {i j}, pairing i j → E.Traces i j

theorem Memory.Reaches.related {m n : Memory} {start start' : ObjectId → Prop}
    (pairing : Pairing) (hstart : ∀ i, start i → ∃ j, start' j ∧ pairing i j)
    (hrefs : ∀ {i j}, pairing i j → ∀ x ∈ m.references i, ∃ y ∈ n.references j, pairing x y)
    {i : ObjectId} (hi : m.Reaches start i) : ∃ j, n.Reaches start' j ∧ pairing i j := by
  induction hi with
  | start h =>
    obtain ⟨j, hj, hij⟩ := hstart _ h
    exact ⟨j, .start hj, hij⟩
  | reference _ hmem ih =>
    obtain ⟨j, hj, hij⟩ := ih
    obtain ⟨y, hy, hxy⟩ := hrefs hij _ hmem
    exact ⟨y, hj.reference hy, hxy⟩

section

variable {E : Comparison} {pairing : Pairing} {s t : Execution}

theorem Memory.Like.references {m n : Memory} (h : m.Like pairing n) {i j : ObjectId}
    (hij : pairing i j) : Forall₂ pairing (m.references i) (n.references j) := by
  have hpayload := h.payload hij
  rw [Memory.references_eq, Memory.references_eq]
  revert hpayload
  generalize m.payload? i = p
  generalize n.payload? j = q
  rintro (hpq | _)
  · exact hpq.references
  · exact .nil

/-- A content is like itself where everything it refers to stands for itself. -/
theorem Memory.payload?_like_self {m : Memory} {i : ObjectId}
    (h : ∀ x ∈ m.references i, pairing x x) :
    Option.Rel (Payload.Like pairing m.chunks m.chunks) (m.payload? i) (m.payload? i) := by
  rw [Memory.references_eq] at h
  cases hpayload : m.payload? i with
  | none => exact .none
  | some p =>
    rw [hpayload] at h
    exact .some (Payload.like_self h)

/-- Everything reached on the left has its counterpart on the right. -/
theorem Twin.reaches_left (h : Twin E pairing s t) {i : ObjectId} (hi : s.Reaches E.left i) :
    ∃ j, t.Reaches E.right j ∧ pairing i j := by
  refine Memory.Reaches.related pairing ?_ (fun hij x hx => ?_) hi
  · rintro i (hi | hi)
    · obtain ⟨j, hj, hij⟩ := exists_mem_right h.machine.holds hi
      exact ⟨j, Or.inl hj, hij⟩
    · obtain ⟨j, hj, hij⟩ := h.outside_left i hi
      exact ⟨j, Or.inr hj, hij⟩
  · exact exists_mem_right (h.memory.references hij) hx

theorem Twin.reaches_right (h : Twin E pairing s t) {j : ObjectId} (hj : t.Reaches E.right j) :
    ∃ i, s.Reaches E.left i ∧ pairing i j := by
  refine Memory.Reaches.related (flip pairing) ?_ (fun hij x hx => ?_) hj
  · rintro j (hj | hj)
    · obtain ⟨i, hi, hij⟩ := exists_mem_left h.machine.holds hj
      exact ⟨i, Or.inl hi, hij⟩
    · obtain ⟨i, hi, hij⟩ := h.outside_right j hj
      exact ⟨i, Or.inr hi, hij⟩
  · exact exists_mem_left (h.memory.references hij) hx

theorem Twin.owns_left (h : Twin E pairing s t) {i : ObjectId} (hi : s.Reaches E.left i) :
    s.memory.Owns i := by
  obtain ⟨j, _, hij⟩ := h.reaches_left hi
  exact (h.owns hij).1

theorem Twin.owns_right (h : Twin E pairing s t) {j : ObjectId} (hj : t.Reaches E.right j) :
    t.memory.Owns j := by
  obtain ⟨i, _, hij⟩ := h.reaches_right hj
  exact (h.owns hij).2

/-- Both sides reach equally many objects. -/
theorem Twin.ncard_reaches (h : Twin E pairing s t) :
    {i | s.Reaches E.left i}.ncard = {j | t.Reaches E.right j}.ncard := by
  have hmate : ∀ i, s.Reaches E.left i → ∃ j, t.Reaches E.right j ∧ pairing i j :=
    fun i hi => h.reaches_left hi
  choose mate hreach hpair using hmate
  apply Set.ncard_congr mate
  · intro i hi
    exact hreach i hi
  · intro i k hi hk heq
    exact h.memory.oneToOne.left (hpair i hi) (heq ▸ hpair k hk)
  · intro j hj
    obtain ⟨i, hi, hij⟩ := h.reaches_right hj
    exact ⟨i, hi, h.memory.oneToOne.right (hpair i hi) hij⟩

/-! ### Changing one thing on both sides -/

/-- Twins stay twins when their machines change alike. -/
theorem Twin.with_machine (h : Twin E pairing s t) {a b : Machine}
    (hab : a.Like pairing b) (ha : a.source = s.machine.source)
    (hb : b.source = t.machine.source) (herror : a.lastError = b.lastError) :
    Twin E pairing { s with machine := a } { t with machine := b } where
  left := { h.left with source := ha.trans h.left.source }
  right := { h.right with source := hb.trans h.right.source }
  memory := h.memory
  machine := hab
  lastError := herror
  owns := h.owns
  outside_left := h.outside_left
  outside_right := h.outside_right
  input := h.input
  out := h.out
  err := h.err
  size := h.size
  grown := h.grown
  traces := h.traces

/-- Twins stay twins when they write the same and leave the same input. -/
theorem Twin.with_streams (h : Twin E pairing s t) {input input' : Text}
    {out out' err err' : Array UInt8} (hinput : input = input') (hout : out = out')
    (herr : err = err') :
    Twin E pairing { s with input, out, err }
      { t with input := input', out := out', err := err' } where
  left := { h.left with }
  right := { h.right with }
  memory := h.memory
  machine := h.machine
  lastError := h.lastError
  owns := h.owns
  outside_left := h.outside_left
  outside_right := h.outside_right
  input := hinput
  out := hout
  err := herr
  size := h.size
  grown := h.grown
  traces := h.traces

theorem Memory.payload?_modifyPayload (m : Memory) (id : ObjectId) (f : Payload → Payload)
    (i : ObjectId) : (m.modifyPayload id f).payload? i =
      if id = i then (m.payload? i).map f else m.payload? i := by
  rw [Memory.payload?, Memory.payload?, Memory.modifyPayload, Array.getElem?_modify]
  split
  · rw [Option.map_map, Option.map_map]
    rfl
  · rfl

theorem Memory.placement?_modifyPayload (m : Memory) (id : ObjectId) (f : Payload → Payload)
    (i : ObjectId) : (m.modifyPayload id f).placement? i = m.placement? i := by
  rw [Memory.placement?, Memory.placement?, Memory.modifyPayload, Array.getElem?_modify]
  split
  · rw [Option.bind_map]
    rfl
  · rfl

theorem Memory.owns_modifyPayload {m : Memory} {id : ObjectId} {f : Payload → Payload}
    {i : ObjectId} (hi : m.Owns i) : (m.modifyPayload id f).Owns i := by
  obtain ⟨p, hp⟩ := hi
  exact ⟨p, (m.placement?_modifyPayload id f i).trans hp.found, hp.heap, hp.unswept⟩

theorem Memory.WellFormed.modifyPayload {m : Memory} (hm : m.WellFormed) (id : ObjectId)
    (f : Payload → Payload) : (m.modifyPayload id f).WellFormed :=
  hm.of_placements rfl fun i p _ => by rw [Memory.placement?_modifyPayload]

/-- Twins stay twins when the contents of paired objects change alike. -/
theorem Twin.with_payload (h : Twin E pairing s t) {i j : ObjectId} (hij : pairing i j)
    {f g : Payload → Payload}
    (hfg : ∀ p q, p.Like pairing s.memory.chunks t.memory.chunks q →
      (f p).Like pairing s.memory.chunks t.memory.chunks (g q)) :
    Twin E pairing { s with memory := s.memory.modifyPayload i f }
      { t with memory := t.memory.modifyPayload j g } where
  left := { h.left with wellFormed := h.left.wellFormed.modifyPayload i f }
  right := { h.right with wellFormed := h.right.wellFormed.modifyPayload j g }
  memory := by
    refine ⟨h.memory.oneToOne, fun {x y} hxy => ?_⟩
    have hpayload := h.memory.payload hxy
    rw [Memory.payload?_modifyPayload, Memory.payload?_modifyPayload]
    by_cases hx : i = x
    · subst hx
      have hy : j = y := h.memory.oneToOne.right hij hxy
      rw [if_pos rfl, if_pos hy]
      exact rel_map hpayload hfg
    · have hy : j ≠ y := by
        rintro rfl
        exact hx (h.memory.oneToOne.left hij hxy)
      rw [if_neg hx, if_neg hy]
      exact hpayload
  machine := h.machine
  lastError := h.lastError
  owns hxy := ⟨Memory.owns_modifyPayload (h.owns hxy).1, Memory.owns_modifyPayload (h.owns hxy).2⟩
  outside_left := h.outside_left
  outside_right := h.outside_right
  input := h.input
  out := h.out
  err := h.err
  size := by
    rw [Memory.modifyPayload, Memory.modifyPayload, Array.size_modify, Array.size_modify]
    exact h.size
  grown := by
    rw [Memory.modifyPayload, Array.size_modify]
    exact h.grown
  traces := h.traces

end

end StackVm
