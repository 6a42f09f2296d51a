/-
Watching for reads of reclaimed objects.  A watched allocation refuses to work on a
state in which something reachable is not owned, and overwrites what reclaimed
objects contain as soon as it has run.  An execution that cannot tell watched
allocations from plain ones never reads a reclaimed object.
-/
import StackVm.Proofs.Schedule

namespace StackVm

open List (Forall₂)

/-- Overwrites the contents of all reclaimed objects. -/
def Memory.overwrite (m : Memory) (remains : ObjectId → Payload) : Memory :=
  { m with
    objects := m.objects.mapIdx fun id o =>
      if (o.placement.map (·.swept)).getD false then { o with payload := remains id } else o }

/-- Everything reachable is live and belongs to the heap. -/
structure Execution.Sound (others : Holdings) (s : Execution) : Prop where
  wellFormed : s.memory.WellFormed
  owns : ∀ id, s.memory.Reachable (s.machine.holdings others) id → s.memory.Owns id

open Classical in
/-- Allocates in a sound state only, and overwrites what has been reclaimed. -/
noncomputable def Exec.watched (others : Holdings) (remains : ObjectId → Payload) :
    Exec.Allocator := fun payload s =>
  if s.Sound others then
    match Exec.alloc others payload s with
    | .ok id s => .ok id { s with memory := s.memory.overwrite remains }
    | .error e s => .error e { s with memory := s.memory.overwrite remains }
  else .error (.fault (.foreign payload.kind)) s

namespace Memory

variable (m : Memory) (remains : ObjectId → Payload)

theorem placement?_overwrite (id : ObjectId) :
    (m.overwrite remains).placement? id = m.placement? id := by
  rw [placement?, placement?, overwrite, Array.getElem?_mapIdx]
  cases m.objects[id]? with
  | none => rfl
  | some o =>
    simp only [Option.map_some, Option.bind_some]
    split <;> rfl

theorem payload?_overwrite {id : ObjectId} (hid : m.Owns id) :
    (m.overwrite remains).payload? id = m.payload? id := by
  obtain ⟨p, hp⟩ := hid
  obtain ⟨o, ho, hplacement⟩ := Option.bind_eq_some_iff.1 hp.found
  have hunswept : (o.placement.map (·.swept)).getD false = false := by
    rw [hplacement]
    exact hp.unswept
  rw [payload?, payload?, overwrite, Array.getElem?_mapIdx, ho]
  simp only [Option.map_some, hunswept, Bool.false_eq_true, if_false]

variable {m}

theorem WellFormed.overwrite (hm : m.WellFormed) : (m.overwrite remains).WellFormed :=
  hm.of_placements rfl fun id p _ => by rw [placement?_overwrite]

theorem owns_overwrite {id : ObjectId} (hid : m.Owns id) : (m.overwrite remains).Owns id := by
  obtain ⟨p, hp⟩ := hid
  exact ⟨p, (m.placement?_overwrite remains id).trans hp.found, hp.heap, hp.unswept⟩

theorem size_overwrite : (m.overwrite remains).objects.size = m.objects.size :=
  Array.size_mapIdx

end Memory

section

variable {E : Comparison} {pairing : Pairing} {s t : Execution}

/-- Twins do not depend on what reclaimed objects contain. -/
theorem Twin.overwrite (h : Twin E pairing s t) (remains : ObjectId → Payload) :
    Twin E pairing s { t with memory := t.memory.overwrite remains } where
  left := h.left
  right := { h.right with wellFormed := h.right.wellFormed.overwrite remains }
  memory := by
    refine ⟨h.memory.oneToOne, fun {i j} hij => ?_⟩
    rw [Memory.payload?_overwrite _ _ (h.owns hij).2]
    exact h.memory.payload hij
  machine := h.machine
  lastError := h.lastError
  owns hij := ⟨(h.owns hij).1, Memory.owns_overwrite remains (h.owns hij).2⟩
  outside_left := h.outside_left
  outside_right := h.outside_right
  input := h.input
  out := h.out
  err := h.err
  size := by
    rw [Memory.size_overwrite]
    exact h.size
  grown := h.grown
  traces := h.traces

theorem Twin.sound_left (h : Twin E pairing s t) : s.Sound (.of E.left.held) := by
  refine ⟨h.left.wellFormed, fun id hid => h.owns_left ?_⟩
  rw [← h.left.reachable E.registeredLeft]
  exact hid

theorem Twin.sound_right (h : Twin E pairing s t) : t.Sound (.of E.right.held) := by
  refine ⟨h.right.wellFormed, fun id hid => h.owns_right ?_⟩
  rw [← h.right.reachable E.registeredRight]
  exact hid

/-- Plain and watched allocations keep twins in lockstep. -/
theorem agree_watched (E : Comparison) (remains : ObjectId → Payload) :
    Agree E (Exec.alloc (.of E.left.held)) (Exec.watched (.of E.right.held) remains) := by
  intro pairing s t p q h hpq hrefs
  have hmade := agree_alloc E h hpq hrefs
  rw [Exec.watched, if_pos h.sound_right]
  revert hmade
  generalize Exec.alloc (.of E.left.held) p s = r
  generalize Exec.alloc (.of E.right.held) q t = r'
  intro hmade
  cases hmade with
  | ok htwin hij hkept hmachine => exact .ok (htwin.overwrite remains) hij hkept hmachine
  | stop htwin he => exact .stop (htwin.overwrite remains) he

/-- What an execution and some further objects reach. -/
def Execution.Spans (held : RootId → List ObjectId) (s : Execution) (given : ObjectId → Prop) :
    ObjectId → Prop :=
  s.memory.Reaches fun id =>
    id ∈ s.machine.holds ∨ (Ground.of held s).Outside id ∨ given id

theorem Execution.Sound.owns_of_spans {held : RootId → List ObjectId} (hs : s.Sound (.of held))
    (hregistered : (Ground.of held s).Registered) {given : ObjectId → Prop}
    (hgiven : ∀ id, s.memory.Reaches given id → s.memory.Owns id) {id : ObjectId}
    (hid : s.Spans held given id) : s.memory.Owns id := by
  have hcarries : (Ground.of held s).Carries s := ⟨hs.wellFormed, rfl, rfl, rfl, rfl⟩
  have hsplit : s.Reaches (Ground.of held s) id ∨ s.memory.Reaches given id := by
    induction hid with
    | start hid =>
      rcases hid with hid | hid | hid
      · exact Or.inl (.start (Or.inl hid))
      · exact Or.inl (.start (Or.inr hid))
      · exact Or.inr (.start hid)
    | reference _ hmem ih =>
      rcases ih with hid | hid
      · exact Or.inl (hid.reference hmem)
      · exact Or.inr (hid.reference hmem)
  have hreach : s.memory.Reachable (s.machine.holdings (.of held)) =
      s.Reaches (Ground.of held s) := hcarries.reachable hregistered
  rcases hsplit with hid | hid
  · exact hs.owns id (hreach ▸ hid)
  · exact hgiven id hid

/-- A sound execution is isomorphic to itself with reclaimed contents overwritten. -/
theorem Execution.Sound.isomorphic {held : RootId → List ObjectId} (hs : s.Sound (.of held))
    (hregistered : (Ground.of held s).Registered) {given : ObjectId → Prop}
    (hgiven : ∀ id, s.memory.Reaches given id → s.memory.Owns id)
    (remains : ObjectId → Payload) :
    Isomorphic (fun i j => i = j ∧ s.Spans held given i) held held s
      { s with memory := s.memory.overwrite remains } := by
  have howns : ∀ id, s.Spans held given id → s.memory.Owns id :=
    fun id hid => hs.owns_of_spans hregistered hgiven hid
  constructor
  case wellFormed_left => exact hs.wellFormed
  case wellFormed_right => exact hs.wellFormed.overwrite remains
  case registered_left => exact fun _ => hregistered
  case registered_right => exact fun _ => hregistered
  case memory =>
    refine ⟨Pairing.oneToOne_self _, fun {i j} hij => ?_⟩
    obtain ⟨rfl, hi⟩ := hij
    rw [Memory.payload?_overwrite _ _ (howns i hi)]
    exact Memory.payload?_like_self fun x hx => ⟨rfl, hi.reference hx⟩
  case machine => exact Machine.like_self fun i hi => ⟨rfl, .start (Or.inl hi)⟩
  case owns =>
    rintro i j ⟨rfl, hi⟩
    exact ⟨howns i hi, Memory.owns_overwrite remains (howns i hi)⟩
  case outside_left => exact fun i hi => ⟨i, hi, rfl, .start (Or.inr (Or.inl hi))⟩
  case outside_right => exact fun j hj => ⟨j, hj, rfl, .start (Or.inr (Or.inl hj))⟩
  case input => rfl
  case out => rfl
  case err => rfl
  case limit => rfl

end

end StackVm
